import Mathlib
import ThreatModel.Proofs.Run.Causality

set_option autoImplicit false

namespace ThreatModel

open Result

def StoreSite.removalReport (site : StoreSite) : Diagnostic :=
  { cause := .removalNeverSucceeds site.term site.store
    declaration := some site.owner
    position := some s!"{site.owner}/node {site.node}" }

namespace Registry

variable {T : Theory} {R : Registry} {inserts removals : List StoreSite} {removal site : StoreSite}
  {flaws : List Diagnostic} {verdict : Bool}

theorem canSucceed_of_site (done : R.canSucceed T inserts removal = .ok verdict)
    (sound : T.WellFormed) (target : T.Constructor removal.term) (term : T.Constructor site.term)
    (member : site ∈ inserts) (same : site.store = removal.store) {g h : String → Term}
    (meets : removal.term.under g = site.term.under h) : verdict = true := by
  simp only [canSucceed, sound.normalize_constructor target, ok_bind, bind_eq_ok_iff,
    pure_eq_ok_iff] at done
  obtain ⟨inserted, all, rfl⟩ := done
  have among : site ∈ inserts.filter (·.store == removal.store) := by simp [member, same]
  obtain ⟨renamed, inside, made⟩ := exists_of_mapM_eq_ok all among
  obtain rfl : site.term.rename "i$" = renamed := by
    simpa [sound.normalize_constructor term] using made
  have apart (x y : String) : "r$" ++ x ≠ "i$" ++ y := by
    intro equal
    simpa using congrArg String.toList equal
  exact List.any_eq_true.mpr
    ⟨_, List.mem_append_left _ inside, Term.unifiable_rename apart meets⟩

theorem canSucceed_of_initial (done : R.canSucceed T inserts removal = .ok verdict)
    (sound : T.WellFormed) (target : T.Constructor removal.term) {decl : StoreDecl} {fact : Term}
    (declared : R.stores.find? removal.store = some decl) (member : fact ∈ decl.initial)
    (ground : fact.vars = []) {g : String → Term} (meets : removal.term.under g = fact) :
    verdict = true := by
  simp only [canSucceed, sound.normalize_constructor target, ok_bind, bind_eq_ok_iff,
    pure_eq_ok_iff] at done
  obtain ⟨inserted, -, rfl⟩ := done
  exact List.any_eq_true.mpr ⟨fact, List.mem_append_right _ (by simpa [declared] using member),
    Term.unifiable_rename_ground "r$" ground meets⟩

theorem canSucceed_of_reported (done : R.checkRemovals T inserts removals = .ok flaws)
    (reported : removal.removalReport ∈ flaws) :
    R.canSucceed T inserts removal = .ok false := by
  simp only [checkRemovals, bind_eq_ok_iff, pure_eq_ok_iff] at done
  obtain ⟨hopeless, kept, rfl⟩ := done
  obtain ⟨other, member, same⟩ := List.mem_map.mp reported
  obtain ⟨-, judged⟩ := (mem_filterM_iff kept other).mp member
  simp only [StoreSite.removalReport, Diagnostic.mk.injEq, Cause.removalNeverSucceeds.injEq]
    at same
  obtain ⟨⟨term, store⟩, -⟩ := same
  have hopeless : R.canSucceed T inserts other = .ok false := by
    simpa only [bind_eq_ok_iff, pure_eq_ok_iff, Bool.not_eq_true', exists_eq_right] using judged
  rw [← hopeless]
  simp only [canSucceed, term, store]

end Registry

namespace System

variable {S : System} {D : Declarations} {config : RunConfig} {s₀ : State} {step : Step}
  {node : Node} {key : String} {fact : Term} {history : List Step}

theorem Compiled.removed_eq (compiled : S.Compiled D) (sound : step.before.Sound S)
    (takes : S.Takes config step node) {t : Term} (action : node.action = .remove key t) :
    ∃ fact, step.move = .remove key fact ∧ Store.Held step.before.stores key fact ∧
      fact.vars = [] ∧ (S.theory.Constructor t → ∃ g, t.under g = fact) := by
  have offers := takes.offers
  generalize moves : step.move = m at offers
  cases offers with
  | @remove store u fact held action' value here =>
    obtain ⟨rfl, rfl⟩ : key = store ∧ t = u := by simpa [action] using action'
    obtain ⟨-, there⟩ := compiled.store_step sound takes here
    have inside : fact ∈ held.facts := there fact (.inl (by simp [moves, Move.removes]))
    exact ⟨fact, rfl, ⟨held, here, inside⟩, ((sound.facts key held here).2 fact inside).ground,
      fun built => ⟨_, compiled.evaluate_constructor sound built value⟩⟩
  | _ => simp_all

/-- A removal that is reported as hopeless is carried out only where rewriting after substitution
makes the difference: its own term has a symbol with an equation, or the fact is not there from
the start and every insertion of it was of a term with such a symbol. -/
theorem reported_removal_rewrites {compiler : CompilerConfig} {M : Model}
    {flaws : List Diagnostic} {t : Term} (done : compile compiler M = .ok S)
    (checked : Registry.checkRemovals S.theory { stores := S.stores }
      (S.instances.flatMap ProcessInstance.inserts)
      (S.instances.flatMap ProcessInstance.removals) = .ok flaws)
    (initial : State.initial S = .ok s₀) (run : S.Run config s₀ history step.before)
    (takes : S.Takes config step node) (action : node.action = .remove key t)
    (reported : (StoreSite.mk step.owner step.place key t).removalReport ∈ flaws) :
    ∃ fact, step.move = .remove key fact ∧
      (¬ S.theory.Constructor t ∨
        (¬ S.StartsWith key fact ∧ ∃ earlier ∈ history, earlier.move = .insert key fact) ∧
        ∀ earlier ∈ history, earlier.move = .insert key fact →
          ∃ node' t', S.Takes config earlier node' ∧ node'.action = .insert key t' ∧
            ¬ S.theory.Constructor t') := by
  obtain ⟨D, compiled⟩ := compiled_of_compile done
  obtain rfl : S.start = s₀ := Except.ok.inj (compiled.initial_eq.symm.trans initial)
  obtain ⟨fact, removes, held, ground, value⟩ :=
    compiled.removed_eq (compiled.run_sound compiled.start_sound run) takes action
  refine ⟨fact, removes, or_iff_not_imp_left.mpr fun rewrites => ?_⟩
  have built := not_not.mp rewrites
  obtain ⟨g, meets⟩ := value built
  have hopeless := Registry.canSucceed_of_reported checked reported
  -- Were the fact there from the start, the check would have met it.
  have notThere : ¬ S.StartsWith key fact := by
    rintro ⟨decl, declared, inside⟩
    exact absurd (Registry.canSucceed_of_initial hopeless compiled.wellFormed built declared inside
      ground meets) (by simp)
  refine ⟨⟨notThere, (compiled.exists_origin run held).resolve_left notThere⟩, ?_⟩
  intro earlier member inserts
  obtain ⟨before, node', run', takes'⟩ := run.exists_of_mem member
  obtain ⟨t', action', value'⟩ :=
    compiled.inserted_eq (compiled.run_sound compiled.start_sound run') takes' inserts
  refine ⟨node', t', takes', action', fun built' => ?_⟩
  obtain ⟨h, same⟩ := value' built'
  exact absurd (Registry.canSucceed_of_site hopeless compiled.wellFormed built built'
    (mem_inserts takes'.stands action') rfl (meets.trans same.symm)) (by simp)

end System

def Model.projecting : Model where
  types := [{ name := "host_t", kind := .process }, { name := "net_t", kind := .channel }]
  grants := [{ subject := "host_t", object := some "net_t", operations := ["insert", "remove"] }]
  channels := [{ name := "net", type := "net_t" }]
  processes :=
    [{ name := "P", type := "host_t", params := [{ name := "c", type := "net_t" }]
       main := .seq [.bind "x" (.tuple [.str "m", .str "k"]),
         .store .insert "c" (.str "m") none,
         .store .remove "c" (.apply "fst" [.ident "x" none] none) none,
         .emit { tag := "Done", args := [] }] }]
  system := some
    { instances := [{ template := "P", args := ["net"], name := some "p" }]
      lemmas := [{ name := "r", kind := .reachable, events := [{ tag := "Done", args := [] }] }] }

namespace System

theorem projecting_removal_rewrites : ∃ S s₀ history step node flaws,
    compile { checkFactPresence := false } Model.projecting = .ok S ∧
      Registry.checkRemovals S.theory { stores := S.stores }
        (S.instances.flatMap ProcessInstance.inserts)
        (S.instances.flatMap ProcessInstance.removals) = .ok flaws ∧
      State.initial S = .ok s₀ ∧ S.Run {} s₀ history step.before ∧ S.Takes {} step node ∧
      node.action = .remove "net" (.app "fst" [.var "x.0"]) ∧
      (StoreSite.mk step.owner step.place "net" (.app "fst" [.var "x.0"])).removalReport ∈ flaws ∧
      step.move = .remove "net" (.lit "m") ∧
      ¬ S.theory.Constructor (.app "fst" [.var "x.0"]) := by
  let removal : StoreSite := ⟨"p", 3, "net", .app "fst" [.var "x.0"]⟩
  let insertion : StoreSite := ⟨"p", 2, "net", .lit "m"⟩
  have ran : (do
      let S ← compile { checkFactPresence := false } Model.projecting
      let inserts := S.instances.flatMap ProcessInstance.inserts
      let removals := S.instances.flatMap ProcessInstance.removals
      let flaws ← Registry.checkRemovals S.theory { stores := S.stores } inserts removals
      let s₀ ← State.initial S
      let steps ← S.replay {} s₀ [("p", 0), ("p", 0), ("p", 0), ("p", 0)]
      return (inserts, removals, flaws, steps.map (·.move)) :
        Result (List StoreSite × List StoreSite × List Diagnostic × List Move)) =
      .ok ([insertion], [removal], [removal.removalReport],
        [.pass, .assign "x.0" (.app "pair" [.lit "m", .lit "k"]), .insert "net" (.lit "m")] ++
          [.remove "net" (.lit "m")]) := by
    decide +kernel
  simp only [bind_eq_ok_iff, pure_eq_ok_iff, lift_eq_ok_iff, Prod.mk.injEq] at ran
  obtain ⟨S, done, flaws, checked, s₀, initial, steps, replayed, inserted, removed, rfl, moved⟩ :=
    ran
  obtain ⟨history, step, node, run, takes, -, removes⟩ := exists_takes_of_replay replayed moved
  have offers := takes.offers
  rw [removes] at offers
  cases offers with
  | @remove _ t _ _ action =>
      -- The system has one removal and one insertion, so the step is at the former.
      have only := mem_removals takes.stands action
      rw [removed, List.mem_singleton] at only
      obtain ⟨-, -, -, rfl⟩ := StoreSite.mk.inj only
      have reported :
          (StoreSite.mk step.owner step.place "net" (.app "fst" [.var "x.0"])).removalReport ∈
            [removal.removalReport] := by
        rw [only]
        exact List.mem_singleton_self _
      refine ⟨S, s₀, history, step, node, _, done, checked, initial, run, takes, action, reported,
        removes, ?_⟩
      obtain ⟨fact, -, rewrites | ⟨⟨-, first, member, inserts⟩, all⟩⟩ :=
        reported_removal_rewrites done checked initial run takes action reported
      · exact rewrites
      · obtain ⟨node', t', takes', action', rewrites⟩ := all first member inserts
        have only' := mem_inserts takes'.stands action'
        rw [inserted, List.mem_singleton] at only'
        obtain ⟨-, -, -, rfl⟩ := StoreSite.mk.inj only'
        exact absurd (by simp [Theory.Constructor, Term.subterms]) rewrites

end System

end ThreatModel
