import Mathlib
import ThreatModel.Proofs.Run.Interleaving

set_option autoImplicit false

namespace ThreatModel

open Result

namespace System

variable {S : System} {D : Declarations} {config : RunConfig} {s s₀ : State} {step : Step}
  {node : Node} {name x : String} {place : Nat} {fault : Fault} {history : List Step}

/-- The step matched a pattern whose normal form has lost a variable that the pattern introduces. -/
def Drops (S : System) (step : Step) (p : Term) (x : String) : Prop :=
  ∃ node key binds pattern, S.StandsAt step.before step.owner step.place node ∧
    (node.action = .consume key p binds ∨ node.action = .read key p binds) ∧
    x ∈ binds ∧ x ∈ p.vars ∧
    S.instantiate (step.before.env step.owner) p binds = .ok pattern ∧ x ∉ pattern.vars

def Forgotten (S : System) (history : List Step) (owner x : String) : Prop :=
  ∃ step ∈ history, step.owner = owner ∧ ∃ p, S.Drops step p x

theorem Forgotten.mono {history' : List Step} (lost : S.Forgotten history name x)
    (longer : history ⊆ history') : S.Forgotten history' name x := by
  obtain ⟨step, member, owner, drops⟩ := lost
  exact ⟨step, longer member, owner, drops⟩

namespace Compiled

theorem not_constructor_of_drops (compiled : S.Compiled D) (sound : step.before.Sound S) {p : Term}
    (drops : S.Drops step p x) : ¬ S.theory.Constructor p := by
  obtain ⟨node, key, binds, pattern, -, -, bound, occurs, made, absent⟩ := drops
  intro built
  rw [compiled.instantiate_constructor sound built] at made
  obtain rfl := Except.ok.inj made
  -- What the pattern introduces is not replaced, and nothing is rewritten away.
  refine absent ((Term.mem_vars_subst ?_).mpr ⟨occurs, ?_⟩)
  · intro y u known
    rw [Table.find?_filter] at known
    split at known
    next => exact (sound.values step.owner y u known).ground
    next => simp at known
  · simp [Table.find?_filter, bound]

theorem defined_after (compiled : S.Compiled D) (sound : step.before.Sound S)
    (takes : S.Takes config step node)
    (known : x ∈ (step.before.env step.owner).keys ∨ x ∈ node.action.defines) :
    x ∈ (step.after.env step.owner).keys ∨ ∃ p, S.Drops step p x := by
  rw [(State.moved_of_perform takes.performs).env]
  obtain ⟨-, inst, got, here⟩ := takes.stands
  obtain ⟨first, next, -, made⟩ := compiled.each inst (mem_of_get got).1
  obtain ⟨A, graph, -⟩ := made.assigned
  have introduced := (graph.action step.place node here).introduced
  -- A pattern that has the variable when it is matched gives it a value.
  have matched {key : String} {p pattern fact : Term} {binds : List String} {held : Store}
      {options : List Store.Candidate} {found : Subst}
      (action : node.action = .consume key p binds ∨ node.action = .read key p binds)
      (stored : step.before.stores.find? key = some held)
      (instantiated : S.instantiate (step.before.env step.owner) p binds = .ok pattern)
      (matching : held.candidatesOf S.theory pattern = .ok options)
      (member : (fact, found) ∈ options) :
      x ∈ ((step.before.env step.owner).merge found).keys ∨ ∃ p, S.Drops step p x := by
    rw [Table.mem_keys_merge]
    rcases known with old | new
    · exact .inl (.inl old)
    · have bound : x ∈ binds := by
        rcases action with action | action <;>
          simpa [action, Action.defines, Action.introduces] using new
      have occurs : x ∈ p.vars := by
        rcases action with action | action <;>
          simpa [action, Action.terms, Action.introduces] using introduced x
            (by simpa [action, Action.introduces] using bound)
      obtain ⟨-, -, covers, -⟩ := Store.candidate_sound (Theory.normal_of_normalize instantiated)
        (sound.facts key held stored).2 matching member
      by_cases kept : x ∈ pattern.vars
      · obtain ⟨u, found⟩ := covers x kept
        exact .inl (.inr (State.mem_keys_of_find? found))
      · exact .inr ⟨p, node, key, binds, pattern, takes.stands, action, bound, occurs, instantiated,
          kept⟩
  have offers := takes.offers
  generalize step.move = m at offers
  cases offers with
  | draw action | assign action =>
    simp only [Move.bound, Table.mem_keys_insert]
    rcases known with old | new
    · exact .inl (.inr old)
    · exact .inl (.inl (by simpa [action, Action.defines] using new))
  | consume action stored instantiated matching member =>
    exact matched (.inl action) stored instantiated matching member
  | read action stored instantiated matching member =>
    exact matched (.inr action) stored instantiated matching member
  | finish action | stop action | arm action | alternative action | insert action | remove action
  | emit action =>
    exact .inl (known.resolve_right (by simp [action, Action.defines, Action.introduces]))
  | pass action =>
    refine .inl (known.resolve_right ?_)
    rcases action with action | ⟨cs, excluded, action⟩ | action | ⟨tag, action⟩ | action <;>
      simp [action, Action.defines, Action.introduces]

end Compiled

theorem mem_keys_drawGlobals {globals : List GlobalFresh} {shared : Subst} {drawn : Tally}
    (known : (∃ g ∈ globals, g.var = x) ∨ x ∈ shared.keys) :
    x ∈ (State.drawGlobals globals shared drawn).1.keys := by
  induction globals generalizing shared drawn with
  | nil => simpa [State.drawGlobals] using known
  | cons g rest ih =>
    apply ih
    rw [Table.mem_keys_insert]
    rcases known with ⟨g', member, rfl⟩ | old
    · rcases List.mem_cons.mp member with rfl | later
      · exact .inr (.inl rfl)
      · exact .inl ⟨g', later, rfl⟩
    · exact .inr (.inr old)

namespace Compiled

theorem run_assigned (compiled : S.Compiled D) {inst : ProcessInstance} {first next : Nat}
    {A : DefiniteAssignment} (got : S.get name = .ok inst) (graph : inst.graph.Sound D first next A)
    (opened : A.before 0 ⊆ D.shared) (run : S.Run config S.start history s)
    (placed : s.pcs.find? name = some (some place)) (known : x ∈ A.before place) :
    x ∈ (s.env name).keys ∨ S.Forgotten history name x := by
  induction run generalizing place with
  | start =>
    obtain ⟨other, -, -, rfl⟩ : ∃ a ∈ S.instances, a.name = name ∧ 0 = place := by
      simpa using Table.find?_ofList placed
    obtain ⟨member, rfl⟩ := mem_of_get got
    -- The first node knows the fresh constants only, and they were drawn.
    rw [start, env_opening _ member, compiled.globals]
    exact .inl (mem_keys_drawGlobals (.inl (D.exists_global (opened known))))
  | @step history step node run takes ih =>
    have sound := compiled.run_sound compiled.start_sound run
    have longer : history ⊆ history ++ [step] := List.subset_append_left _ _
    by_cases same : step.owner = name
    · subst same
      obtain ⟨here, inst', got', found⟩ := takes.stands
      obtain rfl : inst = inst' := Except.ok.inj (got.symm.trans got')
      have edge := (graph.edge step.place node found place (takes.successor placed)).2 known
      have before : x ∈ (step.before.env step.owner).keys ∨ x ∈ node.action.defines ∨
          S.Forgotten history step.owner x := by
        rcases graph.defined step.place node found x edge with old | new
        · rcases ih here old with held | lost
          · exact .inl held
          · exact .inr (.inr lost)
        · exact .inr (.inl new)
      rcases before with held | new | lost
      · exact (compiled.defined_after sound takes (.inl held)).imp_right fun drops =>
          ⟨step, by simp, rfl, drops⟩
      · exact (compiled.defined_after sound takes (.inr new)).imp_right fun drops =>
          ⟨step, by simp, rfl, drops⟩
      · exact .inr (lost.mono longer)
    · -- Another instance moved, so this one stands where it stood.
      obtain ⟨stays, env⟩ := (State.moved_of_perform takes.performs).frame same
      rw [env]
      exact (ih (stays ▸ placed) known).imp_right fun lost => lost.mono longer

end Compiled

def Unresolved (s : State) (name : String) (known : Set String) (fault : Fault) : Prop :=
  ∃ t : Term, fault = .unresolved t (t.subst (s.env name)) ∧ (t.subst (s.env name)).vars ≠ [] ∧
    ∀ x ∈ t.vars, x ∈ known

theorem evaluate_eq_error {t : Term} {known : Set String} (inside : ∀ x ∈ t.vars, x ∈ known)
    (failed : S.evaluate (s.env name) t = .error fault) :
    fault.Diverges ∨ Unresolved s name known fault := by
  simp only [evaluate] at failed
  split at failed
  next =>
    obtain ⟨d, diverged, rfl⟩ := lift_eq_error_iff.mp failed
    exact .inl (Fault.diverges_of_normalize diverged)
  next open_ =>
    obtain rfl := throw_eq_error_iff.mp failed
    exact .inr ⟨t, rfl, fun ground => open_ (Term.isGround_iff.mpr ground), inside⟩

theorem conditionHolds_eq_error {c : Condition} {known : Set String}
    (inside : ∀ t ∈ c.terms, ∀ x ∈ t.vars, x ∈ known)
    (failed : S.conditionHolds (s.env name) c = .error fault) :
    fault.Diverges ∨ Unresolved s name known fault := by
  simp only [conditionHolds, bind_eq_error_iff, pure_ne_error, and_false, exists_false, or_false,
    lift_eq_error_iff] at failed
  rcases failed with left | ⟨_, -, right | ⟨_, -, d, compared, rfl⟩⟩
  · exact evaluate_eq_error (inside _ (by simp [Condition.terms])) left
  · exact evaluate_eq_error (inside _ (by simp [Condition.terms])) right
  · simp only [Theory.equal, bind_eq_error_iff, pure_ne_error, and_false, exists_false,
      or_false] at compared
    rcases compared with diverged | ⟨_, -, diverged⟩
    · exact .inl (Fault.diverges_of_normalize diverged)
    · exact .inl (Fault.diverges_of_normalize diverged)

theorem guardHolds_eq_error {action : Action} {known : Set String}
    (inside : ∀ x, action.Uses x → x ∈ known)
    (failed : S.guardHolds (s.env name) action = .error fault) :
    fault.Diverges ∨ Unresolved s name known fault := by
  cases action with
  | guard conditions excluded =>
    have each (c : Condition) (member : c ∈ conditions ++ excluded.flatten)
        (wrong : S.conditionHolds (s.env name) c = .error fault) :
        fault.Diverges ∨ Unresolved s name known fault :=
      conditionHolds_eq_error (fun t held x occurs =>
        inside x ⟨⟨t, List.mem_flatMap.mpr ⟨c, member, held⟩, occurs⟩, by simp [Action.introduces]⟩)
        wrong
    simp only [guardHolds, bind_eq_error_iff] at failed
    rcases failed with own | ⟨passed, -, failed⟩
    · obtain ⟨c, member, wrong⟩ := allM_eq_error own
      exact each c (List.mem_append_left _ member) wrong
    · cases passed with
      | false => simp at failed
      | true =>
        simp only [if_true, bind_eq_error_iff, pure_ne_error, and_false, exists_false,
          or_false] at failed
        obtain ⟨group, among, others⟩ := anyM_eq_error failed
        obtain ⟨c, member, wrong⟩ := allM_eq_error others
        exact each c (List.mem_append_right _ (List.mem_flatten.mpr ⟨group, among, member⟩)) wrong
  | _ => simp [guardHolds] at failed

namespace Compiled

theorem movesAt_eq_error (compiled : S.Compiled D) (sound : s.Sound S) {inst : ProcessInstance}
    {first next : Nat} {A : DefiniteAssignment} (got : S.get name = .ok inst)
    (graph : inst.graph.Sound D first next A) (stands : S.StandsAt s name place node)
    (failed : S.movesAt s name node = .error fault) :
    fault.Diverges ∨ Unresolved s name (A.before place) fault := by
  obtain ⟨inst', got', found, -, nameless, touches⟩ := compiled.node_sound stands
  obtain rfl : inst = inst' := Except.ok.inj (got.symm.trans got')
  have uses := (graph.action place node found).uses
  have stored (key : String) (touched : node.action.store? = some key) :
      ∃ held, s.store key = .ok held := by
    obtain ⟨held, here⟩ :=
      Table.exists_find?_iff.mpr ((sound.stores key).mpr (touches key touched))
    exact ⟨held, State.store_eq_ok_iff.mpr here⟩
  have matches_ {key : String} {p pattern : Term} {binds : List String} {held : Store}
      {d : Diagnostic} (here : s.store key = .ok held)
      (made : S.instantiate (s.env name) p binds = .ok pattern) :
      held.candidatesOf S.theory pattern ≠ .error d := by
    obtain ⟨options, done⟩ := Store.exists_candidatesOf (Theory.normal_of_normalize made)
      (sound.facts key held (State.store_eq_ok_iff.mp here)).2
    simp [done]
  cases action : node.action with
  | choice =>
    have drawn : S.graph name = .ok inst.graph := graph_eq_ok_iff.mpr ⟨inst, got, rfl⟩
    simp only [movesAt, action, drawn, ok_bind, bind_eq_error_iff] at failed
    rcases failed with wrong | ⟨arms, -, wrong⟩
    · obtain ⟨i, arm, wrong⟩ := filterM_eq_error wrong
      obtain ⟨inside, fewer⟩ := graph.edge place node found i arm
      obtain ⟨guard, there⟩ := Graph.exists_node? inside
      rw [nodeAt_eq_ok_iff.mpr there, ok_bind] at wrong
      refine guardHolds_eq_error (fun x used => ?_) wrong
      -- A choice defines nothing, so its guards know no more than it does.
      have after := fewer ((graph.action i guard there).uses x used)
      exact (graph.defined place node found x after).resolve_right
        (by simp [action, Action.defines, Action.introduces])
    · cases arms <;> simp at wrong
  | assign y t | insert key t | emit t index =>
    simp only [movesAt, action, bind_eq_error_iff, pure_ne_error, and_false, exists_false,
      or_false] at failed
    refine evaluate_eq_error (fun x occurs => uses x ?_) failed
    simpa [Action.Uses, action, Action.terms, Action.introduces] using occurs
  | remove key t =>
    simp only [movesAt, action, bind_eq_error_iff, lift_eq_error_iff] at failed
    rcases failed with wrong | ⟨fact, value, missing | ⟨held, here, wrong | ⟨holds, -, wrong⟩⟩⟩
    · refine evaluate_eq_error (fun x occurs => uses x ?_) wrong
      simpa [Action.Uses, action, Action.terms, Action.introduces] using occurs
    · obtain ⟨held, here⟩ := stored key (by simp [action, Action.store?])
      simp [here] at missing
    · obtain ⟨d, wrong, -⟩ := wrong
      have normal :=
        compiled.value_of_evaluate sound (nameless t (by simp [action, Action.terms])) value
      simp [Store.holds_of_normal normal.normal] at wrong
    · cases holds <;> simp at wrong
  | consume key p binds | read key p binds =>
    -- Reading looks for a fact as consuming does, and leaves it there.
    simp only [movesAt, action, bind_eq_error_iff, lift_eq_error_iff, lift_eq_ok_iff, Store.read,
      pure_ne_error, and_false, exists_false, or_false] at failed
    rcases failed with missing | ⟨held, here, ⟨d, wrong, rfl⟩ | ⟨pattern, made, d, wrong, rfl⟩⟩
    · obtain ⟨held, here⟩ := stored key (by simp [action, Action.store?])
      simp [here] at missing
    · exact .inl (Fault.diverges_of_normalize wrong)
    · exact absurd wrong (matches_ here made)
  | finish | callSite f | fresh y id | start | guard cs excluded | loopHead | alternative tag
  | join => simp [movesAt, action] at failed

theorem step_eq_error (compiled : S.Compiled D) (sound : s.Sound S) (active : name ∈ s.active)
    (failed : S.step config s name = .error fault) :
    ∃ place node, S.StandsAt s name place node ∧ S.movesAt s name node = .error fault := by
  obtain ⟨place, node, stands⟩ := exists_stands sound active
  cases offered : S.movesAt s name node with
  | error fault' =>
    obtain rfl : fault' = fault := by
      simpa [step, current_eq_ok_iff.mpr ⟨place, stands⟩, offered, bind_eq_error_iff] using failed
    exact ⟨place, node, stands, offered⟩
  | ok moves =>
    obtain ⟨out, stepped, -⟩ := compiled.exists_stepped sound stands offered
    rw [stepped] at failed
    exact absurd failed (by simp)

end Compiled

theorem stepAll_eq_error {names : List String} (failed : S.stepAll config s names = .error fault) :
    ∃ name ∈ names, S.step config s name = .error fault := by
  induction names with
  | nil => simp [stepAll] at failed
  | cons first rest ih =>
    simp only [stepAll, bind_eq_error_iff, pure_ne_error, and_false, exists_false,
      or_false] at failed
    rcases failed with here | ⟨_, -, later⟩
    · exact ⟨first, by simp, here⟩
    · obtain ⟨name, member, wrong⟩ := ih later
      exact ⟨name, by simp [member], wrong⟩

theorem successors_eq_error (sound : s.Sound S) (failed : S.successors config s = .error fault) :
    ∃ name ∈ s.active, S.step config s name = .error fault := by
  obtain ⟨found, silent⟩ := Compiled.firstSilent?_ok sound fun name member => member
  simp only [successors, silent, ok_bind] at failed
  cases found with
  | some name => exact ⟨name, (mem_of_firstSilent? silent).1, failed⟩
  | none => exact stepAll_eq_error failed

/-- The states to explore next are there, unless rewriting diverges or an instance needs a value for
variables that patterns of its own lost. Patterns without rewritable symbols lose none. -/
theorem successors_ok_unless_lost {compiler : CompilerConfig} {M : Model}
    (done : compile compiler M = .ok S) (initial : State.initial S = .ok s₀)
    (run : S.Run config s₀ history s) :
    (∃ out, S.successors config s = .ok out) ∨
    (∃ fault, S.successors config s = .error fault ∧ fault.Diverges) ∨
    ∃ owner ∈ s.active, ∃ t,
      S.successors config s = .error (.unresolved t (t.subst (s.env owner))) ∧
      (t.subst (s.env owner)).vars ≠ [] ∧
      ∀ x ∈ (t.subst (s.env owner)).vars, ∃ step ∈ history, step.owner = owner ∧
        ∃ p, S.Drops step p x ∧ ¬ S.theory.Constructor p := by
  obtain ⟨D, compiled⟩ := compiled_of_compile done
  obtain rfl : S.start = s₀ := Except.ok.inj (compiled.initial_eq.symm.trans initial)
  have sound := compiled.run_sound compiled.start_sound run
  cases result : S.successors config s with
  | ok out => exact .inl ⟨out, rfl⟩
  | error fault =>
      obtain ⟨owner, active, wrong⟩ := successors_eq_error sound result
      obtain ⟨place, node, stands, wrong⟩ := compiled.step_eq_error sound active wrong
      have placed := stands.1
      obtain ⟨inst, got, -⟩ := stands.2
      obtain ⟨first, next, -, made⟩ := compiled.each inst (Compiled.mem_of_get got).1
      obtain ⟨A, graph, opened⟩ := made.assigned
      rcases compiled.movesAt_eq_error sound got graph stands wrong with
        diverges | ⟨t, rfl, open_, known⟩
      · exact .inr (.inl ⟨fault, rfl, diverges⟩)
      · refine .inr (.inr ⟨owner, active, t, rfl, open_, fun x occurs => ?_⟩)
        obtain ⟨inside, unbound⟩ :=
          (Term.mem_vars_subst fun y u found => (sound.values owner y u found).ground).mp occurs
        have lost := (compiled.run_assigned got graph opened run placed (known x inside)).resolve_left
          (Table.find?_eq_none_iff.mp unbound)
        obtain ⟨step, member, owned, p, drops⟩ := lost
        obtain ⟨earlier, -, run', -⟩ := run.exists_of_mem member
        exact ⟨step, member, owned, p, drops,
          compiled.not_constructor_of_drops (compiled.run_sound compiled.start_sound run') drops⟩

end System

def Model.forgetful : Model where
  types := [{ name := "host_t", kind := .process }, { name := "net_t", kind := .channel }]
  grants := [{ subject := "host_t", object := some "net_t", operations := ["send", "consume"] }]
  channels := [{ name := "net", type := "net_t" }]
  processes :=
    [{ name := "P", type := "host_t", params := [{ name := "c", type := "net_t" }]
       main := .seq [.call "send" [.ident "c" none, .str "m"] none,
         .store .consume "c"
           (.apply "fst" [.tuple [.ident "x" none, .ident "y" none]] none) none,
         .branch [.guarded [{ left := .ident "y" none, right := .ident "y" none, negated := false }]
           (.emit { tag := "Done", args := [.ident "x" none] })]] }]
  system := some
    { instances := [{ template := "P", args := ["net"], name := some "p" }]
      lemmas := [{ name := "r", kind := .reachable,
                   events := [{ tag := "Done", args := [.ident "z" none] }] }] }

namespace System

theorem successors_forgetful_lost : ∃ S s₀ history s,
    compile {} Model.forgetful = .ok S ∧ State.initial S = .ok s₀ ∧ S.Run {} s₀ history s ∧
      S.successors {} s = .error (.unresolved (.var "y.0") (.var "y.0")) ∧
      ∃ step ∈ history, ∃ p, S.Drops step p "y.0" ∧ ¬ S.theory.Constructor p := by
  have ran : (do
      let S ← compile {} Model.forgetful
      let s₀ ← State.initial S
      let steps ← S.replay {} s₀ [("p", 0), ("p", 0), ("p", 0), ("p", 0)]
      return decide (S.successors {} (steps.foldl (fun _ step => step.after) s₀) =
        .error (.unresolved (.var "y.0") (.var "y.0"))) : Result Bool) = .ok true := by
    decide +kernel
  simp only [bind_eq_ok_iff, pure_eq_ok_iff, lift_eq_ok_iff, decide_eq_true_iff] at ran
  obtain ⟨S, done, s₀, initial, steps, replayed, failed⟩ := ran
  have run := run_of_replay (Run.start : S.Run {} s₀ [] s₀) replayed
  rw [List.nil_append] at run
  refine ⟨S, s₀, steps, _, done, initial, run, failed, ?_⟩
  rcases successors_ok_unless_lost done initial run with
    ⟨out, passed⟩ | ⟨fault, same, _, _, _, rfl, _⟩ | ⟨owner, -, t, same, -, lost⟩
  · simp [failed] at passed
  · simp [failed] at same
  · obtain ⟨-, value⟩ := Fault.unresolved.inj (Except.error.inj (failed.symm.trans same))
    obtain ⟨step, member, -, p, dropped⟩ := lost "y.0" (by simp [← value])
    exact ⟨step, member, p, dropped⟩

end System

end ThreatModel
