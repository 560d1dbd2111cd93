import Mathlib
import ThreatModel.Proofs.Term.Unification
import ThreatModel.Proofs.Run.Conservation

set_option autoImplicit false

namespace ThreatModel

open Result

namespace System

variable {S : System} {D : Declarations} {config : RunConfig} {s s₀ : State} {step earlier : Step}
  {node : Node} {key name : String} {fact : Term} {history : List Step} {place : Nat}

def StartsWith (S : System) (key : String) (fact : Term) : Prop :=
  ∃ decl, S.stores.find? key = some decl ∧ fact ∈ decl.initial

inductive Selects (S : System) (step : Step) (node : Node) (key : String) (fact : Term) : Prop
  | consume {p : Term} {binds : List String} {found : Subst}
      (action : node.action = .consume key p binds) (move : step.move = .consume key fact found)
  | read {p pattern : Term} {binds : List String} {held : Store} {options : List Store.Candidate}
      {found : Subst} (action : node.action = .read key p binds)
      (here : step.before.stores.find? key = some held)
      (made : S.instantiate (step.before.env step.owner) p binds = .ok pattern)
      (matching : held.candidatesOf S.theory pattern = .ok options)
      (member : (fact, found) ∈ options) (move : step.move = .read key found)

theorem Takes.selects {found : Subst} (takes : S.Takes config step node)
    (move : step.move = .consume key fact found) : S.Selects step node key fact := by
  have offers := takes.offers
  rw [move] at offers
  cases offers with
  | consume action => exact .consume action move

theorem Selects.exists_match (takes : S.Takes config step node)
    (selects : S.Selects step node key fact) :
    ∃ p binds pattern held options found,
      (node.action = .consume key p binds ∨ node.action = .read key p binds) ∧
      step.before.stores.find? key = some held ∧
      S.instantiate (step.before.env step.owner) p binds = .ok pattern ∧
      held.candidatesOf S.theory pattern = .ok options ∧ (fact, found) ∈ options := by
  cases selects with
  | @consume p binds found action move =>
    have offers := takes.offers
    rw [move] at offers
    cases offers with
    | consume action here made matching member =>
      exact ⟨_, _, _, _, _, _, .inl action, here, made, matching, member⟩
  | read action here made matching member =>
    exact ⟨_, _, _, _, _, _, .inr action, here, made, matching, member⟩

namespace Compiled

theorem held_before (compiled : S.Compiled D) (sound : step.before.Sound S)
    (takes : S.Takes config step node) (held : Store.Held step.after.stores key fact) :
    Store.Held step.before.stores key fact ∨ step.move = .insert key fact := by
  obtain ⟨store, found, inside⟩ := held
  -- Steps neither open stores nor close them.
  have declared : key ∈ S.stores.keys :=
    ((compiled.step_sound sound takes).stores key).mp (State.mem_keys_of_find? found)
  obtain ⟨old, here⟩ := Table.exists_find?_iff.mpr ((sound.stores key).mpr declared)
  obtain ⟨there, -⟩ := compiled.store_step sound takes here
  obtain rfl := Option.some.inj (there.symm.trans found)
  rcases Move.mem_factsAfter inside with kept | inserts
  · exact .inl ⟨old, here, kept⟩
  · exact .inr inserts

theorem exists_origin (compiled : S.Compiled D) (run : S.Run config S.start history s)
    (held : Store.Held s.stores key fact) :
    S.StartsWith key fact ∨ ∃ step ∈ history, step.move = .insert key fact := by
  induction run with
  | start =>
    obtain ⟨store, found, inside⟩ := held
    obtain ⟨decl, declared, rfl⟩ : ∃ decl, S.stores.find? key = some decl ∧
        { name := key, kind := decl.kind, facts := decl.initial } = store := by
      simpa [start, opening, find?_opened] using found
    exact .inl ⟨decl, declared, inside⟩
  | @step history step node run takes ih =>
    rcases compiled.held_before (compiled.run_sound compiled.start_sound run) takes held with
      old | new
    · rcases ih old with declared | ⟨earlier, member, inserts⟩
      · exact .inl declared
      · exact .inr ⟨earlier, by simp [member], inserts⟩
    · exact .inr ⟨step, by simp, new⟩

theorem evaluate_constructor (compiled : S.Compiled D) (sound : s.Sound S) {name : String}
    {t value : Term} (built : S.theory.Constructor t)
    (done : S.evaluate (s.env name) t = .ok value) : t.under (s.env name).value = value := by
  obtain ⟨-, normal⟩ := evaluate_eq_ok_iff.mp done
  rw [compiled.wellFormed.normalize_subst built
    fun x u found => (sound.values name x u found).normal] at normal
  rw [← Term.subst_eq_under]
  exact Except.ok.inj normal

theorem inserted_eq (compiled : S.Compiled D) (sound : step.before.Sound S)
    (takes : S.Takes config step node) (inserts : step.move = .insert key fact) :
    ∃ t, node.action = .insert key t ∧
      (S.theory.Constructor t → ∃ g, t.under g = fact) := by
  have offers := takes.offers
  rw [inserts] at offers
  cases offers with
  | @insert _ t _ action value =>
    exact ⟨t, action, fun built => ⟨_, compiled.evaluate_constructor sound built value⟩⟩

theorem selected_eq (compiled : S.Compiled D) (sound : step.before.Sound S)
    (takes : S.Takes config step node) (selects : S.Selects step node key fact) :
    Store.Held step.before.stores key fact ∧ fact.vars = [] ∧
      ∃ p binds, (node.action = .consume key p binds ∨ node.action = .read key p binds) ∧
        (S.theory.Constructor p → ∃ g, p.under g = fact) := by
  obtain ⟨p, binds, pattern, held, options, found, action, here, made, matching, member⟩ :=
    selects.exists_match takes
  have values := (sound.facts key held here).2
  obtain ⟨inside, becomes, -, -⟩ :=
    Store.candidate_sound (Theory.normal_of_normalize made) values matching member
  refine ⟨⟨held, here, inside⟩, (values fact inside).ground, p, binds, action, fun built => ?_⟩
  rw [compiled.instantiate_constructor sound built] at made
  obtain rfl := Except.ok.inj made
  -- First the instance's own values go in, then those of the match.
  rw [Term.subst_eq_under, Term.subst_eq_under, Term.under_under] at becomes
  exact ⟨_, becomes⟩

end Compiled

theorem StandsAt.exists_node (stands : S.StandsAt s name place node) :
    ∃ inst ∈ S.instances, inst.name = name ∧ node ∈ inst.graph.nodes.toList ∧
      node.index = place := by
  obtain ⟨-, inst, got, found⟩ := stands
  obtain ⟨member, named⟩ := Compiled.mem_of_get got
  exact ⟨inst, member, named, Array.mem_toList_iff.mpr (Array.mem_of_getElem? found),
    Graph.index_of_node? found⟩

theorem mem_inserts {t : Term} (stands : S.StandsAt s name place node)
    (action : node.action = .insert key t) :
    ⟨name, place, key, t⟩ ∈ S.instances.flatMap ProcessInstance.inserts := by
  obtain ⟨inst, member, rfl, inside, rfl⟩ := stands.exists_node
  exact List.mem_flatMap.mpr ⟨inst, member, List.mem_filterMap.mpr ⟨_, inside, by simp [action]⟩⟩

theorem mem_removals {t : Term} (stands : S.StandsAt s name place node)
    (action : node.action = .remove key t) :
    ⟨name, place, key, t⟩ ∈ S.instances.flatMap ProcessInstance.removals := by
  obtain ⟨inst, member, rfl, inside, rfl⟩ := stands.exists_node
  exact List.mem_flatMap.mpr ⟨inst, member, List.mem_filterMap.mpr ⟨_, inside, by simp [action]⟩⟩

theorem mem_consumers {p : Term} {binds : List String} (stands : S.StandsAt s name place node)
    (action : node.action = .consume key p binds ∨ node.action = .read key p binds) :
    ⟨name, place, key, p⟩ ∈ S.instances.flatMap ProcessInstance.consumers := by
  obtain ⟨inst, member, rfl, inside, rfl⟩ := stands.exists_node
  refine List.mem_flatMap.mpr ⟨inst, member, List.mem_filterMap.mpr ⟨_, inside, ?_⟩⟩
  rcases action with action | action <;> simp [action]

end System

section Edges

variable {T : Theory} {R : Registry} {inserts : List StoreSite} {consumer site : StoreSite}
  {edges : List CausalEdge}

theorem edgesInto_site (done : edgesInto T R inserts consumer = .ok edges) (sound : T.WellFormed)
    (pattern : T.Constructor consumer.term) (term : T.Constructor site.term)
    (member : site ∈ inserts) (same : site.store = consumer.store) {g h : String → Term}
    (meets : consumer.term.under g = site.term.under h) :
    ⟨consumer.store, .site site.owner site.node, (consumer.owner, consumer.node)⟩ ∈ edges := by
  simp only [edgesInto, sound.normalize_constructor pattern, ok_bind, bind_eq_ok_iff,
    pure_eq_ok_iff] at done
  obtain ⟨producers, kept, rfl⟩ := done
  -- The marks keep the variables of both sides apart, so the two values make one unifier.
  have apart (x y : String) : "c$" ++ x ≠ "p$" ++ y := by
    intro equal
    simpa using congrArg String.toList equal
  have among : site ∈ producers := by
    rw [mem_filterM_iff kept]
    refine ⟨by simp [member, same], ?_⟩
    simp [sound.normalize_constructor term, Term.unifiable_rename apart meets]
  simp only [List.mem_append, List.mem_map]
  exact .inl (.inl ⟨site, among, rfl⟩)

theorem edgesInto_initial (done : edgesInto T R inserts consumer = .ok edges)
    (sound : T.WellFormed) (pattern : T.Constructor consumer.term) {decl : StoreDecl} {fact : Term}
    (declared : R.stores.find? consumer.store = some decl) (member : fact ∈ decl.initial)
    (ground : fact.vars = []) {g : String → Term} (meets : consumer.term.under g = fact) :
    ⟨consumer.store, .initial, (consumer.owner, consumer.node)⟩ ∈ edges := by
  simp only [edgesInto, sound.normalize_constructor pattern, ok_bind, bind_eq_ok_iff,
    pure_eq_ok_iff] at done
  obtain ⟨producers, -, rfl⟩ := done
  have meeting : decl.initial.any (consumer.term.rename "c$").unifiable = true :=
    List.any_eq_true.mpr ⟨fact, member, Term.unifiable_rename_ground "c$" ground meets⟩
  simp [declared, meeting]

end Edges

namespace System

variable {S : System} {D : Declarations} {config : RunConfig} {step : Step} {node : Node}
  {key : String} {fact : Term} {history : List Step}

def Constructive (S : System) : Prop :=
  ∀ inst ∈ S.instances, ∀ site ∈ inst.inserts ++ inst.consumers, S.theory.Constructor site.term

instance (S : System) : Decidable S.Constructive :=
  inferInstanceAs (Decidable (∀ inst ∈ S.instances, ∀ site ∈ inst.inserts ++ inst.consumers,
    S.theory.Constructor site.term))

theorem Compiled.exists_edgesInto (compiled : S.Compiled D) {consumer : StoreSite}
    (member : consumer ∈ S.instances.flatMap ProcessInstance.consumers) :
    ∃ edges, edgesInto S.theory D.stores (S.instances.flatMap ProcessInstance.inserts) consumer =
      .ok edges ∧ edges ⊆ S.causalEdges := by
  have among := compiled.edges
  simp only [edgesAmong, bind_eq_ok_iff, pure_eq_ok_iff] at among
  obtain ⟨all, drawn, flat⟩ := among
  obtain ⟨edges, inside, done⟩ := exists_of_mapM_eq_ok drawn member
  refine ⟨edges, compiled.theory ▸ done, fun edge here => ?_⟩
  rw [← flat]
  exact List.mem_flatten.mpr ⟨edges, inside, here⟩

/-- Every fact that a run selects has an origin, and an edge leads here from each of them. -/
theorem causalEdges_cover {compiler : CompilerConfig} {M : Model} {s₀ : State}
    (done : compile compiler M = .ok S) (constructive : S.Constructive)
    (initial : State.initial S = .ok s₀) (run : S.Run config s₀ history step.before)
    (takes : S.Takes config step node) (selects : S.Selects step node key fact) :
    (∀ earlier ∈ history, earlier.move = .insert key fact →
      ⟨key, .site earlier.owner earlier.place, (step.owner, step.place)⟩ ∈ S.causalEdges) ∧
    (S.StartsWith key fact → ⟨key, .initial, (step.owner, step.place)⟩ ∈ S.causalEdges) ∧
    ((∃ earlier ∈ history, earlier.move = .insert key fact) ∨ S.StartsWith key fact) := by
  obtain ⟨D, compiled⟩ := compiled_of_compile done
  obtain rfl : S.start = s₀ := Except.ok.inj (compiled.initial_eq.symm.trans initial)
  have wellFormed := compiled.wellFormed
  have built {site : StoreSite} (among : site ∈ S.instances.flatMap ProcessInstance.inserts ∨
      site ∈ S.instances.flatMap ProcessInstance.consumers) : S.theory.Constructor site.term := by
    simp only [List.mem_flatMap] at among
    rcases among with ⟨inst, member, inside⟩ | ⟨inst, member, inside⟩
    · exact constructive inst member site (List.mem_append_left _ inside)
    · exact constructive inst member site (List.mem_append_right _ inside)
  obtain ⟨held, ground, p, binds, action, pattern⟩ :=
    compiled.selected_eq (compiled.run_sound compiled.start_sound run) takes selects
  have consumes := mem_consumers takes.stands action
  obtain ⟨g, meets⟩ := pattern (built (.inr consumes))
  obtain ⟨edges, into, among⟩ := compiled.exists_edgesInto consumes
  refine ⟨?_, ?_, (compiled.exists_origin run held).symm⟩
  · -- The same fact is a value of the inserted term and of the pattern.
    intro earlier member inserts
    obtain ⟨before, node', run', takes'⟩ := run.exists_of_mem member
    obtain ⟨t, action', term⟩ :=
      compiled.inserted_eq (compiled.run_sound compiled.start_sound run') takes' inserts
    have site := mem_inserts takes'.stands action'
    obtain ⟨h, same⟩ := term (built (.inl site))
    exact among (edgesInto_site into wellFormed (built (.inr consumes)) (built (.inl site)) site rfl
      (meets.trans same.symm))
  · rintro ⟨decl, declared, inside⟩
    exact among (edgesInto_initial into wellFormed (built (.inr consumes))
      (compiled.stores ▸ declared) inside ground meets)

theorem causalEdges_cover_courier : ∃ S s₀ history step node fact,
    compile {} Model.courier = .ok S ∧ S.Constructive ∧ State.initial S = .ok s₀ ∧
      S.Run {} s₀ history step.before ∧ S.Takes {} step node ∧ S.Selects step node "net" fact ∧
      ∃ earlier ∈ history, earlier.move = .insert "net" fact ∧
        ⟨"net", .site earlier.owner earlier.place, (step.owner, step.place)⟩ ∈ S.causalEdges := by
  let fact := Term.app "pair" [nonceName 1 0, nonceName 0 0]
  have ran : (do
      let S ← compile {} Model.courier
      let s₀ ← State.initial S
      let steps ← S.replay {} s₀ [("a", 0), ("a", 0), ("a", 0), ("a", 0), ("b", 0), ("b", 0)]
      return (decide S.Constructive, steps.map (·.move)) : Result (Bool × List Move)) =
      .ok (true, [.pass, .draw "n.0" 1, .assign "m.0" fact, .insert "net" fact, .pass] ++
        [.consume "net" fact (.single "received$.0" fact)]) := by
    decide +kernel
  simp only [bind_eq_ok_iff, pure_eq_ok_iff, lift_eq_ok_iff, Prod.mk.injEq, decide_eq_true_iff]
    at ran
  obtain ⟨S, done, s₀, initial, steps, replayed, constructive, moved⟩ := ran
  obtain ⟨history, step, node, run, takes, earlier, last⟩ := exists_takes_of_replay replayed moved
  have selects := takes.selects last
  have inserted : Move.insert "net" fact ∈ history.map (·.move) := by simp [earlier]
  obtain ⟨first, member, inserts⟩ := List.mem_map.mp inserted
  exact ⟨S, s₀, history, step, node, fact, done, constructive, initial, run, takes, selects, first,
    member, inserts,
    (causalEdges_cover done constructive initial run takes selects).1 first member inserts⟩

end System

end ThreatModel
