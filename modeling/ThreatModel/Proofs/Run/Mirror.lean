import Mathlib
import ThreatModel.Proofs.Theory.Renaming
import ThreatModel.Proofs.Elaboration.Pairing
import ThreatModel.Proofs.Run.Interleaving
import ThreatModel.Proofs.Run.Freshness

set_option autoImplicit false

namespace ThreatModel

open Result

open Classical in
noncomputable def renumber (f : Nat → Nat) (n : String) : String :=
  if drawn : ∃ p : Nat × Nat, nonceName p.1 p.2 = .name n then
    s!"n{f drawn.choose.1}.{drawn.choose.2}"
  else n

theorem renumber_nonce (f : Nat → Nat) {id k : Nat} {n : String} (drawn : nonceName id k = .name n) :
    Term.name (renumber f n) = nonceName (f id) k := by
  have some_ : ∃ p : Nat × Nat, nonceName p.1 p.2 = .name n := ⟨(id, k), drawn⟩
  obtain ⟨ids, draws⟩ := nonceName_injective (some_.choose_spec.trans drawn.symm)
  rw [renumber, dif_pos some_, ids, draws]
  rfl

theorem renumber_injective {f : Nat → Nat} (distinct : Function.Injective f) :
    Function.Injective (renumber f) := by
  -- A renamed nonce is a nonce, and what is none stays as it is.
  have apart {m n : String} (same : renumber f m = renumber f n) (id k : Nat)
      (drawn : nonceName id k = .name m) : m = n := by
    have image := renumber_nonce f drawn
    by_cases other : ∃ p : Nat × Nat, nonceName p.1 p.2 = .name n
    · obtain ⟨⟨id', k'⟩, drawn'⟩ := other
      rw [same, renumber_nonce f drawn'] at image
      obtain ⟨ids, rfl⟩ := nonceName_injective image
      obtain rfl := distinct ids
      exact Term.name.inj (drawn.symm.trans drawn')
    · rw [same, renumber, dif_neg other] at image
      exact absurd ⟨(f id, k), image.symm⟩ other
  intro m n same
  by_cases left : ∃ p : Nat × Nat, nonceName p.1 p.2 = .name m
  · obtain ⟨⟨id, k⟩, drawn⟩ := left
    exact apart same id k drawn
  · by_cases right : ∃ p : Nat × Nat, nonceName p.1 p.2 = .name n
    · obtain ⟨⟨id, k⟩, drawn⟩ := right
      exact (apart same.symm id k drawn).symm
    · simpa [renumber, left, right] using same

/-- Each instance of the first system is laid into that of the second which has its name; variables
are renamed within it, and nonce ids throughout. -/
structure System.Embedding (S S' : System) where
  places : String → List Nat
  vars : String → String → String
  ids : Nat → Nat
  theory : S'.theory = S.theory
  stores : S'.stores = S.stores
  globals : S'.globals = S.globals
  labels : S'.instances.map (·.name) = S.instances.map (·.name)
  fixedVars : ∀ name, ∀ g ∈ S.globals, vars name g.var = g.var
  fixedIds : ∀ g ∈ S.globals, ids g.nonce = g.nonce
  distinct : ∀ name, Function.Injective (vars name)
  distinctIds : Function.Injective ids
  laid : ∀ {name inst}, S.get name = .ok inst → ∃ inst', S'.get name = .ok inst' ∧
    inst.graph.Laid (fun a a' => (a.recast (vars name) ids).unnumbered = a'.unnumbered)
      (places name) inst'.graph
  first : ∀ {name inst}, S.get name = .ok inst → (places name)[0]? = some 0
  ended : ∀ {name inst i node}, S.get name = .ok inst → inst.graph.Open i →
    inst.graph.node? i = some node → node.action = .finish

namespace Action

variable {ρ : String → String} {f : Nat → Nat} {action action' : Action}

theorem eq_recast_of_alike (alike : (action.recast ρ f).unnumbered = action'.unnumbered)
    (quiet : ∀ t index, action ≠ .emit t index) : action' = action.recast ρ f := by
  cases action <;> cases action' <;> simp_all [recast, unnumbered]

theorem exists_emit_of_alike {t : Term} {index : Nat}
    (alike : ((Action.emit t index).recast ρ f).unnumbered = action'.unnumbered) :
    ∃ index', action' = .emit (t.recast ρ id) index' := by
  cases action' <;> simp_all [recast, unnumbered]

theorem isSilent_of_alike (alike : (action.recast ρ f).unnumbered = action'.unnumbered) :
    action'.isSilent = action.isSilent := by
  cases action <;> cases action' <;> simp_all [recast, unnumbered, isSilent]

theorem isSilent_of_isMark (mark : action.isMark = true) : action.isSilent = true := by
  cases action <;> first | rfl | simp [isMark] at mark

end Action

namespace System.Embedding

variable {S S' : System} (e : S.Embedding S')

noncomputable def names : String → String := renumber e.ids

theorem names_injective : Function.Injective e.names := renumber_injective e.distinctIds

structure Agrees (s s' : State) : Prop where
  env : ∀ name, s'.env name = (s.env name).carry (e.vars name) (Term.recast (e.vars name) e.names)
  stores : ∀ key, s'.stores.find? key = (s.stores.find? key).map (Store.recast e.names)
  events : s'.events.map (fun event => (event.owner, event.term)) =
    s.events.map fun event => (event.owner, event.term.recast id e.names)
  drawn : ∀ id, s'.drawn.count (e.ids id) = s.drawn.count id

inductive Moves (name : String) : Move → Move → Prop
  | finish : Moves name .finish .finish
  | stop : Moves name .stop .stop
  | enter {i i' : Nat} (placed : (e.places name)[i]? = some i') : Moves name (.enter i) (.enter i')
  | pass : Moves name .pass .pass
  | draw {x : String} {id : Nat} : Moves name (.draw x id) (.draw (e.vars name x) (e.ids id))
  | assign {x : String} {v : Term} :
      Moves name (.assign x v) (.assign (e.vars name x) (v.recast (e.vars name) e.names))
  | insert {store : String} {v : Term} :
      Moves name (.insert store v) (.insert store (v.recast id e.names))
  | remove {store : String} {v : Term} :
      Moves name (.remove store v) (.remove store (v.recast id e.names))
  | consume {store : String} {fact : Term} {found : Subst} :
      Moves name (.consume store fact found) (.consume store (fact.recast id e.names)
        (found.carry (e.vars name) (Term.recast (e.vars name) e.names)))
  | read {store : String} {found : Subst} :
      Moves name (.read store found)
        (.read store (found.carry (e.vars name) (Term.recast (e.vars name) e.names)))
  | emit {index index' : Nat} {v : Term} :
      Moves name (.emit index v) (.emit index' (v.recast id e.names))

variable {e} {s s' t : State} {config : RunConfig} {name : String}

namespace Agrees

theorem bindEnv (agrees : e.Agrees s s') (name : String) (env : Subst) :
    e.Agrees { s with envs := s.envs.insert name env }
      { s' with envs := s'.envs.insert name (env.carry (e.vars name)
                  (Term.recast (e.vars name) e.names)) } where
  env := by
    intro other
    rw [State.env_insert, State.env_insert]
    split
    next same => rw [same]
    next => exact agrees.env other
  stores := agrees.stores
  events := agrees.events
  drawn := agrees.drawn

theorem setStore (agrees : e.Agrees s s') (held : Store) :
    e.Agrees (s.setStore held) (s'.setStore (held.recast e.names)) where
  env := agrees.env
  stores := by
    intro key
    simp only [State.setStore, Store.recast, Table.find?_insert]
    split
    · rfl
    · exact agrees.stores key
  events := agrees.events
  drawn := agrees.drawn

theorem move (agrees : e.Agrees s s') (pcs pcs' : Table String (Option Nat)) (steps steps' : Nat) :
    e.Agrees { s with pcs, steps } { s' with pcs := pcs', steps := steps' } :=
  ⟨agrees.env, agrees.stores, agrees.events, agrees.drawn⟩

theorem store (agrees : e.Agrees s s') {key : String} {held : Store}
    (found : s.store key = .ok held) : s'.store key = .ok (held.recast e.names) := by
  rw [State.store_eq_ok_iff] at found ⊢
  rw [agrees.stores, found, Option.map_some]

theorem draw (agrees : e.Agrees s s') (ordered : s.drawn.Ordered) (ordered' : s'.drawn.Ordered)
    (x : String) (id : Nat) :
    e.Agrees { s.bindValue name x (nonceName id (s.drawn.count id)) with drawn := s.drawn.bump id }
      { s'.bindValue name (e.vars name x) (nonceName (e.ids id) (s'.drawn.count (e.ids id))) with
        drawn := s'.drawn.bump (e.ids id) } where
  env := by
    have image : (nonceName id (s.drawn.count id)).recast (e.vars name) e.names =
        nonceName (e.ids id) (s.drawn.count id) := renumber_nonce e.ids rfl
    have bound := (agrees.bindEnv name ((s.env name).insert x
      (nonceName id (s.drawn.count id)))).env
    rw [Table.carry_insert (e.distinct name), image, ← agrees.env] at bound
    rw [agrees.drawn]
    exact bound
  stores := agrees.stores
  events := agrees.events
  drawn := by
    intro other
    rw [Tally.count_bump ordered, Tally.count_bump ordered', agrees.drawn]
    simp only [e.distinctIds.eq_iff]

theorem afterConsume_recast (held : Store) (fact : Term) :
    State.afterConsume config (held.recast e.names) (fact.recast id e.names) =
      (State.afterConsume config held fact).recast e.names := by
  simp only [State.afterConsume, ← Store.erase_recast e.names_injective]
  have same : (held.recast e.names).name = held.name := rfl
  rw [same]
  split <;> rfl

theorem perform (agrees : e.Agrees s s') (sound : S.theory.WellFormed) (ordered : s.drawn.Ordered)
    (ordered' : s'.drawn.Ordered) {m m' : Move} {next : List Nat} (moves : e.Moves name m m')
    (done : s.perform S.theory config name next m = .ok t) (next' : List Nat) :
    ∃ t', s'.perform S'.theory config name next' m' = .ok t' ∧ e.Agrees t t' := by
  rw [e.theory]
  have moved : e.Agrees (s.advance name next) (s'.advance name next') := agrees.move _ _ _ _
  cases moves with
  | finish | stop | enter | pass =>
    obtain rfl := Except.ok.inj done
    exact ⟨_, rfl, agrees.env, agrees.stores, agrees.events, agrees.drawn⟩
  | @draw x id =>
    obtain rfl := Except.ok.inj done
    exact ⟨_, rfl, moved.draw ordered ordered' x id⟩
  | @assign x v =>
    obtain rfl := Except.ok.inj done
    have bound := moved.bindEnv name ((s.env name).insert x v)
    rw [Table.carry_insert (e.distinct name), ← agrees.env] at bound
    exact ⟨_, rfl, bound⟩
  | @insert store v =>
    simp only [State.perform, bind_eq_ok_iff, pure_eq_ok_iff] at done ⊢
    obtain ⟨held, found, after, inserted, rfl⟩ := done
    exact ⟨_, ⟨_, agrees.store found, _, sound.insert_recast e.names_injective inserted, rfl⟩,
      moved.setStore after⟩
  | @remove store v =>
    simp only [State.perform, bind_eq_ok_iff, lift_eq_ok_iff, pure_eq_ok_iff] at done ⊢
    obtain ⟨held, found, after, removed, rfl⟩ := done
    exact ⟨_, ⟨_, agrees.store found, _, sound.remove_recast e.names_injective removed, rfl⟩,
      moved.setStore after⟩
  | @consume store fact found =>
    simp only [State.perform, bind_eq_ok_iff, pure_eq_ok_iff] at done ⊢
    obtain ⟨held, here, rfl⟩ := done
    refine ⟨_, ⟨_, agrees.store here, rfl⟩, ?_⟩
    have bound := (moved.setStore (State.afterConsume config held fact)).bindEnv name
      ((s.env name).merge found)
    rw [Table.carry_merge (e.distinct name), ← agrees.env, ← afterConsume_recast] at bound
    exact bound
  | @read store found =>
    obtain rfl := Except.ok.inj done
    have bound := moved.bindEnv name ((s.env name).merge found)
    rw [Table.carry_merge (e.distinct name), ← agrees.env] at bound
    exact ⟨_, rfl, bound⟩
  | @emit index index' v =>
    obtain rfl := Except.ok.inj done
    refine ⟨_, rfl, agrees.env, agrees.stores, ?_, agrees.drawn⟩
    simpa using agrees.events

theorem evaluate (agrees : e.Agrees s s') (sound : S.theory.WellFormed) {t v : Term}
    (nameless : t.names = []) (done : S.evaluate (s.env name) t = .ok v) :
    S'.evaluate (s'.env name) (t.recast (e.vars name) id) =
      .ok (v.recast (e.vars name) e.names) := by
  obtain ⟨ground, normal⟩ := evaluate_eq_ok_iff.mp done
  have plain : t.recast (e.vars name) id = t.recast (e.vars name) e.names :=
    Term.recast_congr (fun _ _ => rfl) (by simp [nameless])
  have value := Term.recast_subst (r := e.names) (e.distinct name) (s.env name) t fun _ _ _ => rfl
  rw [evaluate_eq_ok_iff, plain, agrees.env, ← value, e.theory]
  exact ⟨by rw [Term.vars_recast, ground, List.map_nil],
    sound.normalize_recast (e.distinct name) e.names_injective normal⟩

theorem instantiate (agrees : e.Agrees s s') (sound : S.theory.WellFormed) {p pattern : Term}
    {binds : List String} (nameless : p.names = [])
    (done : S.instantiate (s.env name) p binds = .ok pattern) :
    S'.instantiate (s'.env name) (p.recast (e.vars name) id) (binds.map (e.vars name)) =
      .ok (pattern.recast (e.vars name) e.names) := by
  have plain : p.recast (e.vars name) id = p.recast (e.vars name) e.names :=
    Term.recast_congr (fun _ _ => rfl) (by simp [nameless])
  have value := Term.recast_subst (r := e.names) (e.distinct name)
    ((s.env name).filter fun x => !binds.contains x) p fun _ _ _ => rfl
  rw [Table.carry_filter (e.distinct name), ← agrees.env, ← plain] at value
  simp only [System.instantiate, e.theory, ← value] at done ⊢
  exact sound.normalize_recast (e.distinct name) e.names_injective done

theorem conditionHolds (agrees : e.Agrees s s') (sound : S.theory.WellFormed) {c : Condition}
    (nameless : ∀ t ∈ c.terms, t.names = []) {verdict : Bool}
    (done : S.conditionHolds (s.env name) c = .ok verdict) :
    S'.conditionHolds (s'.env name) (c.recast (e.vars name)) = .ok verdict := by
  simp only [System.conditionHolds, bind_eq_ok_iff, lift_eq_ok_iff, pure_eq_ok_iff] at done ⊢
  obtain ⟨left, leftDone, right, rightDone, same, decided, rfl⟩ := done
  refine ⟨_, agrees.evaluate sound (nameless _ (by simp [Condition.terms])) leftDone, _,
    agrees.evaluate sound (nameless _ (by simp [Condition.terms])) rightDone, same, ?_, rfl⟩
  rw [e.theory]
  exact sound.equal_recast (e.distinct name) e.names_injective decided

theorem guardHolds (agrees : e.Agrees s s') (sound : S.theory.WellFormed) {action action' : Action}
    (alike : (action.recast (e.vars name) e.ids).unnumbered = action'.unnumbered)
    (nameless : ∀ t ∈ action.terms, t.names = []) {verdict : Bool}
    (done : S.guardHolds (s.env name) action = .ok verdict) :
    S'.guardHolds (s'.env name) action' = .ok verdict := by
  cases action with
  | guard conditions excluded =>
    obtain rfl := Action.eq_recast_of_alike alike (by simp)
    have holds (c : Condition) (member : c ∈ conditions ++ excluded.flatten) (b : Bool)
        (done : S.conditionHolds (s.env name) c = .ok b) :
        S'.conditionHolds (s'.env name) (c.recast (e.vars name)) = .ok b :=
      agrees.conditionHolds sound
        (fun t inside => nameless t (List.mem_flatMap.mpr ⟨c, member, inside⟩)) done
    simp only [System.guardHolds, Action.recast, bind_eq_ok_iff] at done ⊢
    obtain ⟨passed, judged, done⟩ := done
    refine ⟨passed, allM_map (fun c member => holds c (by simp [member])) judged, ?_⟩
    cases passed with
    | false => exact done
    | true =>
      simp only [if_true, bind_eq_ok_iff, pure_eq_ok_iff] at done ⊢
      obtain ⟨excludes, judged, rfl⟩ := done
      refine ⟨excludes, anyM_map (fun group member b judged => ?_) judged, rfl⟩
      exact allM_map (fun c inside => holds c
        (List.mem_append_right _ (List.mem_flatten.mpr ⟨group, member, inside⟩))) judged
  | _ =>
    simp only [System.guardHolds] at done
    cases action' <;> first | exact done | simp [Action.recast, Action.unnumbered] at alike

end Agrees

structure Across (e : S.Embedding S') (name : String) (node : Node) (g' : Graph) (place' : Nat)
    (node' : Node) : Prop where
  graph : S'.graph name = .ok g'
  found : g'.node? place' = some node'
  alike : (node.action.recast (e.vars name) e.ids).unnumbered = node'.action.unnumbered
  follows : Graph.Follows (e.places name) g' node place'

variable {D : Declarations} {place place' : Nat} {node node' : Node} {g' : Graph}

theorem Across.action_eq {e : S.Embedding S'} (across : e.Across name node g' place' node')
    {action : Action} (here : node.action = action) (quiet : ∀ t index, action ≠ .emit t index) :
    node'.action = action.recast (e.vars name) e.ids := by
  subst here
  exact Action.eq_recast_of_alike across.alike quiet

theorem exists_across (e : S.Embedding S') {inst : ProcessInstance} (got : S.get name = .ok inst)
    (found : inst.graph.node? place = some node) :
    ∃ g' place' node', (e.places name)[place]? = some place' ∧ e.Across name node g' place' node' := by
  obtain ⟨inst', got', laid⟩ := e.laid got
  obtain ⟨place', placed⟩ := laid.place (Graph.lt_size_of_node? found)
  obtain ⟨node', found', alike⟩ := laid.label place node place' found placed
  exact ⟨inst'.graph, place', node', placed, graph_eq_ok_iff.mpr ⟨inst', got', rfl⟩, found', alike,
    laid.follows place node place' found placed⟩

namespace Agrees

theorem live (agrees : e.Agrees s s') (compiled : S.Compiled D) {inst : ProcessInstance}
    (got : S.get name = .ok inst) (graph : S'.graph name = .ok g') {arms arms' out : List Nat}
    (placed : List.Forall₂ (fun j j' => (e.places name)[j]? = some j') arms arms')
    (done : S.live inst.graph (s.env name) arms = .ok out) :
    ∃ out', S'.live g' (s'.env name) arms' = .ok out' ∧
      List.Forall₂ (fun j j' => (e.places name)[j]? = some j') out out' := by
  refine filterM_forall₂ placed (fun j j' verdict here judged => ?_) done
  simp only [bind_eq_ok_iff, nodeAt_eq_ok_iff] at judged ⊢
  obtain ⟨guard, found, judged⟩ := judged
  obtain ⟨g'', place', guard', placed', across⟩ := e.exists_across got found
  obtain rfl : j' = place' := Option.some.inj (here.symm.trans placed')
  obtain rfl : g' = g'' := Except.ok.inj (graph.symm.trans across.graph)
  obtain ⟨first, next, -, sound⟩ := compiled.each inst (Compiled.mem_of_get got).1
  obtain ⟨A, sound, -⟩ := sound.assigned
  exact ⟨guard', across.found, agrees.guardHolds compiled.wellFormed across.alike
    (sound.action j guard found).nameless judged⟩

theorem value (agrees : e.Agrees s s') (compiled : S.Compiled D) (sound : s.Sound S) {t v : Term}
    (nameless : t.names = []) (done : S.evaluate (s.env name) t = .ok v) :
    S'.evaluate (s'.env name) (t.recast (e.vars name) id) = .ok (v.recast id e.names) := by
  rw [agrees.evaluate compiled.wellFormed nameless done,
    Term.recast_of_ground id (compiled.value_of_evaluate sound nameless done).ground]

theorem candidates (agrees : e.Agrees s s') (compiled : S.Compiled D) (sound : s.Sound S)
    {key : String} {held : Store} {p pattern : Term} {binds : List String}
    {options : List Store.Candidate} (here : s.store key = .ok held) (nameless : p.names = [])
    (made : S.instantiate (s.env name) p binds = .ok pattern)
    (matching : held.candidatesOf S.theory pattern = .ok options) :
    S'.instantiate (s'.env name) (p.recast (e.vars name) id) (binds.map (e.vars name)) =
        .ok (pattern.recast (e.vars name) e.names) ∧
      (held.recast e.names).candidatesOf S'.theory (pattern.recast (e.vars name) e.names) =
        .ok (options.map fun option => (option.1.recast id e.names,
          option.2.carry (e.vars name) (Term.recast (e.vars name) e.names))) := by
  have values := (sound.facts key held (State.store_eq_ok_iff.mp here)).2
  have ground : ∀ fact ∈ held.facts, fact.vars = [] := fun fact member =>
    (values fact member).ground
  have matching' := compiled.wellFormed.candidatesOf_recast (e.distinct name) e.names_injective
    ground matching
  refine ⟨agrees.instantiate compiled.wellFormed nameless made, ?_⟩
  rw [e.theory, matching']
  refine congrArg _ (List.map_congr_left fun option member => ?_)
  obtain ⟨fact, found⟩ := option
  obtain ⟨inside, -⟩ := Compiled.found_values sound (State.store_eq_ok_iff.mp here)
    (Theory.normal_of_normalize made) matching member
  simp only [Term.recast_of_ground (e.vars name) (ground fact inside)]

theorem movesAt_of_branches (agrees : e.Agrees s s') (compiled : S.Compiled D)
    (stands : S.StandsAt s name place node) (across : e.Across name node g' place' node')
    (branches : node.action.branches = true) {moves : List Move}
    (offered : S.movesAt s name node = .ok moves) :
    ∃ moves', S'.movesAt s' name node' = .ok moves' ∧
      ∀ m ∈ moves, ∃ m' ∈ moves', e.Moves name m m' := by
  obtain ⟨-, inst, got, -⟩ := stands
  have follows := across.follows
  cases action : node.action with
  | choice =>
    have action' := across.action_eq action (by simp)
    simp only [Graph.Follows, action] at follows
    obtain ⟨node'', found', arms⟩ := follows
    obtain rfl : node' = node'' := Option.some.inj (across.found.symm.trans found')
    simp only [System.movesAt, action, bind_eq_ok_iff, graph_eq_ok_iff] at offered
    obtain ⟨g, ⟨inst', got', rfl⟩, out, live, offered⟩ := offered
    obtain rfl : inst = inst' := Except.ok.inj (got.symm.trans got')
    obtain ⟨out', live', pairs⟩ := agrees.live compiled got across.graph arms live
    simp only [System.movesAt, action', Action.recast, across.graph, live', ok_bind]
    have all := pairs
    cases pairs with
    | nil =>
      obtain rfl : [.stop] = moves := by simpa using offered
      exact ⟨_, rfl, by simpa using .stop⟩
    | @cons j j' rest rest' =>
      obtain rfl : (j :: rest).map .enter = moves := by simpa using offered
      refine ⟨(j' :: rest').map .enter, rfl, fun m member => ?_⟩
      obtain ⟨i, among, rfl⟩ := List.mem_map.mp member
      obtain ⟨i', among', placed⟩ := exists_of_forall₂ all among
      exact ⟨.enter i', List.mem_map_of_mem among', .enter placed⟩
  | callSite f =>
    have action' := across.action_eq action (by simp)
    simp only [Graph.Follows, action] at follows
    obtain ⟨node'', found', sites⟩ := follows
    obtain rfl : node' = node'' := Option.some.inj (across.found.symm.trans found')
    obtain rfl : node.successors.map .enter = moves := by
      simpa [System.movesAt, action] using offered
    refine ⟨node'.successors.map .enter, by simp [System.movesAt, action', Action.recast], fun m member => ?_⟩
    obtain ⟨i, among, rfl⟩ := List.mem_map.mp member
    obtain ⟨i', among', placed⟩ := sites i among
    exact ⟨.enter i', List.mem_map_of_mem among', .enter placed⟩
  | _ => simp [action, Action.branches] at branches

theorem movesAt (agrees : e.Agrees s s') (compiled : S.Compiled D) (sound : s.Sound S)
    (stands : S.StandsAt s name place node) (across : e.Across name node g' place' node')
    {moves : List Move} (offered : S.movesAt s name node = .ok moves) :
    ∃ moves', S'.movesAt s' name node' = .ok moves' ∧
      ∀ m ∈ moves, ∃ m' ∈ moves', e.Moves name m m' := by
  obtain ⟨inst, got, found, -, nameless, -⟩ := compiled.node_sound stands
  have theory := compiled.wellFormed
  have one {m m' : Move} (offered' : S'.movesAt s' name node' = .ok [m'])
      (moves : e.Moves name m m') : ∃ moves', S'.movesAt s' name node' = .ok moves' ∧
        ∀ m₁ ∈ [m], ∃ m' ∈ moves', e.Moves name m₁ m' :=
    ⟨[m'], offered', by simpa using moves⟩
  cases action : node.action with
  | choice | callSite f =>
    exact agrees.movesAt_of_branches compiled stands across (by rw [action]; rfl) offered
  | finish | fresh x id | start | guard cs excluded | loopHead | alternative tag | join =>
    have action' := across.action_eq action (by simp)
    simp only [System.movesAt, action, pure_eq_ok_iff] at offered
    subst offered
    exact one (by simp only [System.movesAt, action', Action.recast]; rfl) (by constructor)
  | assign x t =>
    have action' := across.action_eq action (by simp)
    simp only [System.movesAt, action, bind_eq_ok_iff, pure_eq_ok_iff] at offered
    obtain ⟨v, value, rfl⟩ := offered
    have plain := nameless t (by simp [action, Action.terms])
    refine one ?_ .assign
    simp only [System.movesAt, action', Action.recast, agrees.evaluate theory plain value]
    rfl
  | insert store t =>
    have action' := across.action_eq action (by simp)
    simp only [System.movesAt, action, bind_eq_ok_iff, pure_eq_ok_iff] at offered
    obtain ⟨v, value, rfl⟩ := offered
    have plain := nameless t (by simp [action, Action.terms])
    refine one ?_ .insert
    simp only [System.movesAt, action', Action.recast, agrees.value compiled sound plain value]
    rfl
  | emit t index =>
    obtain ⟨index', action'⟩ := Action.exists_emit_of_alike (action ▸ across.alike)
    simp only [System.movesAt, action, bind_eq_ok_iff, pure_eq_ok_iff] at offered
    obtain ⟨v, value, rfl⟩ := offered
    have plain := nameless t (by simp [action, Action.terms])
    have mirrored : e.Moves name (.emit index v) (.emit index' (v.recast id e.names)) := .emit
    refine one ?_ mirrored
    simp only [System.movesAt, action', agrees.value compiled sound plain value]
    rfl
  | remove store t =>
    have action' := across.action_eq action (by simp)
    simp only [System.movesAt, action, bind_eq_ok_iff, lift_eq_ok_iff] at offered
    obtain ⟨v, value, held, here, there, decided, offered⟩ := offered
    have value' := agrees.value compiled sound (nameless t (by simp [action, Action.terms])) value
    have decided' := theory.holds_recast e.names_injective decided
    rw [← e.theory] at decided'
    cases there with
    | false =>
      obtain rfl : [] = moves := by simpa using offered
      refine ⟨[], ?_, by simp⟩
      simp only [System.movesAt, action', Action.recast, bind_eq_ok_iff, lift_eq_ok_iff]
      exact ⟨_, value', _, agrees.store here, false, decided', rfl⟩
    | true =>
      obtain rfl : [.remove store v] = moves := by simpa using offered
      refine one ?_ .remove
      simp only [System.movesAt, action', Action.recast, bind_eq_ok_iff, lift_eq_ok_iff]
      exact ⟨_, value', _, agrees.store here, true, decided', rfl⟩
  | consume store p binds =>
    have action' := across.action_eq action (by simp)
    simp only [System.movesAt, action, bind_eq_ok_iff, lift_eq_ok_iff, pure_eq_ok_iff] at offered
    obtain ⟨held, here, pattern, made, options, matching, rfl⟩ := offered
    obtain ⟨made', matching'⟩ := agrees.candidates compiled sound here
      (nameless p (by simp [action, Action.terms])) made matching
    simp only [System.movesAt, action', Action.recast, bind_eq_ok_iff, lift_eq_ok_iff, pure_eq_ok_iff]
    refine ⟨_, ⟨_, agrees.store here, _, made', _, matching', rfl⟩, fun m member => ?_⟩
    obtain ⟨option, among, rfl⟩ := List.mem_map.mp member
    refine ⟨_, ?_, .consume⟩
    rw [List.map_map]
    exact List.mem_map.mpr ⟨option, among, rfl⟩
  | read store p binds =>
    have action' := across.action_eq action (by simp)
    simp only [System.movesAt, action, bind_eq_ok_iff, lift_eq_ok_iff, Store.read,
      pure_eq_ok_iff] at offered
    obtain ⟨held, here, pattern, made, founds, ⟨options, matching, rfl⟩, rfl⟩ := offered
    obtain ⟨made', matching'⟩ := agrees.candidates compiled sound here
      (nameless p (by simp [action, Action.terms])) made matching
    simp only [System.movesAt, action', Action.recast, bind_eq_ok_iff, lift_eq_ok_iff, Store.read,
      pure_eq_ok_iff]
    refine ⟨_, ⟨_, agrees.store here, _, made', _, ⟨_, matching', rfl⟩, rfl⟩, fun m member => ?_⟩
    obtain ⟨found, inside, rfl⟩ := List.mem_map.mp member
    obtain ⟨option, among, rfl⟩ := List.mem_map.mp inside
    refine ⟨_, ?_, .read⟩
    simp only [List.map_map]
    exact List.mem_map.mpr ⟨option, among, rfl⟩

end Agrees

structure Mirrors (e : S.Embedding S') (s s' : State) : Prop extends e.Agrees s s' where
  pcs : s.pcs.Alike (fun name => Option.Rel fun i i' => (e.places name)[i]? = some i') s'.pcs

namespace Mirrors

theorem active (mirrors : e.Mirrors s s') : s'.active = s.active := by
  have alike := mirrors.pcs
  simp only [State.active, Table.Alike] at alike ⊢
  generalize s.pcs.entries = entries, s'.pcs.entries = entries' at alike ⊢
  induction alike with
  | nil => rfl
  | @cons p p' rest rest' pair _ ih =>
    obtain ⟨name, pc⟩ := p
    obtain ⟨name', pc'⟩ := p'
    obtain ⟨rfl, placed⟩ : name = name' ∧ Option.Rel (fun i i' => (e.places name)[i]? = some i')
      pc pc' := pair
    cases placed <;> simp [ih]

theorem exists_stands (mirrors : e.Mirrors s s') (stands : S.StandsAt s name place node) :
    ∃ g' place' node', (e.places name)[place]? = some place' ∧
      e.Across name node g' place' node' ∧ S'.StandsAt s' name place' node' := by
  obtain ⟨at_, inst, got, found⟩ := stands
  obtain ⟨g', place', node', placed, across⟩ := e.exists_across got found
  have alike := mirrors.pcs.find? name
  rw [at_] at alike
  generalize there : s'.pcs.find? name = pc' at alike
  cases alike with
  | some alike =>
    cases alike with
    | @some _ j' placed' =>
      obtain rfl : place' = j' := Option.some.inj (placed.symm.trans placed')
      obtain ⟨inst', got', same⟩ := graph_eq_ok_iff.mp across.graph
      exact ⟨g', place', node', placed, across, there, inst', got', by rw [same, across.found]⟩

theorem firstSilent? (mirrors : e.Mirrors s s') {names : List String} {found : Option String}
    (done : S.firstSilent? s names = .ok found) : S'.firstSilent? s' names = .ok found := by
  induction names with
  | nil => exact done
  | cons first rest ih =>
    simp only [System.firstSilent?, isSilentAt, bind_eq_ok_iff, current_eq_ok_iff,
      pure_eq_ok_iff] at done ⊢
    obtain ⟨silent, ⟨node, ⟨place, stands⟩, rfl⟩, done⟩ := done
    obtain ⟨g', place', node', -, across, stands'⟩ := mirrors.exists_stands stands
    refine ⟨_, ⟨node', ⟨place', stands'⟩, rfl⟩, ?_⟩
    rw [Action.isSilent_of_alike across.alike]
    split at done
    next quiet => rwa [if_pos quiet]
    next loud =>
      rw [if_neg loud]
      exact ih done

end Mirrors

end System.Embedding

end ThreatModel
