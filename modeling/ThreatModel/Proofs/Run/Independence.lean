import Mathlib
import ThreatModel.Proofs.Run.Sound

set_option autoImplicit false

namespace ThreatModel

open Result

/-- States that differ at most in the order in which instances came to a dead end. -/
structure State.Alike (s t : State) : Prop where
  pcs : s.pcs = t.pcs
  envs : s.envs = t.envs
  stores : s.stores = t.stores
  events : s.events = t.events
  drawn : s.drawn = t.drawn
  steps : s.steps = t.steps
  dead : s.dead.Perm t.dead

structure LocalUpdate where
  pc : Option Nat
  env : Subst
  draws : Option Nat := none
  dies : Bool := false
  cost : Nat := 1

namespace LocalUpdate

def drawn (u : LocalUpdate) (t : Tally) : Tally :=
  match u.draws with
  | some id => t.bump id
  | none => t

theorem drawn_bump (u : LocalUpdate) (t : Tally) (id : Nat) :
    u.drawn (t.bump id) = (u.drawn t).bump id := by
  unfold drawn
  split
  · exact Tally.bump_comm t id _
  · rfl

theorem count_drawn {u : LocalUpdate} {t : Tally} (ordered : t.Ordered) {id : Nat}
    (other : u.draws ≠ some id) : (u.drawn t).count id = t.count id := by
  unfold drawn
  split
  next id' drawn =>
    have apart : id' ≠ id := fun same => other (by rw [drawn, same])
    rw [Tally.count_bump ordered]
    simp [apart]
  next => rfl

end LocalUpdate

def Move.update? (env : Subst) (count : Nat → Nat) (next : List Nat) : Move → Option LocalUpdate
  | .stop => some { pc := none, env, dies := true, cost := 0 }
  | .enter i => some { pc := some i, env }
  | .pass => some { pc := next.head?, env }
  | .draw x id =>
    some { pc := next.head?, env := env.insert x (nonceName id (count id)), draws := some id }
  | .assign x v => some { pc := next.head?, env := env.insert x v }
  | _ => none

namespace State

def update (s : State) (name : String) (u : LocalUpdate) : State :=
  { s with
    pcs := s.pcs.insert name u.pc
    envs := s.envs.insert name u.env
    drawn := u.drawn s.drawn
    dead := if u.dies then s.dead ++ [name] else s.dead
    steps := s.steps + u.cost }

variable {s s' t : State} {T : Theory} {config : RunConfig} {name other : String} {next : List Nat}
  {m : Move} {u : LocalUpdate}

namespace Alike

theorem refl (s : State) : s.Alike s := ⟨rfl, rfl, rfl, rfl, rfl, rfl, .refl _⟩

theorem symm (alike : s.Alike t) : t.Alike s :=
  ⟨alike.pcs.symm, alike.envs.symm, alike.stores.symm, alike.events.symm, alike.drawn.symm,
    alike.steps.symm, alike.dead.symm⟩

theorem trans (first : s.Alike t) (second : t.Alike s') : s.Alike s' :=
  ⟨first.pcs.trans second.pcs, first.envs.trans second.envs, first.stores.trans second.stores,
    first.events.trans second.events, first.drawn.trans second.drawn,
    first.steps.trans second.steps, first.dead.trans second.dead⟩

theorem env (alike : s.Alike t) (name : String) : s.env name = t.env name := by
  simp [State.env, alike.envs]

theorem active (alike : s.Alike t) : s.active = t.active := by
  simp [State.active, alike.pcs]

theorem sound {S : System} (alike : s.Alike t) (sound : s.Sound S) : t.Sound S := by
  obtain ⟨pcs, envs, stores, events, drawn, -, -⟩ := alike
  obtain ⟨distinct, instances, environments, places, values, declared, facts, shown, ordered⟩ :=
    sound
  constructor
  · exact pcs ▸ distinct
  · exact pcs ▸ instances
  · exact pcs ▸ envs ▸ environments
  · exact pcs ▸ places
  · simpa only [State.env, envs, drawn] using values
  · exact stores ▸ declared
  · exact stores ▸ drawn ▸ facts
  · exact events ▸ drawn ▸ shown
  · exact drawn ▸ ordered

end Alike

theorem find?_env (present : name ∈ s.envs.keys) : s.envs.find? name = some (s.env name) := by
  obtain ⟨env, found⟩ := Table.exists_find?_iff.mpr present
  simp [State.env, found]

theorem perform_eq_update (present : name ∈ s.envs.keys)
    (silent : m.update? (s.env name) s.drawn.count next = some u) :
    s.perform T config name next m = .ok (s.update name u) := by
  have kept : s.envs.insert name (s.env name) = s.envs := Table.insert_eq_self (find?_env present)
  cases m with
  | stop | enter i | pass =>
    obtain rfl := Option.some.inj silent
    simp [perform, update, advance, halt, LocalUpdate.drawn, kept]
  | draw x id | assign x v =>
    obtain rfl := Option.some.inj silent
    simp [perform, update, advance, bindValue, LocalUpdate.drawn, State.env]
  | finish | insert store fact | remove store fact | consume store fact found | read store found
  | emit index v => simp [Move.update?] at silent

theorem perform_count (ordered : s.drawn.Ordered) {id : Nat} (other : ∀ x, m ≠ .draw x id)
    (done : s.perform T config name next m = .ok s') : s'.drawn.count id = s.drawn.count id := by
  rw [(moved_of_perform done).drawn]
  cases m with
  | draw x id' =>
    have apart : id' ≠ id := by
      rintro rfl
      exact other x rfl
    simp [Move.counted, Tally.count_bump ordered, apart]
  | _ => rfl

theorem perform_of_alike (alike : s.Alike t) (done : s.perform T config name next m = .ok s') :
    ∃ t', t.perform T config name next m = .ok t' ∧ s'.Alike t' := by
  have env := alike.env name
  obtain ⟨pcs, envs, stores, events, drawn, steps, dead⟩ := alike
  cases m with
  | stop =>
    obtain rfl := Except.ok.inj done
    exact ⟨_, rfl, by simp [halt, pcs], envs, stores, events, drawn, steps, dead.append_right _⟩
  | finish | enter i | pass | draw x id | assign x v | read store found | emit index v =>
    obtain rfl := Except.ok.inj done
    refine ⟨_, rfl, ?_⟩
    constructor <;>
      simp [advance, halt, bindValue, bindAll, State.env, pcs, envs, stores, events, drawn, steps,
        dead]
  | insert store fact | remove store fact =>
    simp only [perform, bind_eq_ok_iff, pure_eq_ok_iff] at done
    obtain ⟨held, found, after, changed, rfl⟩ := done
    refine ⟨(t.advance name next).setStore after, ?_, ?_⟩
    · simp only [perform, bind_eq_ok_iff, pure_eq_ok_iff]
      exact ⟨held, by simpa [State.store, stores] using found, after, changed, rfl⟩
    · constructor <;> simp [advance, setStore, pcs, envs, stores, events, drawn, steps, dead]
  | consume store fact found =>
    simp only [perform, bind_eq_ok_iff, pure_eq_ok_iff] at done
    obtain ⟨held, here, rfl⟩ := done
    refine ⟨((t.advance name next).setStore (afterConsume config held fact)).bindAll name found,
      ?_, ?_⟩
    · simp only [perform, bind_eq_ok_iff, pure_eq_ok_iff]
      exact ⟨held, by simpa [State.store, stores] using here, rfl⟩
    · constructor <;>
        simp [advance, setStore, bindAll, State.env, pcs, envs, stores, events, drawn, steps, dead]

theorem perform_update (distinct : name ≠ other) (ordered : s.drawn.Ordered)
    (place : name ∈ s.pcs.keys) (values : name ∈ s.envs.keys)
    (apart : ∀ x id, m = .draw x id → u.draws ≠ some id)
    (done : s.perform T config other next m = .ok s') :
    ∃ t, (s.update name u).perform T config other next m = .ok t ∧ t.Alike (s'.update name u) := by
  -- Both keys are there already, so the tables come out in the same order either way.
  have pcs (pc pc' : Option Nat) := Table.insert_comm pc pc' distinct place
  have envs (e e' : Subst) := Table.insert_comm e e' distinct values
  have steps : s.steps + u.cost + 1 = s.steps + 1 + u.cost := by omega
  cases m with
  | finish =>
    obtain rfl := Except.ok.inj done
    refine ⟨_, rfl, ?_⟩
    constructor <;> simp [update, halt, pcs]
  | stop =>
    obtain rfl := Except.ok.inj done
    refine ⟨_, rfl, by simp [update, halt, pcs], rfl, rfl, rfl, rfl, rfl, ?_⟩
    -- If both come to a dead end, they are listed in the other order.
    cases dies : u.dies with
    | false => simp [update, dies]
    | true =>
      simp only [update, dies, if_true, List.append_assoc]
      exact (List.Perm.swap ..).append_left s.dead
  | enter i | pass | emit index v =>
    obtain rfl := Except.ok.inj done
    refine ⟨_, rfl, ?_⟩
    constructor <;> simp [update, advance, pcs, steps]
  | draw x id =>
    obtain rfl := Except.ok.inj done
    have count : (u.drawn s.drawn).count id = s.drawn.count id :=
      LocalUpdate.count_drawn ordered (apart x id rfl)
    refine ⟨_, rfl, ?_⟩
    constructor
    case drawn => exact (u.drawn_bump s.drawn id).symm
    case envs =>
      simp [update, advance, bindValue, State.env, Table.find?_insert, distinct, envs, count]
    all_goals simp [update, advance, bindValue, pcs, steps]
  | assign x v | read store found =>
    obtain rfl := Except.ok.inj done
    refine ⟨_, rfl, ?_⟩
    constructor <;>
      simp [update, advance, bindValue, bindAll, State.env, Table.find?_insert, distinct, pcs, envs,
        steps]
  | insert store fact | remove store fact =>
    simp only [perform, bind_eq_ok_iff, pure_eq_ok_iff] at done
    obtain ⟨held, found, after, changed, rfl⟩ := done
    refine ⟨((s.update name u).advance other next).setStore after, ?_, ?_⟩
    · simp only [perform, bind_eq_ok_iff, pure_eq_ok_iff]
      exact ⟨held, found, after, changed, rfl⟩
    · constructor <;> simp [update, advance, setStore, pcs, steps]
  | consume store fact found =>
    simp only [perform, bind_eq_ok_iff, pure_eq_ok_iff] at done
    obtain ⟨held, here, rfl⟩ := done
    refine ⟨(((s.update name u).advance other next).setStore
      (afterConsume config held fact)).bindAll other found, ?_, ?_⟩
    · simp only [perform, bind_eq_ok_iff, pure_eq_ok_iff]
      exact ⟨held, here, rfl⟩
    · constructor <;>
        simp [update, advance, setStore, bindAll, State.env, Table.find?_insert, distinct, pcs, envs,
          steps]

end State

namespace System

variable {S : System} {D : Declarations} {config : RunConfig} {s s' t : State} {name other : String}
  {place : Nat} {node : Node} {moves : List Move} {m : Move}

theorem movesAt_congr (env : s.env name = t.env name) (stores : s.stores = t.stores) :
    S.movesAt s name node = S.movesAt t name node := by
  simp only [movesAt, State.store, env, stores]

theorem movesAt_of_silent (silent : node.action.isSilent = true) (env : s.env name = t.env name) :
    S.movesAt s name node = S.movesAt t name node := by
  cases action : node.action with
  | start | fresh x id | assign x v | guard cs excluded | choice | loopHead | callSite f
  | alternative tag | join => simp only [movesAt, action, env]
  | finish | insert store v | remove store v | consume store p binds | read store p binds
  | emit v index => simp [action, Action.isSilent] at silent

theorem update?_of_silent (silent : node.action.isSilent = true) (offers : S.Offers s name node m)
    (env : Subst) (count : Nat → Nat) : ∃ u, m.update? env count node.successors = some u := by
  cases offers with
  | stop | arm | alternative | draw | assign | pass => exact ⟨_, rfl⟩
  | finish action | insert action | remove action | consume action | read action | emit action =>
    simp [action, Action.isSilent] at silent

theorem draws_of_offers {env : Subst} {count : Nat → Nat} {u : LocalUpdate} {id : Nat}
    (offers : S.Offers s name node m) (silent : m.update? env count node.successors = some u)
    (drawn : u.draws = some id) : ∃ x, node.action = .fresh x id := by
  cases offers with
  | @draw x id' action =>
    obtain rfl := Option.some.inj silent
    obtain rfl : id' = id := by simpa using drawn
    exact ⟨x, action⟩
  | stop | arm | alternative | assign | pass =>
    obtain rfl := Option.some.inj silent
    simp at drawn
  | finish | insert | remove | consume | read | emit => simp [Move.update?] at silent

theorem exists_offered_of_silent (sites : ∀ f, node.action = .callSite f → node.successors ≠ [])
    (silent : node.action.isSilent = true) (offered : S.movesAt s name node = .ok moves) :
    moves ≠ [] := by
  rintro rfl
  simp only [movesAt] at offered
  cases action : node.action with
  | choice =>
    simp only [action, bind_eq_ok_iff] at offered
    obtain ⟨g, -, arms, -, offered⟩ := offered
    -- A choice with no arm to take stops its instance, which is a move too.
    cases arms <;> simp at offered
  | callSite f =>
    simp only [action, pure_eq_ok_iff, List.map_eq_nil_iff] at offered
    exact sites f action offered
  | assign x v =>
    simp only [action, bind_eq_ok_iff, pure_eq_ok_iff] at offered
    obtain ⟨v, -, none⟩ := offered
    simp at none
  | start | fresh x id | guard cs excluded | loopHead | alternative tag | join =>
    simp [action] at offered
  | finish | insert store v | remove store v | consume store p binds | read store p binds
  | emit v index => simp [action, Action.isSilent] at silent

namespace Compiled

theorem exists_perform (compiled : S.Compiled D) (sound : s.Sound S)
    (stands : S.StandsAt s name place node) (offers : S.Offers s name node m) :
    ∃ s', s.perform S.theory config name node.successors m = .ok s' := by
  obtain ⟨inst, got, found, -, nameless, touches⟩ := compiled.node_sound stands
  cases offers with
  | finish | stop | arm | alternative | draw | assign | read | emit | pass => exact ⟨_, rfl⟩
  | @insert store t v action value =>
    have holds :=
      compiled.value_of_evaluate sound (nameless t (by simp [action, Action.terms])) value
    have present : store ∈ s.stores.keys :=
      (sound.stores store).mpr (touches store (by simp [action, Action.store?]))
    obtain ⟨held, here⟩ := Table.exists_find?_iff.mpr present
    exact ⟨_, (State.perform_insert_iff holds).mpr ⟨held, here, rfl⟩⟩
  | @remove store t fact held action value here holds =>
    have normal :=
      compiled.value_of_evaluate sound (nameless t (by simp [action, Action.terms])) value
    have there : fact ∈ held.facts := by simpa [Store.holds_of_normal normal.normal] using holds
    exact ⟨_, (State.perform_remove_iff normal).mpr ⟨held, here, there, rfl⟩⟩
  | consume action here => exact ⟨_, State.perform_consume_iff.mpr ⟨_, here, rfl⟩⟩

theorem exists_stepped (compiled : S.Compiled D) (sound : s.Sound S)
    (stands : S.StandsAt s name place node) (offered : S.movesAt s name node = .ok moves) :
    ∃ out, S.step config s name = .ok out ∧ ∀ m ∈ moves, ∀ s',
      s.perform S.theory config name node.successors m = .ok s' → s' ∈ out := by
  have each (m : Move) (among : m ∈ moves) :
      ∃ s', s.perform S.theory config name node.successors m = .ok s' :=
    compiled.exists_perform sound stands (offers_of_mem offered among)
  obtain ⟨out, performed⟩ := exists_mapM_eq_ok each
  refine ⟨out, step_eq_ok_iff.mpr ⟨place, node, moves, stands, offered, performed⟩, ?_⟩
  intro m among s' performs
  obtain ⟨s'', member, same⟩ := exists_of_mapM_eq_ok performed among
  obtain rfl : s' = s'' := Except.ok.inj (performs.symm.trans same)
  exact member

theorem mem_step_iff (compiled : S.Compiled D) (sound : s.Sound S) :
    (∃ out, S.step config s name = .ok out ∧ s' ∈ out) ↔
      ∃ place node moves m, S.StandsAt s name place node ∧ S.movesAt s name node = .ok moves ∧
        m ∈ moves ∧ s.perform S.theory config name node.successors m = .ok s' := by
  constructor
  · rintro ⟨out, stepped, member⟩
    obtain ⟨place, node, moves, stands, offered, performed⟩ := step_eq_ok_iff.mp stepped
    obtain ⟨m, among, performs⟩ := mem_of_mapM_eq_ok performed member
    exact ⟨place, node, moves, m, stands, offered, among, performs⟩
  · rintro ⟨place, node, moves, m, stands, offered, among, performs⟩
    obtain ⟨out, stepped, all⟩ := compiled.exists_stepped sound stands offered
    exact ⟨out, stepped, all m among s' performs⟩

end Compiled

end System

end ThreatModel
