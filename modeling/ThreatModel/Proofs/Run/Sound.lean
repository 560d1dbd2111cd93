import Mathlib
import ThreatModel.Proofs.Run.Values

set_option autoImplicit false

namespace ThreatModel

open Result

namespace Move

def target (next : List Nat) : Move → Option Nat
  | .finish | .stop => none
  | .enter i => some i
  | _ => next.head?

def bound (env : Subst) (drawn : Tally) : Move → Subst
  | .draw x id => env.insert x (nonceName id (drawn.count id))
  | .assign x v => env.insert x v
  | .consume _ _ found | .read _ found => env.merge found
  | _ => env

def counted (drawn : Tally) : Move → Tally
  | .draw _ id => drawn.bump id
  | _ => drawn

def event? (name : String) : Move → Option TraceEvent
  | .emit index value => some { owner := name, index, term := value }
  | _ => none

def cost : Move → Nat
  | .finish | .stop => 0
  | _ => 1

theorem cost_or_ends (m : Move) (next : List Nat) :
    m.cost = 1 ∨ m.cost = 0 ∧ m.target next = none := by
  cases m <;> simp [cost, target]

end Move

-- What a move leaves of a state, its stores apart.
structure State.Moved (s : State) (name : String) (next : List Nat) (m : Move) (s' : State) :
    Prop where
  places : s'.pcs = s.pcs.insert name (m.target next)
  env : s'.env name = m.bound (s.env name) s.drawn
  others : ∀ other, name ≠ other → s'.env other = s.env other
  drawn : s'.drawn = m.counted s.drawn
  events : s'.events = s.events ++ (m.event? name).toList
  steps : s'.steps = s.steps + m.cost
  dead : s'.dead = if m = .stop then s.dead ++ [name] else s.dead

structure State.Sound (S : System) (s : State) : Prop where
  distinct : s.pcs.keys.Nodup
  instances : ∀ name, name ∈ s.pcs.keys ↔ ∃ inst, S.get name = .ok inst
  environments : ∀ name, name ∈ s.envs.keys ↔ name ∈ s.pcs.keys
  places : ∀ name place inst, s.pcs.find? name = some (some place) → S.get name = .ok inst →
    place < inst.graph.size
  values : ∀ name x t, (s.env name).find? x = some t → t.Value S.theory s.drawn.names
  stores : ∀ key, key ∈ s.stores.keys ↔ key ∈ S.stores.keys
  facts : ∀ key store, s.stores.find? key = some store → store.name = key ∧
    ∀ fact ∈ store.facts, fact.Value S.theory s.drawn.names
  events : ∀ e ∈ s.events, e.term.Value S.theory s.drawn.names
  ordered : s.drawn.Ordered

namespace State

variable {s s' : State} {T : Theory} {config : RunConfig} {name other store : String}
  {next : List Nat} {fact : Term}

theorem mem_keys_of_find? {κ α : Type} [DecidableEq κ] {t : Table κ α} {key : κ} {value : α}
    (found : t.find? key = some value) : key ∈ t.keys :=
  Table.exists_find?_iff.mp ⟨value, found⟩

theorem env_insert {envs : Table String Subst} {env : Subst} :
    ({ s with envs := envs.insert name env } : State).env other =
      if name = other then env else ({ s with envs := envs } : State).env other := by
  simp only [State.env, Table.find?_insert]
  split <;> simp

theorem perform_insert_iff {names : Set String} (value : fact.Value T names) :
    s.perform T config name next (.insert store fact) = .ok s' ↔
      ∃ held, s.stores.find? store = some held ∧
        s' = (s.advance name next).setStore { held with facts := held.facts ++ [fact] } := by
  have ground : fact.isGround = true := Term.isGround_iff.mpr value.ground
  simp only [perform, bind_eq_ok_iff, store_eq_ok_iff, pure_eq_ok_iff, Store.insert, ground,
    Bool.not_true, Bool.false_eq_true, if_false, Theory.normalize_of_normal value.normal]
  constructor
  · rintro ⟨held, found, _, ⟨normal, same, rfl⟩, rfl⟩
    obtain rfl : fact = normal := by simpa using same
    exact ⟨held, found, rfl⟩
  · rintro ⟨held, found, rfl⟩
    exact ⟨held, found, _, ⟨fact, by simp, rfl⟩, rfl⟩

theorem perform_remove_iff {names : Set String} (value : fact.Value T names) :
    s.perform T config name next (.remove store fact) = .ok s' ↔
      ∃ held, s.stores.find? store = some held ∧ fact ∈ held.facts ∧
        s' = (s.advance name next).setStore (held.erase fact) := by
  simp only [perform, bind_eq_ok_iff, store_eq_ok_iff, pure_eq_ok_iff, lift_eq_ok_iff, Store.remove,
    Theory.normalize_of_normal value.normal]
  constructor
  · rintro ⟨held, found, after, ⟨normal, same, done⟩, rfl⟩
    obtain rfl : fact = normal := by simpa using same
    split at done
    next there =>
      obtain rfl : held.erase fact = after := by simpa using done
      exact ⟨held, found, by simpa using there, rfl⟩
    next => simp at done
  · rintro ⟨held, found, there, rfl⟩
    exact ⟨held, found, _, ⟨fact, rfl, by simp [there]⟩, rfl⟩

theorem name_afterConsume {held : Store} : (afterConsume config held fact).name = held.name := by
  unfold afterConsume
  split <;> rfl

theorem mem_of_mem_afterConsume {held : Store} {t : Term}
    (member : t ∈ (afterConsume config held fact).facts) : t ∈ held.facts := by
  unfold afterConsume at member
  split at member
  · exact member
  · exact List.mem_of_mem_erase member

theorem perform_consume_iff {found : Subst} :
    s.perform T config name next (.consume store fact found) = .ok s' ↔
      ∃ held, s.stores.find? store = some held ∧
        s' = ((s.advance name next).setStore (afterConsume config held fact)).bindAll name found
      := by
  simp only [perform, bind_eq_ok_iff, store_eq_ok_iff, pure_eq_ok_iff]
  constructor
  · rintro ⟨held, here, rfl⟩
    exact ⟨held, here, rfl⟩
  · rintro ⟨held, here, rfl⟩
    exact ⟨held, here, rfl⟩

theorem Moved.frame {m : Move} (moved : s.Moved name next m s') (distinct : name ≠ other) :
    s'.pcs.find? other = s.pcs.find? other ∧ s'.env other = s.env other :=
  ⟨by simp [moved.places, Table.find?_insert, distinct], moved.others other distinct⟩

theorem moved_of_perform {m : Move} (done : s.perform T config name next m = .ok s') :
    s.Moved name next m s' := by
  cases m with
  | finish | stop | enter i | pass | emit index v =>
    obtain rfl := Except.ok.inj done
    constructor <;> simp [Move.target, Move.bound, Move.counted, Move.event?, Move.cost, halt,
      advance, State.env]
  | draw x id | assign x v | read store found =>
    obtain rfl := Except.ok.inj done
    constructor <;> simp +contextual [Move.target, Move.bound, Move.counted, Move.event?,
      Move.cost, bindValue, bindAll, advance, State.env, Table.find?_insert]
  | insert store fact | remove store fact =>
    simp only [perform, bind_eq_ok_iff, pure_eq_ok_iff] at done
    obtain ⟨held, -, after, -, rfl⟩ := done
    constructor <;> simp [Move.target, Move.bound, Move.counted, Move.event?, Move.cost, setStore,
      advance, State.env]
  | consume store fact found =>
    obtain ⟨held, -, rfl⟩ := perform_consume_iff.mp done
    constructor <;> simp +contextual [Move.target, Move.bound, Move.counted, Move.event?,
      Move.cost, bindAll, setStore, advance, State.env, Table.find?_insert]

end State

namespace State.Sound

variable {S : System} {s : State} {name : String}

theorem advance (sound : s.Sound S) (present : name ∈ s.pcs.keys) {next : List Nat}
    (inside : ∀ inst, S.get name = .ok inst → ∀ j ∈ next, j < inst.graph.size) :
    (s.advance name next).Sound S where
  distinct := Table.nodup_keys_insert _ _ sound.distinct
  instances := by
    intro other
    simpa [State.advance, Table.keys_insert_of_mem _ present] using sound.instances other
  environments := by
    intro other
    simpa [State.advance, Table.keys_insert_of_mem _ present] using sound.environments other
  places := by
    intro other place inst found got
    simp only [State.advance, Table.find?_insert] at found
    split at found
    next same =>
      subst same
      exact inside inst got place (List.mem_of_head? (by simpa using found))
    next => exact sound.places other place inst found got
  values := sound.values
  stores := sound.stores
  facts := sound.facts
  events := sound.events
  ordered := sound.ordered

theorem halt (sound : s.Sound S) (present : name ∈ s.pcs.keys) : (s.halt name).Sound S := by
  have moved : (s.advance name []).Sound S := sound.advance present (by simp)
  exact ⟨moved.distinct, moved.instances, moved.environments, moved.places, moved.values,
    moved.stores, moved.facts, moved.events, moved.ordered⟩

theorem bindEnv (sound : s.Sound S) (present : name ∈ s.envs.keys) {env : Subst}
    (values : ∀ x t, env.find? x = some t → t.Value S.theory s.drawn.names) :
    ({ s with envs := s.envs.insert name env } : State).Sound S where
  distinct := sound.distinct
  instances := sound.instances
  environments := by
    intro other
    rw [← sound.environments other, Table.keys_insert_of_mem _ present]
  places := sound.places
  values := by
    intro other x t found
    rw [State.env_insert] at found
    split at found
    next => exact values x t found
    next => exact sound.values other x t found
  stores := sound.stores
  facts := sound.facts
  events := sound.events
  ordered := sound.ordered

theorem bindValue (sound : s.Sound S) (present : name ∈ s.envs.keys) {x : String} {v : Term}
    (value : v.Value S.theory s.drawn.names) : (s.bindValue name x v).Sound S := by
  refine sound.bindEnv present fun y t found => ?_
  rw [Table.find?_insert] at found
  split at found
  next =>
    obtain rfl := Option.some.inj found
    exact value
  next => exact sound.values name y t found

theorem bindAll (sound : s.Sound S) (present : name ∈ s.envs.keys) {found : Subst}
    (values : ∀ x u, (x, u) ∈ found.entries → u.Value S.theory s.drawn.names) :
    (s.bindAll name found).Sound S := by
  refine sound.bindEnv present fun y t here => ?_
  rcases Table.find?_merge here with new | old
  · exact values y t new
  · exact sound.values name y t old

theorem setStore (sound : s.Sound S) {held store : Store} {key : String}
    (found : s.stores.find? key = some held) (named : store.name = held.name)
    (values : ∀ fact ∈ store.facts, fact.Value S.theory s.drawn.names) :
    (s.setStore store).Sound S where
  distinct := sound.distinct
  instances := sound.instances
  environments := sound.environments
  places := sound.places
  values := sound.values
  stores := by
    intro other
    have present : store.name ∈ s.stores.keys := by
      rw [named, (sound.facts key held found).1]
      exact State.mem_keys_of_find? found
    rw [← sound.stores other]
    simp [State.setStore, Table.keys_insert_of_mem _ present]
  facts := by
    intro other store' here
    simp only [State.setStore, Table.find?_insert] at here
    split at here
    next same =>
      obtain rfl := Option.some.inj here
      exact ⟨same, values⟩
    next => exact sound.facts other store' here
  events := sound.events
  ordered := sound.ordered

theorem emit (sound : s.Sound S) {owner : String} {index : Nat} {v : Term}
    (value : v.Value S.theory s.drawn.names) :
    ({ s with events := s.events ++ [{ owner, index, term := v }] } : State).Sound S where
  distinct := sound.distinct
  instances := sound.instances
  environments := sound.environments
  places := sound.places
  values := sound.values
  stores := sound.stores
  facts := sound.facts
  events := by
    intro e member
    rcases List.mem_append.mp member with old | new
    · exact sound.events e old
    · obtain rfl := List.mem_singleton.mp new
      exact value
  ordered := sound.ordered

theorem bump (sound : s.Sound S) (id : Nat) :
    ({ s with drawn := s.drawn.bump id } : State).Sound S := by
  have wider := Tally.names_bump sound.ordered id
  exact
    { distinct := sound.distinct
      instances := sound.instances
      environments := sound.environments
      places := sound.places
      values := fun other x t found => (sound.values other x t found).mono wider
      stores := sound.stores
      facts := fun key store found =>
        ⟨(sound.facts key store found).1,
          fun fact member => ((sound.facts key store found).2 fact member).mono wider⟩
      events := fun e member => (sound.events e member).mono wider
      ordered := sound.ordered.bump id }

theorem mark (sound : s.Sound S) (dead : List String) : ({ s with dead } : State).Sound S :=
  ⟨sound.distinct, sound.instances, sound.environments, sound.places, sound.values, sound.stores,
    sound.facts, sound.events, sound.ordered⟩

end State.Sound

namespace System

variable {S : System} {D : Declarations} {config : RunConfig} {s : State} {name : String}
  {place : Nat} {node : Node}

theorem evaluate_eq_ok_iff {env : Subst} {t v : Term} : S.evaluate env t = .ok v ↔
    (t.subst env).vars = [] ∧ S.theory.normalize (t.subst env) = .ok v := by
  simp only [evaluate, ← Term.isGround_iff]
  split
  next ground => simp [ground]
  next ground => simp [ground]

theorem Takes.successor {step : Step} {j : Nat} (takes : S.Takes config step node)
    (there : step.after.pcs.find? step.owner = some (some j)) : j ∈ node.successors := by
  have placed := (State.moved_of_perform takes.performs).places
  have target : step.move.target node.successors = some j := by simpa [placed] using there
  have offers := takes.offers
  generalize step.move = m at offers target
  cases offers with
  | finish | stop => simp [Move.target] at target
  | @arm g arms i action graph live member =>
    obtain rfl : i = j := by simpa [Move.target] using target
    exact ((mem_filterM_iff live i).mp member).1
  | @alternative f i action member =>
    obtain rfl : i = j := by simpa [Move.target] using target
    exact member
  | _ => exact List.mem_of_head? target

namespace Compiled

theorem wellFormed (compiled : S.Compiled D) : S.theory.WellFormed :=
  compiled.theory ▸ compiled.decls.theory

theorem node_sound (compiled : S.Compiled D) (stands : S.StandsAt s name place node) :
    ∃ inst, S.get name = .ok inst ∧ inst.graph.node? place = some node ∧
      (∀ j ∈ node.successors, j < inst.graph.size) ∧ (∀ t ∈ node.action.terms, t.names = []) ∧
      ∀ key, node.action.store? = some key → key ∈ S.stores.keys := by
  obtain ⟨-, inst, got, found⟩ := stands
  obtain ⟨first, next, -, sound⟩ := compiled.each inst (mem_of_get got).1
  obtain ⟨A, graph, -⟩ := sound.assigned
  refine ⟨inst, got, found, fun j member => (graph.edge place node found j member).1,
    (graph.action place node found).nameless, fun key touched => ?_⟩
  rw [compiled.stores]
  exact Table.contains_iff.mp ((graph.action place node found).store key touched)

variable {step : Step}

theorem value_of_evaluate (compiled : S.Compiled D) (sound : s.Sound S) {t v : Term}
    (nameless : t.names = []) (value : S.evaluate (s.env name) t = .ok v) :
    v.Value S.theory s.drawn.names := by
  obtain ⟨ground, done⟩ := evaluate_eq_ok_iff.mp value
  exact .of_normalize compiled.wellFormed nameless (sound.values name) ground done

theorem instantiate_constructor (compiled : S.Compiled D) (sound : s.Sound S) {p : Term}
    (built : S.theory.Constructor p) (binds : List String) :
    S.instantiate (s.env name) p binds =
      .ok (p.subst ((s.env name).filter fun x => !binds.contains x)) := by
  refine compiled.wellFormed.normalize_subst built fun x u known => ?_
  rw [Table.find?_filter] at known
  split at known
  next => exact (sound.values name x u known).normal
  next => simp at known

theorem found_values (sound : s.Sound S) {held : Store} {key : String} {pattern fact : Term}
    {options : List Store.Candidate} {found : Subst} (here : s.stores.find? key = some held)
    (normal : S.theory.Normal pattern)
    (matching : held.candidatesOf S.theory pattern = .ok options) (member : (fact, found) ∈ options) :
    fact ∈ held.facts ∧ ∀ x u, (x, u) ∈ found.entries → u.Value S.theory s.drawn.names := by
  have values := (sound.facts key held here).2
  obtain ⟨inside, -, -, pieces⟩ := Store.candidate_sound normal values matching member
  exact ⟨inside, fun x u entry => (values fact inside).subterm (pieces x u entry).2⟩

theorem step_sound (compiled : S.Compiled D) (sound : step.before.Sound S)
    (takes : S.Takes config step node) : step.after.Sound S := by
  have offers := takes.offers
  obtain ⟨before, owner, place, move, after⟩ := step
  obtain ⟨stands, -, performs⟩ := takes
  obtain ⟨inst, got, found, inside, nameless, touches⟩ := compiled.node_sound stands
  simp only at sound stands offers performs ⊢
  have present : owner ∈ before.pcs.keys := (sound.instances owner).mpr ⟨inst, got⟩
  have present' : owner ∈ before.envs.keys := (sound.environments owner).mpr present
  have bounded (next : List Nat) (within : ∀ j ∈ next, j ∈ node.successors) :
      (before.advance owner next).Sound S := by
    refine sound.advance present fun inst' got' j member => ?_
    obtain rfl : inst = inst' := Except.ok.inj (got.symm.trans got')
    exact inside j (within j member)
  have moved := bounded node.successors fun j member => member
  cases offers with
  | finish =>
    obtain rfl := Except.ok.inj performs
    exact sound.halt present
  | stop =>
    obtain rfl := Except.ok.inj performs
    exact (sound.halt present).mark _
  | @arm g arms i action graph live member =>
    obtain rfl := Except.ok.inj performs
    refine bounded [i] fun j entered => ?_
    obtain rfl := List.mem_singleton.mp entered
    -- Only arms of the choice are tried.
    exact ((mem_filterM_iff live j).mp member).1
  | @alternative f i action member =>
    obtain rfl := Except.ok.inj performs
    exact bounded [i] fun j entered => List.mem_singleton.mp entered ▸ member
  | @draw x id action =>
    obtain rfl := Except.ok.inj performs
    -- The new name counts as drawn from here on, so it is bound after the count is raised.
    have drawn : (nonceName id (before.drawn.count id)).Value S.theory
        (before.drawn.bump id).names :=
      .nonce rfl (Tally.mem_names_bump sound.ordered id rfl)
    exact (moved.bump id).bindValue present' drawn
  | assign action value =>
    obtain rfl := Except.ok.inj performs
    exact moved.bindValue present'
      (compiled.value_of_evaluate sound (nameless _ (by simp [action, Action.terms])) value)
  | insert action value =>
    have holds := compiled.value_of_evaluate sound (nameless _ (by simp [action, Action.terms])) value
    obtain ⟨held, here, rfl⟩ := (State.perform_insert_iff holds).mp performs
    refine moved.setStore here rfl fun fact member => ?_
    rcases List.mem_append.mp member with old | new
    · exact (sound.facts _ held here).2 fact old
    · exact List.mem_singleton.mp new ▸ holds
  | remove action value =>
    have holds := compiled.value_of_evaluate sound (nameless _ (by simp [action, Action.terms])) value
    obtain ⟨held, here, there, rfl⟩ := (State.perform_remove_iff holds).mp performs
    exact moved.setStore here rfl fun fact member =>
      (sound.facts _ held here).2 fact (List.mem_of_mem_erase member)
  | @consume store p pattern fact binds held options found action here made matching member =>
    obtain ⟨-, values⟩ :=
      found_values sound here (Theory.normal_of_normalize made) matching member
    obtain ⟨held', here', rfl⟩ := State.perform_consume_iff.mp performs
    obtain rfl : held = held' := by simpa [here] using here'
    -- Whether the fact is taken or left, the store gains none.
    have kept : ((before.advance owner node.successors).setStore
        (State.afterConsume config held fact)).Sound S :=
      moved.setStore here State.name_afterConsume fun t inside =>
        (sound.facts _ held here).2 t (State.mem_of_mem_afterConsume inside)
    exact kept.bindAll present' values
  | read action here made matching member =>
    obtain rfl := Except.ok.inj performs
    obtain ⟨-, values⟩ :=
      found_values sound here (Theory.normal_of_normalize made) matching member
    exact moved.bindAll present' values
  | emit action value =>
    obtain rfl := Except.ok.inj performs
    exact moved.emit
      (compiled.value_of_evaluate sound (nameless _ (by simp [action, Action.terms])) value)
  | pass =>
    obtain rfl := Except.ok.inj performs
    exact moved

end Compiled

def opened (S : System) : Table String Store :=
  ⟨S.stores.entries.map fun (name, decl) => (name, { name, kind := decl.kind, facts := decl.initial })⟩

theorem find?_opened (key : String) : S.opened.find? key =
    (S.stores.find? key).map fun decl => { name := key, kind := decl.kind, facts := decl.initial } :=
  Table.find?_mapEntries (fun name (decl : StoreDecl) =>
    ({ name, kind := decl.kind, facts := decl.initial } : Store)) S.stores key

theorem exists_get_iff : (∃ inst, S.get name = .ok inst) ↔ name ∈ S.instances.map (·.name) := by
  constructor
  · rintro ⟨inst, got⟩
    obtain ⟨member, rfl⟩ := Compiled.mem_of_get got
    exact List.mem_map_of_mem member
  · intro member
    obtain ⟨inst, inside, rfl⟩ := List.mem_map.mp member
    cases found : S.instance? inst.name with
    | none => exact absurd (List.find?_eq_none.mp found inst inside) (by simp)
    | some inst' => exact ⟨inst', by simp [get, found]⟩

end System

namespace State

theorem drawGlobals_sound {T : Theory} {globals : List GlobalFresh} {shared : Subst} {drawn : Tally}
    (ordered : drawn.Ordered)
    (values : ∀ x t, shared.find? x = some t → t.Value T drawn.names) :
    (drawGlobals globals shared drawn).2.Ordered ∧
      ∀ x t, (drawGlobals globals shared drawn).1.find? x = some t →
        t.Value T (drawGlobals globals shared drawn).2.names := by
  induction globals generalizing shared drawn with
  | nil => exact ⟨ordered, values⟩
  | cons g rest ih =>
    refine ih (ordered.bump g.nonce) fun x t found => ?_
    rw [Table.find?_insert] at found
    split at found
    next =>
      obtain rfl := Option.some.inj found
      exact .nonce rfl (Tally.mem_names_bump ordered g.nonce rfl)
    next => exact (values x t found).mono (Tally.names_bump ordered g.nonce)

end State

namespace System

variable {S : System} {D : Declarations} {config : RunConfig} {s₀ s : State}

def opening (S : System) (globals : List GlobalFresh) : State :=
  { pcs := .ofList (S.instances.map fun inst => (inst.name, some 0))
    envs := .ofList (S.instances.map fun inst =>
      (inst.name, (State.drawGlobals globals .empty {}).1))
    stores := S.opened
    drawn := (State.drawGlobals globals .empty {}).2 }

def start (S : System) : State := S.opening S.globals

theorem envs_opening {globals : List GlobalFresh} {name : String} {env : Subst}
    (found : (S.opening globals).envs.find? name = some env) :
    env = (State.drawGlobals globals .empty {}).1 := by
  obtain ⟨inst, -, -, same⟩ : ∃ a ∈ S.instances, a.name = name ∧
      (State.drawGlobals globals .empty {}).1 = env := by
    simpa using Table.find?_ofList found
  exact same.symm

theorem env_opening {inst : ProcessInstance} (globals : List GlobalFresh)
    (member : inst ∈ S.instances) :
    (S.opening globals).env inst.name = (State.drawGlobals globals .empty {}).1 := by
  have present : inst.name ∈ (S.opening globals).envs.keys := by
    simp only [opening, Table.mem_keys_ofList, List.map_map]
    exact List.mem_map_of_mem member
  obtain ⟨env, found⟩ := Table.exists_find?_iff.mpr present
  simp [State.env, found, envs_opening found]

namespace Compiled

theorem initial_eq (compiled : S.Compiled D) : State.initial S = .ok S.start := by
  have each : ∀ entry ∈ S.stores.entries,
      (do return (entry.1, ← Store.create S.theory entry.1 entry.2.kind entry.2.initial) :
        Except Diagnostic (String × Store)) =
      .ok (entry.1, { name := entry.1, kind := entry.2.kind, facts := entry.2.initial }) := by
    intro entry member
    have sound := compiled.decls.entries entry.1 entry.2 (compiled.stores ▸ member)
    -- Initial facts were normalised when the store was declared.
    have normal : S.theory.normalizeAll entry.2.initial = .ok entry.2.initial := by
      rw [Theory.normalizeAll, mapM_eq_ok_iff, List.forall₂_same]
      intro fact inside
      exact Theory.normalize_of_normal (compiled.theory ▸ sound.normal fact inside)
    simp [Store.create, normal]
  have opened : Registry.instantiate S.theory S.stores = .ok S.opened := by
    simp only [Registry.instantiate, bind_eq_ok_iff, pure_eq_ok_iff]
    refine ⟨_, mapM_eq_ok_iff.mpr ?_, rfl⟩
    rw [List.forall₂_map_right_iff, List.forall₂_same]
    exact each
  simp only [State.initial, opened, bind_eq_ok_iff, pure_eq_ok_iff]
  exact ⟨S.opened, rfl, rfl⟩

theorem opening_sound (compiled : S.Compiled D) (globals : List GlobalFresh) :
    (S.opening globals).Sound S := by
  have drawn : (State.drawGlobals globals .empty {}).2.Ordered ∧
      ∀ x t, (State.drawGlobals globals .empty {}).1.find? x = some t →
        t.Value S.theory (State.drawGlobals globals .empty {}).2.names :=
    State.drawGlobals_sound (by simp [Tally.Ordered]) (by simp)
  constructor
  · exact Table.nodup_keys_ofList _
  · intro name
    rw [exists_get_iff]
    simp [opening, Table.mem_keys_ofList, Function.comp_def]
  · intro name
    simp [opening, Table.mem_keys_ofList, Function.comp_def]
  · intro name place inst found got
    obtain ⟨other, -, -, rfl⟩ : ∃ a ∈ S.instances, a.name = name ∧ 0 = place := by
      simpa using Table.find?_ofList found
    obtain ⟨first, next, -, sound⟩ := compiled.each inst (mem_of_get got).1
    exact sound.started
  · intro name x t found
    cases here : (S.opening globals).envs.find? name with
    | none => simp [State.env, here] at found
    | some env => exact drawn.2 x t (by simpa [State.env, here, envs_opening here] using found)
  · intro key
    rw [← Table.isSome_find?_iff, ← Table.isSome_find?_iff]
    simp [opening, find?_opened]
  · intro key store found
    obtain ⟨decl, declared, rfl⟩ : ∃ decl, S.stores.find? key = some decl ∧
        { name := key, kind := decl.kind, facts := decl.initial } = store := by
      simpa [opening, find?_opened] using found
    have sound := compiled.decls.store (compiled.stores ▸ declared)
    -- No declared fact holds a name, so it does not matter which were drawn.
    refine ⟨rfl, fun fact member => ⟨sound.ground fact member, ?_, ?_⟩⟩
    · exact compiled.theory ▸ sound.normal fact member
    · simp [sound.nameless fact member]
  · simp [opening]
  · exact drawn.1

theorem start_sound (compiled : S.Compiled D) : S.start.Sound S := compiled.opening_sound S.globals

theorem run_sound (compiled : S.Compiled D) {history : List Step} (sound : s₀.Sound S)
    (run : S.Run config s₀ history s) : s.Sound S := by
  induction run with
  | start => exact sound
  | step _ takes ih => exact compiled.step_sound ih takes

end Compiled

end System

def State.Holds (s : State) (t : Term) : Prop :=
  (∃ name x, (s.env name).find? x = some t) ∨ (∃ key, Store.Held s.stores key t) ∨
    ∃ e ∈ s.events, e.term = t

theorem State.Sound.value_of_holds {S : System} {s : State} {t : Term} (sound : s.Sound S)
    (holds : s.Holds t) : t.Value S.theory s.drawn.names := by
  rcases holds with ⟨name, x, found⟩ | ⟨key, store, found, member⟩ | ⟨e, member, rfl⟩
  · exact sound.values name x t found
  · exact (sound.facts key store found).2 t member
  · exact sound.events e member

namespace System

variable {S : System} {config : RunConfig} {s₀ s : State} {history : List Step}

/-- Whatever a run comes to hold is closed, and no subterm of it can be rewritten. -/
theorem run_holds_normal_forms {compiler : CompilerConfig} {M : Model}
    (done : compile compiler M = .ok S) (initial : State.initial S = .ok s₀)
    (run : S.Run config s₀ history s) {t : Term} (holds : s.Holds t) :
    t.isGround = true ∧
      ∀ u ∈ t.subterms, ∀ e ∈ S.theory.equations, ∀ σ : Subst, u ≠ e.lhs.subst σ := by
  obtain ⟨D, compiled⟩ := compiled_of_compile done
  rw [compiled.initial_eq] at initial
  obtain rfl := Except.ok.inj initial
  have value := (compiled.run_sound compiled.start_sound run).value_of_holds holds
  exact ⟨Term.isGround_iff.mpr value.ground, compiled.wellFormed.normal_iff.mp value.normal⟩

theorem run_courier_holds_normal_forms : ∃ S s₀ history s t,
    compile {} Model.courier = .ok S ∧ State.initial S = .ok s₀ ∧ S.Run {} s₀ history s ∧
      S.theory.equations.map (·.lhs) =
        [.app "fst" [.app "pair" [.var "x", .var "y"]],
          .app "snd" [.app "pair" [.var "x", .var "y"]]] ∧
      s.Holds t ∧ t = .app "Got" [.app "pair" [nonceName 1 0, nonceName 0 0]] ∧
      t.isGround = true ∧
      ∀ u ∈ t.subterms, ∀ e ∈ S.theory.equations, ∀ σ : Subst, u ≠ e.lhs.subst σ := by
  have ran : (do
      let S ← compile {} Model.courier
      let s₀ ← State.initial S
      let steps ← S.replay {} s₀ [("b", 0), ("a", 0), ("a", 0), ("a", 0), ("a", 0), ("b", 0),
        ("b", 0), ("b", 0)]
      let s := steps.foldl (fun _ step => step.after) s₀
      return (S.theory.equations.map (·.lhs), s.events.map (·.term)) :
        Result (List Term × List Term)) =
      .ok ([.app "fst" [.app "pair" [.var "x", .var "y"]],
          .app "snd" [.app "pair" [.var "x", .var "y"]]],
        [.app "Got" [.app "pair" [nonceName 1 0, nonceName 0 0]]]) := by
    decide +kernel
  simp only [bind_eq_ok_iff, pure_eq_ok_iff, lift_eq_ok_iff, Prod.mk.injEq] at ran
  obtain ⟨S, done, s₀, initial, steps, replayed, rules, emitted⟩ := ran
  have run := run_of_replay (Run.start : S.Run {} s₀ [] s₀) replayed
  rw [List.nil_append] at run
  obtain ⟨e, member, same⟩ := List.mem_map.mp (emitted ▸ List.mem_singleton_self _)
  have holds : State.Holds _ e.term := .inr (.inr ⟨e, member, rfl⟩)
  obtain ⟨ground, normal⟩ := run_holds_normal_forms done initial run holds
  exact ⟨S, s₀, steps, _, e.term, done, initial, run, rules, holds, same, ground, normal⟩

end System

end ThreatModel
