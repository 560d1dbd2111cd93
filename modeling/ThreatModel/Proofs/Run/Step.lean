import Mathlib
import ThreatModel.Run.Step
import ThreatModel.Proofs.Result
import ThreatModel.Proofs.Table
import ThreatModel.Proofs.System.Compiled

set_option autoImplicit false

namespace ThreatModel

open Result

/-- The moves that a node offers to an instance, one rule for each kind of action. -/
inductive System.Offers (S : System) (s : State) (name : String) (node : Node) : Move → Prop
  | finish (action : node.action = .finish) : Offers S s name node .finish
  | stop {g : Graph} (action : node.action = .choice) (graph : S.graph name = .ok g)
      (live : S.live g (s.env name) node.successors = .ok []) : Offers S s name node .stop
  | arm {g : Graph} {arms : List Nat} {i : Nat} (action : node.action = .choice)
      (graph : S.graph name = .ok g) (live : S.live g (s.env name) node.successors = .ok arms)
      (member : i ∈ arms) : Offers S s name node (.enter i)
  | alternative {f : String} {i : Nat} (action : node.action = .callSite f)
      (member : i ∈ node.successors) : Offers S s name node (.enter i)
  | draw {x : String} {id : Nat} (action : node.action = .fresh x id) :
      Offers S s name node (.draw x id)
  | assign {x : String} {t v : Term} (action : node.action = .assign x t)
      (value : S.evaluate (s.env name) t = .ok v) : Offers S s name node (.assign x v)
  | insert {store : String} {t v : Term} (action : node.action = .insert store t)
      (value : S.evaluate (s.env name) t = .ok v) : Offers S s name node (.insert store v)
  | remove {store : String} {t v : Term} {held : Store} (action : node.action = .remove store t)
      (value : S.evaluate (s.env name) t = .ok v) (found : s.stores.find? store = some held)
      (holds : held.holds S.theory v = .ok true) : Offers S s name node (.remove store v)
  | consume {store : String} {p pattern fact : Term} {binds : List String} {held : Store}
      {options : List Store.Candidate} {found : Subst} (action : node.action = .consume store p binds)
      (here : s.stores.find? store = some held)
      (made : S.instantiate (s.env name) p binds = .ok pattern)
      (matching : held.candidatesOf S.theory pattern = .ok options)
      (member : (fact, found) ∈ options) : Offers S s name node (.consume store fact found)
  | read {store : String} {p pattern fact : Term} {binds : List String} {held : Store}
      {options : List Store.Candidate} {found : Subst} (action : node.action = .read store p binds)
      (here : s.stores.find? store = some held)
      (made : S.instantiate (s.env name) p binds = .ok pattern)
      (matching : held.candidatesOf S.theory pattern = .ok options)
      (member : (fact, found) ∈ options) : Offers S s name node (.read store found)
  | emit {t v : Term} {index : Nat} (action : node.action = .emit t index)
      (value : S.evaluate (s.env name) t = .ok v) : Offers S s name node (.emit index v)
  | pass (action : node.action = .start ∨ (∃ cs excluded, node.action = .guard cs excluded) ∨
      node.action = .loopHead ∨ (∃ tag, node.action = .alternative tag) ∨ node.action = .join) :
      Offers S s name node .pass

theorem State.store_eq_ok_iff {s : State} {name : String} {held : Store} :
    s.store name = .ok held ↔ s.stores.find? name = some held := by
  simp only [store]
  split <;> simp_all

namespace System

variable {S : System} {config : RunConfig} {s s' : State} {name : String} {node : Node}

theorem offers_of_mem {moves : List Move} {m : Move} (offered : S.movesAt s name node = .ok moves)
    (member : m ∈ moves) : S.Offers s name node m := by
  simp only [movesAt] at offered
  cases action : node.action with
  | finish =>
    simp only [action, pure_eq_ok_iff] at offered
    obtain rfl : m = .finish := by simpa [← offered] using member
    exact .finish action
  | choice =>
    simp only [action, bind_eq_ok_iff] at offered
    obtain ⟨g, graph, arms, live, offered⟩ := offered
    cases arms with
    | nil =>
      -- No guard holds: the instance stops here.
      simp only [pure_eq_ok_iff] at offered
      obtain rfl : m = .stop := by simpa [← offered] using member
      exact .stop action graph live
    | cons i rest =>
      simp only [pure_eq_ok_iff] at offered
      subst offered
      obtain ⟨j, inside, rfl⟩ := List.mem_map.mp member
      exact .arm action graph live inside
  | callSite f =>
    simp only [action, pure_eq_ok_iff] at offered
    subst offered
    obtain ⟨j, inside, rfl⟩ := List.mem_map.mp member
    exact .alternative action inside
  | fresh x id =>
    simp only [action, pure_eq_ok_iff] at offered
    obtain rfl : m = .draw x id := by simpa [← offered] using member
    exact .draw action
  | assign x t =>
    simp only [action, bind_eq_ok_iff, pure_eq_ok_iff] at offered
    obtain ⟨v, value, rfl⟩ := offered
    obtain rfl := List.mem_singleton.mp member
    exact .assign action value
  | insert store t =>
    simp only [action, bind_eq_ok_iff, pure_eq_ok_iff] at offered
    obtain ⟨v, value, rfl⟩ := offered
    obtain rfl := List.mem_singleton.mp member
    exact .insert action value
  | remove store t =>
    simp only [action, bind_eq_ok_iff, State.store_eq_ok_iff, lift_eq_ok_iff] at offered
    obtain ⟨v, value, held, found, holds, decided, offered⟩ := offered
    cases holds with
    | false =>
      simp only [Bool.false_eq_true, if_false, pure_eq_ok_iff] at offered
      simp [← offered] at member
    | true =>
      simp only [if_true, pure_eq_ok_iff] at offered
      obtain rfl : m = .remove store v := by simpa [← offered] using member
      exact .remove action value found decided
  | consume store p binds =>
    simp only [action, bind_eq_ok_iff, State.store_eq_ok_iff, lift_eq_ok_iff, pure_eq_ok_iff]
      at offered
    obtain ⟨held, here, pattern, made, options, matching, rfl⟩ := offered
    obtain ⟨⟨fact, found⟩, among, rfl⟩ := List.mem_map.mp member
    exact .consume action here made matching among
  | read store p binds =>
    simp only [action, bind_eq_ok_iff, State.store_eq_ok_iff, lift_eq_ok_iff, Store.read,
      pure_eq_ok_iff] at offered
    obtain ⟨held, here, pattern, made, founds, ⟨options, matching, rfl⟩, rfl⟩ := offered
    obtain ⟨found, inside, rfl⟩ := List.mem_map.mp member
    obtain ⟨⟨fact, found'⟩, among, rfl⟩ := List.mem_map.mp inside
    exact .read action here made matching among
  | emit t index =>
    simp only [action, bind_eq_ok_iff, pure_eq_ok_iff] at offered
    obtain ⟨v, value, rfl⟩ := offered
    obtain rfl := List.mem_singleton.mp member
    exact .emit action value
  | start | guard cs excluded | loopHead | alternative tag | join =>
    simp only [action, pure_eq_ok_iff] at offered
    obtain rfl : m = .pass := by simpa [← offered] using member
    exact .pass (by simp [action])

theorem graph_eq_ok_iff {g : Graph} :
    S.graph name = .ok g ↔ ∃ inst, S.get name = .ok inst ∧ inst.graph = g := by
  simp only [graph, bind_eq_ok_iff, pure_eq_ok_iff]

theorem nodeAt_eq_ok_iff {g : Graph} {i : Nat} : nodeAt g i = .ok node ↔ g.node? i = some node := by
  simp only [nodeAt]
  split <;> simp_all

def StandsAt (S : System) (s : State) (name : String) (place : Nat) (node : Node) : Prop :=
  s.pcs.find? name = some (some place) ∧
    ∃ inst, S.get name = .ok inst ∧ inst.graph.node? place = some node

theorem current_eq_ok_iff : S.current s name = .ok node ↔ ∃ place, S.StandsAt s name place node := by
  simp only [current, StandsAt]
  split
  next pc found =>
    simp only [bind_eq_ok_iff, graph_eq_ok_iff, nodeAt_eq_ok_iff, found]
    constructor
    · rintro ⟨g, ⟨inst, got, rfl⟩, here⟩
      exact ⟨pc, rfl, inst, got, here⟩
    · rintro ⟨place, same, inst, got, here⟩
      obtain rfl : pc = place := by simpa using same
      exact ⟨_, ⟨inst, got, rfl⟩, here⟩
  next absent =>
    constructor
    · intro done
      simp at done
    · rintro ⟨place, found, -⟩
      exact absurd found (absent place)

end System

structure Step where
  before : State
  owner : String
  place : Nat
  move : Move
  after : State
  deriving DecidableEq

namespace System

variable {S : System} {config : RunConfig} {s s' : State} {name : String} {node : Node}
  {out : List State} {picks : List (String × Nat)}

structure Takes (S : System) (config : RunConfig) (step : Step) (node : Node) : Prop where
  stands : S.StandsAt step.before step.owner step.place node
  offered : ∃ moves, S.movesAt step.before step.owner node = .ok moves ∧ step.move ∈ moves
  performs : step.before.perform S.theory config step.owner node.successors step.move =
    .ok step.after

theorem Takes.offers {step : Step} (takes : S.Takes config step node) :
    S.Offers step.before step.owner node step.move := by
  obtain ⟨moves, offered, member⟩ := takes.offered
  exact offers_of_mem offered member

def Interleaves (S : System) (config : RunConfig) (s s' : State) : Prop :=
  ∃ name ∈ s.active, ∃ out, S.step config s name = .ok out ∧ s' ∈ out

def Explores (S : System) (config : RunConfig) (s s' : State) : Prop :=
  ∃ out, S.successors config s = .ok out ∧ s' ∈ out

theorem step_eq_ok_iff : S.step config s name = .ok out ↔
    ∃ place node moves, S.StandsAt s name place node ∧ S.movesAt s name node = .ok moves ∧
      moves.mapM (s.perform S.theory config name node.successors) = .ok out := by
  simp only [step, bind_eq_ok_iff, current_eq_ok_iff]
  constructor
  · rintro ⟨node, ⟨place, stands⟩, moves, offered, performed⟩
    exact ⟨place, node, moves, stands, offered, performed⟩
  · rintro ⟨place, node, moves, stands, offered, performed⟩
    exact ⟨node, ⟨place, stands⟩, moves, offered, performed⟩

theorem exists_takes_of_step (stepped : S.step config s name = .ok out) (member : s' ∈ out) :
    ∃ step node, S.Takes config step node ∧ step.before = s ∧ step.owner = name ∧
      step.after = s' := by
  obtain ⟨place, node, moves, stands, offered, performed⟩ := step_eq_ok_iff.mp stepped
  obtain ⟨m, among, performs⟩ := mem_of_mapM_eq_ok performed member
  exact ⟨⟨s, name, place, m, s'⟩, node, ⟨stands, ⟨moves, offered, among⟩, performs⟩, rfl, rfl, rfl⟩

theorem mem_of_firstSilent? {names : List String} (found : S.firstSilent? s names = .ok (some name)) :
    name ∈ names ∧ ∃ node, S.current s name = .ok node ∧ node.action.isSilent = true := by
  induction names with
  | nil => simp [firstSilent?] at found
  | cons first rest ih =>
    simp only [firstSilent?, bind_eq_ok_iff, isSilentAt, pure_eq_ok_iff] at found
    obtain ⟨silent, ⟨node, here, rfl⟩, found⟩ := found
    split at found
    next quiet =>
      simp only [pure_eq_ok_iff, Option.some.injEq] at found
      subst found
      exact ⟨by simp, node, here, quiet⟩
    next =>
      obtain ⟨member, rest⟩ := ih found
      exact ⟨by simp [member], rest⟩

theorem mem_stepAll {names : List String} (done : S.stepAll config s names = .ok out)
    (member : s' ∈ out) : ∃ name ∈ names, ∃ out, S.step config s name = .ok out ∧ s' ∈ out := by
  induction names generalizing out with
  | nil =>
    obtain rfl : [] = out := by simpa [stepAll] using done
    simp at member
  | cons first rest ih =>
    simp only [stepAll, bind_eq_ok_iff, pure_eq_ok_iff] at done
    obtain ⟨here, stepped, later, others, rfl⟩ := done
    rcases List.mem_append.mp member with now | after
    · exact ⟨first, by simp, here, stepped, now⟩
    · obtain ⟨name, among, found⟩ := ih others after
      exact ⟨name, by simp [among], found⟩

theorem Explores.interleaves (explored : S.Explores config s s') : S.Interleaves config s s' := by
  obtain ⟨out, done, member⟩ := explored
  simp only [successors, bind_eq_ok_iff] at done
  obtain ⟨chosen, silent, done⟩ := done
  cases chosen with
  | some name =>
    obtain ⟨among, -⟩ := mem_of_firstSilent? silent
    exact ⟨name, among, out, done, member⟩
  | none => exact mem_stepAll done member

inductive Run (S : System) (config : RunConfig) (s₀ : State) : List Step → State → Prop
  | start : Run S config s₀ [] s₀
  | step {history : List Step} {step : Step} {node : Node} (run : Run S config s₀ history step.before)
      (takes : S.Takes config step node) : Run S config s₀ (history ++ [step]) step.after

namespace Run

variable {s₀ : State} {history : List Step}

theorem exists_of_mem {step : Step} (run : S.Run config s₀ history s) (member : step ∈ history) :
    ∃ earlier node, S.Run config s₀ earlier step.before ∧ S.Takes config step node := by
  induction run with
  | start => simp at member
  | @step history last node run takes ih =>
    rcases List.mem_append.mp member with old | new
    · exact ih old
    · obtain rfl := List.mem_singleton.mp new
      exact ⟨history, node, run, takes⟩

theorem exists_takes {step : Step} (run : S.Run config s₀ (history ++ [step]) s) :
    S.Run config s₀ history step.before ∧ ∃ node, S.Takes config step node := by
  generalize whole : history ++ [step] = steps at run
  cases run with
  | start => simp at whole
  | @step earlier last node run takes =>
    obtain ⟨rfl, rfl⟩ : history = earlier ∧ step = last := by simpa using whole
    exact ⟨run, node, takes⟩

end Run

def replay (S : System) (config : RunConfig) : State → List (String × Nat) → Result (List Step)
  | _, [] => .ok []
  | before, (owner, i) :: rest => do
      let node ← S.current before owner
      match (← S.movesAt before owner node)[i]? with
      | none => throw .outOfRange
      | some move =>
        let after ← before.perform S.theory config owner node.successors move
        let place := (before.pcs.find? owner).join.getD 0
        return { before, owner, place, move, after } :: (← S.replay config after rest)

theorem run_of_replay {s₀ : State} {history later : List Step} (run : S.Run config s₀ history s)
    (replayed : S.replay config s picks = .ok later) :
    S.Run config s₀ (history ++ later) (later.foldl (fun _ step => step.after) s) := by
  induction picks generalizing history later s with
  | nil =>
    obtain rfl : [] = later := by simpa [replay] using replayed
    simpa using run
  | cons pick rest ih =>
    obtain ⟨owner, i⟩ := pick
    simp only [replay, bind_eq_ok_iff] at replayed
    obtain ⟨node, here, moves, offered, replayed⟩ := replayed
    obtain ⟨place, stands⟩ := current_eq_ok_iff.mp here
    cases picked : moves[i]? with
    | none => simp [picked] at replayed
    | some move =>
      simp only [picked, bind_eq_ok_iff, pure_eq_ok_iff] at replayed
      obtain ⟨after, performs, others, rest, rfl⟩ := replayed
      have takes : S.Takes config ⟨s, owner, place, move, after⟩ node :=
        ⟨stands, ⟨moves, offered, List.mem_of_getElem? picked⟩, performs⟩
      simpa [stands.1] using ih (run.step takes) rest

theorem exists_takes_of_replay {s₀ : State} {steps : List Step} {moves : List Move} {m : Move}
    (replayed : S.replay config s₀ picks = .ok steps) (moved : steps.map (·.move) = moves ++ [m]) :
    ∃ history step node, S.Run config s₀ history step.before ∧ S.Takes config step node ∧
      history.map (·.move) = moves ∧ step.move = m := by
  obtain ⟨history, last, rfl, earlier, final⟩ := List.map_eq_append_iff.mp moved
  obtain ⟨step, rfl, rfl⟩ := List.map_eq_singleton_iff.mp final
  have whole := run_of_replay (Run.start : S.Run config s₀ [] s₀) replayed
  obtain ⟨run, node, takes⟩ := Run.exists_takes (by simpa only [List.nil_append] using whole)
  exact ⟨history, step, node, run, takes, earlier, rfl⟩

inductive Path (R : State → State → Prop) : Nat → State → State → Prop
  | refl (s : State) : Path R 0 s s
  | head {s s' s'' : State} {n : Nat} (first : R s s') (rest : Path R n s' s'') : Path R (n + 1) s s''

end System

end ThreatModel
