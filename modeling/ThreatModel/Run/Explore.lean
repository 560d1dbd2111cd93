import ThreatModel.Formula.Check
import ThreatModel.Run.Step

set_option autoImplicit false

namespace ThreatModel

structure Trace where
  events : List TraceEvent := []
  finished : List String := []
  blocked : List String := []
  stores : Table String (List Term) := .empty
  steps : Nat := 0
  truncated : Bool := false
  deriving DecidableEq, Repr

namespace Trace

def ofState (s : State) (truncated : Bool) : Trace :=
  { events := s.events
    finished :=
      (s.pcs.entries.filter fun (name, pc) => pc.isNone && !s.dead.contains name).map (·.1)
    blocked := s.active ++ s.dead
    stores := s.stores.map (·.facts)
    steps := s.steps
    truncated }

def terms (t : Trace) : List Term := t.events.map (·.term)

def complete (t : Trace) : Bool := t.blocked.isEmpty && !t.truncated

def text (t : Trace) : String :=
  if t.events.isEmpty then "<empty>" else " -> ".intercalate (t.events.map (·.text))

def key (t : Trace) : List (String × Term) := t.events.map fun e => (e.owner, e.term)

end Trace

structure Exploration where
  traces : List Trace := []
  seen : List (List (String × Term)) := []
  fault : Option Fault := none
  deriving DecidableEq, Repr

namespace Exploration

def isOver (config : RunConfig) (x : Exploration) : Bool :=
  x.fault.isSome || config.maxTraces ≤ x.traces.length

def add (config : RunConfig) (x : Exploration) (t : Trace) : Exploration :=
  if config.dedupe then
    if x.seen.contains t.key then x
    else { x with traces := x.traces ++ [t], seen := t.key :: x.seen }
  else { x with traces := x.traces ++ [t] }

end Exploration

namespace System

def continuations (S : System) (config : RunConfig) (s : State) : Result (List State) :=
  if s.steps < config.maxSteps then S.successors config s else .ok []

def exploreFrom (S : System) (config : RunConfig) :
    (depth : Nat) → State → Exploration → Exploration
  | 0, _, x => if x.isOver config then x else { x with fault := some .tooLong }
  | depth + 1, s, x =>
      if x.isOver config then x
      else
        match S.continuations config s with
        | .error fault => { x with fault := some fault }
        | .ok [] => x.add config (.ofState s (config.maxSteps ≤ s.steps))
        | .ok next => next.foldl (fun x s' => exploreFrom S config depth s' x) x

/-- Each step either counts or ends an instance, which bounds the depth of a search. -/
def depthBound (S : System) (config : RunConfig) : Nat :=
  config.maxSteps.toNat + S.instances.length + 1

def explore (S : System) (config : RunConfig) : Result Exploration := do
  let s ← State.initial S
  return S.exploreFrom config (S.depthBound config) s {}

def traces (S : System) (config : RunConfig) : Result (List Trace) := do
  let x ← S.explore config
  match x.fault with
  | none => return x.traces
  | some fault => throw fault

/-- The first trace that meets a condition. A fault met only after it does not matter. -/
def findTrace (S : System) (config : RunConfig) (wanted : Trace → Bool) :
    Result (Option Trace) := do
  let x ← S.explore config
  match x.traces.find? wanted, x.fault with
  | some t, _ => return some t
  | none, none => return none
  | none, some fault => throw fault

def checkLemmas (S : System) (t : Trace) (solver : Solver := .exhaustive) :
    Result (List (String × Bool)) :=
  S.lemmas.mapM fun l => return (l.name, ← l.formula.check S.theory t.terms solver)

end System

end ThreatModel
