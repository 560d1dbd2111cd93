import ThreatModel.Run.Move

set_option autoImplicit false

namespace ThreatModel

namespace System

def evaluate (S : System) (env : Subst) (t : Term) : Result Term := do
  let value := t.subst env
  if value.isGround then S.theory.normalize value else throw (.unresolved t value)

/-- A pattern with the values known so far. The variables it introduces are matched anew each
time. -/
def instantiate (S : System) (env : Subst) (pattern : Term) (binds : List String) :
    Except Diagnostic Term :=
  S.theory.normalize (pattern.subst (env.filter fun x => !binds.contains x))

def conditionHolds (S : System) (env : Subst) (c : Condition) : Result Bool := do
  let left ← S.evaluate env c.left
  let right ← S.evaluate env c.right
  return (← S.theory.equal left right) == c.equal

def guardHolds (S : System) (env : Subst) : Action → Result Bool
  | .guard conditions excluded => do
      if ← conditions.allM (S.conditionHolds env) then
        return !(← excluded.anyM fun group => group.allM (S.conditionHolds env))
      else return false
  | _ => return true

def graph (S : System) (name : String) : Result Graph := return (← S.get name).graph

def nodeAt (g : Graph) (i : Nat) : Result Node :=
  match g.node? i with
  | some node => .ok node
  | none => .error .outOfRange

def current (S : System) (s : State) (name : String) : Result Node := do
  match s.pcs.find? name with
  | some (some pc) => nodeAt (← S.graph name) pc
  | _ => throw (.missing name)

def live (S : System) (g : Graph) (env : Subst) (arms : List Nat) : Result (List Nat) :=
  arms.filterM fun i => do S.guardHolds env (← nodeAt g i).action

def movesAt (S : System) (s : State) (name : String) (node : Node) : Result (List Move) := do
  let env := s.env name
  match node.action with
  | .finish => return [.finish]
  | .choice =>
      match ← S.live (← S.graph name) env node.successors with
      | [] => return [.stop]
      | arms => return arms.map .enter
  | .callSite _ => return node.successors.map .enter
  | .fresh x nonce => return [.draw x nonce]
  | .assign x term => return [.assign x (← S.evaluate env term)]
  | .insert store term => return [.insert store (← S.evaluate env term)]
  | .remove store term =>
      let fact ← S.evaluate env term
      if ← (← s.store store).holds S.theory fact then return [.remove store fact] else return []
  | .consume store pattern binds =>
      let options ← (← s.store store).candidatesOf S.theory (← S.instantiate env pattern binds)
      return options.map fun (fact, found) => .consume store fact found
  | .read store pattern binds =>
      let options ← (← s.store store).read S.theory (← S.instantiate env pattern binds)
      return options.map (.read store)
  | .emit term index => return [.emit index (← S.evaluate env term)]
  | .start | .guard .. | .loopHead | .alternative _ | .join => return [.pass]

def step (S : System) (config : RunConfig) (s : State) (name : String) : Result (List State) := do
  let node ← S.current s name
  (← S.movesAt s name node).mapM (s.perform S.theory config name node.successors)

def isSilentAt (S : System) (s : State) (name : String) : Result Bool :=
  return (← S.current s name).action.isSilent

def firstSilent? (S : System) (s : State) : List String → Result (Option String)
  | [] => .ok none
  | name :: rest => do
      if ← S.isSilentAt s name then return some name else firstSilent? S s rest

def stepAll (S : System) (config : RunConfig) (s : State) : List String → Result (List State)
  | [] => .ok []
  | name :: rest => return (← S.step config s name) ++ (← stepAll S config s rest)

/-- The states to explore next. Silent steps are local, so the first instance that can take one
runs alone; otherwise every instance is tried. -/
def successors (S : System) (config : RunConfig) (s : State) : Result (List State) := do
  match ← S.firstSilent? s s.active with
  | some name => S.step config s name
  | none => S.stepAll config s s.active

end System

end ThreatModel
