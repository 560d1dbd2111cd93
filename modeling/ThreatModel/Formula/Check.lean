import ThreatModel.Formula.Solver
import ThreatModel.Theory.Basic

set_option autoImplicit false

namespace ThreatModel

/-- What the variables of a formula range over on a trace. -/
structure Domain where
  events : List Term
  members : List Term
  deriving DecidableEq, Repr

namespace Domain

def create (T : Theory) (trace : List Term) (f : Formula) : Except Diagnostic Domain := do
  let events ← T.normalizeAll trace
  let mentioned ← T.normalizeAll f.terms
  let members :=
    events.flatMap Term.subterms ++ (mentioned.flatMap Term.subterms).filter Term.isGround
  return { events, members := members.eraseDups }

def place? (D : Domain) (t : Term) : Option Nat := D.members.findIdx? (· = t)

def bound (D : Domain) (x : String) : Nat :=
  if isIndex x then D.events.length else D.members.length

/-- The places of the values that a match found. A variable must be bound; a value outside the
universe is met by none. -/
def pins (D : Domain) (bound : List String) :
    List (String × Term) → Result (Option (List (String × Nat)))
  | [] => .ok (some [])
  | (x, t) :: rest =>
      if x ∉ bound then .error (.unsupported (.freeVariable x))
      else
        match D.place? t with
        | none => .ok none
        | some k => return (← pins D bound rest).map ((x, k) :: ·)

def denotes (D : Domain) (bound : List String) (t value : Term) :
    Result (Option (List (String × Nat))) :=
  match t.match? value with
  | none => .ok none
  | some found => D.pins bound found.entries

def requireIndex (bound : List String) (i : String) : Result Unit :=
  if i ∈ bound then .ok () else .error (.unsupported (.freeIndex i))

def requireVariable (bound : List String) (x : String) : Result Unit :=
  if x ∈ bound then .ok () else .error (.unsupported (.freeVariable x))

def eventOptions (D : Domain) (bound : List String) (event : Term) (i : String) :
    List (Term × Nat) → Result (List (List (String × Nat)))
  | [] => .ok []
  | (value, position) :: rest => do
      match ← D.denotes bound event value with
      | none => eventOptions D bound event i rest
      | some found => return ((i, position) :: found) :: (← eventOptions D bound event i rest)

def equalOptions (D : Domain) (bound : List String) (l r : Term) :
    List Term → Result (List (List (String × Nat)))
  | [] => .ok []
  | value :: rest => do
      let left ← D.denotes bound l value
      let right ← D.denotes bound r value
      match left, right with
      | some xs, some ys => return (xs ++ ys) :: (← equalOptions D bound l r rest)
      | _, _ => equalOptions D bound l r rest

def equality (T : Theory) (D : Domain) (bound : List String) (l r : Term) : Result Constraint := do
  let l ← T.normalize l
  let r ← T.normalize r
  if l.isGround && r.isGround then return .const (l = r)
  match l, r with
  | .var x, .var y =>
      requireVariable bound x
      requireVariable bound y
      return .same x y
  | _, _ => return .oneOf (← D.equalOptions bound l r D.members)

mutual

def constrain (T : Theory) (D : Domain) : Formula → (bound : List String) → Result Constraint
  | .truth, _ => .ok (.const true)
  | .not f, bound => return .not (← constrain T D f bound)
  | .and fs, bound => return .and (← constrainAll T D fs bound)
  | .or fs, bound => return .or (← constrainAll T D fs bound)
  | .implies p c, bound => do
      let p ← constrain T D p bound
      let c ← constrain T D c bound
      return .implies p c
  | .precedes i j, bound => do
      requireIndex bound i
      requireIndex bound j
      return .less i j
  | .eventAt event i, bound => do
      requireIndex bound i
      let event ← T.normalize event
      return .oneOf (← D.eventOptions bound event i D.events.zipIdx)
  | .equal l r, bound => equality T D bound l r
  | .quant q xs f, bound => do
      let body ← constrain T D f (xs ++ bound)
      let bounds := xs.map fun x => (x, D.bound x)
      match xs, q with
      | [], _ => return body
      | _, .all => return .all bounds body
      | _, .some => return .some bounds body
      | _, .unknown word => throw (.unsupported (.quantifier word))
  | .unsupported, _ => .error (.unsupported (.form Formula.unsupportedForm))

def constrainAll (T : Theory) (D : Domain) :
    List Formula → (bound : List String) → Result (List Constraint)
  | [], _ => .ok []
  | f :: fs, bound => return (← constrain T D f bound) :: (← constrainAll T D fs bound)

end

end Domain

def Formula.check (f : Formula) (T : Theory) (trace : List Term)
    (solver : Solver := .exhaustive) : Result Bool := do
  let D ← Domain.create T trace f
  let c ← D.constrain T f []
  return solver.holds c

end ThreatModel
