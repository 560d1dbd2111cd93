import ThreatModel.Theory.Basic

set_option autoImplicit false

namespace ThreatModel

structure Store where
  name : String
  kind : TypeKind
  facts : List Term := []
  deriving DecidableEq, Repr

namespace Store

abbrev Candidate := Term × Subst

def create (T : Theory) (name : String) (kind : TypeKind) (facts : List Term) :
    Except Diagnostic Store := do
  return { name, kind, facts := ← T.normalizeAll facts }

def holds (T : Theory) (s : Store) (fact : Term) : Except Diagnostic Bool := do
  let normal ← T.normalize fact
  return s.facts.contains normal

def insert (T : Theory) (s : Store) (fact : Term) : Result Store := do
  if !fact.isGround then throw (.openFact s.name fact)
  let normal ← T.normalize fact
  return { s with facts := s.facts ++ [normal] }

def erase (s : Store) (fact : Term) : Store := { s with facts := s.facts.erase fact }

def remove (T : Theory) (s : Store) (fact : Term) : Except Diagnostic Store := do
  let normal ← T.normalize fact
  if s.facts.contains normal then return s.erase normal
  else throw { cause := .factAbsent normal s.name, declaration := some s.name }

/-- The candidates among `facts`, each matching fact once, at its first occurrence. -/
def candidates (T : Theory) (pattern : Term) : List Term → Except Diagnostic (List Candidate)
  | [] => .ok []
  | fact :: rest => do
      match ← T.match? pattern fact with
      | none => candidates T pattern rest
      | some found => return (fact, found) :: (← candidates T pattern rest).filter (·.1 ≠ fact)

def candidatesOf (T : Theory) (s : Store) (pattern : Term) : Except Diagnostic (List Candidate) :=
  candidates T pattern s.facts

def consume (T : Theory) (s : Store) (pattern : Term)
    (choose : List Candidate → Result Candidate) : Result (Option Subst × Store) := do
  match ← s.candidatesOf T pattern with
  | [] => return (none, s)
  | options =>
      let (fact, found) ← choose options
      return (some found, s.erase fact)

def choice (place : Int) (options : List Candidate) : Result Candidate :=
  let place' := if place < 0 then place + options.length else place
  match if place' < 0 then none else options[place'.toNat]? with
  | some candidate => .ok candidate
  | none => .error .outOfRange

def read (T : Theory) (s : Store) (pattern : Term) : Except Diagnostic (List Subst) := do
  return (← s.candidatesOf T pattern).map (·.2)

def summary (s : Store) : String := s!"Store({s.name}, {s.facts.length} facts)"

end Store

end ThreatModel
