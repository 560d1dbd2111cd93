import ThreatModel.Sorted
import ThreatModel.Theory.Basic

set_option autoImplicit false

namespace ThreatModel

def Equation.skolem (e : Equation) : Subst :=
  ⟨(Sorted.ofList e.lhs.vars).mapIdx fun i x => (x, .const s!"$sk{i}")⟩

namespace Theory

def declareSymbol (T : Theory) (f : String) (arity : Int) (location : Option Location := none) :
    Result Theory :=
  if T.closed then .error .theoryClosed
  else
    match T.symbols.find? f with
    | some known =>
        .error (.flaw { cause := .symbolTwice f known, declaration := some f, location })
    | none =>
        if arity < 0 then
          .error (.flaw { cause := .negativeArity f arity, declaration := some f, location })
        else .ok { T with symbols := T.symbols.insert f arity.toNat }

/-- Whether the equation, once it belongs to the theory, makes its own instance equal. -/
def fires (T : Theory) (e : Equation) (declaration : String) (location : Option Location) :
    Except Diagnostic Unit := do
  let left ← T.normalize (e.lhs.subst e.skolem)
  let right ← T.normalize (e.rhs.subst e.skolem)
  if left = right then return ()
  else
    throw { cause := .neverFires declaration left right, declaration := some declaration, location }

def declareEquation (T : Theory) (lhs rhs : Term) (location : Option Location := none) :
    Result Theory := do
  if T.closed then throw .theoryClosed
  let e : Equation := { lhs, rhs }
  let declaration := some e.text
  T.checkTerm lhs declaration location
  T.checkTerm rhs declaration location
  if !lhs.isApp then
    throw (.flaw { cause := .headlessEquation e.text, declaration, location })
  let loose := rhs.vars.filter fun x => !lhs.vars.contains x
  if !loose.isEmpty then
    throw (.flaw { cause := .looseVariables e.text (Sorted.ofList loose), declaration, location })
  let extended := { T with equations := T.equations ++ [e] }
  extended.fires e e.text location
  return extended

def close (T : Theory) : Theory := { T with closed := true }

def ofBudget (budget : Int) : Result Theory := do
  let T : Theory := { budget }
  let T ← T.declareSymbol "pair" 2
  let T ← T.declareSymbol "fst" 1
  let T ← T.declareSymbol "snd" 1
  let both := Term.pair (.var "x") (.var "y")
  let T ← T.declareEquation (.app "fst" [both]) (.var "x")
  T.declareEquation (.app "snd" [both]) (.var "y")

end Theory

end ThreatModel
