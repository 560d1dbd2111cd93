import ThreatModel.Term.Matching
import ThreatModel.Diagnostic.Fault

set_option autoImplicit false

namespace ThreatModel

structure Equation where
  lhs : Term
  rhs : Term
  deriving DecidableEq, Repr

def Equation.text (e : Equation) : String := s!"{e.lhs.text} = {e.rhs.text}"

structure Theory where
  symbols : Table String Nat := .empty
  equations : List Equation := []
  budget : Int
  closed : Bool := false
  deriving DecidableEq, Repr

namespace Equation

def reduct? (e : Equation) (t : Term) : Option Term :=
  (e.lhs.match? t).map e.rhs.subst

end Equation

def rewriteRoot? (equations : List Equation) (t : Term) : Option Term :=
  equations.findSome? fun e => e.reduct? t

namespace Rewriting

abbrev Outcome (α : Type) := Except Term (α × Nat)

abbrev Evaluator := Nat → Term → Outcome Term

mutual

def evaluateWith (equations : List Equation) (next : Evaluator) : Nat → Term → Outcome Term
  | left, .app f args =>
      match evaluateAllWith equations next left args with
      | .error last => .error last
      | .ok (args', left') =>
          match rewriteRoot? equations (.app f args'), left' with
          | none, _ => .ok (.app f args', left')
          | some _, 0 => .error (.app f args')
          | some reduct, left'' + 1 => next left'' reduct
  | left, t => .ok (t, left)

def evaluateAllWith (equations : List Equation) (next : Evaluator) :
    Nat → List Term → Outcome (List Term)
  | left, [] => .ok ([], left)
  | left, t :: ts =>
      match evaluateWith equations next left t with
      | .error last => .error last
      | .ok (t', left') =>
          match evaluateAllWith equations next left' ts with
          | .error last => .error last
          | .ok (ts', left'') => .ok (t' :: ts', left'')

end

/-- Evaluation with at most `depth` rewrites, one after another at one root. Every rewrite costs
one of those that are left, so a depth of as many is never used up. -/
def evaluate (equations : List Equation) : (depth : Nat) → Evaluator
  | 0 => evaluateWith equations fun _ t => .error t
  | depth + 1 => evaluateWith equations (evaluate equations depth)

end Rewriting

namespace Theory

def hasSymbol (T : Theory) (f : String) : Bool := T.symbols.contains f

def misuse? (T : Theory) (t : Term) : Option Cause :=
  t.subterms.findSome? fun s =>
    match s with
    | .app f args =>
        match T.symbols.find? f with
        | none => some (.undeclaredSymbol f)
        | some arity =>
            if arity = args.length then none else some (.symbolArity f args.length arity)
    | _ => none

def checkTerm (T : Theory) (t : Term) (declaration : Option String) (location : Option Location) :
    Except Diagnostic Unit :=
  match T.misuse? t with
  | none => .ok ()
  | some cause => .error { cause, declaration, location }

def stepLimit (T : Theory) : Int := T.budget * (T.equations.length + 1)

def limitFor (T : Theory) (t : Term) : Int := T.stepLimit * t.size

def normalize (T : Theory) (t : Term) : Except Diagnostic Term :=
  let allowed := (T.limitFor t).toNat
  match Rewriting.evaluate T.equations allowed allowed t with
  | .ok (r, _) => .ok r
  | .error last => .error { cause := .diverged (T.limitFor t) last }

def normalizeAll (T : Theory) (ts : List Term) : Except Diagnostic (List Term) :=
  ts.mapM T.normalize

def isNormal (T : Theory) (t : Term) : Except Diagnostic Bool := do
  return (← T.normalize t) = t

def equal (T : Theory) (s t : Term) : Except Diagnostic Bool := do
  let s' ← T.normalize s
  let t' ← T.normalize t
  return s' = t'

def match? (T : Theory) (pattern t : Term) (σ : Subst := .empty) :
    Except Diagnostic (Option Subst) := do
  let pattern' ← T.normalize pattern
  let t' ← T.normalize t
  return pattern'.match? t' σ

def matchOrFail (T : Theory) (pattern t : Term) (σ : Subst := .empty) :
    Except Diagnostic Subst := do
  match ← T.match? pattern t σ with
  | some found => return found
  | none => throw { cause := .mismatch pattern t }

def summary (T : Theory) : String :=
  s!"Theory({T.symbols.size} symbols, {T.equations.length} equations)"

end Theory

end ThreatModel
