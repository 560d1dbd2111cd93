import ThreatModel.Term.Basic

set_option autoImplicit false

namespace ThreatModel

namespace Subst

def walkUpTo (σ : Subst) : (steps : Nat) → Term → Term
  | steps + 1, .var x =>
      match σ.find? x with
      | some u => walkUpTo σ steps u
      | none => .var x
  | _, t => t

-- From binding to binding, as long as there is a variable that has one. Bindings do not go round, so
-- their number is a bound.
def walk (σ : Subst) (t : Term) : Term := σ.walkUpTo σ.size t

mutual

def resolveWith (σ : Subst) (next : Term → Term) : Term → Term
  | .var x =>
      match σ.walk (.var x) with
      | .app f args => next (.app f args)
      | u => u
  | .app f args => .app f (resolveAllWith σ next args)
  | t => t

def resolveAllWith (σ : Subst) (next : Term → Term) : List Term → List Term
  | [] => []
  | t :: ts => resolveWith σ next t :: resolveAllWith σ next ts

end

def resolveUpTo (σ : Subst) : (depth : Nat) → Term → Term
  | 0, t => t
  | depth + 1, t => σ.resolveWith (σ.resolveUpTo depth) t

-- Walks at every variable, also in what it comes to.
def resolve (σ : Subst) (t : Term) : Term := σ.resolveUpTo σ.size t

-- What two walked terms come to: the pairs that are left to unify, and the bindings.
def meet? (σ : Subst) (s t : Term) : Option (List (Term × Term) × Subst) :=
  if s = t then some ([], σ)
  else
    match s, t with
    | .var x, t => if x ∈ (σ.resolve t).vars then none else some ([], σ.insert x t)
    | s, .var y => some ([(.var y, s)], σ)
    | .app f ss, .app g ts =>
        if f = g ∧ ss.length = ts.length then some ((ss.zip ts).reverse, σ) else none
    | _, _ => none

end Subst

namespace Term

-- The pair on top of the work is taken next; the last arguments of applications come on top.
def solve? : (rounds : Nat) → (work : List (Term × Term)) → Subst → Option Subst
  | _, [], σ => some (σ.map σ.resolve)
  | 0, _ :: _, _ => none
  | rounds + 1, (s, t) :: work, σ =>
      match σ.meet? (σ.walk s) (σ.walk t) with
      | none => none
      | some (pairs, σ') => solve? rounds (pairs ++ work) σ'

-- No binding is larger than the two terms together, and there is at most one for each variable.
def roundsFor (s t : Term) : Nat :=
  Nat.pow (s.size + t.size) ((s.vars ++ t.vars).eraseDups.length + 1) + 2

def unify? (s t : Term) : Option Subst := solve? (roundsFor s t) [(s, t)] .empty

def unifiable (s t : Term) : Bool := (unify? s t).isSome

end Term

end ThreatModel
