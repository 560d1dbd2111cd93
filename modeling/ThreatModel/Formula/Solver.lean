import ThreatModel.Formula.Constraint

set_option autoImplicit false

namespace ThreatModel

namespace Ordering

-- Drops the pairs whose first member comes after nothing.
def peel (pairs : List (String × String)) : List (String × String) :=
  pairs.filter fun pair => pairs.any fun other => other.2 == pair.1

def peeled : (rounds : Nat) → List (String × String) → List (String × String)
  | 0, pairs => pairs
  | rounds + 1, pairs => peeled rounds (peel pairs)

-- A round that drops nothing shows that nothing more can be dropped.
def satisfiable (pairs : List (String × String)) : Bool := (peeled pairs.length pairs).isEmpty

end Ordering

/-- Whatever decides closed constraints, and whether names can be ordered. -/
structure Solver where
  holds : Constraint → Bool
  orders : List (String × String) → Bool

def Solver.exhaustive : Solver where
  holds c := c.holds []
  orders := Ordering.satisfiable

def Formula.orderable (f : Formula) (solver : Solver := .exhaustive) : Bool :=
  solver.orders f.orderings

end ThreatModel
