import ThreatModel.Formula.Basic

set_option autoImplicit false

namespace ThreatModel

abbrev Assignment := List (String × Nat)

inductive Constraint where
  | const (value : Bool)
  | less (x y : String)
  | same (x y : String)
  | oneOf (options : List (List (String × Nat)))
  | not (operand : Constraint)
  | and (operands : List Constraint)
  | or (operands : List Constraint)
  | implies (premise conclusion : Constraint)
  | all (bounds : List (String × Nat)) (body : Constraint)
  | some (bounds : List (String × Nat)) (body : Constraint)
  deriving Repr, Inhabited

namespace Constraint

def valueOf (a : Assignment) (x : String) : Nat := (Table.lookup x a).getD 0

def forAll (body : Assignment → Bool) : List (String × Nat) → Assignment → Bool
  | [], a => body a
  | (x, bound) :: rest, a => (List.range bound).all fun k => forAll body rest ((x, k) :: a)

def forSome (body : Assignment → Bool) : List (String × Nat) → Assignment → Bool
  | [], a => body a
  | (x, bound) :: rest, a => (List.range bound).any fun k => forSome body rest ((x, k) :: a)

mutual

def holds : Constraint → Assignment → Bool
  | .const value, _ => value
  | .less x y, a => valueOf a x < valueOf a y
  | .same x y, a => valueOf a x == valueOf a y
  | .oneOf options, a => options.any fun option => option.all fun (x, k) => valueOf a x == k
  | .not c, a => !holds c a
  | .and cs, a => allHold cs a
  | .or cs, a => oneHolds cs a
  | .implies p c, a => !holds p a || holds c a
  | .all bounds body, a => forAll (holds body) bounds a
  | .some bounds body, a => forSome (holds body) bounds a

def allHold : List Constraint → Assignment → Bool
  | [], _ => true
  | c :: cs, a => holds c a && allHold cs a

def oneHolds : List Constraint → Assignment → Bool
  | [], _ => false
  | c :: cs, a => holds c a || oneHolds cs a

end

end Constraint

end ThreatModel
