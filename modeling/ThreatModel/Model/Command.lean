import ThreatModel.Model.Expr

set_option autoImplicit false

namespace ThreatModel

structure Comparison where
  left : Expr
  right : Expr
  negated : Bool
  deriving Repr, Inhabited

mutual

inductive Command where
  | skip
  | seq (commands : List Command)
  | bind (x : String) (value : Expr)
  | new (x : String)
  | branch (arms : List Arm)
  | loop (body : Command) (arms : List Arm)
  | call (callee : String) (args : List Expr) (loc : Option Location)
  | emit (event : EventExpr)
  | store (action : StoreAction) (target : String) (term : Expr) (loc : Option Location)
  | ret (value : Expr) (loc : Option Location)
  | unsupported (loc : Option Location)

inductive Arm where
  | guarded (conditions : List Comparison) (body : Command)

end

instance : Inhabited Command := ⟨.skip⟩

def Command.unsupportedForm : String := "Command"

def Comparison.text (c : Comparison) : String :=
  c.left.text ++ (if c.negated then " != " else " = ") ++ c.right.text

end ThreatModel
