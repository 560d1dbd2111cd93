import ThreatModel.Model.Kind
import ThreatModel.Diagnostic.Fault

set_option autoImplicit false

namespace ThreatModel

inductive Expr where
  | ident (name : String) (loc : Option Location)
  | str (value : String)
  | apply (callee : String) (args : List Expr) (loc : Option Location)
  | tuple (items : List Expr)
  | unsupported (loc : Option Location)
  deriving Repr, Inhabited

structure EventExpr where
  tag : String
  args : List Expr
  deriving Repr, Inhabited

def Term.tuple (items : List Term) : Result Term :=
  match Term.tuple? items with
  | some t => .ok t
  | none => .error .emptyTuple

namespace Expr

def unsupportedForm : String := "Expression"

mutual

def text : Expr → String
  | .ident x _ => s!"Ident({x})"
  | .str s => "StrLit(\"" ++ s ++ "\")"
  | .apply f args _ => f ++ "(" ++ ", ".intercalate (texts args) ++ ")"
  | .tuple items => "(" ++ ", ".intercalate (texts items) ++ ")"
  | .unsupported none => s!"{unsupportedForm}(location=None)"
  | .unsupported (some loc) => s!"{unsupportedForm}(location=({loc.line}, {loc.column}))"

def texts : List Expr → List String
  | [] => []
  | e :: es => text e :: texts es

end

mutual

def equationTerm : Expr → Result Term
  | .ident x _ => .ok (.var x)
  | .str s => .ok (.lit s)
  | .apply f args _ => return .app f (← equationTerms args)
  | .tuple items => do Term.tuple (← equationTerms items)
  | .unsupported location =>
      .error (.flaw { cause := .unsupportedEquation unsupportedForm, location })

def equationTerms : List Expr → Result (List Term)
  | [] => .ok []
  | e :: es => return (← equationTerm e) :: (← equationTerms es)

end

end Expr

end ThreatModel
