import ThreatModel.Model.Command

set_option autoImplicit false

namespace ThreatModel

inductive Assertion where
  | event (event : EventExpr) (index : String)
  | before (left right : String)
  | equal (left right : Expr)
  | not (operand : Assertion)
  | and (operands : List Assertion)
  | or (operands : List Assertion)
  | implies (premise conclusion : Assertion)
  | all (names : List String) (body : Assertion)
  | some (names : List String) (body : Assertion)
  | unsupported (loc : Option Location)
  deriving Repr, Inhabited

def Assertion.unsupportedForm : String := "Formula"

structure LemmaDecl where
  name : String
  kind : LemmaKind
  formula : Option Assertion := none
  events : List EventExpr := []
  premise : Option EventExpr := none
  conclusion : Option EventExpr := none
  loc : Option Location := none
  deriving Repr

structure FunctionDecl where
  name : String
  arity : Int
  loc : Option Location := none

structure EquationDecl where
  lhs : Expr
  rhs : Expr
  loc : Option Location := none

structure TypeDecl where
  name : String
  kind : TypeKind
  loc : Option Location := none

structure GrantDecl where
  subject : String
  object : Option String
  operations : List String
  loc : Option Location := none

structure AttackerGrantDecl where
  subject : String
  attacks : List String
  loc : Option Location := none

structure SyscallDecl where
  name : String
  params : List String
  body : Command
  loc : Option Location := none

/-- An attack with a target replaces the body of that syscall at authorised call sites. One
without is passive: a process invokes it to leak something. -/
structure AttackDecl where
  name : String
  params : List String
  body : Command
  target : Option String
  loc : Option Location := none

structure ConstantDecl where
  name : String
  fresh : Bool := false
  loc : Option Location := none

structure ChannelDecl where
  name : String
  type : String
  loc : Option Location := none

structure FileDecl where
  name : String
  type : String
  content : Expr
  loc : Option Location := none

structure Param where
  name : String
  type : String
  loc : Option Location := none

structure VarDecl where
  name : String
  init : Expr

structure Template where
  name : String
  type : String
  params : List Param := []
  vars : List VarDecl := []
  main : Command := .skip
  loc : Option Location := none

structure InstanceDecl where
  template : String
  args : List String := []
  name : Option String := none
  loc : Option Location := none

def InstanceDecl.label (inst : InstanceDecl) (i : Nat) : String :=
  match inst.name with
  | none | some "" => s!"{inst.template}#{i}"
  | some name => name

structure SystemDecl where
  instances : List InstanceDecl := []
  lemmas : List LemmaDecl := []
  loc : Option Location := none

structure Model where
  functions : List FunctionDecl := []
  equations : List EquationDecl := []
  types : List TypeDecl := []
  grants : List GrantDecl := []
  attackerGrants : List AttackerGrantDecl := []
  syscalls : List SyscallDecl := []
  attacks : List AttackDecl := []
  constants : List ConstantDecl := []
  channels : List ChannelDecl := []
  files : List FileDecl := []
  processes : List Template := []
  system : Option SystemDecl := none

def Model.summary (M : Model) : String :=
  let lemmas := match M.system with
    | some system => system.lemmas.length
    | none => 0
  s!"Model({M.processes.length} processes, {lemmas} lemmas)"

end ThreatModel
