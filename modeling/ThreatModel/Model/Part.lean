import ThreatModel.Model.Basic

set_option autoImplicit false

namespace ThreatModel

inductive DeclKind where
  | function
  | equation
  | type
  | grant
  | attackerGrant
  | syscall
  | attack
  | constant
  | channel
  | file
  | param
  | var
  | process
  | statement
  | member
  | system
  | model
  deriving DecidableEq, Repr

inductive Part where
  | expr (e : Expr)
  | comparison (c : Comparison)
  | arm (a : Arm)
  | command (c : Command)
  | assertion (a : Assertion)
  | declaration (kind : DeclKind)

namespace DeclKind

def label : DeclKind → String
  | .function => "FunctionDecl"
  | .equation => "EquationDecl"
  | .type => "TypeDeclaration"
  | .grant => "AllowDecl"
  | .attackerGrant => "AllowAttackDecl"
  | .syscall => "SyscallDecl"
  | .attack => "AttackDecl"
  | .constant => "ConstantDecl"
  | .channel => "ChannelDecl"
  | .file => "FileDecl"
  | .param => "Param"
  | .var => "VarDecl"
  | .process => "ProcessDecl"
  | .statement => "LemmaDecl"
  | .member => "InstanceDecl"
  | .system => "SystemDecl"
  | .model => "Model"

end DeclKind

namespace Part

def label : Part → String
  | .expr (.ident ..) => "Ident"
  | .expr (.str _) => "StrLit"
  | .expr (.apply ..) => "Apply"
  | .expr (.tuple _) => "TupleExpr"
  | .expr (.unsupported _) => Expr.unsupportedForm
  | .comparison _ => "Comparison"
  | .arm _ => "GuardedCommand"
  | .command .skip => "Skip"
  | .command (.seq _) => "Seq"
  | .command (.bind ..) => "Bind"
  | .command (.new _) => "New"
  | .command (.branch _) => "Branch"
  | .command (.loop ..) => "Repeat"
  | .command (.call ..) => "Call"
  | .command (.emit _) => "Emit"
  | .command (.store ..) => "StoreOp"
  | .command (.ret ..) => "Return"
  | .command (.unsupported _) => Command.unsupportedForm
  | .assertion (.event ..) => "EventAtom"
  | .assertion (.before ..) => "Before"
  | .assertion (.equal ..) => "TermEquals"
  | .assertion (.not _) => "Not"
  | .assertion (.and _) => "And"
  | .assertion (.or _) => "Or"
  | .assertion (.implies ..) => "Implies"
  | .assertion (.all ..) => "ForAll"
  | .assertion (.some ..) => "Exists"
  | .assertion (.unsupported _) => Assertion.unsupportedForm
  | .declaration kind => kind.label

def callee? : Part → Option String
  | .expr (.apply f _ _) => some f
  | .command (.call f _ _) => some f
  | _ => none

end Part

mutual

def Expr.parts : Expr → List Part
  | .apply f args loc => .expr (.apply f args loc) :: Expr.partsAll args
  | .tuple items => .expr (.tuple items) :: Expr.partsAll items
  | e => [.expr e]

def Expr.partsAll : List Expr → List Part
  | [] => []
  | e :: es => e.parts ++ Expr.partsAll es

end

def EventExpr.parts (event : EventExpr) : List Part :=
  .expr (.apply event.tag event.args none) :: Expr.partsAll event.args

def Comparison.parts (c : Comparison) : List Part :=
  .comparison c :: c.left.parts ++ c.right.parts

mutual

def Command.parts : Command → List Part
  | .seq commands => .command (.seq commands) :: Command.partsAll commands
  | .bind x value => .command (.bind x value) :: value.parts
  | .branch arms => .command (.branch arms) :: Arm.partsAll arms
  | .loop body arms => .command (.loop body arms) :: body.parts ++ Arm.partsAll arms
  | .call f args loc => .command (.call f args loc) :: Expr.partsAll args
  | .emit event => .command (.emit event) :: event.parts
  | .store action target term loc => .command (.store action target term loc) :: term.parts
  | .ret value loc => .command (.ret value loc) :: value.parts
  | c => [.command c]

def Command.partsAll : List Command → List Part
  | [] => []
  | c :: cs => c.parts ++ Command.partsAll cs

def Arm.parts : Arm → List Part
  | .guarded conditions body =>
      .arm (.guarded conditions body) :: conditions.flatMap Comparison.parts ++ body.parts

def Arm.partsAll : List Arm → List Part
  | [] => []
  | a :: as => a.parts ++ Arm.partsAll as

end

mutual

def Assertion.parts : Assertion → List Part
  | .event e i => .assertion (.event e i) :: e.parts
  | .equal l r => .assertion (.equal l r) :: l.parts ++ r.parts
  | .not a => .assertion (.not a) :: a.parts
  | .and as => .assertion (.and as) :: Assertion.partsAll as
  | .or as => .assertion (.or as) :: Assertion.partsAll as
  | .implies p c => .assertion (.implies p c) :: p.parts ++ c.parts
  | .all xs a => .assertion (.all xs a) :: a.parts
  | .some xs a => .assertion (.some xs a) :: a.parts
  | a => [.assertion a]

def Assertion.partsAll : List Assertion → List Part
  | [] => []
  | a :: as => a.parts ++ Assertion.partsAll as

end

def Template.parts (p : Template) : List Part :=
  .declaration .process :: p.params.map (fun _ => .declaration .param)
    ++ p.vars.flatMap (fun v => .declaration .var :: v.init.parts) ++ p.main.parts

def LemmaDecl.parts (l : LemmaDecl) : List Part :=
  .declaration .statement :: l.formula.toList.flatMap Assertion.parts
    ++ (l.events ++ l.premise.toList ++ l.conclusion.toList).flatMap EventExpr.parts

def SystemDecl.parts (s : SystemDecl) : List Part :=
  .declaration .system :: s.instances.map (fun _ => .declaration .member)
    ++ s.lemmas.flatMap LemmaDecl.parts

def Model.parts (M : Model) : List Part :=
  .declaration .model :: M.functions.map (fun _ => .declaration .function)
    ++ M.equations.flatMap (fun e => .declaration .equation :: e.lhs.parts ++ e.rhs.parts)
    ++ M.types.map (fun _ => .declaration .type)
    ++ M.grants.map (fun _ => .declaration .grant)
    ++ M.attackerGrants.map (fun _ => .declaration .attackerGrant)
    ++ M.syscalls.flatMap (fun s => .declaration .syscall :: s.body.parts)
    ++ M.attacks.flatMap (fun a => .declaration .attack :: a.body.parts)
    ++ M.constants.map (fun _ => .declaration .constant)
    ++ M.channels.map (fun _ => .declaration .channel)
    ++ M.files.flatMap (fun f => .declaration .file :: f.content.parts)
    ++ M.processes.flatMap Template.parts ++ M.system.toList.flatMap SystemDecl.parts

def calledNames (parts : List Part) : List String := parts.filterMap Part.callee?

end ThreatModel
