import ThreatModel.Callable.Recursion
import ThreatModel.Store.Registry
import ThreatModel.Theory.Declare

set_option autoImplicit false

namespace ThreatModel

structure Declarations where
  theory : Theory
  policy : Policy := {}
  callables : Callables := {}
  stores : Registry := {}
  constants : Table String Bool := .empty
  templates : Table String Template := .empty
  system : SystemDecl := {}

namespace Declarations

def checkNotSymbol (D : Declarations) (name : String) (location : Option Location) :
    Except Diagnostic Unit :=
  if D.theory.hasSymbol name then
    .error { cause := .nameIsSymbol name, declaration := some name, location }
  else .ok ()

def owner? (D : Declarations) (name : String) : Option String :=
  if D.theory.hasSymbol name then some "function symbol"
  else if D.callables.contains name then some "syscall or attack"
  else if D.constants.contains name then some "constant"
  else if D.stores.contains name then
    some (if name = attackerStore then "reserved attacker store" else "channel or file")
  else none

def checkUnused (D : Declarations) (name : String) (location : Option Location) :
    Except Diagnostic Unit :=
  match D.owner? name with
  | none => .ok ()
  | some owner => .error { cause := .nameTaken name owner, declaration := some name, location }

def publicName? (constants : Table String Bool) (T : Theory) (name : String) : Option Term :=
  if constants.find? name = some false then some (.const name)
  else if T.symbols.find? name = some 0 then some (.app name [])
  else none

mutual

def content (D : Declarations) (owner : String) : Expr → Result Term
  | .str s => .ok (.lit s)
  | .tuple items => do Term.tuple (← contents D owner items)
  | .ident x location =>
      match publicName? D.constants D.theory x with
      | some t => .ok t
      | none =>
          .error (.flaw { cause := .contentNotPublic x owner, declaration := some owner, location })
  | .apply f args location => do
      let t := Term.app f (← contents D owner args)
      D.theory.checkTerm t (some owner) location
      return t
  | .unsupported _ =>
      .error (.flaw { cause := .unsupportedContent owner, declaration := some owner })

def contents (D : Declarations) (owner : String) : List Expr → Result (List Term)
  | [] => .ok []
  | e :: es => return (← content D owner e) :: (← contents D owner es)

end

def addEquation (D : Declarations) (decl : EquationDecl) : Result Declarations := do
  let lhs ← decl.lhs.equationTerm
  let rhs ← decl.rhs.equationTerm
  return { D with theory := ← D.theory.declareEquation lhs rhs decl.loc }

def addConstant (D : Declarations) (decl : ConstantDecl) : Result Declarations := do
  D.checkUnused decl.name decl.loc
  return { D with constants := D.constants.insert decl.name decl.fresh }

def addStore (D : Declarations) (name type : String) (expected : TypeKind)
    (initial : Result (List Term)) (location : Option Location) : Result Declarations := do
  D.checkUnused name location
  match D.policy.kindOf? type with
  | none =>
      throw (.flaw { cause := .storeTypeUnknown type name, declaration := some name, location })
  | some kind =>
      if kind ≠ expected then
        throw (.flaw
          { cause := .storeKind name type kind expected, declaration := some name, location })
      return { D with stores := ← D.stores.declare D.theory name (some type) kind (← initial) }

def addChannel (D : Declarations) (decl : ChannelDecl) : Result Declarations :=
  D.addStore decl.name decl.type .channel (.ok []) decl.loc

def addFile (D : Declarations) (decl : FileDecl) : Result Declarations :=
  D.addStore decl.name decl.type .filesys (D.contents decl.name [decl.content]) decl.loc

def checkTemplateParams (P : Policy) (process : String) :
    List String → List Param → Except Diagnostic Unit
  | _, [] => .ok ()
  | seen, param :: rest =>
      let located (cause : Cause) : Diagnostic :=
        { cause, declaration := some process, location := param.loc }
      if param.name ∈ seen then .error (located (.processParameterTwice param.name process))
      else
        match P.kindOf? param.type with
        | none => .error (located (.parameterTypeUnknown param.type param.name))
        | some .process => .error (located (.parameterKind param.name process))
        | some _ => checkTemplateParams P process (param.name :: seen) rest

def addTemplate (D : Declarations) (p : Template) : Result Declarations := do
  let located (cause : Cause) : Diagnostic :=
    { cause, declaration := some p.name, location := p.loc }
  if D.templates.contains p.name then throw (.flaw (located (.templateTwice p.name)))
  match D.policy.kindOf? p.type with
  | none => throw (.flaw (located (.processTypeUnknown p.type p.name)))
  | some .process => pure ()
  | some kind => throw (.flaw (located (.processKind p.name p.type kind)))
  checkTemplateParams D.policy p.name [] p.params
  return { D with templates := D.templates.insert p.name p }

end Declarations

end ThreatModel
