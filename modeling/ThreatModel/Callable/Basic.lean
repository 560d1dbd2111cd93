import ThreatModel.Model.Part
import ThreatModel.Policy

set_option autoImplicit false

namespace ThreatModel

inductive Role where
  | builtin
  | syscall
  | active (target : String)
  | passive
  deriving DecidableEq, Repr

namespace Role

def word : Role → String
  | .builtin => "builtin"
  | .syscall => "syscall"
  | .active _ => "active"
  | .passive => "passive"

def isAttack : Role → Bool
  | .active _ | .passive => true
  | .builtin | .syscall => false

def target? : Role → Option String
  | .active target => some target
  | _ => none

end Role

structure Definition where
  name : String
  params : List String
  body : Command
  role : Role
  loc : Option Location := none

namespace Definition

def builtins : List Definition :=
  let on (action : StoreAction) (target x : String) : Command :=
    .store action target (.ident x none) none
  [{ name := "send", params := ["c", "m"], role := .builtin, body := .seq [on .insert "c" "m"] },
   { name := "recv", params := ["c"], role := .builtin,
     body := .seq [on .consume "c" "received$", .ret (.ident "received$" none) none] },
   { name := "read", params := ["f"], role := .builtin,
     body := .seq [on .read "f" "content$", .ret (.ident "content$" none) none] },
   { name := "write", params := ["f", "m"], role := .builtin,
     body := .seq [on .consume "f" "old$", on .insert "f" "m"] }]

end Definition

structure Callables where
  definitions : Table String Definition :=
    .ofList (Definition.builtins.map fun d => (d.name, d))
  overrides : Table String (List Definition) := .empty

namespace Callables

def find? (C : Callables) (name : String) : Option Definition := C.definitions.find? name

def contains (C : Callables) (name : String) : Bool := C.definitions.contains name

def overridesOf (C : Callables) (name : String) : List Definition :=
  (C.overrides.find? name).getD []

def checkName (C : Callables) (name : String) (location : Option Location) :
    Except Diagnostic Unit :=
  match C.find? name with
  | none => .ok ()
  | some d =>
      let owner := if d.role = .builtin then "built-in syscall" else d.role.word
      .error { cause := .nameTaken name owner, declaration := some name, location }

def firstRepeated? (seen : List String) : List String → Option String
  | [] => none
  | x :: rest => if x ∈ seen then some x else firstRepeated? (x :: seen) rest

def checkParams (name : String) (params : List String) (location : Option Location) :
    Except Diagnostic Unit :=
  match firstRepeated? [] params with
  | none => .ok ()
  | some x => .error { cause := .parameterTwice x name, declaration := some name, location }

def add (C : Callables) (d : Definition) : Callables :=
  { C with definitions := C.definitions.insert d.name d }

def declareSyscall (C : Callables) (decl : SyscallDecl) : Except Diagnostic Callables := do
  C.checkName decl.name decl.loc
  checkParams decl.name decl.params decl.loc
  return C.add
    { name := decl.name, params := decl.params, body := decl.body, role := .syscall,
      loc := decl.loc }

/-- What a passive attack may not do: touch a store other than by leaking, or call anything. -/
def violation? (C : Callables) (attack : String) : Part → Option Diagnostic
  | .command (.store action target _ location) =>
      if action = .insert ∧ target = attackerStore then none
      else
        some { cause := .passiveTouches attack action target, declaration := some attack, location }
  | .command (.call callee _ location) =>
      some { cause := .passiveInvokes attack callee, declaration := some attack, location }
  | .expr (.apply callee _ location) =>
      if C.contains callee then
        some { cause := .passiveInvokes attack callee, declaration := some attack, location }
      else none
  | _ => none

def checkPassive (C : Callables) (attack : String) (body : Command) : Except Diagnostic Unit :=
  match body.parts.findSome? (C.violation? attack) with
  | none => .ok ()
  | some d => .error d

def checkTarget (C : Callables) (decl : AttackDecl) (target : String) :
    Except Diagnostic Unit :=
  let located (cause : Cause) : Diagnostic :=
    { cause, declaration := some decl.name, location := decl.loc }
  match C.find? target with
  | none => .error (located (.overridesNoSyscall decl.name target))
  | some d =>
      if d.role.isAttack then .error (located (.overridesNoSyscall decl.name target))
      else if d.params.length ≠ decl.params.length then
        .error (located (.overrideArity decl.name decl.params.length target d.params.length))
      else .ok ()

def declareAttack (C : Callables) (decl : AttackDecl) : Except Diagnostic Callables := do
  C.checkName decl.name decl.loc
  checkParams decl.name decl.params decl.loc
  match decl.target with
  | some target =>
      C.checkTarget decl target
      let d : Definition :=
        { name := decl.name, params := decl.params, body := decl.body, role := .active target,
          loc := decl.loc }
      return { C.add d with overrides := C.overrides.insert target (C.overridesOf target ++ [d]) }
  | none =>
      C.checkPassive decl.name decl.body
      return C.add
        { name := decl.name, params := decl.params, body := decl.body, role := .passive,
          loc := decl.loc }

def checkArity (d : Definition) (got : Nat) (position : Option String) : Except Diagnostic Unit :=
  if got = d.params.length then .ok ()
  else
    .error { cause := .callArity d.name d.params.length got, declaration := some d.name, position }

structure Alternative where
  tag : String
  definition : Definition

/-- The call itself and, where it may be intercepted, every active attack on the callee that is
granted on the caller's type or on the type of a channel or file among the arguments. -/
def plan (C : Callables) (d : Definition) (subjects : List String) (P : Policy) (intercept : Bool) :
    List Alternative :=
  let attacks :=
    if !intercept || d.role.isAttack then []
    else (C.overridesOf d.name).filter fun attack =>
      subjects.any fun subject => P.allowsAttack subject attack.name
  { tag := "normal", definition := d }
    :: attacks.map fun attack => { tag := s!"attack:{attack.name}", definition := attack }

def summary (C : Callables) : String := s!"SyscallTable({C.definitions.size} definitions)"

end Callables

end ThreatModel
