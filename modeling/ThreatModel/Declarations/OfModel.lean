import ThreatModel.Declarations.Basic

set_option autoImplicit false

namespace ThreatModel

structure Draft where
  decls : Declarations
  flaws : List Diagnostic := []

namespace Draft

def report (d : Draft) (flaws : List Diagnostic) : Draft := { d with flaws := d.flaws ++ flaws }

def attempt (d : Draft) (declare : Declarations → Result Declarations) : Result Draft :=
  match declare d.decls with
  | .ok decls => .ok { d with decls }
  | .error (.flaw flaw) => .ok (d.report [flaw])
  | .error fault => .error fault

def attemptAll {α : Type} (declare : Declarations → α → Result Declarations) (d : Draft)
    (items : List α) : Result Draft :=
  items.foldlM (fun d item => d.attempt fun D => declare D item) d

/-- A syscall or attack whose name is also a symbol is flawed, and declared all the same. -/
def attemptCallable (d : Draft) (name : String) (location : Option Location)
    (declare : Callables → Except Diagnostic Callables) : Result Draft := do
  let d ← d.attempt fun D => do D.checkNotSymbol name location; return D
  d.attempt fun D => return { D with callables := ← declare D.callables }

end Draft

namespace Declarations

/-- Attacker grants name declared attacks. An attack whose own declaration failed is let pass. -/
def grantFlaws (C : Callables) (M : Model) : List Diagnostic :=
  let attempted := M.attacks.map (·.name)
  M.attackerGrants.flatMap fun grant =>
    let idle := grant.attacks.filter fun attack =>
      match C.find? attack with
      | none => !attempted.contains attack
      | some d => !d.role.isAttack
    idle.map fun attack =>
      { cause := .grantsNoAttack grant.subject attack
        declaration := some grant.subject
        location := grant.loc }

def argumentFlaws (R : Registry) (inst : InstanceDecl) (label : String) (param : Param)
    (argument : String) : List Diagnostic :=
  let located (cause : Cause) : Diagnostic :=
    { cause, declaration := some label, location := inst.loc }
  match R.stores.find? argument with
  | none => [located (.unknownStore argument)]
  | some store =>
      if argument = attackerStore then [located (.unknownStore argument)]
      else if store.type = some param.type then []
      else [located (.argumentType argument store.type param.name inst.template param.type)]

def instanceFlaws (D : Declarations) (inst : InstanceDecl) (label : String) : List Diagnostic :=
  let located (cause : Cause) : Diagnostic :=
    { cause, declaration := some label, location := inst.loc }
  match D.templates.find? inst.template with
  | none => [located (.unknownTemplate inst.template)]
  | some template =>
      if inst.args.length ≠ template.params.length then
        [located (.instanceArity inst.template template.params.length inst.args.length)]
      else
        (template.params.zip inst.args).flatMap fun (param, argument) =>
          argumentFlaws D.stores inst label param argument

def instancesFlaws (D : Declarations) : List String → Nat → List InstanceDecl → List Diagnostic
  | _, _, [] => []
  | seen, i, inst :: rest =>
      let label := inst.label i
      let twice : List Diagnostic :=
        if label ∈ seen then
          [{ cause := .instanceTwice label, declaration := some label, location := inst.loc }]
        else []
      twice ++ D.instanceFlaws inst label ++ instancesFlaws D (label :: seen) (i + 1) rest

def lemmaFlaws : List String → List LemmaDecl → List Diagnostic
  | _, [] => []
  | seen, l :: rest =>
      let twice : List Diagnostic :=
        if l.name ∈ seen then
          [{ cause := .lemmaTwice l.name, declaration := some l.name, location := l.loc }]
        else []
      twice ++ lemmaFlaws (l.name :: seen) rest

def systemFlaws (D : Declarations) : Option SystemDecl → List Diagnostic
  | none => [{ cause := .noSystem }]
  | some system =>
      if system.instances.isEmpty then [{ cause := .noInstances, location := system.loc }]
      else if system.lemmas.isEmpty then [{ cause := .noLemmas, location := system.loc }]
      else D.instancesFlaws [] 0 system.instances ++ lemmaFlaws [] system.lemmas

/-- Every declaration of the model that has no flaw, with the flaws of the others. -/
def draft (budget : Int) (M : Model) : Result Draft := do
  let d : Draft := { decls := { theory := ← Theory.ofBudget budget } }
  let d ← d.attemptAll (fun D f =>
    return { D with theory := ← D.theory.declareSymbol f.name f.arity f.loc }) M.functions
  let d ← d.attemptAll addEquation M.equations
  let d ← d.attemptAll (fun D t =>
    return { D with policy := ← D.policy.declareType t.name t.kind t.loc }) M.types
  let d ← d.attemptAll (fun D g =>
    return { D with policy := ← D.policy.declareGrant ⟨g.subject, g.object, g.operations⟩ g.loc })
    M.grants
  let d ← d.attemptAll (fun D g =>
    return { D with policy := ← D.policy.declareAttackerGrant ⟨g.subject, g.attacks⟩ g.loc })
    M.attackerGrants
  let d ← M.syscalls.foldlM (fun d s =>
    d.attemptCallable s.name s.loc fun C => C.declareSyscall s) d
  let d ← M.attacks.foldlM (fun d a =>
    d.attemptCallable a.name a.loc fun C => C.declareAttack a) d
  let d := d.report (grantFlaws d.decls.callables M ++ d.decls.callables.checkRecursion)
  let d ← d.attemptAll addConstant M.constants
  let d ← d.attemptAll addChannel M.channels
  let d ← d.attemptAll addFile M.files
  let d ← d.attemptAll addTemplate M.processes
  return d.report (d.decls.systemFlaws M.system)

def ofModel (budget : Int) (M : Model) : Result Declarations := do
  let d ← draft budget M
  if d.flaws.isEmpty then
    return { d.decls with theory := d.decls.theory.close, system := M.system.getD {} }
  else throw (.rejected d.flaws)

end Declarations

end ThreatModel
