import ThreatModel.Elaboration.Command

set_option autoImplicit false

namespace ThreatModel

namespace Context

def bindChannels (ctx : Context) (channels : Table String String) :
    List Param → Scope → Builder Scope
  | [], scope => pure scope
  | param :: rest, scope => do
      match channels.find? param.name with
      | none => throw (.missing param.name)
      | some name =>
          let store ← ctx.check (ctx.decls.stores.get name)
          if store.type ≠ some param.type then
            ctx.flaw (.parameterType store.name store.type param.name param.type)
          bindChannels ctx channels rest (← ctx.declare scope param.name (.store store.name))

def bindVars (inline : Inline) (ctx : Context) : List VarDecl → Nat → Flow → Builder Flow
  | [], _, flow => pure flow
  | v :: rest, i, flow => do
      let flow ← bind inline (ctx.enter (toString i)) v.name v.init flow
      bindVars inline ctx rest (i + 1) flow

end Context

def Template.elaborate (template : Template) (D : Declarations) (name : String)
    (channels : Table String String) : Builder ProcessInstance := do
  let ctx : Context := { decls := D, owner := name, type := template.type }
  let inline := Context.inlineUpTo D.callables.definitions.size
  let scope ← ctx.bindChannels channels template.params {}
  let start ← ctx.append .start []
  let flow ← Context.bindVars inline (ctx.enter "vars") template.vars 0 { ends := [start], scope }
  let flow ← Context.command inline template.main (ctx.enter "main") flow
  if !flow.ends.isEmpty then
    let _ ← ctx.append .finish flow.ends
  let done ← get
  return { name, template := template.name, type := template.type, channels, graph := done.graph,
           events := done.events }

structure Elaborated where
  inst : ProcessInstance
  nextNonce : Nat
  notes : List String

def elaborate (D : Declarations) (template : Template) (name : String)
    (channels : Table String String) (firstNonce : Nat) : Result Elaborated := do
  let (inst, done) ← (template.elaborate D name channels).run { nextNonce := firstNonce }
  return { inst := inst, nextNonce := done.nextNonce, notes := done.notes }

end ThreatModel
