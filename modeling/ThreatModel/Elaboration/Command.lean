import ThreatModel.Elaboration.Expr

set_option autoImplicit false

namespace ThreatModel

structure Flow where
  ends : Ends
  scope : Scope
  returns : Ends := []
  deriving DecidableEq, Repr

structure Arms where
  ends : Ends := []
  returns : Ends
  taken : List (List Condition) := []
  deriving DecidableEq, Repr

namespace Context

def bind (inline : Inline) (ctx : Context) (x : String) (value : Expr) (flow : Flow) :
    Builder Flow := do
  if flow.scope.own.contains x then ctx.flaw (.boundTwice x)
  let called : Option (String × List Expr) := match value with
    | .apply f args _ =>
        if !ctx.decls.theory.hasSymbol f && ctx.decls.callables.contains f then some (f, args)
        else none
    | _ => none
  match called with
  | some (f, args) =>
      let y ← Builder.freshVar x
      let ends ← call inline ctx flow.scope f args flow.ends (some y)
      return { flow with ends, scope := ← ctx.declare flow.scope x (.value y) }
  | none =>
      let (t, ends) ← term inline ctx flow.scope value flow.ends
      let y ← Builder.freshVar x
      let place ← ctx.append (.assign y t) ends
      return { flow with ends := [place], scope := ← ctx.declare flow.scope x (.value y) }

/-- The conditions of an arm, or nothing when two literals decide that it is never taken. -/
def conditions (ctx : Context) (scope : Scope) :
    List Comparison → Builder (Option (List Condition))
  | [] => pure (some [])
  | c :: rest => do
      let (left, _) ← ctx.plain scope false c.left .empty
      let (right, _) ← ctx.plain scope false c.right .empty
      match left, right with
      | .lit a, .lit b =>
          if (a == b) == c.negated then return none else conditions ctx scope rest
      | _, _ =>
          return (← conditions ctx scope rest).map
            ({ left, right, equal := !c.negated } :: ·)

def emit (inline : Inline) (ctx : Context) (event : EventExpr) (flow : Flow) : Builder Flow := do
  let (args, ends) ← terms inline ctx flow.scope event.args flow.ends
  let index := (← get).events.length
  let place ← ctx.append (.emit (.app event.tag args) index) ends
  modify fun b =>
    { b with events := b.events ++
        [{ owner := ctx.owner, index, node := place, tag := event.tag, arity := args.length,
           term := .app event.tag args }] }
  return { flow with ends := [place] }

def resolveStore (ctx : Context) (scope : Scope) (target : String) : Builder StoreDecl :=
  match scope.find? target with
  | some (.value _) => ctx.flaw (.notAStore target)
  | some (.store name) => ctx.check (ctx.decls.stores.get name)
  | none =>
      match ctx.decls.stores.stores.find? target with
      | some store => pure store
      | none => ctx.flaw (.unknownStore target)

/-- A process needs a grant for the action. Only the built-in write changes a file, which so holds
one fact. -/
def permit (ctx : Context) (action : StoreAction) (store : StoreDecl) : Builder Unit := do
  if ctx.frame.definition.isNone then
    ctx.check (ctx.decls.policy.require ctx.type store.type action.word (some ctx.position) none)
  let isBuiltin := match ctx.frame.definition with
    | some d => d.role = .builtin
    | none => false
  if store.kind = .filesys && action ≠ .read && !isBuiltin then
    ctx.flaw (.fileAction action store.name)
  if store.kind ≠ .filesys && action = .read then
    ctx.flaw (.readNeedsFile store.name store.kind)

def declareAll (ctx : Context) : Scope → List (String × String) → Builder Scope
  | scope, [] => pure scope
  | scope, (x, y) :: rest => do declareAll ctx (← ctx.declare scope x (.value y)) rest

def touch (inline : Inline) (ctx : Context) (action : StoreAction) (target : String) (e : Expr)
    (flow : Flow) : Builder Flow := do
  let store ← ctx.resolveStore flow.scope target
  ctx.permit action store
  match action with
  | .insert =>
      let (t, ends) ← term inline ctx flow.scope e flow.ends
      return { flow with ends := [← ctx.append (.insert store.name t) ends] }
  | .remove =>
      let (t, ends) ← term inline ctx flow.scope e flow.ends
      return { flow with ends := [← ctx.append (.remove store.name t) ends] }
  | .consume =>
      let (pattern, binds) ← ctx.plain flow.scope true e .empty
      let place ← ctx.append (.consume store.name pattern binds.values) flow.ends
      return { flow with ends := [place], scope := ← ctx.declareAll flow.scope binds.entries }
  | .read =>
      let (pattern, binds) ← ctx.plain flow.scope true e .empty
      let place ← ctx.append (.read store.name pattern binds.values) flow.ends
      return { flow with ends := [place], scope := ← ctx.declareAll flow.scope binds.entries }

mutual

def command (inline : Inline) : Command → Context → Flow → Builder Flow
  | .skip, _, flow => pure flow
  | .seq commands, ctx, flow => sequence inline commands 0 ctx flow
  | .bind x value, ctx, flow => bind inline ctx x value flow
  | .new x, ctx, flow => do
      let y ← Builder.freshVar x
      let place ← ctx.append (.fresh y (← Builder.nonce)) flow.ends
      return { flow with ends := [place], scope := ← ctx.declare flow.scope x (.value y) }
  | .branch arms, ctx, flow => do
      let choice ← ctx.append .choice flow.ends
      let out ← armsFrom inline arms 0 ctx choice flow.scope { returns := flow.returns }
      return { flow with ends := out.ends, returns := out.returns }
  | .loop body arms, ctx, flow => do
      let head ← ctx.append .loopHead flow.ends
      let inner ← command inline body (ctx.enter "body")
        { ends := [head], scope := flow.scope.child, returns := flow.returns }
      let choice ← (ctx.enter "until").append .choice inner.ends
      let out ← armsFrom inline arms 0 (ctx.enter "until") choice inner.scope
        { returns := inner.returns }
      let again ← (ctx.enter "again").append (.guard [] out.taken) [choice]
      Builder.connect again head
      return { flow with ends := out.ends, returns := out.returns }
  | .call callee args _, ctx, flow => do
      return { flow with ends := ← call inline ctx flow.scope callee args flow.ends none }
  | .emit event, ctx, flow => emit inline ctx event flow
  | .store action target e _, ctx, flow => touch inline ctx action target e flow
  | .ret value location, ctx, flow => do
      if ctx.frame.definition.isNone then ctx.flaw .misplacedReturn location
      let (t, ends) ← term inline ctx flow.scope value flow.ends
      match ctx.frame.result with
      | some x =>
          let place ← ctx.append (.assign x t) ends
          return { flow with ends := [], returns := flow.returns ++ [place] }
      | none => return { flow with ends := [], returns := flow.returns ++ ends }
  | .unsupported location, ctx, _ =>
      ctx.flaw (.unsupportedCommand Command.unsupportedForm) location

def sequence (inline : Inline) : List Command → Nat → Context → Flow → Builder Flow
  | [], _, _, flow => pure flow
  | c :: rest, i, ctx, flow => do
      let flow ← command inline c (ctx.enter (toString i)) flow
      sequence inline rest (i + 1) ctx flow

def armsFrom (inline : Inline) :
    List Arm → Nat → Context → (choice : Nat) → Scope → Arms → Builder Arms
  | [], _, _, _, _, sofar => pure sofar
  | .guarded comparisons body :: rest, i, ctx, choice, scope, sofar => do
      let ctx' := ctx.enter s!"arm{i}"
      match ← ctx'.conditions scope comparisons with
      | none =>
          ctx'.note "guard compares literals and is always false; the arm can never be taken"
          armsFrom inline rest (i + 1) ctx choice scope sofar
      | some group =>
          let guard ← ctx'.append (.guard group sofar.taken) [choice]
          let inner ← command inline body ctx'
            { ends := [guard], scope := scope.child, returns := sofar.returns }
          armsFrom inline rest (i + 1) ctx choice scope
            { ends := sofar.ends ++ inner.ends
              returns := inner.returns
              taken := sofar.taken ++ [group] }

end

def bindParams (ctx : Context) : List (String × Argument) → Scope → Ends → Builder (Scope × Ends)
  | [], scope, ends => pure (scope, ends)
  | (param, .store name) :: rest, scope, ends => do
      bindParams ctx rest (← ctx.declare scope param (.store name)) ends
  | (param, .value t) :: rest, scope, ends => do
      let x ← Builder.freshVar param
      let place ← ctx.append (.assign x t) ends
      bindParams ctx rest (← ctx.declare scope param (.value x)) [place]

def inlineWith (run : Command → Context → Flow → Builder Flow) : Inline :=
  fun ctx d args ends result => do
    let ctx' : Context :=
      { ctx.enter d.name with
        frame :=
          { definition := some d
            result
            calls := ctx.frame.calls ++ [d.name]
            intercept := ctx.frame.intercept && !d.role.isAttack } }
    let (scope, ends) ← ctx'.bindParams (d.params.zip args) {} ends
    let flow ← run d.body ctx' { ends, scope }
    if result.isSome && !flow.ends.isEmpty then ctx'.flaw (.noResult d.name)
    return flow.ends ++ flow.returns

/-- Inlining with calls nested at most `depth` deep. -/
def inlineUpTo : (depth : Nat) → Inline
  | 0 => fun _ _ _ _ _ => throw .tooDeep
  | depth + 1 => inlineWith (command (inlineUpTo depth))

end Context

end ThreatModel
