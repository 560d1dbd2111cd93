import ThreatModel.Elaboration.Build

set_option autoImplicit false

namespace ThreatModel

inductive Argument where
  | store (name : String)
  | value (t : Term)
  deriving DecidableEq, Repr

abbrev Inline := Context → Definition → List Argument → Ends → Option String → Builder Ends

namespace Context

def known (ctx : Context) (scope : Scope) (binds : Table String String) (x : String) :
    Builder (Option Term) :=
  match scope.find? x with
  | some (.store _) => ctx.flaw (.storeAsValue x)
  | some (.value y) => pure (some (.var y))
  | none =>
      match binds.find? x with
      | some y => pure (some (.var y))
      | none =>
          match ctx.decls.constants.find? x with
          | some fresh => pure (some (if fresh then .var (freshConstantVar x) else .const x))
          | none =>
              if ctx.decls.stores.contains x then ctx.flaw (.storeAsValue x)
              else if ctx.decls.theory.symbols.find? x = some 0 then pure (some (.app x []))
              else pure none

mutual

def plain (ctx : Context) (scope : Scope) (isPattern : Bool) :
    Expr → Table String String → Builder (Term × Table String String)
  | .str s, binds => pure (.lit s, binds)
  | .ident x _, binds => do
      match ← ctx.known scope binds x with
      | some t => return (t, binds)
      | none =>
          if isPattern then
            let y ← Builder.freshVar x
            return (.var y, binds.insert x y)
          else ctx.flaw (.unbound x)
  | .tuple items, binds => do
      let (ts, binds) ← plains ctx scope isPattern items binds
      return (← Term.tuple ts, binds)
  | .apply f args _, binds =>
      match ctx.decls.theory.symbols.find? f with
      | some arity =>
          if arity ≠ args.length then ctx.flaw (.symbolArity f args.length arity)
          else do
            let (ts, binds) ← plains ctx scope isPattern args binds
            return (.app f ts, binds)
      | none =>
          if ctx.decls.callables.contains f then ctx.flaw (.callInPattern f)
          else ctx.flaw (.unknownCallee f)
  | .unsupported _, _ => ctx.flaw (.unsupportedExpression Expr.unsupportedForm)

def plains (ctx : Context) (scope : Scope) (isPattern : Bool) :
    List Expr → Table String String → Builder (List Term × Table String String)
  | [], binds => pure ([], binds)
  | e :: es, binds => do
      let (t, binds) ← plain ctx scope isPattern e binds
      let (ts, binds) ← plains ctx scope isPattern es binds
      return (t :: ts, binds)

end

def storeNamed? (ctx : Context) (scope : Scope) : Expr → Option String
  | .ident x _ =>
      match scope.find? x with
      | some (.store name) => some name
      | some (.value _) => none
      | none =>
          if ctx.decls.stores.contains x && !ctx.decls.constants.contains x then some x else none
  | _ => none

def callee (ctx : Context) (name : String) (got : Nat) : Builder Definition :=
  match ctx.decls.callables.find? name with
  | none => ctx.flaw (.unknownCallee name)
  | some d =>
      match d.role.target? with
      | some target => ctx.flaw (.activeAttackCalled name target)
      | none => do
          ctx.check (Callables.checkArity d got (some ctx.position))
          if name ∈ ctx.frame.calls then ctx.flaw (.recursiveCalls (ctx.frame.calls ++ [name]))
          else return d

def objectTypes (ctx : Context) : List Argument → Builder (List String)
  | [] => pure []
  | .value _ :: rest => objectTypes ctx rest
  | .store name :: rest => do
      let store ← ctx.check (ctx.decls.stores.get name)
      return store.type.toList ++ (← objectTypes ctx rest)

def authorise (ctx : Context) (d : Definition) (objects : List String) : Builder Unit :=
  let position := some ctx.position
  if ctx.frame.definition.isSome then pure ()
  else if d.role = .passive then
    ctx.check (ctx.decls.policy.requireAttack (ctx.type :: objects) d.name position none)
  else if objects.isEmpty then
    ctx.check (ctx.decls.policy.require ctx.type none d.name position none)
  else
    objects.forM fun object =>
      ctx.check (ctx.decls.policy.require ctx.type (some object) d.name position none)

def alternatives (inline : Inline) (ctx : Context) (args : List Argument) (result : Option String)
    (site : Nat) : List Callables.Alternative → Builder Ends
  | [] => pure []
  | alternative :: rest => do
      let ctx' := ctx.enter alternative.tag
      let entry ← ctx'.append (.alternative alternative.tag) [site]
      let here ← inline ctx' alternative.definition args [entry] result
      return here ++ (← alternatives inline ctx args result site rest)

def invoke (inline : Inline) (ctx : Context) (d : Definition) (args : List Argument) (ends : Ends)
    (result : Option String) : Builder Ends := do
  let objects ← ctx.objectTypes args
  ctx.authorise d objects
  let plan := ctx.decls.callables.plan d (ctx.type :: objects) ctx.decls.policy ctx.frame.intercept
  if plan.length ≤ 1 then inline ctx d args ends result
  else
    let site ← ctx.append (.callSite d.name) ends
    let out ← alternatives inline ctx args result site plan
    if out.isEmpty then return [] else return [← ctx.append .join out]

mutual

def term (inline : Inline) (ctx : Context) (scope : Scope) :
    Expr → Ends → Builder (Term × Ends)
  | .str s, ends => pure (.lit s, ends)
  | .ident x _, ends => do
      match ← ctx.known scope .empty x with
      | some t => return (t, ends)
      | none => ctx.flaw (.unbound x)
  | .tuple items, ends => do
      let (ts, ends) ← terms inline ctx scope items ends
      return (← Term.tuple ts, ends)
  | .apply f args _, ends =>
      match ctx.decls.theory.symbols.find? f with
      | some arity =>
          if arity ≠ args.length then ctx.flaw (.symbolArity f args.length arity)
          else do
            let (ts, ends) ← terms inline ctx scope args ends
            return (.app f ts, ends)
      | none =>
          if ctx.decls.callables.contains f then do
            let x ← Builder.freshVar s!"{f}$ret"
            let d ← ctx.callee f args.length
            let (passed, ends) ← arguments inline ctx scope args ends
            let ends ← invoke inline ctx d passed ends (some x)
            return (.var x, ends)
          else ctx.flaw (.unknownCallee f)
  | .unsupported _, _ => ctx.flaw (.unsupportedExpression Expr.unsupportedForm)

def terms (inline : Inline) (ctx : Context) (scope : Scope) :
    List Expr → Ends → Builder (List Term × Ends)
  | [], ends => pure ([], ends)
  | e :: es, ends => do
      let (t, ends) ← term inline ctx scope e ends
      let (ts, ends) ← terms inline ctx scope es ends
      return (t :: ts, ends)

def arguments (inline : Inline) (ctx : Context) (scope : Scope) :
    List Expr → Ends → Builder (List Argument × Ends)
  | [], ends => pure ([], ends)
  | e :: es, ends =>
      match ctx.storeNamed? scope e with
      | some name => do
          let (rest, ends) ← arguments inline ctx scope es ends
          return (.store name :: rest, ends)
      | none => do
          let (t, ends) ← term inline ctx scope e ends
          let (rest, ends) ← arguments inline ctx scope es ends
          return (.value t :: rest, ends)

end

def call (inline : Inline) (ctx : Context) (scope : Scope) (name : String) (args : List Expr)
    (ends : Ends) (result : Option String) : Builder Ends := do
  let d ← ctx.callee name args.length
  let (passed, ends) ← arguments inline ctx scope args ends
  invoke inline ctx d passed ends result

end Context

end ThreatModel
