import Mathlib
import ThreatModel.Elaboration.Instance

set_option autoImplicit false

namespace ThreatModel

namespace Build

def varFor (b : Build) (name : String) : String := s!"{name}.{(b.counters.find? name).getD 0}"

def takeVar (b : Build) (name : String) : Build :=
  { b with counters := b.counters.insert name ((b.counters.find? name).getD 0 + 1) }

def takeNonce (b : Build) : Build := { b with nextNonce := b.nextNonce + 1 }

def append (b : Build) (ctx : Context) (action : Action) (ends : Ends) : Build :=
  { b with graph := b.graph.append { action, position := ctx.position } ends }

def connect (b : Build) (source target : Nat) : Build :=
  { b with graph := b.graph.connect source target }

def note (b : Build) (ctx : Context) (text : String) : Build :=
  { b with notes := b.notes ++ [s!"{ctx.position}: {text}"] }

def addEvent (b : Build) (site : EventSite) : Build := { b with events := b.events ++ [site] }

@[simp] theorem graph_takeVar (b : Build) (name : String) : (b.takeVar name).graph = b.graph := rfl

@[simp] theorem graph_addEvent (b : Build) (site : EventSite) : (b.addEvent site).graph = b.graph :=
  rfl

@[simp] theorem size_append (b : Build) (ctx : Context) (action : Action) (ends : Ends) :
    (b.append ctx action ends).graph.size = b.graph.size + 1 :=
  Graph.size_append ..

@[simp] theorem size_connect (b : Build) (source target : Nat) :
    (b.connect source target).graph.size = b.graph.size :=
  Graph.size_connect ..

end Build

@[simp] theorem Context.decls_enter (ctx : Context) (segment : String) :
    (ctx.enter segment).decls = ctx.decls := rfl

def StoreAction.node : StoreAction → String → Term → List String → Action
  | .insert, store, term, _ => .insert store term
  | .remove, store, term, _ => .remove store term
  | .consume, store, pattern, binds => .consume store pattern binds
  | .read, store, pattern, binds => .read store pattern binds

abbrev Context.plan (ctx : Context) (d : Definition) (objects : List String) :
    List Callables.Alternative :=
  ctx.decls.callables.plan d (ctx.type :: objects) ctx.decls.policy ctx.frame.intercept

def Context.inside (ctx : Context) (d : Definition) (result : Option String) : Context :=
  { ctx.enter d.name with
    frame :=
      { definition := some d
        result
        calls := ctx.frame.calls ++ [d.name]
        intercept := ctx.frame.intercept && !d.role.isAttack } }

inductive Judgement where
  | command (c : Command) (ctx : Context) (flow : Flow) (b : Build) (flow' : Flow) (b' : Build)
  | sequence (cs : List Command) (i : Nat) (ctx : Context) (flow : Flow) (b : Build) (flow' : Flow)
      (b' : Build)
  | arms (as : List Arm) (i : Nat) (ctx : Context) (choice : Nat) (scope : Scope) (sofar : Arms)
      (b : Build) (out : Arms) (b' : Build)
  | bind (x : String) (value : Expr) (ctx : Context) (flow : Flow) (b : Build) (flow' : Flow)
      (b' : Build)
  | term (e : Expr) (ctx : Context) (scope : Scope) (ends : Ends) (b : Build) (t : Term)
      (ends' : Ends) (b' : Build)
  | terms (es : List Expr) (ctx : Context) (scope : Scope) (ends : Ends) (b : Build)
      (ts : List Term) (ends' : Ends) (b' : Build)
  | arguments (es : List Expr) (ctx : Context) (scope : Scope) (ends : Ends) (b : Build)
      (args : List Argument) (ends' : Ends) (b' : Build)
  | call (f : String) (args : List Expr) (ctx : Context) (scope : Scope) (ends : Ends)
      (result : Option String) (b : Build) (ends' : Ends) (b' : Build)
  | invoke (d : Definition) (args : List Argument) (ctx : Context) (ends : Ends)
      (result : Option String) (b : Build) (ends' : Ends) (b' : Build)
  | alternatives (plan : List Callables.Alternative) (args : List Argument) (ctx : Context)
      (result : Option String) (site : Nat) (b : Build) (ends' : Ends) (b' : Build)
  | inlined (d : Definition) (args : List Argument) (ctx : Context) (ends : Ends)
      (result : Option String) (b : Build) (ends' : Ends) (b' : Build)
  | params (pairs : List (String × Argument)) (ctx : Context) (scope : Scope) (ends : Ends)
      (b : Build) (scope' : Scope) (ends' : Ends) (b' : Build)

namespace Judgement

abbrev choosing (as : List Arm) (ctx : Context) (flow : Flow) (b : Build) (out : Arms)
    (b' : Build) : Judgement :=
  .arms as 0 ctx b.graph.size flow.scope { returns := flow.returns }
    (b.append ctx .choice flow.ends) out b'

abbrev branch (as : List Arm) (ctx : Context) (flow : Flow) (b : Build) (out : Arms)
    (b' : Build) : Judgement :=
  .command (.branch as) ctx flow b { flow with ends := out.ends, returns := out.returns } b'

abbrev repetition (body : Command) (ctx : Context) (flow : Flow) (b : Build) (inner : Flow)
    (b₁ : Build) : Judgement :=
  .command body (ctx.enter "body")
    { ends := [b.graph.size], scope := flow.scope.child, returns := flow.returns }
    (b.append ctx .loopHead flow.ends) inner b₁

abbrev loop (body : Command) (as : List Arm) (ctx : Context) (flow : Flow) (b b₁ : Build)
    (out : Arms) (b₂ : Build) : Judgement :=
  .command (.loop body as) ctx flow b { flow with ends := out.ends, returns := out.returns }
    ((b₂.append (ctx.enter "again") (.guard [] out.taken) [b₁.graph.size]).connect
      b₂.graph.size b.graph.size)

abbrev guarded (body : Command) (i : Nat) (ctx : Context) (choice : Nat) (scope : Scope)
    (sofar : Arms) (group : List Condition) (b : Build) (inner : Flow) (b' : Build) : Judgement :=
  .command body (ctx.enter s!"arm{i}")
    { ends := [b.graph.size], scope := scope.child, returns := sofar.returns }
    (b.append (ctx.enter s!"arm{i}") (.guard group sofar.taken) [choice]) inner b'

abbrev remaining (as : List Arm) (i : Nat) (ctx : Context) (choice : Nat) (scope : Scope)
    (sofar : Arms) (group : List Condition) (inner : Flow) (b : Build) (out : Arms) (b' : Build) :
    Judgement :=
  .arms as (i + 1) ctx choice scope
    { ends := sofar.ends ++ inner.ends, returns := inner.returns,
      taken := sofar.taken ++ [group] } b out b'

abbrev alternative (a : Callables.Alternative) (args : List Argument) (ctx : Context)
    (result : Option String) (site : Nat) (b : Build) (here : Ends) (b' : Build) : Judgement :=
  .inlined a.definition args (ctx.enter a.tag) [b.graph.size] result
    (b.append (ctx.enter a.tag) (.alternative a.tag) [site]) here b'

end Judgement

inductive Elaborates : Judgement → Prop
  | skip {ctx : Context} {flow : Flow} {b : Build} :
      Elaborates (.command .skip ctx flow b flow b)
  | seq {cs : List Command} {ctx : Context} {flow flow' : Flow} {b b' : Build}
      (body : Elaborates (.sequence cs 0 ctx flow b flow' b')) :
      Elaborates (.command (.seq cs) ctx flow b flow' b')
  | bind {x : String} {value : Expr} {ctx : Context} {flow flow' : Flow} {b b' : Build}
      (bound : Elaborates (.bind x value ctx flow b flow' b')) :
      Elaborates (.command (.bind x value) ctx flow b flow' b')
  | new {x : String} {ctx : Context} {flow : Flow} {b : Build} {scope : Scope}
      (declared : flow.scope.declare x (.value (b.varFor x)) = .ok scope) :
      Elaborates (.command (.new x) ctx flow b { flow with ends := [b.graph.size], scope }
        ((b.takeVar x).takeNonce.append ctx (.fresh (b.varFor x) b.nextNonce) flow.ends))
  | branch {as : List Arm} {ctx : Context} {flow : Flow} {b b' : Build} {out : Arms}
      (arms : Elaborates (.arms as 0 ctx b.graph.size flow.scope { returns := flow.returns }
        (b.append ctx .choice flow.ends) out b')) :
      Elaborates (.command (.branch as) ctx flow b
        { flow with ends := out.ends, returns := out.returns } b')
  | loop {body : Command} {as : List Arm} {ctx : Context} {flow inner : Flow} {b b₁ b₂ : Build}
      {out : Arms}
      (repeated : Elaborates (.command body (ctx.enter "body")
        { ends := [b.graph.size], scope := flow.scope.child, returns := flow.returns }
        (b.append ctx .loopHead flow.ends) inner b₁))
      (arms : Elaborates (.arms as 0 (ctx.enter "until") b₁.graph.size inner.scope
        { returns := inner.returns } (b₁.append (ctx.enter "until") .choice inner.ends) out b₂)) :
      Elaborates (.command (.loop body as) ctx flow b
        { flow with ends := out.ends, returns := out.returns }
        ((b₂.append (ctx.enter "again") (.guard [] out.taken) [b₁.graph.size]).connect
          b₂.graph.size b.graph.size))
  | call {f : String} {args : List Expr} {loc : Option Location} {ctx : Context} {flow : Flow}
      {b b' : Build} {ends : Ends}
      (called : Elaborates (.call f args ctx flow.scope flow.ends none b ends b')) :
      Elaborates (.command (.call f args loc) ctx flow b { flow with ends } b')
  | emit {event : EventExpr} {ctx : Context} {flow : Flow} {b b₁ : Build} {ts : List Term}
      {ends : Ends} (each : Elaborates (.terms event.args ctx flow.scope flow.ends b ts ends b₁)) :
      Elaborates (.command (.emit event) ctx flow b { flow with ends := [b₁.graph.size] }
        ((b₁.append ctx (.emit (.app event.tag ts) b₁.events.length) ends).addEvent
          { owner := ctx.owner, index := b₁.events.length, node := b₁.graph.size, tag := event.tag,
            arity := ts.length, term := .app event.tag ts }))
  | put {action : StoreAction} {target : String} {e : Expr} {loc : Option Location} {ctx : Context}
      {flow : Flow} {b b₁ : Build} {store : StoreDecl} {t : Term} {ends : Ends}
      (puts : action = .insert ∨ action = .remove)
      (resolved : ctx.resolveStore flow.scope target b = .ok (store, b))
      (permitted : ctx.permit action store b = .ok ((), b))
      (value : Elaborates (.term e ctx flow.scope flow.ends b t ends b₁)) :
      Elaborates (.command (.store action target e loc) ctx flow b
        { flow with ends := [b₁.graph.size] } (b₁.append ctx (action.node store.name t []) ends))
  | take {action : StoreAction} {target : String} {e : Expr} {loc : Option Location} {ctx : Context}
      {flow : Flow} {b b₁ : Build} {store : StoreDecl} {pattern : Term}
      {binds : Table String String} {scope : Scope}
      (takes : action = .consume ∨ action = .read)
      (resolved : ctx.resolveStore flow.scope target b = .ok (store, b))
      (permitted : ctx.permit action store b = .ok ((), b))
      (read : ctx.plain flow.scope true e .empty b = .ok ((pattern, binds), b₁))
      (declared : ctx.declareAll flow.scope binds.entries
        (b₁.append ctx (action.node store.name pattern binds.values) flow.ends) = .ok (scope,
          b₁.append ctx (action.node store.name pattern binds.values) flow.ends)) :
      Elaborates (.command (.store action target e loc) ctx flow b
        { flow with ends := [b₁.graph.size], scope }
        (b₁.append ctx (action.node store.name pattern binds.values) flow.ends))
  | retValue {e : Expr} {loc : Option Location} {ctx : Context} {flow : Flow} {b b₁ : Build}
      {t : Term} {ends : Ends} {x : String} (inside : ctx.frame.definition.isSome = true)
      (result : ctx.frame.result = some x)
      (value : Elaborates (.term e ctx flow.scope flow.ends b t ends b₁)) :
      Elaborates (.command (.ret e loc) ctx flow b
        { flow with ends := [], returns := flow.returns ++ [b₁.graph.size] }
        (b₁.append ctx (.assign x t) ends))
  | retNothing {e : Expr} {loc : Option Location} {ctx : Context} {flow : Flow} {b b₁ : Build}
      {t : Term} {ends : Ends} (inside : ctx.frame.definition.isSome = true)
      (result : ctx.frame.result = none)
      (value : Elaborates (.term e ctx flow.scope flow.ends b t ends b₁)) :
      Elaborates (.command (.ret e loc) ctx flow b
        { flow with ends := [], returns := flow.returns ++ ends } b₁)
  | last {i : Nat} {ctx : Context} {flow : Flow} {b : Build} :
      Elaborates (.sequence [] i ctx flow b flow b)
  | next {c : Command} {cs : List Command} {i : Nat} {ctx : Context} {flow flow₁ flow' : Flow}
      {b b₁ b' : Build}
      (first : Elaborates (.command c (ctx.enter (toString i)) flow b flow₁ b₁))
      (rest : Elaborates (.sequence cs (i + 1) ctx flow₁ b₁ flow' b')) :
      Elaborates (.sequence (c :: cs) i ctx flow b flow' b')
  | noArm {i : Nat} {ctx : Context} {choice : Nat} {scope : Scope} {sofar : Arms} {b : Build} :
      Elaborates (.arms [] i ctx choice scope sofar b sofar b)
  | dropArm {comparisons : List Comparison} {body : Command} {as : List Arm} {i : Nat}
      {ctx : Context} {choice : Nat} {scope : Scope} {sofar out : Arms} {b b₁ b' : Build}
      {text : String}
      (never : (ctx.enter s!"arm{i}").conditions scope comparisons b = .ok (none, b₁))
      (rest : Elaborates (.arms as (i + 1) ctx choice scope sofar
        (b₁.note (ctx.enter s!"arm{i}") text) out b')) :
      Elaborates (.arms (.guarded comparisons body :: as) i ctx choice scope sofar b out b')
  | takeArm {comparisons : List Comparison} {body : Command} {as : List Arm} {i : Nat}
      {ctx : Context} {choice : Nat} {scope : Scope} {sofar out : Arms} {b b₁ b₂ b' : Build}
      {group : List Condition} {inner : Flow}
      (guarded : (ctx.enter s!"arm{i}").conditions scope comparisons b = .ok (some group, b₁))
      (chosen : Elaborates (.command body (ctx.enter s!"arm{i}")
        { ends := [b₁.graph.size], scope := scope.child, returns := sofar.returns }
        (b₁.append (ctx.enter s!"arm{i}") (.guard group sofar.taken) [choice]) inner b₂))
      (rest : Elaborates (.arms as (i + 1) ctx choice scope
        { ends := sofar.ends ++ inner.ends, returns := inner.returns,
          taken := sofar.taken ++ [group] } b₂ out b')) :
      Elaborates (.arms (.guarded comparisons body :: as) i ctx choice scope sofar b out b')
  | bindCall {x f : String} {args : List Expr} {loc : Option Location} {ctx : Context} {flow : Flow}
      {b b₁ : Build} {ends : Ends} {scope : Scope} (new : flow.scope.own.contains x = false)
      (callable : (!ctx.decls.theory.hasSymbol f && ctx.decls.callables.contains f) = true)
      (called : Elaborates (.call f args ctx flow.scope flow.ends (some (b.varFor x)) (b.takeVar x)
        ends b₁))
      (declared : flow.scope.declare x (.value (b.varFor x)) = .ok scope) :
      Elaborates (.bind x (.apply f args loc) ctx flow b { flow with ends, scope } b₁)
  | bindTerm {x : String} {value : Expr} {ctx : Context} {flow : Flow} {b b₁ : Build} {t : Term}
      {ends : Ends} {scope : Scope} (new : flow.scope.own.contains x = false)
      (uncalled : ∀ f args loc, value = .apply f args loc →
        (!ctx.decls.theory.hasSymbol f && ctx.decls.callables.contains f) = false)
      (evaluated : Elaborates (.term value ctx flow.scope flow.ends b t ends b₁))
      (declared : flow.scope.declare x (.value (b₁.varFor x)) = .ok scope) :
      Elaborates (.bind x value ctx flow b { flow with ends := [b₁.graph.size], scope }
        ((b₁.takeVar x).append ctx (.assign (b₁.varFor x) t) ends))
  | str {s : String} {ctx : Context} {scope : Scope} {ends : Ends} {b : Build} :
      Elaborates (.term (.str s) ctx scope ends b (.lit s) ends b)
  | ident {x : String} {loc : Option Location} {ctx : Context} {scope : Scope} {ends : Ends}
      {b : Build} {t : Term} (known : ctx.known scope .empty x b = .ok (some t, b)) :
      Elaborates (.term (.ident x loc) ctx scope ends b t ends b)
  | tuple {items : List Expr} {ctx : Context} {scope : Scope} {ends ends' : Ends} {b b' : Build}
      {ts : List Term} {t : Term} (each : Elaborates (.terms items ctx scope ends b ts ends' b'))
      (made : Term.tuple ts = .ok t) :
      Elaborates (.term (.tuple items) ctx scope ends b t ends' b')
  | symbol {f : String} {args : List Expr} {loc : Option Location} {ctx : Context} {scope : Scope}
      {ends ends' : Ends} {b b' : Build} {ts : List Term}
      (arity : ctx.decls.theory.symbols.find? f = some args.length)
      (each : Elaborates (.terms args ctx scope ends b ts ends' b')) :
      Elaborates (.term (.apply f args loc) ctx scope ends b (.app f ts) ends' b')
  | callTerm {f : String} {args : List Expr} {loc : Option Location} {ctx : Context} {scope : Scope}
      {ends ends' : Ends} {b b' : Build} (free : ctx.decls.theory.symbols.find? f = none)
      (callable : ctx.decls.callables.contains f = true)
      (called : Elaborates (.call f args ctx scope ends (some (b.varFor s!"{f}$ret"))
        (b.takeVar s!"{f}$ret") ends' b')) :
      Elaborates (.term (.apply f args loc) ctx scope ends b (.var (b.varFor s!"{f}$ret")) ends' b')
  | noTerm {ctx : Context} {scope : Scope} {ends : Ends} {b : Build} :
      Elaborates (.terms [] ctx scope ends b [] ends b)
  | someTerms {e : Expr} {es : List Expr} {ctx : Context} {scope : Scope} {ends ends₁ ends' : Ends}
      {b b₁ b' : Build} {t : Term} {ts : List Term}
      (first : Elaborates (.term e ctx scope ends b t ends₁ b₁))
      (rest : Elaborates (.terms es ctx scope ends₁ b₁ ts ends' b')) :
      Elaborates (.terms (e :: es) ctx scope ends b (t :: ts) ends' b')
  | noArgument {ctx : Context} {scope : Scope} {ends : Ends} {b : Build} :
      Elaborates (.arguments [] ctx scope ends b [] ends b)
  | storeArgument {e : Expr} {es : List Expr} {ctx : Context} {scope : Scope} {ends ends' : Ends}
      {b b' : Build} {name : String} {args : List Argument}
      (named : ctx.storeNamed? scope e = some name)
      (rest : Elaborates (.arguments es ctx scope ends b args ends' b')) :
      Elaborates (.arguments (e :: es) ctx scope ends b (.store name :: args) ends' b')
  | valueArgument {e : Expr} {es : List Expr} {ctx : Context} {scope : Scope}
      {ends ends₁ ends' : Ends} {b b₁ b' : Build} {t : Term} {args : List Argument}
      (unnamed : ctx.storeNamed? scope e = none)
      (first : Elaborates (.term e ctx scope ends b t ends₁ b₁))
      (rest : Elaborates (.arguments es ctx scope ends₁ b₁ args ends' b')) :
      Elaborates (.arguments (e :: es) ctx scope ends b (.value t :: args) ends' b')
  | callee {f : String} {args : List Expr} {ctx : Context} {scope : Scope} {ends ends₁ ends' : Ends}
      {result : Option String} {b b₁ b' : Build} {d : Definition} {passed : List Argument}
      (found : ctx.callee f args.length b = .ok (d, b))
      (passing : Elaborates (.arguments args ctx scope ends b passed ends₁ b₁))
      (invoked : Elaborates (.invoke d passed ctx ends₁ result b₁ ends' b')) :
      Elaborates (.call f args ctx scope ends result b ends' b')
  | direct {d : Definition} {args : List Argument} {ctx : Context} {ends ends' : Ends}
      {result : Option String} {b b' : Build} {objects : List String}
      (typed : ctx.objectTypes args b = .ok (objects, b))
      (authorised : ctx.authorise d objects b = .ok ((), b))
      (single : (ctx.plan d objects).length ≤ 1)
      (inlined : Elaborates (.inlined d args ctx ends result b ends' b')) :
      Elaborates (.invoke d args ctx ends result b ends' b')
  | site {d : Definition} {args : List Argument} {ctx : Context} {ends out : Ends}
      {result : Option String} {b b₁ : Build} {objects : List String}
      (typed : ctx.objectTypes args b = .ok (objects, b))
      (authorised : ctx.authorise d objects b = .ok ((), b))
      (several : ¬ (ctx.plan d objects).length ≤ 1)
      (alternatives : Elaborates (.alternatives (ctx.plan d objects) args ctx result b.graph.size
        (b.append ctx (.callSite d.name) ends) out b₁))
      (goesOn : out ≠ []) :
      Elaborates (.invoke d args ctx ends result b [b₁.graph.size] (b₁.append ctx .join out))
  | deadSite {d : Definition} {args : List Argument} {ctx : Context} {ends : Ends}
      {result : Option String} {b b₁ : Build} {objects : List String}
      (typed : ctx.objectTypes args b = .ok (objects, b))
      (authorised : ctx.authorise d objects b = .ok ((), b))
      (several : ¬ (ctx.plan d objects).length ≤ 1)
      (alternatives : Elaborates (.alternatives (ctx.plan d objects) args ctx result b.graph.size
        (b.append ctx (.callSite d.name) ends) [] b₁)) :
      Elaborates (.invoke d args ctx ends result b [] b₁)
  | noAlternative {args : List Argument} {ctx : Context} {result : Option String} {site : Nat}
      {b : Build} : Elaborates (.alternatives [] args ctx result site b [] b)
  | someAlternatives {a : Callables.Alternative} {plan : List Callables.Alternative}
      {args : List Argument} {ctx : Context} {result : Option String} {site : Nat}
      {here later : Ends} {b b₁ b' : Build}
      (first : Elaborates (.inlined a.definition args (ctx.enter a.tag) [b.graph.size] result
        (b.append (ctx.enter a.tag) (.alternative a.tag) [site]) here b₁))
      (rest : Elaborates (.alternatives plan args ctx result site b₁ later b')) :
      Elaborates (.alternatives (a :: plan) args ctx result site b (here ++ later) b')
  | inline {d : Definition} {args : List Argument} {ctx : Context} {ends ends₁ : Ends}
      {result : Option String} {b b₁ b' : Build} {scope : Scope} {flow : Flow}
      (params : Elaborates (.params (d.params.zip args) (ctx.inside d result) {} ends b scope ends₁
        b₁))
      (body : Elaborates (.command d.body (ctx.inside d result) { ends := ends₁, scope } b₁ flow b'))
      (returned : result.isSome = true → flow.ends = []) :
      Elaborates (.inlined d args ctx ends result b (flow.ends ++ flow.returns) b')
  | noParam {ctx : Context} {scope : Scope} {ends : Ends} {b : Build} :
      Elaborates (.params [] ctx scope ends b scope ends b)
  | storeParam {x name : String} {pairs : List (String × Argument)} {ctx : Context}
      {scope scope₁ scope' : Scope} {ends ends' : Ends} {b b' : Build}
      (declared : scope.declare x (.store name) = .ok scope₁)
      (rest : Elaborates (.params pairs ctx scope₁ ends b scope' ends' b')) :
      Elaborates (.params ((x, .store name) :: pairs) ctx scope ends b scope' ends' b')
  | valueParam {x : String} {t : Term} {pairs : List (String × Argument)} {ctx : Context}
      {scope scope₁ scope' : Scope} {ends ends' : Ends} {b b' : Build}
      (declared : scope.declare x (.value (b.varFor x)) = .ok scope₁)
      (rest : Elaborates (.params pairs ctx scope₁ [b.graph.size]
        ((b.takeVar x).append ctx (.assign (b.varFor x) t) ends) scope' ends' b')) :
      Elaborates (.params ((x, .value t) :: pairs) ctx scope ends b scope' ends' b')

end ThreatModel
