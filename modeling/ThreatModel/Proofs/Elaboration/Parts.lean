import Mathlib
import ThreatModel.Proofs.System.Compiled
import ThreatModel.Proofs.Elaboration.Branching

set_option autoImplicit false

namespace ThreatModel

namespace Graph

/-- A graph that another was made from: of its nodes from a place on only the open ones have got
edges since, and no edge back leads there. -/
structure GrowsFrom (start : Nat) (g g' : Graph) : Prop where
  larger : g.size ≤ g'.size
  kept : ∀ i node, g.node? i = some node → ∃ more,
    g'.node? i = some { node with successors := node.successors ++ more } ∧
      (∀ j ∈ more, g.size ≤ j) ∧ (start ≤ i → ¬ g.Open i → more = [])
  led : ∀ i node, g.size ≤ i → g'.node? i = some node →
    ∀ j ∈ node.successors, j < start ∨ g.size ≤ j

namespace GrowsFrom

variable {g g' g'' : Graph} {start start' : Nat} {ends : List Nat}

theorem refl (start : Nat) (g : Graph) : g.GrowsFrom start g :=
  ⟨le_rfl, fun i node found => ⟨[], by simpa using found, by simp, fun _ _ => rfl⟩,
    fun _ _ new found => absurd (lt_size_of_node? found) (by omega)⟩

theorem of_grows (grows : g.Grows ends g') (free : ∀ e ∈ ends, start ≤ e → g.Open e) :
    GrowsFrom start g g' where
  larger := grows.larger
  kept := by
    intro i node found
    obtain ⟨more, there, fresh, only⟩ := grows.kept i node found
    exact ⟨more, there, fresh, fun new closed => only fun member => closed (free i member new)⟩
  led i node new found j leads := .inr (grows.led i node new found j leads)

theorem trans (one : GrowsFrom start g g') (two : GrowsFrom start' g' g'')
    (earlier : start' ≤ start) : GrowsFrom start g g'' where
  larger := one.larger.trans two.larger
  kept := by
    intro i node found
    obtain ⟨more, here, fresh, only⟩ := one.kept i node found
    obtain ⟨more', there, fresh', only'⟩ := two.kept i _ here
    refine ⟨more ++ more', by simpa using there, ?_, ?_⟩
    · intro j member
      rcases List.mem_append.mp member with old | new
      · exact fresh j old
      · exact one.larger.trans (fresh' j new)
    · intro new closed
      -- A node that is closed has got no edge, so it is closed still.
      have none := only new closed
      rw [none, List.append_nil] at here
      have closed' : ¬ g'.Open i := by
        rintro ⟨node', found', free, straight⟩
        obtain rfl := Option.some.inj (here.symm.trans found')
        exact closed ⟨node, found, free, straight⟩
      rw [none, only' (earlier.trans new) closed', List.append_nil]
  led := by
    intro i node new found j leads
    have larger := one.larger
    rcases Nat.lt_or_ge i g'.size with old | newer
    · obtain ⟨node', here⟩ := exists_node? old
      obtain ⟨more, there, fresh, -⟩ := two.kept i node' here
      obtain rfl := Option.some.inj (found.symm.trans there)
      rcases List.mem_append.mp leads with led | drawn
      · exact one.led i node' new here j led
      · exact .inr (larger.trans (fresh j drawn))
    · exact (two.led i node newer found j leads).imp earlier.trans_lt' larger.trans

theorem connect (grown : GrowsFrom start g g') {source target : Nat} (new : g.size ≤ source)
    (back : target < start) : GrowsFrom start g (g'.connect source target) where
  larger := by simpa using grown.larger
  kept := by
    intro i node found
    have other : source ≠ i := by
      have := lt_size_of_node? found
      omega
    simpa [node?_connect, other] using grown.kept i node found
  led := by
    intro i node later found j leads
    rw [node?_connect] at found
    split at found
    next =>
      obtain ⟨old, there, rfl⟩ := Option.map_eq_some_iff.mp found
      rcases List.mem_append.mp leads with led | drawn
      · exact grown.led i old later there j led
      · exact .inl (List.mem_singleton.mp drawn ▸ back)
    next => exact grown.led i node later found j leads

theorem append {b : Build} (ctx : Context) (action : Action)
    (free : ∀ e ∈ ends, b.graph.Open e) :
    GrowsFrom start b.graph (b.append ctx action ends).graph :=
  .of_grows (.append _ rfl fun e member => (free e member).inside) fun e member _ => free e member

theorem stands (grown : GrowsFrom start g g') {i : Nat} {action : Action}
    (stands : g.actions[i]? = some action) : g'.actions[i]? = some action := by
  obtain ⟨node, found, rfl⟩ := acts_iff.mp stands
  obtain ⟨more, there, -⟩ := grown.kept i node found
  exact acts_iff.mpr ⟨_, there, rfl⟩

theorem closed (grown : GrowsFrom start g g') {i : Nat} {node : Node}
    (found : g.node? i = some node) (new : start ≤ i) (closed : ¬ g.Open i) :
    g'.node? i = some node := by
  obtain ⟨more, there, -, only⟩ := grown.kept i node found
  simpa [only new closed] using there

theorem leads (grown : GrowsFrom start g g') {i j : Nat} (leads : g'.Leads i j) (new : start ≤ j)
    (old : j < g.size) : g.Leads i j := by
  obtain ⟨node, found, member⟩ := leads
  rcases Nat.lt_or_ge i g.size with inside | later
  · obtain ⟨node', here⟩ := exists_node? inside
    obtain ⟨more, there, fresh, -⟩ := grown.kept i node' here
    obtain rfl := Option.some.inj (found.symm.trans there)
    rcases List.mem_append.mp member with led | drawn
    · exact ⟨node', here, led⟩
    · exact absurd (fresh j drawn) (by omega)
  · exact absurd (grown.led i node later found j member) (by omega)

end GrowsFrom

end Graph

namespace Judgement

/-- The judgements that a judgement follows from by the rule for its piece of syntax. -/
inductive Premises : Judgement → List Judgement → Prop
  | seq {cs : List Command} {ctx : Context} {flow flow' : Flow} {b b' : Build} :
      Premises (.command (.seq cs) ctx flow b flow' b') [.sequence cs 0 ctx flow b flow' b']
  | bind {x : String} {value : Expr} {ctx : Context} {flow flow' : Flow} {b b' : Build} :
      Premises (.command (.bind x value) ctx flow b flow' b')
      [.bind x value ctx flow b flow' b']
  | branch {as : List Arm} {ctx : Context} {flow : Flow} {b b' : Build} {out : Arms} :
      Premises (.command (.branch as) ctx flow b
          { flow with ends := out.ends, returns := out.returns } b')
        [.arms as 0 ctx b.graph.size flow.scope { returns := flow.returns }
          (b.append ctx .choice flow.ends) out b']
  | loop {body : Command} {as : List Arm} {ctx : Context} {flow inner : Flow} {b b₁ b₂ : Build}
      {out : Arms} :
      Premises (.command (.loop body as) ctx flow b
          { flow with ends := out.ends, returns := out.returns }
          ((b₂.append (ctx.enter "again") (.guard [] out.taken) [b₁.graph.size]).connect
            b₂.graph.size b.graph.size))
        [.command body (ctx.enter "body")
          { ends := [b.graph.size], scope := flow.scope.child, returns := flow.returns }
          (b.append ctx .loopHead flow.ends) inner b₁,
        .arms as 0 (ctx.enter "until") b₁.graph.size inner.scope { returns := inner.returns }
          (b₁.append (ctx.enter "until") .choice inner.ends) out b₂]
  | call {f : String} {args : List Expr} {loc : Option Location} {ctx : Context} {flow : Flow}
      {b b' : Build} {ends : Ends} :
      Premises (.command (.call f args loc) ctx flow b { flow with ends } b')
      [.call f args ctx flow.scope flow.ends none b ends b']
  | emit {event : EventExpr} {ctx : Context} {flow : Flow} {b b₁ : Build} {ts : List Term}
      {ends : Ends} {site : EventSite} :
      Premises (.command (.emit event) ctx flow b { flow with ends := [b₁.graph.size] }
        ((b₁.append ctx (.emit (.app event.tag ts) b₁.events.length) ends).addEvent site))
      [.terms event.args ctx flow.scope flow.ends b ts ends b₁]
  | put {action : StoreAction} {target store : String} {e : Expr} {loc : Option Location}
      {ctx : Context} {flow : Flow} {b b₁ : Build} {t : Term} {ends : Ends}
      (puts : action = .insert ∨ action = .remove) :
      Premises (.command (.store action target e loc) ctx flow b
          { flow with ends := [b₁.graph.size] } (b₁.append ctx (action.node store t []) ends))
        [.term e ctx flow.scope flow.ends b t ends b₁]
  | retValue {x : String} {e : Expr} {loc : Option Location} {ctx : Context} {flow : Flow}
      {b b₁ : Build} {t : Term} {ends : Ends} (result : ctx.frame.result = some x) :
      Premises (.command (.ret e loc) ctx flow b
          { flow with ends := [], returns := flow.returns ++ [b₁.graph.size] }
          (b₁.append ctx (.assign x t) ends))
        [.term e ctx flow.scope flow.ends b t ends b₁]
  | retNothing {e : Expr} {loc : Option Location} {ctx : Context} {flow : Flow} {b b₁ : Build}
      {ends : Ends} {t : Term} (result : ctx.frame.result = none) :
      Premises (.command (.ret e loc) ctx flow b
          { flow with ends := [], returns := flow.returns ++ ends } b₁)
        [.term e ctx flow.scope flow.ends b t ends b₁]
  | next {c : Command} {cs : List Command} {i : Nat} {ctx : Context} {flow flow₁ flow' : Flow}
      {b b₁ b' : Build} : Premises (.sequence (c :: cs) i ctx flow b flow' b')
      [.command c (ctx.enter (toString i)) flow b flow₁ b₁,
      .sequence cs (i + 1) ctx flow₁ b₁ flow' b']
  | dropArm {comparisons : List Comparison} {body : Command} {as : List Arm} {i choice : Nat}
      {ctx : Context} {scope : Scope} {sofar out : Arms} {b b₁ b' : Build} {text : String}
      (never : (ctx.enter s!"arm{i}").conditions scope comparisons b = .ok (none, b₁)) :
      Premises (.arms (.guarded comparisons body :: as) i ctx choice scope sofar b out b')
        [.arms as (i + 1) ctx choice scope sofar (b₁.note (ctx.enter s!"arm{i}") text) out b']
  | takeArm {comparisons : List Comparison} {body : Command} {as : List Arm} {i choice : Nat}
      {ctx : Context} {scope : Scope} {sofar out : Arms} {b b₁ b₂ b' : Build}
      {group : List Condition} {inner : Flow}
      (guarded : (ctx.enter s!"arm{i}").conditions scope comparisons b = .ok (some group, b₁)) :
      Premises (.arms (.guarded comparisons body :: as) i ctx choice scope sofar b out b')
        [.command body (ctx.enter s!"arm{i}")
          { ends := [b₁.graph.size], scope := scope.child, returns := sofar.returns }
          (b₁.append (ctx.enter s!"arm{i}") (.guard group sofar.taken) [choice]) inner b₂,
        .arms as (i + 1) ctx choice scope
          { ends := sofar.ends ++ inner.ends, returns := inner.returns,
            taken := sofar.taken ++ [group] } b₂ out b']
  | bindCall {x f : String} {args : List Expr} {loc : Option Location} {ctx : Context} {flow : Flow}
      {b b₁ : Build} {ends : Ends} {scope : Scope}
      (callable : (!ctx.decls.theory.hasSymbol f && ctx.decls.callables.contains f) = true) :
      Premises (.bind x (.apply f args loc) ctx flow b { flow with ends, scope } b₁)
        [.call f args ctx flow.scope flow.ends (some (b.varFor x)) (b.takeVar x) ends b₁]
  | bindTerm {value : Expr} {x : String} {ctx : Context} {flow : Flow} {b b₁ : Build}
      {scope : Scope} {t : Term} {ends : Ends} (uncalled : ∀ f args loc, value = .apply f args loc →
        (!ctx.decls.theory.hasSymbol f && ctx.decls.callables.contains f) = false) :
      Premises (.bind x value ctx flow b { flow with ends := [b₁.graph.size], scope }
          ((b₁.takeVar x).append ctx (.assign (b₁.varFor x) t) ends))
        [.term value ctx flow.scope flow.ends b t ends b₁]
  | tuple {ts : List Term} {t : Term} {items : List Expr} {ctx : Context} {scope : Scope}
      {ends ends' : Ends} {b b' : Build} (made : Term.tuple ts = .ok t) :
      Premises (.term (.tuple items) ctx scope ends b t ends' b')
        [.terms items ctx scope ends b ts ends' b']
  | symbol {f : String} {args : List Expr} {loc : Option Location} {ctx : Context} {scope : Scope}
      {ends ends' : Ends} {b b' : Build} {ts : List Term}
      (arity : ctx.decls.theory.symbols.find? f = some args.length) :
      Premises (.term (.apply f args loc) ctx scope ends b (.app f ts) ends' b')
        [.terms args ctx scope ends b ts ends' b']
  | callTerm {f : String} {args : List Expr} {loc : Option Location} {ctx : Context} {scope : Scope}
      {ends ends' : Ends} {b b' : Build} (free : ctx.decls.theory.symbols.find? f = none) :
      Premises (.term (.apply f args loc) ctx scope ends b (.var (b.varFor s!"{f}$ret")) ends' b')
        [.call f args ctx scope ends (some (b.varFor s!"{f}$ret")) (b.takeVar s!"{f}$ret") ends' b']
  | someTerms {e : Expr} {es : List Expr} {ctx : Context} {scope : Scope} {ends ends₁ ends' : Ends}
      {b b₁ b' : Build} {t : Term} {ts : List Term} :
      Premises (.terms (e :: es) ctx scope ends b (t :: ts) ends' b')
      [.term e ctx scope ends b t ends₁ b₁, .terms es ctx scope ends₁ b₁ ts ends' b']
  | storeArgument {name : String} {e : Expr} {es : List Expr} {ctx : Context} {scope : Scope}
      {ends ends' : Ends} {b b' : Build} {args : List Argument}
      (named : ctx.storeNamed? scope e = some name) :
      Premises (.arguments (e :: es) ctx scope ends b (.store name :: args) ends' b')
        [.arguments es ctx scope ends b args ends' b']
  | valueArgument {e : Expr} {es : List Expr} {ctx : Context} {scope : Scope}
      {ends ends₁ ends' : Ends} {b b₁ b' : Build} {t : Term} {args : List Argument}
      (unnamed : ctx.storeNamed? scope e = none) :
      Premises (.arguments (e :: es) ctx scope ends b (.value t :: args) ends' b')
        [.term e ctx scope ends b t ends₁ b₁, .arguments es ctx scope ends₁ b₁ args ends' b']
  | callee {f : String} {args : List Expr} {ctx : Context} {scope : Scope} {ends ends₁ ends' : Ends}
      {result : Option String} {b b₁ b' : Build} {passed : List Argument} {d : Definition}
      (found : ctx.callee f args.length b = .ok (d, b)) :
      Premises (.call f args ctx scope ends result b ends' b')
        [.arguments args ctx scope ends b passed ends₁ b₁,
        .invoke d passed ctx ends₁ result b₁ ends' b']
  | direct {d : Definition} {args : List Argument} {ctx : Context} {ends ends' : Ends}
      {result : Option String} {b b' : Build} {objects : List String}
      (typed : ctx.objectTypes args b = .ok (objects, b))
      (single : (ctx.plan d objects).length ≤ 1) :
      Premises (.invoke d args ctx ends result b ends' b')
        [.inlined d args ctx ends result b ends' b']
  | site {out : List Nat} {d : Definition} {args : List Argument} {ctx : Context} {ends : Ends}
      {result : Option String} {b b₁ : Build} {objects : List String}
      (typed : ctx.objectTypes args b = .ok (objects, b))
      (several : ¬ (ctx.plan d objects).length ≤ 1) (goesOn : out ≠ []) :
      Premises (.invoke d args ctx ends result b [b₁.graph.size] (b₁.append ctx .join out))
        [.alternatives (ctx.plan d objects) args ctx result b.graph.size
          (b.append ctx (.callSite d.name) ends) out b₁]
  | deadSite {d : Definition} {args : List Argument} {ctx : Context} {ends : Ends}
      {result : Option String} {b b₁ : Build} {objects : List String}
      (typed : ctx.objectTypes args b = .ok (objects, b))
      (several : ¬ (ctx.plan d objects).length ≤ 1) :
      Premises (.invoke d args ctx ends result b [] b₁)
        [.alternatives (ctx.plan d objects) args ctx result b.graph.size
          (b.append ctx (.callSite d.name) ends) [] b₁]
  | someAlternatives {a : Callables.Alternative} {plan : List Callables.Alternative}
      {args : List Argument} {ctx : Context} {result : Option String} {site : Nat} {b b₁ b' : Build}
      {here later : Ends} :
      Premises (.alternatives (a :: plan) args ctx result site b (here ++ later) b')
        [.inlined a.definition args (ctx.enter a.tag) [b.graph.size] result
          (b.append (ctx.enter a.tag) (.alternative a.tag) [site]) here b₁,
        .alternatives plan args ctx result site b₁ later b']
  | inline {d : Definition} {args : List Argument} {ctx : Context} {ends ends₁ : Ends}
      {result : Option String} {b b₁ b' : Build} {scope : Scope} {flow : Flow} :
      Premises (.inlined d args ctx ends result b (flow.ends ++ flow.returns) b')
        [.params (d.params.zip args) (ctx.inside d result) {} ends b scope ends₁ b₁,
        .command d.body (ctx.inside d result) { ends := ends₁, scope } b₁ flow b']
  | storeParam {x name : String} {pairs : List (String × Argument)} {ctx : Context}
      {scope scope₁ scope' : Scope} {ends ends' : Ends} {b b' : Build}
      (declared : scope.declare x (.store name) = .ok scope₁) :
      Premises (.params ((x, .store name) :: pairs) ctx scope ends b scope' ends' b')
        [.params pairs ctx scope₁ ends b scope' ends' b']
  | valueParam {x : String} {t : Term} {pairs : List (String × Argument)} {ctx : Context}
      {scope scope₁ scope' : Scope} {ends ends' : Ends} {b b' : Build}
      (declared : scope.declare x (.value (b.varFor x)) = .ok scope₁) :
      Premises (.params ((x, .value t) :: pairs) ctx scope ends b scope' ends' b')
        [.params pairs ctx scope₁ [b.graph.size]
          ((b.takeVar x).append ctx (.assign (b.varFor x) t) ends) scope' ends' b']

inductive Within : Judgement → Judgement → Prop
  | refl {J : Judgement} (derived : Elaborates J) : Within J J
  | step {K L J : Judgement} {Ks : List Judgement} (rule : J.Premises Ks)
      (each : ∀ L ∈ Ks, Elaborates L) (member : L ∈ Ks) (inside : Within K L) : Within K J

variable {J K L : Judgement} {Ks : List Judgement}

theorem Within.elaborates (within : K.Within J) : Elaborates K := by
  induction within with
  | refl derived => exact derived
  | step _ _ _ _ ih => exact ih

theorem Within.trans (one : K.Within L) (two : L.Within J) : K.Within J := by
  induction two with
  | refl => exact one
  | step rule each member _ ih => exact .step rule each member ih

theorem Premises.only (rule : J.Premises [K]) (one : Elaborates K) : K.Within J :=
  .step rule (by simpa using one) List.mem_cons_self (.refl one)

theorem Premises.first (rule : J.Premises [K, L]) (one : Elaborates K) (two : Elaborates L) :
    K.Within J :=
  .step rule (by simpa using ⟨one, two⟩) List.mem_cons_self (.refl one)

theorem Premises.second (rule : J.Premises [K, L]) (one : Elaborates K) (two : Elaborates L) :
    L.Within J :=
  .step rule (by simpa using ⟨one, two⟩) (by simp) (.refl two)

structure Embeds (K J : Judgement) : Prop where
  ready : K.OpenTips
  decls : K.context.decls = J.context.decls
  later : J.before.graph.size ≤ K.before.graph.size
  grown : K.after.graph.GrowsFrom K.before.graph.size J.after.graph

theorem Embeds.trans (one : K.Embeds L) (two : L.Embeds J) : K.Embeds J :=
  ⟨one.ready, one.decls.trans two.decls, two.later.trans one.later,
    one.grown.trans two.grown one.later⟩

theorem embeds_first (ready : K.OpenTips) (decls : K.context.decls = J.context.decls)
    (later : J.before.graph.size ≤ K.before.graph.size) (next : Elaborates L)
    (before : L.before.graph = K.after.graph) (after : L.after.graph = J.after.graph)
    (ready' : L.OpenTips) (free : ∀ e ∈ L.tips, K.before.graph.size ≤ e → K.after.graph.Open e) :
    K.Embeds J := by
  refine ⟨ready, decls, later, ?_⟩
  rw [← after, ← before]
  exact .of_grows (next.grows ready') (before ▸ free)

theorem embeds_last (ready : K.OpenTips) (decls : K.context.decls = J.context.decls)
    (later : J.before.graph.size ≤ K.before.graph.size) (after : K.after.graph = J.after.graph) :
    K.Embeds J :=
  ⟨ready, decls, later, after ▸ .refl _ _⟩

section Cases

variable {b b₁ b₂ b' : Build} {ctx : Context} {flow flow' : Flow} {scope : Scope} {ends : Ends}
  {result : Option String}

theorem embeds_loop {body : Command} {as : List Arm} {inner : Flow} {out : Arms}
    (repeated : Elaborates (repetition body ctx flow b inner b₁))
    (tried : Elaborates (choosing as (ctx.enter "until") inner b₁ out b₂))
    (free : ∀ e ∈ flow.ends, b.graph.Open e) :
    let J := loop body as ctx flow b b₁ out b₂
    (repetition body ctx flow b inner b₁).Embeds J ∧
    (choosing as (ctx.enter "until") inner b₁ out b₂).Embeds J := by
  have opened := b.threads_append ctx .loopHead rfl free
  obtain ⟨early, -, ran, -⟩ := repeated.threads opened.free
  have free₁ := repeated.command_free opened.free
  have several := b₁.branches_append (ctx.enter "until") .choice rfl free₁
  have grown := tried.grows several
  have inside : b₁.graph.size < b₂.graph.size := (grown.branches several).inside
  have again : b₂.graph.Grows [b₁.graph.size] (b₂.append (ctx.enter "again") (.guard [] out.taken)
      [b₁.graph.size]).graph := .append _ rfl (by simpa using inside)
  have small := ran.larger
  have large := grown.larger
  simp only [before, after, Build.size_append] at small large
  constructor
  · refine ⟨opened.free, rfl, by simp [before], ?_⟩
    -- The body's open ends lead to the choice; from there on only newer nodes get edges.
    have onward := ((Graph.Grows.append _ rfl fun e member => (free₁ e member).inside).trans grown
      (by simp [tips])).trans again (by simp)
    exact (Graph.GrowsFrom.of_grows onward fun e member _ => free₁ e member).connect
      (by omega) (by simp [before])
  · refine ⟨several, rfl, by simp only [before, Build.size_append]; omega, ?_⟩
    refine (Graph.GrowsFrom.of_grows again fun e member new => ?_).connect le_rfl
      (by simp only [before, Build.size_append]; omega)
    obtain rfl := List.mem_singleton.mp member
    simp [before] at new

theorem embeds_takeArm {body : Command} {as : List Arm} {comparisons : List Comparison}
    {i choice : Nat} {sofar out : Arms} {group : List Condition} {inner : Flow}
    (guarded : (ctx.enter s!"arm{i}").conditions scope comparisons b = .ok (some group, b₁))
    (chosen : Elaborates (.guarded body i ctx choice scope sofar group b₁ inner b₂))
    (rest : Elaborates (.remaining as i ctx choice scope sofar group inner b₂ out b'))
    (several : b.graph.Branches choice) :
    let J := arms (.guarded comparisons body :: as) i ctx choice scope sofar b out b'
    (Judgement.guarded body i ctx choice scope sofar group b₁ inner b₂).Embeds J ∧
    (remaining as i ctx choice scope sofar group inner b₂ out b').Embeds J := by
  have same := (Context.reads_conditions guarded).graph
  rw [← same] at several
  have drawn := b₁.threads_draw (ctx.enter s!"arm{i}") (.guard group sofar.taken) rfl several
  have ran := chosen.grows drawn.free
  have several₂ := ran.branches (drawn.branches several)
  have inside := several.inside
  have large := ran.larger
  simp only [before, after, Build.size_append] at large
  constructor
  · refine embeds_first drawn.free rfl (by simp [before, same]) rest rfl rfl several₂ ?_
    intro e member new
    obtain rfl := List.mem_singleton.mp member
    simp only [before, Build.size_append] at new
    omega
  · exact embeds_last several₂ rfl (by simp only [before]; rw [← same]; omega) rfl

theorem embeds_someAlternatives {a : Callables.Alternative} {plan : List Callables.Alternative}
    {args : List Argument} {site : Nat} {here later : Ends}
    (one : Elaborates (alternative a args ctx result site b here b₁))
    (others : Elaborates (alternatives plan args ctx result site b₁ later b'))
    (several : b.graph.Branches site) :
    let J := alternatives (a :: plan) args ctx result site b (here ++ later) b'
    (alternative a args ctx result site b here b₁).Embeds J ∧
    (alternatives plan args ctx result site b₁ later b').Embeds J := by
  have entered := b.threads_draw (ctx.enter a.tag) (.alternative a.tag) rfl several
  have ran := one.grows entered.free
  have several₁ := ran.branches (entered.branches several)
  have inside := several.inside
  have large := ran.larger
  simp only [before, after, Build.size_append] at large
  constructor
  · refine embeds_first entered.free rfl (by simp [before]) others rfl rfl several₁ ?_
    intro e member new
    obtain rfl := List.mem_singleton.mp member
    simp only [before, Build.size_append] at new
    omega
  · exact embeds_last several₁ rfl (by simp only [before]; omega) rfl

end Cases

theorem both_of_pair {first second : Judgement} (each : ∀ L ∈ [first, second], Elaborates L) :
    Elaborates first ∧ Elaborates second :=
  ⟨each _ (by simp), each _ (by simp)⟩

theorem Premises.embeds (rule : J.Premises Ks) (each : ∀ L ∈ Ks, Elaborates L) (member : K ∈ Ks)
    (ready : J.OpenTips) : K.Embeds J := by
  cases rule with
  | seq | bind | call | tuple | symbol | storeArgument | direct | storeParam | retNothing
  | bindCall | callTerm =>
    obtain rfl := List.mem_singleton.mp member
    exact embeds_last ready rfl le_rfl rfl
  | branch | deadSite =>
    obtain rfl := List.mem_singleton.mp member
    exact embeds_last (Build.branches_append _ _ rfl ready) rfl (by simp [before]) rfl
  | valueParam =>
    obtain rfl := List.mem_singleton.mp member
    exact embeds_last (Build.threads_append _ _ rfl ready).free rfl (by simp [before]) rfl
  | emit | put | retValue | bindTerm =>
    obtain rfl := List.mem_singleton.mp member
    have free := ((each _ member).threads ready).free
    exact ⟨ready, rfl, le_rfl, .append _ _ free⟩
  | site =>
    obtain rfl := List.mem_singleton.mp member
    have derived := each _ member
    refine ⟨Build.branches_append _ _ rfl ready, rfl, by simp [before], .append _ _ ?_⟩
    exact (derived.threads (Build.branches_append _ _ rfl ready)).1.free
  | dropArm never =>
    obtain rfl := List.mem_singleton.mp member
    have same := (Context.reads_conditions never).graph
    exact embeds_last (by simpa [OpenTips, Build.note, same] using ready) rfl
      (by simp [before, Build.note, same]) rfl
  | loop =>
    have each := both_of_pair each
    have both := embeds_loop each.1 each.2 ready
    rcases List.mem_pair.mp member with rfl | rfl
    · exact both.1
    · exact both.2
  | takeArm guarded =>
    have each := both_of_pair each
    have both := embeds_takeArm guarded each.1 each.2 ready
    rcases List.mem_pair.mp member with rfl | rfl
    · exact both.1
    · exact both.2
  | someAlternatives =>
    have each := both_of_pair each
    have both := embeds_someAlternatives each.1 each.2 ready
    rcases List.mem_pair.mp member with rfl | rfl
    · exact both.1
    · exact both.2
  | next =>
    have each := both_of_pair each
    obtain ⟨early, -, ran, -⟩ := each.1.threads ready
    have free := fun e member => ran.free e (List.mem_append_left _ member)
    rcases List.mem_pair.mp member with rfl | rfl
    · exact embeds_first ready rfl le_rfl each.2 rfl rfl free fun e member _ => free e member
    · exact embeds_last free rfl ran.larger rfl
  | someTerms | valueArgument | callee | inline =>
    have each := both_of_pair each
    have ran := each.1.threads ready
    rcases List.mem_pair.mp member with rfl | rfl
    · exact embeds_first ready rfl le_rfl each.2 rfl rfl ran.free
        fun e member _ => ran.free e member
    · exact embeds_last ran.free rfl ran.larger rfl

theorem Within.embeds (within : K.Within J) (ready : J.OpenTips) : K.Embeds J := by
  induction within with
  | refl => exact embeds_last ready rfl le_rfl rfl
  | step rule each member _ ih =>
    have first := rule.embeds each member ready
    exact (ih first.ready).trans first

end Judgement

structure Template.Derivation (template : Template) (D : Declarations) (name : String)
    (channels : Table String String) (b : Build) (g : Graph) where
  scope : Scope
  flow : Flow
  flow' : Flow
  b₁ : Build
  b₂ : Build
  channelled : (template.context D name).bindChannels channels template.params {} b = .ok (scope, b)
  vars : Elaborates (.sequence (template.vars.map fun v => .bind v.name v.init) 0
    ((template.context D name).enter "vars") { ends := [b.graph.size], scope }
    (b.append (template.context D name) .start []) flow b₁)
  main : Elaborates
    (.command template.main ((template.context D name).enter "main") flow b₁ flow' b₂)
  graph : g = (b₂.close (template.context D name) flow'.ends).graph

namespace Template.Derivation

variable {template : Template} {D : Declarations} {name : String} {channels : Table String String}
  {b : Build} {g : Graph} {K : Judgement}

def Meets (u : template.Derivation D name channels b g) (K : Judgement) : Prop :=
  K.Within (.sequence (template.vars.map fun v => .bind v.name v.init) 0
    ((template.context D name).enter "vars") { ends := [b.graph.size], scope := u.scope }
    (b.append (template.context D name) .start []) u.flow u.b₁) ∨
  K.Within
    (.command template.main ((template.context D name).enter "main") u.flow u.b₁ u.flow' u.b₂)

theorem Meets.within {u : template.Derivation D name channels b g} {J : Judgement}
    (meets : u.Meets J) (within : K.Within J) : u.Meets K :=
  meets.imp within.trans within.trans

theorem Meets.elaborates {u : template.Derivation D name channels b g} (meets : u.Meets K) :
    Elaborates K :=
  meets.elim Judgement.Within.elaborates Judgement.Within.elaborates

theorem opened (u : template.Derivation D name channels b g) :
    (∀ e ∈ [b.graph.size], (b.append (template.context D name) .start []).graph.Open e) ∧
      (∀ e ∈ u.flow.ends, u.b₁.graph.Open e) ∧ ∀ e ∈ u.flow'.ends, u.b₂.graph.Open e := by
  have none : ∀ e ∈ ([] : Ends), b.graph.Open e := by simp
  have started := b.threads_append (template.context D name) .start rfl none
  obtain ⟨returned, -, bound, -⟩ := u.vars.threads started.free
  have free := fun e member => bound.free e (List.mem_append_left _ member)
  obtain ⟨returned', -, ran, -⟩ := u.main.threads free
  exact ⟨started.free, free, fun e member => ran.free e (List.mem_append_left _ member)⟩

theorem growsFrom_close (u : template.Derivation D name channels b g) (start : Nat) :
    u.b₂.graph.GrowsFrom start g := by
  have closed : u.b₂.graph.GrowsFrom start
      (u.b₂.close (template.context D name) u.flow'.ends).graph := by
    unfold Build.close
    split
    next => exact .refl _ _
    next => exact .append _ _ u.opened.2.2
  exact u.graph.symm.subst (motive := fun h => u.b₂.graph.GrowsFrom start h) closed

theorem Meets.embeds {u : template.Derivation D name channels b g} (meets : u.Meets K) :
    K.OpenTips ∧ K.context.decls = D ∧ K.after.graph.GrowsFrom K.before.graph.size g := by
  obtain ⟨started, free, -⟩ := u.opened
  rcases meets with inVars | inMain
  · have embeds := inVars.embeds started
    have ran : u.b₁.graph.GrowsFrom 0 u.b₂.graph :=
      .of_grows (u.main.grows free) fun e member _ => free e member
    have later := ran.trans (u.growsFrom_close 0) le_rfl
    exact ⟨embeds.ready, embeds.decls, embeds.grown.trans later (Nat.zero_le _)⟩
  · have embeds := inMain.embeds free
    exact ⟨embeds.ready, embeds.decls, embeds.grown.trans (u.growsFrom_close 0) (Nat.zero_le _)⟩

end Template.Derivation

theorem exists_derivation {D : Declarations} {template : Template} {name : String}
    {channels : Table String String} {first : Nat} {e : Elaborated}
    (done : elaborate D template name channels first = .ok e) :
    Nonempty (template.Derivation D name channels { nextNonce := first } e.inst.graph) := by
  obtain ⟨b, ran, -⟩ := exists_build_of_elaborate done
  obtain ⟨scope, flow, flow', b₁, b₂, channelled, vars, main, rfl, same⟩ := template.derives ran
  exact ⟨⟨scope, flow, flow', b₁, b₂, channelled, vars, main, by rw [same]⟩⟩

end ThreatModel
