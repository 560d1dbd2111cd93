import Mathlib
import ThreatModel.Proofs.Elaboration.Parts

set_option autoImplicit false

namespace ThreatModel

theorem Graph.lt_size_of_actions {g : Graph} {i : Nat} {action : Action}
    (here : g.actions[i]? = some action) : i < g.size := by
  simpa using (List.getElem?_eq_some_iff.mp here).1

structure Build.Draws (P : Nat → Action → Prop) (b b' : Build) : Prop where
  kept : b.graph.actions <+: b'.graph.actions
  new : ∀ (i : Nat) action, b.graph.size ≤ i → b'.graph.actions[i]? = some action → P i action

namespace Build.Draws

variable {P Q : Nat → Action → Prop} {b b₁ b' : Build}

theorem refl (b : Build) : Draws P b b :=
  ⟨List.prefix_rfl, fun _ _ new here => absurd (Graph.lt_size_of_actions here) new.not_gt⟩

theorem stands (draws : Draws P b b') {i : Nat} (old : i < b.graph.size) :
    b'.graph.actions[i]? = b.graph.actions[i]? := by
  obtain ⟨more, same⟩ := draws.kept
  rw [← same, List.getElem?_append_left (by simpa using old)]

theorem trans (one : Draws P b b₁) (two : Draws P b₁ b') : Draws P b b' := by
  refine ⟨one.kept.trans two.kept, fun i action new here => ?_⟩
  rcases Nat.lt_or_ge i b₁.graph.size with early | late
  · rw [two.stands early] at here
    exact one.new i action new here
  · exact two.new i action late here

theorem append (ctx : Context) {action : Action} (ends : Ends) (here : P b.graph.size action) :
    Draws P b (b.append ctx action ends) := by
  refine ⟨by simp [Build.append], fun i action' new there => ?_⟩
  have inside := Graph.lt_size_of_actions there
  rw [size_append] at inside
  obtain rfl : i = b.graph.size := by omega
  obtain rfl : action = action' := by simpa [Build.append] using there
  exact here

theorem enter {ctx : Context} {action : Action} {ends : Ends}
    (rest : Draws P (b.append ctx action ends) b') (here : P b.graph.size action) : Draws P b b' :=
  (append ctx ends here).trans rest

theorem leave {ctx : Context} {action : Action} {ends : Ends} (start : Draws P b b')
    (here : P b'.graph.size action) : Draws P b (b'.append ctx action ends) :=
  start.trans (append ctx ends here)

theorem connect (draws : Draws P b b') (source target : Nat) :
    Draws P b (b'.connect source target) :=
  ⟨by simpa [Build.connect] using draws.kept, by simpa [Build.connect] using draws.new⟩

theorem after (rest : Draws P b₁ b') (same : b₁.graph = b.graph) : Draws P b b' :=
  ⟨same ▸ rest.kept, fun i action new => rest.new i action (same ▸ new)⟩

theorem before (start : Draws P b b₁) (same : b'.graph = b₁.graph) : Draws P b b' :=
  ⟨same ▸ start.kept, same ▸ start.new⟩

theorem mono (draws : Draws P b b') (weaker : ∀ i action, P i action → Q i action) : Draws Q b b' :=
  ⟨draws.kept, fun i action new here => weaker i action (draws.new i action new here)⟩

theorem within (draws : Draws P b b') :
    Draws (fun i action => P i action ∧ b.graph.size ≤ i ∧ i < b'.graph.size) b b' :=
  ⟨draws.kept, fun i action new here =>
    ⟨draws.new i action new here, new, Graph.lt_size_of_actions here⟩⟩

end Build.Draws

namespace Judgement

/-- The nodes that the rule of a judgement draws itself. -/
inductive Adds : Judgement → Nat → Action → Prop
  | new {x : String} {ctx : Context} {flow flow' : Flow} {b b' : Build} :
      Adds (.command (.new x) ctx flow b flow' b') b.graph.size
        (.fresh (b.varFor x) b.nextNonce)
  | branch {as : List Arm} {ctx : Context} {flow flow' : Flow} {b b' : Build} :
      Adds (.command (.branch as) ctx flow b flow' b') b.graph.size .choice
  | head {body : Command} {as : List Arm} {ctx : Context} {flow flow' : Flow} {b b' : Build} :
      Adds (.command (.loop body as) ctx flow b flow' b') b.graph.size .loopHead
  | loop {body : Command} {b b₁ b₂ : Build} {as : List Arm} {ctx : Context} {flow inner : Flow}
      {out : Arms}
      (repeated : Elaborates (.command body (ctx.enter "body")
        { ends := [b.graph.size], scope := flow.scope.child, returns := flow.returns }
        (b.append ctx .loopHead flow.ends) inner b₁))
      (tried : Elaborates (.arms as 0 (ctx.enter "until") b₁.graph.size inner.scope
        { returns := inner.returns } (b₁.append (ctx.enter "until") .choice inner.ends) out b₂)) :
      Adds (.command (.loop body as) ctx flow b
        { flow with ends := out.ends, returns := out.returns }
        ((b₂.append (ctx.enter "again") (.guard [] out.taken) [b₁.graph.size]).connect
          b₂.graph.size b.graph.size)) b₁.graph.size .choice
  | again {as : List Arm} {choice : Nat} {scope : Scope} {sofar out : Arms} {b b₁ b₂ b' : Build}
      {body : Command} {ctx : Context} {flow flow' : Flow}
      (tried : Elaborates (.arms as 0 (ctx.enter "until") choice scope sofar b₁ out b₂)) :
      Adds (.command (.loop body as) ctx flow b flow' b') b₂.graph.size (.guard [] out.taken)
  | emit {ctx : Context} {b b₁ b' : Build} {ts : List Term} {ends : Ends} {event : EventExpr}
      {flow flow' : Flow}
      (each : Elaborates (.terms event.args ctx flow.scope flow.ends b ts ends b₁)) :
      Adds (.command (.emit event) ctx flow b flow' b') b₁.graph.size
        (.emit (.app event.tag ts) b₁.events.length)
  | put {action : StoreAction} {e : Expr} {ctx : Context} {b b₁ b' : Build} {t : Term} {ends : Ends}
      {target : String} {store : StoreDecl} {loc : Option Location} {flow flow' : Flow}
      (puts : action = .insert ∨ action = .remove)
      (resolved : ctx.resolveStore flow.scope target b = .ok (store, b))
      (value : Elaborates (.term e ctx flow.scope flow.ends b t ends b₁)) :
      Adds (.command (.store action target e loc) ctx flow b flow' b') b₁.graph.size
        (action.node store.name t [])
  | take {action : StoreAction} {target : String} {store : StoreDecl} {e : Expr}
      {loc : Option Location} {ctx : Context} {flow flow' : Flow} {b b₁ b' : Build} {pattern : Term}
      {binds : Table String String} (takes : action = .consume ∨ action = .read)
      (resolved : ctx.resolveStore flow.scope target b = .ok (store, b))
      (read : ctx.plain flow.scope true e .empty b = .ok ((pattern, binds), b₁)) :
      Adds (.command (.store action target e loc) ctx flow b flow' b') b₁.graph.size
        (action.node store.name pattern binds.values)
  | ret {x : String} {e : Expr} {ctx : Context} {b b₁ b' : Build} {t : Term} {ends : Ends}
      {loc : Option Location} {flow flow' : Flow} (result : ctx.frame.result = some x)
      (value : Elaborates (.term e ctx flow.scope flow.ends b t ends b₁)) :
      Adds (.command (.ret e loc) ctx flow b flow' b') b₁.graph.size (.assign x t)
  | guard {comparisons : List Comparison} {body : Command} {as : List Arm} {i choice : Nat}
      {ctx : Context} {scope : Scope} {sofar out : Arms} {b b₁ b' : Build} {group : List Condition}
      (guarded : (ctx.enter s!"arm{i}").conditions scope comparisons b = .ok (some group, b₁)) :
      Adds (.arms (.guarded comparisons body :: as) i ctx choice scope sofar b out b')
        b₁.graph.size (.guard group sofar.taken)
  | bind {value : Expr} {ctx : Context} {b b₁ b' : Build} {t : Term} {ends : Ends} {x : String}
      {flow flow' : Flow}
      (evaluated : Elaborates (.term value ctx flow.scope flow.ends b t ends b₁)) :
      Adds (.bind x value ctx flow b flow' b') b₁.graph.size (.assign (b₁.varFor x) t)
  | site {d : Definition} {args : List Argument} {ctx : Context} {ends ends' : Ends}
      {result : Option String} {b b' : Build} {objects : List String}
      (typed : ctx.objectTypes args b = .ok (objects, b))
      (several : ¬ (ctx.plan d objects).length ≤ 1) :
      Adds (.invoke d args ctx ends result b ends' b') b.graph.size (.callSite d.name)
  | join {plan : List Callables.Alternative} {args : List Argument} {ctx : Context}
      {result : Option String} {site : Nat} {b b₁ b₂ b' : Build} {out ends ends' : Ends}
      {d : Definition}
      (alternatives : Elaborates (.alternatives plan args ctx result site b₁ out b₂)) :
      Adds (.invoke d args ctx ends result b ends' b') b₂.graph.size .join
  | alternative {a : Callables.Alternative} {plan : List Callables.Alternative}
      {args : List Argument} {ctx : Context} {result : Option String} {site : Nat} {b b' : Build}
      {ends' : Ends} :
      Adds (.alternatives (a :: plan) args ctx result site b ends' b') b.graph.size
        (.alternative a.tag)
  | param {x : String} {t : Term} {pairs : List (String × Argument)} {ctx : Context}
      {scope scope' : Scope} {ends ends' : Ends} {b b' : Build} :
      Adds (.params ((x, .value t) :: pairs) ctx scope ends b scope' ends' b') b.graph.size
        (.assign (b.varFor x) t)

def Drawn (J : Judgement) (i : Nat) (action : Action) : Prop :=
  ∃ K : Judgement, K.Within J ∧ K.Adds i action ∧
    K.before.graph.size ≤ i ∧ i < K.after.graph.size

theorem Within.drawn {J K : Judgement} {b b' : Build} (within : K.Within J)
    (draws : Build.Draws K.Drawn b b') : Build.Draws J.Drawn b b' :=
  draws.mono fun _ _ drawn => drawn.imp fun _ inside => ⟨inside.1.trans within, inside.2⟩

theorem Within.along {J K : Judgement} {b b' : Build} (within : K.Within J)
    (draws : Build.Draws K.Drawn b b') :
    Build.Draws (fun i action => J.Adds i action ∨ J.Drawn i action) b b' :=
  (within.drawn draws).mono fun _ _ => .inr

end Judgement

theorem Elaborates.collect {J : Judgement} (derived : Elaborates J)
    (draws : Build.Draws (fun i action => J.Adds i action ∨ J.Drawn i action) J.before J.after) :
    Build.Draws J.Drawn J.before J.after := by
  refine draws.within.mono fun i action drawn => ?_
  obtain ⟨here | inside, among⟩ := drawn
  · exact ⟨J, .refl derived, here, among⟩
  · exact inside

open Judgement in
theorem Elaborates.drawn {J : Judgement} (derived : Elaborates J) :
    Build.Draws J.Drawn J.before J.after := by
  induction derived with
  | skip | last | noArm | str | ident | noTerm | noArgument | noAlternative | noParam =>
    exact .refl _
  | seq body ih => exact (Premises.seq.only body).drawn ih
  | bind bound ih => exact (Premises.bind.only bound).drawn ih
  | @new x ctx flow b _ declared =>
    refine (Elaborates.new declared).collect (Build.Draws.after
      (Build.Draws.append (b := (b.takeVar x).takeNonce) ctx flow.ends ?_) rfl)
    exact .inl .new
  | branch arms ih =>
    have tried := (Premises.branch.only arms).along ih
    exact (Elaborates.branch arms).collect (tried.enter (.inl .branch))
  | loop repeated arms ih ih' =>
    have inBody := ((Premises.loop.first repeated arms).along ih).enter (.inl .head)
    have inArms := ((Premises.loop.second repeated arms).along ih').enter
      (.inl (.loop repeated arms))
    exact (Elaborates.loop repeated arms).collect
      (((inBody.trans inArms).leave (.inl (.again arms))).connect _ _)
  | call called ih => exact (Premises.call.only called).drawn ih
  | emit each ih =>
    refine (Elaborates.emit each).collect (Build.Draws.before
      (((Premises.emit.only each).along ih).leave ?_) rfl)
    exact .inl (.emit each)
  | put puts resolved permitted value ih =>
    refine (Elaborates.put puts resolved permitted value).collect ?_
    exact (((Premises.put puts).only value).along ih).leave (.inl (.put puts resolved value))
  | take takes resolved permitted read declared =>
    have same := (Context.reads_plain read).graph
    refine (Elaborates.take takes resolved permitted read declared).collect
      ((Build.Draws.append _ _ ?_).after same)
    exact .inl (.take takes resolved read)
  | retValue inside result value ih =>
    refine (Elaborates.retValue inside result value).collect ?_
    exact (((Premises.retValue result).only value).along ih).leave (.inl (.ret result value))
  | retNothing _ result value ih => exact ((Premises.retNothing result).only value).drawn ih
  | next first rest ih ih' =>
    exact ((Premises.next.first first rest).drawn ih).trans
      ((Premises.next.second first rest).drawn ih')
  | dropArm never rest ih =>
    have same := (Context.reads_conditions never).graph
    exact (((Premises.dropArm never).only rest).drawn ih).after same
  | takeArm guarded chosen rest ih ih' =>
    have same := (Context.reads_conditions guarded).graph
    refine (Elaborates.takeArm guarded chosen rest).collect (Build.Draws.after ?_ same)
    have inBody := ((Premises.takeArm guarded).first chosen rest).along ih
    have later := ((Premises.takeArm guarded).second chosen rest).along ih'
    exact (inBody.trans later).enter (.inl (.guard guarded))
  | bindCall _ callable called _ ih =>
    exact (((Premises.bindCall callable).only called).drawn ih).after rfl
  | bindTerm new uncalled evaluated declared ih =>
    refine (Elaborates.bindTerm new uncalled evaluated declared).collect
      (Build.Draws.leave (Build.Draws.before
        (((Premises.bindTerm uncalled).only evaluated).along ih) rfl) ?_)
    exact .inl (.bind evaluated)
  | tuple each made ih => exact ((Premises.tuple made).only each).drawn ih
  | symbol arity each ih => exact ((Premises.symbol arity).only each).drawn ih
  | callTerm free _ called ih => exact (((Premises.callTerm free).only called).drawn ih).after rfl
  | someTerms first rest ih ih' =>
    exact ((Premises.someTerms.first first rest).drawn ih).trans
      ((Premises.someTerms.second first rest).drawn ih')
  | storeArgument named rest ih => exact ((Premises.storeArgument named).only rest).drawn ih
  | valueArgument unnamed first rest ih ih' =>
    exact (((Premises.valueArgument unnamed).first first rest).drawn ih).trans
      (((Premises.valueArgument unnamed).second first rest).drawn ih')
  | callee found passing invoked ih ih' =>
    exact (((Premises.callee found).first passing invoked).drawn ih).trans
      (((Premises.callee found).second passing invoked).drawn ih')
  | direct typed _ single inlined ih => exact ((Premises.direct typed single).only inlined).drawn ih
  | site typed authorised several alternatives goesOn ih =>
    have tried := ((Premises.site typed several goesOn).only alternatives).along ih
    have entered := tried.enter (.inl (.site typed several))
    exact (Elaborates.site typed authorised several alternatives goesOn).collect
      (entered.leave (.inl (.join alternatives)))
  | deadSite typed authorised several alternatives ih =>
    have tried := ((Premises.deadSite typed several).only alternatives).along ih
    exact (Elaborates.deadSite typed authorised several alternatives).collect
      (tried.enter (.inl (.site typed several)))
  | someAlternatives first rest ih ih' =>
    have here := (Premises.someAlternatives.first first rest).along ih
    have later := (Premises.someAlternatives.second first rest).along ih'
    exact (Elaborates.someAlternatives first rest).collect
      ((here.trans later).enter (.inl .alternative))
  | inline params body returned ih ih' =>
    exact ((Premises.inline.first params body).drawn ih).trans
      ((Premises.inline.second params body).drawn ih')
  | storeParam declared rest ih => exact ((Premises.storeParam declared).only rest).drawn ih
  | valueParam declared rest ih =>
    have later := ((Premises.valueParam declared).only rest).along ih
    exact (Elaborates.valueParam declared rest).collect
      (Build.Draws.after (later.enter (.inl .param)) rfl)

theorem Template.Derivation.drawn {template : Template} {D : Declarations} {name : String}
    {channels : Table String String} {b : Build} {g : Graph}
    (u : template.Derivation D name channels b g) {i : Nat} {action : Action}
    (new : b.graph.size ≤ i) (here : g.actions[i]? = some action) :
    action = .start ∨ action = .finish ∨ ∃ K : Judgement, u.Meets K ∧ K.Adds i action ∧
      K.before.graph.size ≤ i ∧ i < K.after.graph.size := by
  let P (i : Nat) (action : Action) : Prop :=
    action = .start ∨ action = .finish ∨ ∃ K : Judgement, u.Meets K ∧ K.Adds i action ∧
      K.before.graph.size ≤ i ∧ i < K.after.graph.size
  have vars : Build.Draws P _ u.b₁ := u.vars.drawn.mono fun i action drawn =>
    .inr (.inr (drawn.imp fun K inside => ⟨.inl inside.1, inside.2⟩))
  have main : Build.Draws P u.b₁ u.b₂ := u.main.drawn.mono fun i action drawn =>
    .inr (.inr (drawn.imp fun K inside => ⟨.inr inside.1, inside.2⟩))
  have ran := (vars.enter (.inl rfl)).trans main
  have closed : Build.Draws P b (u.b₂.close (template.context D name) u.flow'.ends) := by
    unfold Build.close
    split
    next => exact ran
    next => exact ran.leave (.inr (.inl rfl))
  rw [u.graph] at here
  exact closed.new i action new here

def Callables.Has (C : Callables) (d : Definition) : Prop :=
  (∃ name, C.find? name = some d) ∨ ∃ name, d ∈ C.overridesOf name

theorem Command.partsAll_eq_flatMap (cs : List Command) : partsAll cs = cs.flatMap parts := by
  induction cs with
  | nil => rfl
  | cons c cs ih => simp [partsAll, ih]

def Template.Code (template : Template) (D : Declarations) (c : Command) : Prop :=
  (∃ whole ∈ template.vars.map (fun v => .bind v.name v.init) ++ [template.main],
    .command c ∈ whole.parts) ∨
  ∃ d, D.callables.Has d ∧ .command c ∈ d.body.parts

theorem Callables.has_of_plan {C : Callables} {d : Definition} {subjects : List String}
    {P : Policy} {intercept : Bool} {a : Alternative} (member : a ∈ C.plan d subjects P intercept) :
    a.definition = d ∨ C.Has a.definition := by
  simp only [plan, List.mem_cons, List.mem_map] at member
  rcases member with rfl | ⟨attack, granted, rfl⟩
  · exact .inl rfl
  · split at granted
    next => simp at granted
    next => exact .inr (.inr ⟨d.name, List.mem_of_mem_filter granted⟩)

namespace Judgement

variable {J K : Judgement} {Ks : List Judgement} {c : Command}

def Holds : Judgement → Command → Prop
  | .command c _ _ _ _ _, inner => .command inner ∈ c.parts
  | .sequence cs _ _ _ _ _ _, inner => .command inner ∈ Command.partsAll cs
  | .arms as _ _ _ _ _ _ _ _, inner => .command inner ∈ Arm.partsAll as
  | .invoke d _ _ _ _ _ _ _, inner | .inlined d _ _ _ _ _ _ _, inner =>
    .command inner ∈ d.body.parts
  | .alternatives plan _ _ _ _ _ _ _, inner =>
    ∃ a ∈ plan, .command inner ∈ a.definition.body.parts
  | _, _ => False

def Code (J : Judgement) (c : Command) : Prop :=
  J.Holds c ∨ ∃ d, J.context.decls.callables.Has d ∧ .command c ∈ d.body.parts

theorem Premises.code (rule : J.Premises Ks) (member : K ∈ Ks) (inside : K.Holds c) :
    J.Code c := by
  cases rule with
  | seq | branch =>
    obtain rfl := List.mem_singleton.mp member
    exact .inl (List.mem_cons_of_mem _ inside)
  | loop =>
    rcases List.mem_pair.mp member with rfl | rfl
    · exact .inl (List.mem_cons_of_mem _ (List.mem_append_left _ inside))
    · exact .inl (List.mem_cons_of_mem _ (List.mem_append_right _ inside))
  | next =>
    rcases List.mem_pair.mp member with rfl | rfl
    · exact .inl (List.mem_append_left _ inside)
    · exact .inl (List.mem_append_right _ inside)
  | dropArm =>
    obtain rfl := List.mem_singleton.mp member
    exact .inl (List.mem_append_right _ inside)
  | takeArm =>
    rcases List.mem_pair.mp member with rfl | rfl
    · exact .inl (List.mem_append_left _
        (List.mem_cons_of_mem _ (List.mem_append_right _ inside)))
    · exact .inl (List.mem_append_right _ inside)
  | direct =>
    obtain rfl := List.mem_singleton.mp member
    exact .inl inside
  | callee found =>
    rcases List.mem_pair.mp member with rfl | rfl
    · exact inside.elim
    · exact .inr ⟨_, .inl ⟨_, (Context.callee_eq_ok found).1⟩, inside⟩
  | site | deadSite =>
    obtain rfl := List.mem_singleton.mp member
    obtain ⟨a, planned, inside⟩ := inside
    rcases Callables.has_of_plan planned with same | has
    · exact .inl (same ▸ inside)
    · exact .inr ⟨_, has, inside⟩
  | someAlternatives =>
    rcases List.mem_pair.mp member with rfl | rfl
    · exact .inl ⟨_, List.mem_cons_self, inside⟩
    · obtain ⟨a, planned, inside⟩ := inside
      exact .inl ⟨a, List.mem_cons_of_mem _ planned, inside⟩
  | inline =>
    rcases List.mem_pair.mp member with rfl | rfl
    · exact inside.elim
    · exact .inl inside
  | someTerms | valueArgument =>
    rcases List.mem_pair.mp member with rfl | rfl
    all_goals exact inside.elim
  | _ =>
    obtain rfl := List.mem_singleton.mp member
    exact inside.elim

theorem Within.code (within : K.Within J) (ready : J.OpenTips) (inside : K.Holds c) : J.Code c := by
  induction within with
  | refl => exact .inl inside
  | step rule each member _ ih =>
    have first := rule.embeds each member ready
    rcases ih first.ready with here | called
    · exact rule.code member here
    · exact .inr (first.decls ▸ called)

end Judgement

theorem Template.Derivation.Meets.code {template : Template} {D : Declarations} {name : String}
    {channels : Table String String} {b : Build} {g : Graph}
    {u : template.Derivation D name channels b g} {K : Judgement} {c : Command} (meets : u.Meets K)
    (inside : K.Holds c) : template.Code D c := by
  obtain ⟨started, free, -⟩ := u.opened
  rcases meets with inVars | inMain
  · refine (inVars.code started inside).imp_left fun here => ?_
    rw [Judgement.Holds, Command.partsAll_eq_flatMap, List.mem_flatMap] at here
    obtain ⟨whole, member, inside⟩ := here
    exact ⟨whole, List.mem_append_left _ member, inside⟩
  · exact (inMain.code free inside).imp_left fun here => ⟨template.main, by simp, here⟩

end ThreatModel
