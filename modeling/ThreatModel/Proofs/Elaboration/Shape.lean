import Mathlib
import ThreatModel.Proofs.Elaboration.Drawn

set_option autoImplicit false

namespace ThreatModel

variable {b b₁ b' : Build} {ends ends' : Ends} {ctx : Context}

namespace Build

theorem shaped_append (ctx : Context) (action : Action) (free : ∀ e ∈ ends, b.graph.Open e)
    (apart : ends.Nodup) (shaped : b.graph.Shaped) : (b.append ctx action ends).graph.Shaped :=
  shaped.append rfl (fun e member => (free e member).awaits _) apart

theorem shaped_draw (ctx : Context) {action action' : Action} {i : Nat}
    (stands : b.graph.actions[i]? = some action') (several : action'.branches = true)
    (admitted : action'.admits action = true) (shaped : b.graph.Shaped) :
    (b.append ctx action [i]).graph.Shaped := by
  refine shaped.append rfl ?_ (List.nodup_singleton i)
  intro e member
  obtain rfl := List.mem_singleton.mp member
  obtain ⟨node, found, rfl⟩ := Graph.acts_iff.mp stands
  exact ⟨node, found, admitted, fun straight => by simp [straight] at several⟩

theorem stands_append (b : Build) (ctx : Context) (action : Action) (ends : Ends) :
    (b.append ctx action ends).graph.actions[b.graph.size]? = some action := by
  simp [append]

end Build

theorem Graph.Grows.stands {g g' : Graph} (grows : g.Grows ends g') {i : Nat} {action : Action}
    (stands : g.actions[i]? = some action) : g'.actions[i]? = some action := by
  obtain ⟨node, found, rfl⟩ := acts_iff.mp stands
  exact acts_iff.mpr (grows.action found)

theorem Graph.branches_of_stands {g : Graph} {i : Nat} {action : Action}
    (stands : g.actions[i]? = some action) (several : action.branches = true) : g.Branches i := by
  obtain ⟨node, found, rfl⟩ := acts_iff.mp stands
  exact ⟨node, found, several⟩

def Judgement.Shapes : Judgement → Prop
  | .command _ _ flow b flow' b' | .sequence _ _ _ flow b flow' b' | .bind _ _ _ flow b flow' b' =>
    (∀ e ∈ flow.ends, b.graph.Open e) → flow.ends.Nodup → b.graph.Shaped → b'.graph.Shaped ∧
      ∀ returned, flow'.returns = flow.returns ++ returned → (flow'.ends ++ returned).Nodup
  | .arms _ _ _ choice _ sofar b out b' =>
    b.graph.actions[choice]? = some .choice → b.graph.Shaped → b'.graph.Shaped ∧
      ∀ ends returned, out.ends = sofar.ends ++ ends →
        out.returns = sofar.returns ++ returned → (ends ++ returned).Nodup
  | .term _ _ _ ends b _ ends' b' | .terms _ _ _ ends b _ ends' b'
  | .arguments _ _ _ ends b _ ends' b' | .call _ _ _ _ ends _ b ends' b'
  | .invoke _ _ _ ends _ b ends' b' | .inlined _ _ _ ends _ b ends' b'
  | .params _ _ _ ends b _ ends' b' =>
    (∀ e ∈ ends, b.graph.Open e) → ends.Nodup → b.graph.Shaped → b'.graph.Shaped ∧ ends'.Nodup
  | .alternatives _ _ _ _ site b ends' b' =>
    (∃ callee, b.graph.actions[site]? = some (.callSite callee)) → b.graph.Shaped →
      b'.graph.Shaped ∧ ends'.Nodup

theorem nodup_aside {early late : List Nat} (first : early.Nodup) (second : (ends ++ late).Nodup)
    (apart : ∀ e ∈ early, e ∉ ends ++ late) : (ends ++ (early ++ late)).Nodup :=
  (List.perm_append_comm_assoc ..).nodup_iff.mpr
    (List.nodup_append'.mpr ⟨first, second, apart⟩)

namespace Judgement

variable {scope : Scope} {flow flow' : Flow} {result : Option String}

theorem shapes_on {action : Action} (shaped : b₁.graph.Shaped)
    (free : ∀ e ∈ ends, b₁.graph.Open e) (apart : ends.Nodup)
    (returns : flow'.returns = flow.returns) (left : flow'.ends = [b₁.graph.size]) :
    (b₁.append ctx action ends).graph.Shaped ∧
      ∀ returned, flow'.returns = flow.returns ++ returned → (flow'.ends ++ returned).Nodup := by
  refine ⟨b₁.shaped_append ctx action free apart shaped, fun returned same => ?_⟩
  have none : returned = [] := by simpa [returns] using same
  simp [none, left]

theorem shapes_branch {as : List Arm} {out : Arms}
    (arms : (Judgement.choosing as ctx flow b out b').Shapes) :
    (branch as ctx flow b out b').Shapes := by
  intro free apart shaped
  obtain ⟨shaped', once⟩ := arms (b.stands_append ..) (b.shaped_append ctx .choice free apart shaped)
  exact ⟨shaped', fun returned same => once out.ends returned rfl same⟩

theorem shapes_loop {body : Command} {as : List Arm} {inner : Flow} {b₂ : Build} {out : Arms}
    (repeated : Elaborates (repetition body ctx flow b inner b₁))
    (arms : Elaborates (Judgement.choosing as (ctx.enter "until") inner b₁ out b₂))
    (ih : (repetition body ctx flow b inner b₁).Shapes)
    (ih' : (Judgement.choosing as (ctx.enter "until") inner b₁ out b₂).Shapes) :
    (loop body as ctx flow b b₁ out b₂).Shapes := by
  intro free apart shaped
  have opened := b.threads_append ctx .loopHead rfl free
  obtain ⟨early, returns, ran, aside, -⟩ := repeated.threads opened.free
  obtain ⟨shaped₁, once⟩ := ih opened.free (List.nodup_singleton _)
    (b.shaped_append ctx .loopHead free apart shaped)
  have once := once early returns
  have free₁ := repeated.command_free opened.free
  have stands := b₁.stands_append (ctx.enter "until") .choice inner.ends
  obtain ⟨shaped₂, once'⟩ := ih' stands
    (b₁.shaped_append (ctx.enter "until") .choice free₁ once.of_append_left shaped₁)
  obtain ⟨ends, late, left, returns', tried, -, fresh, -⟩ :=
    arms.threads (b₁.branches_append (ctx.enter "until") .choice rfl free₁)
  have again := b₂.threads_draw (ctx.enter "again") (.guard [] out.taken) rfl
    (Graph.branches_of_stands (tried.stands stands) rfl)
  have small : b.graph.size < (b₂.append (ctx.enter "again") (.guard [] out.taken)
      [b₁.graph.size]).graph.size := by
    have := ran.larger
    have := tried.larger
    simp only [Build.size_append] at *
    omega
  refine ⟨(b₂.shaped_draw (ctx.enter "again") (tried.stands stands) rfl rfl shaped₂).connect
    (again.free _ (by simp)) small, fun returned same => ?_⟩
  obtain rfl : returned = early ++ late := by
    refine List.append_cancel_left (same.symm.trans ?_)
    rw [returns', returns, List.append_assoc]
  rw [show out.ends = ends from left]
  refine nodup_aside once.of_append_right (once' ends late left returns') fun e member among => ?_
  -- The body returned before the arms were tried.
  have low := (ran.free e (by simp [member])).inside
  have high := fresh e among
  simp only [Build.size_append] at high
  omega

theorem shapes_takeArm {body : Command} {as : List Arm} {comparisons : List Comparison}
    {i choice : Nat} {sofar out : Arms} {b₂ : Build} {group : List Condition} {inner : Flow}
    (same : b₁.graph = b.graph)
    (chosen : Elaborates (guarded body i ctx choice scope sofar group b₁ inner b₂))
    (rest : Elaborates (remaining as i ctx choice scope sofar group inner b₂ out b'))
    (ih : (guarded body i ctx choice scope sofar group b₁ inner b₂).Shapes)
    (ih' : (remaining as i ctx choice scope sofar group inner b₂ out b').Shapes) :
    (arms (.guarded comparisons body :: as) i ctx choice scope sofar b out b').Shapes := by
  intro stands shaped
  rw [← same] at stands shaped
  have guarded := b₁.threads_draw (ctx.enter s!"arm{i}") (.guard group sofar.taken) rfl
    (Graph.branches_of_stands stands rfl)
  obtain ⟨early, returns, ran, -⟩ := chosen.threads guarded.free
  obtain ⟨shaped₁, once⟩ := ih guarded.free (List.nodup_singleton _)
    (b₁.shaped_draw (ctx.enter s!"arm{i}") stands rfl rfl shaped)
  have stands₁ := ran.stands (guarded.stands stands)
  obtain ⟨shaped₂, once'⟩ := ih' stands₁ shaped₁
  obtain ⟨ends, late, left, returns', -, -, fresh, -⟩ :=
    rest.threads (Graph.branches_of_stands stands₁ rfl)
  refine ⟨shaped₂, fun ends' returned here back => ?_⟩
  obtain rfl : ends' = inner.ends ++ ends := by
    refine List.append_cancel_left (here.symm.trans ?_)
    rw [left, List.append_assoc]
  obtain rfl : returned = early ++ late := by
    refine List.append_cancel_left (back.symm.trans ?_)
    rw [returns', returns, List.append_assoc]
  have first := once early returns
  have second := once' ends late left returns'
  have apart : ∀ e ∈ inner.ends ++ early, e ∉ ends ++ late := by
    intro e member among
    have low := (ran.free e member).inside
    have high := fresh e among
    omega
  have both : ((inner.ends ++ early) ++ (ends ++ late)).Nodup :=
    List.nodup_append'.mpr ⟨first, second, apart⟩
  refine List.Perm.nodup ?_ both
  simp only [List.append_assoc]
  exact (List.perm_append_comm_assoc ..).append_left _

theorem shapes_next {c : Command} {cs : List Command} {i : Nat} {flow₁ : Flow}
    (one : Elaborates (command c (ctx.enter (toString i)) flow b flow₁ b₁))
    (others : Elaborates (sequence cs (i + 1) ctx flow₁ b₁ flow' b'))
    (ih : (command c (ctx.enter (toString i)) flow b flow₁ b₁).Shapes)
    (ih' : (sequence cs (i + 1) ctx flow₁ b₁ flow' b').Shapes) :
    (sequence (c :: cs) i ctx flow b flow' b').Shapes := by
  intro free apart shaped
  obtain ⟨early, returns, ran, aside, -⟩ := one.threads free
  have free₁ : ∀ e ∈ flow₁.ends, b₁.graph.Open e := fun e member => ran.free e (by simp [member])
  obtain ⟨late, returns', gone, -⟩ := others.threads free₁
  obtain ⟨shaped₁, once⟩ := ih free apart shaped
  have once := once early returns
  obtain ⟨shaped₂, once'⟩ := ih' free₁ once.of_append_left shaped₁
  refine ⟨shaped₂, fun returned same => ?_⟩
  obtain rfl : returned = early ++ late := by
    refine List.append_cancel_left (same.symm.trans ?_)
    rw [returns', returns, List.append_assoc]
  refine nodup_aside once.of_append_right (once' late returns') fun e member among => ?_
  rcases gone.origin e among with old | new
  · exact aside e member old
  · exact absurd (ran.free e (by simp [member])).inside (by omega)

theorem shapes_someAlternatives {a : Callables.Alternative} {plan : List Callables.Alternative}
    {args : List Argument} {site : Nat} {here later : Ends}
    (one : Elaborates (alternative a args ctx result site b here b₁))
    (others : Elaborates (alternatives plan args ctx result site b₁ later b'))
    (ih : (alternative a args ctx result site b here b₁).Shapes)
    (ih' : (alternatives plan args ctx result site b₁ later b').Shapes) :
    (alternatives (a :: plan) args ctx result site b (here ++ later) b').Shapes := by
  rintro ⟨callee, stands⟩ shaped
  have entered := b.threads_draw (ctx.enter a.tag) (.alternative a.tag) rfl
    (Graph.branches_of_stands stands rfl)
  have ran := one.threads entered.free
  obtain ⟨shaped₁, once⟩ := ih entered.free (List.nodup_singleton _)
    (b.shaped_draw (ctx.enter a.tag) stands rfl rfl shaped)
  have stands₁ := ran.stands (entered.stands stands)
  obtain ⟨shaped₂, once'⟩ := ih' ⟨callee, stands₁⟩ shaped₁
  obtain ⟨-, fresh⟩ := others.threads (Graph.branches_of_stands stands₁ rfl)
  refine ⟨shaped₂, List.nodup_append'.mpr ⟨once, once', fun e member among => ?_⟩⟩
  exact absurd (ran.free e member).inside (by simpa using fresh e among)

end Judgement

theorem Elaborates.shapes {J : Judgement} (derived : Elaborates J) : J.Shapes := by
  induction derived with
  | skip | last =>
    intro _ apart shaped
    exact ⟨shaped, fun returned same => by
      simpa [List.self_eq_append_right.mp same] using apart⟩
  | seq _ ih | bind _ ih => exact ih
  | new _ => exact fun free apart shaped => Judgement.shapes_on shaped free apart rfl rfl
  | branch _ ih => exact Judgement.shapes_branch ih
  | loop repeated arms ih ih' => exact Judgement.shapes_loop repeated arms ih ih'
  | call _ ih | bindCall _ _ _ _ ih =>
    intro free apart shaped
    obtain ⟨shaped', once⟩ := ih free apart shaped
    exact ⟨shaped', fun returned same => by simpa [List.self_eq_append_right.mp same] using once⟩
  | emit part ih | put _ _ _ part ih | bindTerm _ _ part _ ih =>
    intro free apart shaped
    obtain ⟨shaped', once⟩ := ih free apart shaped
    exact Judgement.shapes_on shaped' (part.threads free).free once rfl rfl
  | take _ _ _ read _ =>
    intro free apart shaped
    have same := (Context.reads_plain read).graph
    exact Judgement.shapes_on (same ▸ shaped) (same ▸ free) apart rfl rfl
  | retValue _ _ value ih =>
    intro free apart shaped
    obtain ⟨shaped', once⟩ := ih free apart shaped
    refine ⟨Build.shaped_append _ _ (value.threads free).free once shaped', ?_⟩
    intro returned same
    simp [← List.append_cancel_left same]
  | retNothing _ _ value ih =>
    intro free apart shaped
    obtain ⟨shaped', once⟩ := ih free apart shaped
    refine ⟨shaped', fun returned same => ?_⟩
    simpa [← List.append_cancel_left same] using once
  | next one others ih ih' => exact Judgement.shapes_next one others ih ih'
  | noArm =>
    intro _ shaped
    refine ⟨shaped, fun ends returned left back => ?_⟩
    simp [List.self_eq_append_right.mp left, List.self_eq_append_right.mp back]
  | dropArm never _ ih =>
    have same := (Context.reads_conditions never).graph
    intro stands shaped
    exact ih (by simpa [Build.note, same] using stands) (by simpa [Build.note, same] using shaped)
  | takeArm guarded chosen rest ih ih' =>
    exact Judgement.shapes_takeArm (Context.reads_conditions guarded).graph chosen rest
      ih ih'
  | str | ident | noTerm | noArgument | noParam => exact fun _ apart shaped => ⟨shaped, apart⟩
  | tuple _ _ ih | symbol _ _ ih | callTerm _ _ _ ih | storeArgument _ _ ih | direct _ _ _ _ ih
  | storeParam _ _ ih => exact ih
  | someTerms first _ ih ih' | callee _ first _ ih ih' | valueArgument _ first _ ih ih' =>
    intro free apart shaped
    obtain ⟨shaped', once⟩ := ih free apart shaped
    exact ih' (first.threads free).free once shaped'
  | site _ _ _ alternatives _ ih =>
    intro free apart shaped
    obtain ⟨shaped', once⟩ := ih ⟨_, Build.stands_append ..⟩
      (Build.shaped_append _ _ free apart shaped)
    have tried := (alternatives.threads (Build.branches_append _ _ rfl free)).1
    exact ⟨Build.shaped_append _ _ tried.free once shaped', List.nodup_singleton _⟩
  | deadSite _ _ _ _ ih =>
    intro free apart shaped
    exact ih ⟨_, Build.stands_append ..⟩ (Build.shaped_append _ _ free apart shaped)
  | noAlternative => exact fun _ shaped => ⟨shaped, List.nodup_nil⟩
  | someAlternatives one others ih ih' => exact Judgement.shapes_someAlternatives one others ih ih'
  | inline params body _ ih ih' =>
    intro free apart shaped
    obtain ⟨shaped', once⟩ := ih free apart shaped
    obtain ⟨shaped'', once'⟩ := ih' (params.threads free).free once shaped'
    exact ⟨shaped'', once' _ rfl⟩
  | valueParam _ _ ih =>
    intro free apart shaped
    exact ih (Build.threads_append _ _ rfl free).free (List.nodup_singleton _)
      (Build.shaped_append _ _ free apart shaped)

def Action.isInner : Action → Bool
  | .emit .. | .finish => false
  | _ => true

theorem StoreAction.isInner_node (action : StoreAction) (store : String) (t : Term)
    (binds : List String) : (action.node store t binds).isInner = true := by
  cases action <;> rfl

namespace Build

inductive Step : Build → Build → Prop
  | quiet {b b' : Build} (graph : b'.graph = b.graph) (events : b'.events = b.events) : Step b b'
  | append {b : Build} {ctx : Context} {action : Action} {ends : Ends}
      (inner : action.isInner = true) : Step b (b.append ctx action ends)
  | emit {b : Build} {ctx : Context} {tag : String} {ts : List Term} {ends : Ends} :
      Step b ((b.append ctx (.emit (.app tag ts) b.events.length) ends).addEvent
        { owner := ctx.owner, index := b.events.length, node := b.graph.size, tag,
          arity := ts.length, term := .app tag ts })
  | connect {b : Build} {source target : Nat} : Step b (b.connect source target)

abbrev Steps : Build → Build → Prop := Relation.ReflTransGen Step

theorem Steps.enter {action : Action} (rest : (b.append ctx action ends).Steps b')
    (inner : action.isInner = true) : b.Steps b' := .head (.append inner) rest

theorem Steps.leave {action : Action} (steps : b.Steps b₁) (inner : action.isInner = true) :
    b.Steps (b₁.append ctx action ends) := steps.tail (.append inner)

theorem Steps.takeVar {name : String} (rest : (b.takeVar name).Steps b') : b.Steps b' :=
  have quiet : b.Step (b.takeVar name) := .quiet rfl rfl
  .head quiet rest

end Build

theorem Elaborates.steps {J : Judgement} (derived : Elaborates J) : J.before.Steps J.after := by
  induction derived with
  | skip | last | noArm | str | ident | noTerm | noArgument | noAlternative | noParam => exact .refl
  | seq _ ih | bind _ ih | call _ ih | retNothing _ _ _ ih | tuple _ _ ih | symbol _ _ ih
  | storeArgument _ _ ih | direct _ _ _ _ ih | storeParam _ _ ih => exact ih
  | next _ _ ih ih' | someTerms _ _ ih ih' | valueArgument _ _ _ ih ih' | callee _ _ _ ih ih'
  | inline _ _ _ ih ih' => exact ih.trans ih'
  | new _ => exact Build.Steps.leave (.single (.quiet rfl rfl)) rfl
  | branch _ ih | deadSite _ _ _ _ ih => exact Build.Steps.enter ih rfl
  | loop _ _ ih ih' =>
    have tried := (Build.Steps.enter ih rfl).trans (Build.Steps.enter ih' rfl)
    exact (Build.Steps.leave tried rfl).tail .connect
  | emit _ ih => exact ih.tail .emit
  | put _ _ _ _ ih => exact Build.Steps.leave ih (StoreAction.isInner_node ..)
  | take _ _ _ read _ =>
    have reads := Context.reads_plain read
    exact Build.Steps.leave (.single (.quiet reads.graph reads.events))
      (StoreAction.isInner_node ..)
  | retValue _ _ _ ih => exact Build.Steps.leave ih rfl
  | dropArm never _ ih =>
    have reads := Context.reads_conditions never
    refine .head (.quiet ?_ ?_) ih
    · exact reads.graph
    · exact reads.events
  | takeArm guarded _ _ ih ih' =>
    have reads := Context.reads_conditions guarded
    exact .head (.quiet reads.graph reads.events) ((Build.Steps.enter ih rfl).trans ih')
  | bindCall _ _ _ _ ih | callTerm _ _ _ ih => exact Build.Steps.takeVar ih
  | bindTerm _ _ _ _ ih => exact Build.Steps.leave (ih.tail (.quiet rfl rfl)) rfl
  | site _ _ _ _ _ ih => exact Build.Steps.leave (Build.Steps.enter ih rfl) rfl
  | someAlternatives _ _ ih ih' => exact (Build.Steps.enter ih rfl).trans ih'
  | valueParam _ _ ih => exact Build.Steps.takeVar (Build.Steps.enter ih rfl)

structure Build.Logged (b : Build) : Prop where
  sites : ∀ (k : Nat) (site : EventSite), b.events[k]? = some site → site.index = k ∧
    b.graph.actions[site.node]? = some (.emit site.term k)
  order : b.events.map (·.node) = b.graph.placesOf Action.isEmit

namespace Build.Logged

theorem append (logged : b.Logged) (ctx : Context) {action : Action} (ends : Ends)
    (plain : action.isEmit = false) : (b.append ctx action ends).Logged where
  sites := by
    intro k site found
    obtain ⟨index, acts⟩ := logged.sites k site found
    refine ⟨index, ?_⟩
    obtain ⟨inside, -⟩ := List.getElem?_eq_some_iff.mp acts
    rw [Build.append, Graph.actions_append, List.getElem?_append_left inside, acts]
  order := by
    rw [Build.append, Graph.placesOf_append, plain]
    simpa using logged.order

theorem emit (logged : b.Logged) (ctx : Context) (ends : Ends) {site : EventSite} {t : Term}
    (term : site.term = t) (index : site.index = b.events.length)
    (node : site.node = b.graph.size) :
    ((b.append ctx (.emit t b.events.length) ends).addEvent site).Logged where
  sites := by
    intro k other (found : (b.events ++ [site])[k]? = some other)
    have acts : (b.append ctx (.emit t b.events.length) ends).graph.actions =
        b.graph.actions ++ [.emit t b.events.length] := Graph.actions_append ..
    rw [graph_addEvent, acts]
    rcases Nat.lt_or_ge k b.events.length with old | new
    · rw [List.getElem?_append_left old] at found
      obtain ⟨same, here⟩ := logged.sites k other found
      obtain ⟨inside, -⟩ := List.getElem?_eq_some_iff.mp here
      exact ⟨same, by rw [List.getElem?_append_left inside, here]⟩
    · obtain ⟨rfl, rfl⟩ : k = b.events.length ∧ other = site := by
        rw [List.getElem?_append_right new, List.getElem?_singleton] at found
        split at found
        next last => exact ⟨by omega, (Option.some.inj found).symm⟩
        next => simp at found
      refine ⟨index, ?_⟩
      rw [node, ← Graph.length_actions, List.getElem?_concat_length, term]
  order := by
    have places := Graph.placesOf_append b.graph
      { action := .emit t b.events.length, position := ctx.position } ends Action.isEmit
    simp only [Action.isEmit, if_true] at places
    rw [graph_addEvent, Build.append, places]
    simp [addEvent, logged.order, node]

theorem step (logged : b.Logged) (step : b.Step b') : b'.Logged := by
  cases step with
  | quiet graph events => exact ⟨graph ▸ events ▸ logged.sites, graph ▸ events ▸ logged.order⟩
  | @append ctx action ends inner =>
    exact logged.append ctx ends (by cases action <;> simp_all [Action.isInner, Action.isEmit])
  | emit => exact logged.emit _ _ rfl rfl rfl
  | connect =>
    refine ⟨by simpa [connect] using logged.sites, ?_⟩
    simpa [connect, Graph.placesOf_eq] using logged.order

theorem steps (logged : b.Logged) (steps : b.Steps b') : b'.Logged := by
  induction steps with
  | refl => exact logged
  | tail _ one ih => exact ih.step one

end Build.Logged

theorem Build.Steps.unfinished (steps : b.Steps b') (before : .finish ∉ b.graph.actions) :
    .finish ∉ b'.graph.actions := by
  induction steps with
  | refl => exact before
  | tail _ one ih =>
    cases one with
    | quiet graph _ => rwa [graph]
    | @append ctx action ends inner =>
      have other : .finish ≠ action := by
        rintro rfl
        cases inner
      simpa [Build.append, ih] using other
    | emit => simpa [Build.append] using ih
    | connect => simpa [Build.connect] using ih

theorem Elaborates.gains_site {d : Definition} {args : List Argument} {result : Option String}
    {objects : List String} (derived : Elaborates (.invoke d args ctx ends result b ends' b'))
    (typed : ctx.objectTypes args b = .ok (objects, b))
    (many : ¬ (ctx.plan d objects).length ≤ 1) (free : ∀ e ∈ ends, b.graph.Open e) :
    (b.append ctx (.callSite d.name) ends).graph.Gains b'.graph b.graph.size
      (ctx.plan d objects).length := by
  have branches := b.branches_append ctx (.callSite d.name) rfl free
  cases derived with
  | direct typed' _ single =>
    cases typed.symm.trans typed'
    exact absurd single many
  | @site _ _ _ _ out _ _ b₁ _ typed' _ _ alternatives =>
    cases typed.symm.trans typed'
    obtain ⟨tried, -⟩ := alternatives.threads branches
    have joined := (b₁.threads_append ctx .join rfl tried.free).toGrows
    refine (alternatives.draws branches).trans (.of_grows joined fun member => ?_)
    exact (tried.toGrows.branches branches).not_open (tried.free _ member)
  | deadSite typed' _ _ alternatives =>
    cases typed.symm.trans typed'
    exact alternatives.draws branches

namespace Template.Derivation

variable {template : Template} {D : Declarations} {name : String} {channels : Table String String}
  {first : Build} {g : Graph} {u : template.Derivation D name channels first g} {as : List Arm}
  {i : Nat} {node : Node}

/-- A branch with these arms is elaborated for the instance, and its choice has this place. -/
def BranchesAt (u : template.Derivation D name channels first g) (i : Nat) (as : List Arm) : Prop :=
  ∃ ctx flow b flow' b', u.Meets (.command (.branch as) ctx flow b flow' b') ∧ b.graph.size = i

/-- A loop that these arms end is elaborated for the instance. Its choice has this place, where the
body came to its end. -/
def LoopsAt (u : template.Derivation D name channels first g) (i : Nat) (as : List Arm) : Prop :=
  ∃ body ctx flow b inner b₁ out b₂, u.Meets (.repetition body ctx flow b inner b₁) ∧
    u.Meets (.choosing as (ctx.enter "until") inner b₁ out b₂) ∧
    u.Meets (.loop body as ctx flow b b₁ out b₂) ∧ b₁.graph.size = i

theorem BranchesAt.edges (branches : u.BranchesAt i as) (here : g.node? i = some node) :
    node.action = .choice ∧ node.successors.length = as.countP Arm.isLive := by
  obtain ⟨ctx, flow, b, flow', b', meets, rfl⟩ := branches
  obtain ⟨free, -, grown⟩ := meets.embeds
  cases meets.elaborates with
  | branch arms =>
    have several := b.branches_append ctx .choice rfl free
    obtain ⟨node, found, acts, edges⟩ := arms.draws several _ (b.node?_append_self free)
    have closed := Graph.Branches.not_open ⟨node, found, by rw [acts]; rfl⟩
    obtain rfl := Option.some.inj ((grown.closed found le_rfl closed).symm.trans here)
    exact ⟨acts, by simpa using edges⟩

theorem LoopsAt.edges (loops : u.LoopsAt i as) (here : g.node? i = some node) :
    node.action = .choice ∧ node.successors.length = as.countP Arm.isLive + 1 := by
  obtain ⟨body, ctx, flow, b, inner, b₁, out, b₂, repeated, arms, meets, rfl⟩ := loops
  obtain ⟨free, -, grown⟩ := meets.embeds
  have opened := b.threads_append ctx .loopHead rfl free
  obtain ⟨early, -, ran, -⟩ := repeated.elaborates.threads opened.free
  have free₁ := repeated.elaborates.command_free opened.free
  have several := b₁.branches_append (ctx.enter "until") .choice rfl free₁
  have inside := ((arms.elaborates.grows several).branches several).inside
  -- Besides those of its arms, the choice has the edge that goes round again.
  have drawn := ((arms.elaborates.draws several).trans (.draw (ctx.enter "again")
    (.guard [] out.taken) inside)).trans (.of_connect b.graph.size inside.ne)
  obtain ⟨node, found, acts, edges⟩ := drawn _ (b₁.node?_append_self free₁)
  have closed := Graph.Branches.not_open ⟨node, found, by rw [acts]; rfl⟩
  have stays := grown.closed found (opened.larger.trans ran.larger) closed
  obtain rfl := Option.some.inj (stays.symm.trans here)
  exact ⟨acts, by simpa using edges⟩

theorem of_choice (u : template.Derivation D name channels first g) (new : first.graph.size ≤ i)
    (here : g.actions[i]? = some .choice) : ∃ as, u.BranchesAt i as ∨ u.LoopsAt i as := by
  rcases u.drawn new here with start | finish | ⟨K, meets, adds, -⟩
  · cases start
  · cases finish
  · generalize action : Action.choice = drawn at adds
    cases adds with
    | branch => exact ⟨_, .inl ⟨_, _, _, _, _, meets, rfl⟩⟩
    | loop repeated tried =>
      have inBody := meets.within (Judgement.Premises.loop.first repeated tried)
      have inArms := meets.within (Judgement.Premises.loop.second repeated tried)
      exact ⟨_, .inr ⟨_, _, _, _, _, _, _, _, inBody, inArms, meets, rfl⟩⟩
    | put puts => rcases puts with rfl | rfl <;> cases action
    | take takes => rcases takes with rfl | rfl <;> cases action
    | _ => cases action

theorem of_callSite (u : template.Derivation D name channels first g) {f : String}
    (new : first.graph.size ≤ i) (found : g.node? i = some node)
    (site : node.action = .callSite f) : 2 ≤ node.successors.length := by
  rcases u.drawn new (Graph.acts_iff.mpr ⟨node, found, site⟩) with start | finish | ⟨K, meets, adds, -⟩
  · cases start
  · cases finish
  · generalize action : Action.callSite f = drawn at adds
    cases adds with
    | @site d args ctx ends ends' result b b' objects typed many =>
      obtain ⟨ready, -, grown⟩ := meets.embeds
      obtain ⟨node', found', acts, edges⟩ := meets.elaborates.gains_site typed many ready _
        (b.node?_append_self ready)
      have closed := Graph.Branches.not_open ⟨node', found', by rw [acts]; rfl⟩
      obtain rfl := Option.some.inj ((grown.closed found' le_rfl closed).symm.trans found)
      simp only [List.length_nil] at edges
      omega
    | put puts => rcases puts with rfl | rfl <;> cases action
    | take takes => rcases takes with rfl | rfl <;> cases action
    | _ => cases action

end Template.Derivation

structure Build.Complete (b : Build) (ends : Ends) : Prop where
  free : ∀ e ∈ ends, b.graph.Open e
  apart : ends.Nodup
  left : ∀ i, b.graph.Open i → i ∈ ends
  shaped : b.graph.Shaped
  logged : b.Logged
  unfinished : .finish ∉ b.graph.actions

namespace Build.Complete

variable {i : Nat} {node : Node}

theorem close_shaped (complete : b.Complete ends) : (b.close ctx ends).graph.Shaped := by
  unfold close
  split
  next => exact complete.shaped
  next => exact b.shaped_append ctx .finish complete.free complete.apart complete.shaped

theorem close_logged (complete : b.Complete ends) : (b.close ctx ends).Logged := by
  unfold close
  split
  next => exact complete.logged
  next => exact complete.logged.append ctx ends rfl

theorem finish_of_open (complete : b.Complete ends)
    (isOpen : (b.close ctx ends).graph.Open i)
    (found : (b.close ctx ends).graph.node? i = some node) : node.action = .finish := by
  simp only [close] at isOpen found
  split at isOpen
  next stays =>
    have member := complete.left i isOpen
    simp [List.isEmpty_iff.mp stays] at member
  next leaves =>
    rw [if_neg leaves] at found
    rcases (b.threads_append ctx .finish rfl complete.free).closed i isOpen with last | ⟨old, apart⟩
    · obtain rfl := List.mem_singleton.mp last
      rw [b.node?_append_self complete.free] at found
      rw [← Option.some.inj found]
    · exact absurd (complete.left i old) apart

theorem last_of_finish (complete : b.Complete ends)
    (found : (b.close ctx ends).graph.node? i = some node) (finish : node.action = .finish) :
    node.successors = [] ∧ i + 1 = (b.close ctx ends).graph.size := by
  have unfinished {i : Nat} {node : Node} (found : b.graph.node? i = some node) :
      node.action ≠ .finish := by
    intro finish
    exact complete.unfinished (List.mem_of_getElem? (Graph.acts_iff.mpr ⟨node, found, finish⟩))
  simp only [close] at found ⊢
  split at found
  next => exact absurd finish (unfinished found)
  next leaves =>
    rw [if_neg leaves]
    have inside : ∀ e ∈ ends, e < b.graph.size := fun e member => (complete.free e member).inside
    rcases Graph.append_cases inside found with ⟨rfl, rfl⟩ | ⟨old, there, same, -⟩
    · exact ⟨rfl, by simp⟩
    · exact absurd (same.symm.trans finish) (unfinished there)

end Build.Complete

section Template

variable {template : Template} {D : Declarations} {name : String} {channels : Table String String}
  {inst : ProcessInstance}

theorem Template.exists_complete (graph : b.graph = .empty) (events : b.events = [])
    (done : template.elaborate D name channels b = .ok (inst, b')) :
    ∃ (last : Build) (ends : Ends), last.Complete ends ∧
      inst.graph = (last.close (template.context D name) ends).graph ∧
      inst.events = (last.close (template.context D name) ends).events := by
  obtain ⟨scope, flow, flow', b₁, b₂, channelled, vars, main, rfl, rfl⟩ := template.derives done
  have none (i : Nat) (node : Node) : b.graph.node? i ≠ some node := by simp [graph]
  have started : b.graph.Threads [] (b.append (template.context D name) .start []).graph
      [b.graph.size] := b.threads_append _ _ rfl (by simp)
  obtain ⟨returned, back, bound, -, outside⟩ := vars.threads started.free
  rw [outside rfl, List.append_nil] at bound
  obtain ⟨returned', back', ran, -, outside'⟩ := main.threads bound.free
  rw [outside' rfl, List.append_nil] at ran
  have shaped : b.graph.Shaped :=
    ⟨fun i node found => absurd found (none i node), fun i node found => absurd found (none i node)⟩
  obtain ⟨shaped, once⟩ := vars.shapes started.free (List.nodup_singleton _)
    (b.shaped_append _ _ (by simp) List.nodup_nil shaped)
  obtain ⟨shaped, once⟩ := main.shapes bound.free (once _ back).of_append_left shaped
  have steps : b.Steps b₂ := Build.Steps.enter (vars.steps.trans main.steps) rfl
  have logged : b.Logged :=
    ⟨by simp [events], by simp [events, graph, Graph.placesOf, Graph.empty]⟩
  refine ⟨b₂, flow'.ends, ⟨ran.free, (once _ back').of_append_left, fun i isOpen => ?_, shaped,
    logged.steps steps, ?_⟩, rfl, rfl⟩
  · refine (((started.trans bound).trans ran).closed i isOpen).resolve_right ?_
    rintro ⟨⟨node, found, -⟩, -⟩
    exact none i node found
  · exact Build.Steps.unfinished steps (by simp [graph, Graph.actions, Graph.empty])

theorem Template.ended (graph : b.graph = .empty) (events : b.events = [])
    (done : template.elaborate D name channels b = .ok (inst, b')) {i : Nat} {node : Node}
    (isOpen : inst.graph.Open i) (found : inst.graph.node? i = some node) :
    node.action = .finish := by
  obtain ⟨last, ends, complete, drawn, -⟩ := Template.exists_complete graph events done
  rw [drawn] at isOpen found
  exact complete.finish_of_open isOpen found

/-- Only choices and call sites have several edges. Control stops at the end of the instance, its
last node, and at the choices of branches none of whose arms is live, and nowhere else. -/
theorem elaborate_shape {first : Nat} {e : Elaborated}
    (done : elaborate D template name channels first = .ok e) :
    ∃ u : template.Derivation D name channels { nextNonce := first } e.inst.graph,
      e.inst.graph.Shaped ∧
      (∀ i node, e.inst.graph.node? i = some node → node.index = i ∧
        (node.successors = [] ↔
          node.action = .finish ∨ ∃ as, u.BranchesAt i as ∧ as.countP Arm.isLive = 0) ∧
        (node.action = .finish → i + 1 = e.inst.graph.size) ∧
        (node.action = .choice ↔ ∃ as, u.BranchesAt i as ∨ u.LoopsAt i as) ∧
        (∀ as, u.BranchesAt i as → node.successors.length = as.countP Arm.isLive) ∧
        (∀ as, u.LoopsAt i as → node.successors.length = as.countP Arm.isLive + 1)) ∧
      (∀ (k : Nat) (site : EventSite), e.inst.events[k]? = some site → site.index = k ∧
        ∃ node, e.inst.graph.node? site.node = some node ∧ node.action = .emit site.term k) ∧
      e.inst.events.map (·.node) = e.inst.graph.placesOf Action.isEmit := by
  obtain ⟨u⟩ := exists_derivation done
  obtain ⟨b, ran, -⟩ := exists_build_of_elaborate done
  obtain ⟨last, ends, complete, graph, events⟩ := Template.exists_complete rfl rfl ran
  have logged : (last.close (template.context D name) ends).Logged := complete.close_logged
  have shaped : e.inst.graph.Shaped := graph ▸ complete.close_shaped
  refine ⟨u, shaped, fun i node found => ?_, fun k site listed => ?_, ?_⟩
  · have chosen (choice : node.action = .choice) : ∃ as, u.BranchesAt i as ∨ u.LoopsAt i as := by
      exact u.of_choice (Nat.zero_le i) (Graph.acts_iff.mpr ⟨node, found, choice⟩)
    have ended : node.action = .finish → node.successors = [] ∧ i + 1 = e.inst.graph.size :=
      graph ▸ complete.last_of_finish (graph ▸ found)
    refine ⟨Graph.index_of_node? found, ⟨fun none => ?_, ?_⟩, fun finish => (ended finish).2,
      ⟨chosen, ?_⟩, fun as branches => (branches.edges found).2,
      fun as loops => (loops.edges found).2⟩
    · cases straight : node.action.branches with
      | false =>
        have isOpen : e.inst.graph.Open i := ⟨node, found, none, straight⟩
        exact .inl (complete.finish_of_open (graph ▸ isOpen) (graph ▸ found))
      | true =>
        cases acts : node.action with
        | choice =>
          obtain ⟨as, branches | loops⟩ := chosen acts
          · exact .inr ⟨as, branches, by rw [← (branches.edges found).2, none, List.length_nil]⟩
          · exact absurd (loops.edges found).2 (by simp [none])
        | callSite f => exact absurd (u.of_callSite (Nat.zero_le i) found acts) (by simp [none])
        | _ => simp [acts, Action.branches] at straight
    · rintro (finish | ⟨as, branches, dead⟩)
      · exact (ended finish).1
      · exact List.length_eq_zero_iff.mp ((branches.edges found).2.trans dead)
    · rintro ⟨as, branches | loops⟩
      · exact (branches.edges found).1
      · exact (loops.edges found).1
  · rw [events] at listed
    obtain ⟨index, acts⟩ := logged.sites k site listed
    exact ⟨index, Graph.acts_iff.mp (graph ▸ acts)⟩
  · rw [events, graph]
    exact logged.order

end Template

def Template.stalled : Template where
  name := "Stalled"
  type := "host_t"
  main := .seq
    [.emit { tag := "Tries", args := [] },
     .branch [.guarded [{ left := .str "a", right := .str "b", negated := false }] .skip],
     .emit { tag := "Never", args := [] }]

theorem stalled_shape : ∃ D e, elaborate D .stalled "s" .empty 0 = .ok e ∧
    e.inst.events.map (·.node) = [1, 3] ∧
    ∃ (u : Template.stalled.Derivation D "s" .empty { nextNonce := 0 } e.inst.graph) (node : Node)
        (as : List Arm), e.inst.graph.node? 2 = some node ∧ node.index = 2 ∧
      node.successors = [] ∧ u.BranchesAt 2 as ∧ as.countP Arm.isLive = 0 := by
  have ran : (do
      let D ← Declarations.ofModel 64 .courier
      let e ← elaborate D .stalled "s" .empty 0
      return (e.inst.graph.placesOf Action.isEmit,
        (e.inst.graph.node? 2).map fun node => (node.action, node.successors)) :
          Result (List Nat × Option (Action × List Nat))) =
      .ok ([1, 3], some (.choice, [])) := by
    decide +kernel
  simp only [Result.bind_eq_ok_iff, Result.pure_eq_ok_iff, Prod.mk.injEq] at ran
  obtain ⟨D, -, e, done, emits, third⟩ := ran
  obtain ⟨node, found, acts⟩ := Option.map_eq_some_iff.mp third
  obtain ⟨choice, none⟩ := Prod.mk.inj acts
  obtain ⟨u, -, nodes, -, order⟩ := elaborate_shape done
  obtain ⟨placed, stops, -⟩ := nodes 2 node found
  obtain ⟨as, branches, dead⟩ := (stops.mp none).resolve_left (by simp [choice])
  exact ⟨D, e, done, order.trans emits, u, node, as, found, placed, none, branches, dead⟩

end ThreatModel
