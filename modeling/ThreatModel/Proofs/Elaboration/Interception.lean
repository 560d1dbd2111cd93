import Mathlib
import ThreatModel.Proofs.Elaboration.Drawn
import ThreatModel.Proofs.Elaboration.Mediation
import ThreatModel.Proofs.Elaboration.Unrolling

set_option autoImplicit false

namespace ThreatModel

namespace Callables

variable {C : Callables} {ds : List Definition} {d : Definition}

def alternativesTo (d : Definition) (attacks : List Definition) : List Alternative :=
  { tag := "normal", definition := d } ::
    attacks.map fun a => { tag := s!"attack:{a.name}", definition := a }

theorem Indexed.overridesOf_attack (indexed : C.Indexed ds) (found : C.find? d.name = some d)
    (attack : d.role.isAttack = true) : C.overridesOf d.name = [] := by
  rw [indexed.overrides]
  refine List.filter_eq_nil_iff.mpr fun a member active => ?_
  obtain ⟨callee, found', plain, -⟩ := indexed.targets a member d.name (by simpa using active)
  obtain rfl := Option.some.inj (found.symm.trans found')
  simp [attack] at plain

end Callables

def Context.attacksOn (ctx : Context) (f : String) (passed : List Argument) : List Definition :=
  if ctx.frame.intercept then
    (ctx.decls.callables.overridesOf f).filter fun a =>
      (ctx.type :: ctx.decls.typesOf (passed.filterMap Argument.store?)).any fun subject =>
        ctx.decls.policy.allowsAttack subject a.name
  else []

theorem Context.plan_eq {ctx : Context} {d : Definition} {passed : List Argument}
    {objects : List String} {b : Build} {ds : List Definition}
    (indexed : ctx.decls.callables.Indexed ds)
    (found : ctx.decls.callables.find? d.name = some d)
    (typed : ctx.objectTypes passed b = .ok (objects, b)) :
    ctx.plan d objects = Callables.alternativesTo d (ctx.attacksOn d.name passed) := by
  obtain rfl := objects_eq typed
  cases intercept : ctx.frame.intercept with
  | false => simp [Callables.plan, attacksOn, intercept, Callables.alternativesTo]
  | true =>
    cases attack : d.role.isAttack with
    | false => simp [Callables.plan, attacksOn, intercept, attack, Callables.alternativesTo]
    | true =>
      simp [Callables.plan, attacksOn, attack, Callables.alternativesTo,
        indexed.overridesOf_attack found attack]

theorem Context.several_iff {ctx : Context} {d : Definition} {passed : List Argument} :
    ¬ (Callables.alternativesTo d (ctx.attacksOn d.name passed)).length ≤ 1 ↔
      ctx.attacksOn d.name passed ≠ [] := by
  simp [Callables.alternativesTo]

namespace Judgement

variable {J K : Judgement} {Ks : List Judgement}

theorem Premises.sealed (rule : J.Premises Ks) (inside : J.context.frame.intercept = false)
    (member : K ∈ Ks) : K.context.frame.intercept = false := by
  cases rule with
  | inline =>
    have deeper (ctx : Context) (d : Definition) (result : Option String)
        (inside : ctx.frame.intercept = false) :
        (ctx.inside d result).frame.intercept = false := by simp [Context.inside, inside]
    rcases List.mem_pair.mp member with rfl | rfl
    all_goals exact deeper _ _ _ inside
  | loop | next | takeArm | someTerms | valueArgument | callee | someAlternatives =>
    rcases List.mem_pair.mp member with rfl | rfl
    all_goals exact inside
  | _ =>
    obtain rfl := List.mem_singleton.mp member
    exact inside

theorem Within.sealed (within : K.Within J) (inside : J.context.frame.intercept = false) :
    K.context.frame.intercept = false := by
  induction within with
  | refl => exact inside
  | step rule _ member _ ih => exact ih (rule.sealed inside member)

theorem Adds.callSite {i : Nat} {f : String} (adds : K.Adds i (.callSite f)) :
    ∃ d args ctx ends result b ends' b' objects, K = invoke d args ctx ends result b ends' b' ∧
      d.name = f ∧ b.graph.size = i ∧ ctx.objectTypes args b = .ok (objects, b) ∧
      ¬ (ctx.plan d objects).length ≤ 1 := by
  generalize action : Action.callSite f = drawn at adds
  cases adds with
  | site typed several =>
    cases action
    exact ⟨_, _, _, _, _, _, _, _, _, rfl, rfl, rfl, typed, several⟩
  | put puts => rcases puts with rfl | rfl <;> cases action
  | take takes => rcases takes with rfl | rfl <;> cases action
  | _ => cases action

theorem Within.called {d : Definition} {passed : List Argument} {ctx : Context} {ends ends' : Ends}
    {result : Option String} {b b' : Build}
    (within : (invoke d passed ctx ends result b ends' b').Within J) :
    J = invoke d passed ctx ends result b ends' b' ∨
    ∃ f args scope ends₀ b₀, ctx.callee f args.length b₀ = .ok (d, b₀) ∧
      (call f args ctx scope ends₀ result b₀ ends' b').Within J ∧
      (arguments args ctx scope ends₀ b₀ passed ends b).Within J := by
  induction within with
  | refl => exact .inl rfl
  | @step L J Ks rule each member inside ih =>
    right
    rcases ih with rfl | ⟨f, args, scope, ends₀, b₀, found, outer, passing⟩
    · cases rule with
      | callee found =>
        have each := both_of_pair each
        obtain ⟨rfl, rfl, rfl, rfl, rfl, rfl, rfl, rfl⟩ := invoke.inj (by simpa using member)
        exact ⟨_, _, _, _, _, found, .refl (.callee found each.1 each.2),
          (Premises.callee found).first each.1 each.2⟩
      | _ => simp at member
    · exact ⟨f, args, scope, ends₀, b₀, found, .step rule each member outer,
        .step rule each member passing⟩

theorem draws_no_callSite (derived : Elaborates J) (inside : J.context.frame.intercept = false) :
    Build.Draws (fun _ action => ∀ f, action ≠ .callSite f) J.before J.after := by
  refine derived.drawn.mono fun i action drawn f same => ?_
  obtain ⟨K, within, adds, -⟩ := drawn
  obtain ⟨d, args, ctx, ends, result, b, ends', b', objects, rfl, -, -, -, several⟩ :=
    Adds.callSite (same ▸ adds)
  have sealed : ctx.frame.intercept = false := within.sealed inside
  simp [Callables.plan, sealed] at several

/-- A site leads to one node for each of its alternatives, in order, and there the definition of the
alternative is inlined. -/
def Offers : Judgement → Prop
  | .alternatives plan args ctx result site b ends' b' => b.graph.Branches site → ∃ places,
      List.Forall₂ (fun (a : Callables.Alternative) place =>
        b'.graph.actions[place]? = some (.alternative a.tag) ∧
        ∃ b₁ ends₁ b₂, (inlined a.definition args (ctx.enter a.tag) [place] result b₁ ends₁
          b₂).Within (.alternatives plan args ctx result site b ends' b')) plan places ∧
      ∀ node, b.graph.node? site = some node →
        b'.graph.node? site = some { node with successors := node.successors ++ places }
  | _ => True

theorem offers_someAlternatives {a : Callables.Alternative} {plan : List Callables.Alternative}
    {args : List Argument} {ctx : Context} {result : Option String} {site : Nat} {here later : Ends}
    {b b₁ b' : Build} (one : Elaborates (alternative a args ctx result site b here b₁))
    (others : Elaborates (alternatives plan args ctx result site b₁ later b'))
    (ih : (alternatives plan args ctx result site b₁ later b').Offers) :
    (alternatives (a :: plan) args ctx result site b (here ++ later) b').Offers := by
  intro several
  have entered := b.threads_draw (ctx.enter a.tag) (.alternative a.tag) rfl several
  have ran := one.grows entered.free
  have several₁ := ran.branches (entered.branches several)
  obtain ⟨places, leads, edges⟩ := ih several₁
  refine ⟨b.graph.size :: places, .cons ⟨?_, _, _, _, Premises.someAlternatives.first one others⟩
    (leads.imp ?_), fun node found => ?_⟩
  · -- The node stays while its body and the other alternatives are elaborated.
    exact (others.grows several₁).stands (ran.stands (b.stands_append ..))
  · rintro a' place ⟨stands, b₂, ends₂, b₃, within⟩
    exact ⟨stands, b₂, ends₂, b₃, within.trans (Premises.someAlternatives.second one others)⟩
  · simpa using edges _ (ran.node?_draw several found)

end Judgement

theorem Elaborates.offers {J : Judgement} (derived : Elaborates J) : J.Offers := by
  induction derived with
  | noAlternative => exact fun _ => ⟨[], .nil, fun node found => by simpa using found⟩
  | someAlternatives first rest _ ih => exact Judgement.offers_someAlternatives first rest ih
  | _ => trivial

namespace Template.Derivation

variable {template : Template} {D : Declarations} {name : String} {channels : Table String String}
  {first b b' : Build} {g : Graph} {u : template.Derivation D name channels first g}
  {d : Definition} {passed : List Argument} {ctx : Context} {ends ends' : Ends}
  {result : Option String} {ds : List Definition}

/-- The node is the site of a call with these alternatives. It leads to one node for each, in order,
where the definition of the alternative is inlined. -/
def Offers (u : template.Derivation D name channels first g) (site : Nat) (f : String)
    (plan : List Callables.Alternative) (passed : List Argument) (ctx : Context)
    (result : Option String) : Prop :=
  ∃ places, g.node? site = some
      { index := site, action := .callSite f, position := ctx.position, successors := places } ∧
    List.Forall₂ (fun (a : Callables.Alternative) place =>
      g.actions[place]? = some (.alternative a.tag) ∧
      ∃ b₁ ends₁ b₂, u.Meets
        (.inlined a.definition passed (ctx.enter a.tag) [place] result b₁ ends₁ b₂)) plan places

theorem offers_of_alternatives {plan : List Callables.Alternative} {out : Ends} {b₁ : Build}
    (free : ∀ e ∈ ends, b.graph.Open e)
    (meets : u.Meets (.alternatives plan passed ctx result b.graph.size
      (b.append ctx (.callSite d.name) ends) out b₁))
    (grown : b₁.graph.GrowsFrom b.graph.size g) :
    u.Offers b.graph.size d.name plan passed ctx result := by
  have several := b.branches_append ctx (.callSite d.name) rfl free
  obtain ⟨places, leads, edges⟩ := meets.elaborates.offers several
  have closed := ((meets.elaborates.grows several).branches several).not_open
  refine ⟨places, grown.closed (edges _ (b.node?_append_self free)) le_rfl closed,
    leads.imp ?_⟩
  rintro a place ⟨stands, b₂, ends₂, b₃, within⟩
  exact ⟨grown.stands stands, b₂, ends₂, b₃, meets.within within⟩

theorem Meets.composed (indexed : D.callables.Indexed ds)
    (meets : u.Meets (.invoke d passed ctx ends result b ends' b')) :
    (ctx.attacksOn d.name passed = [] →
      u.Meets (.inlined d passed ctx ends result b ends' b')) ∧
    (ctx.attacksOn d.name passed ≠ [] → u.Offers b.graph.size d.name
      (Callables.alternativesTo d (ctx.attacksOn d.name passed)) passed ctx result) := by
  obtain ⟨free, rfl, grown⟩ := meets.embeds
  obtain ⟨-, found, -⟩ := (meets.nests indexed.registered).enters
  cases meets.elaborates with
  | direct typed authorised single inlined =>
    have within := meets.within ((Judgement.Premises.direct typed single).only inlined)
    rw [ctx.plan_eq indexed found typed] at single
    exact ⟨fun _ => within, fun attacked => absurd single (Context.several_iff.mpr attacked)⟩
  | site typed authorised several alternatives goesOn =>
    have within := meets.within
      ((Judgement.Premises.site typed several goesOn).only alternatives)
    have left := (alternatives.threads (b.branches_append ctx _ rfl free)).1.free
    rw [ctx.plan_eq indexed found typed] at several within
    exact ⟨fun none => absurd none (Context.several_iff.mp several),
      fun _ => offers_of_alternatives free within ((Graph.GrowsFrom.append ctx .join left).trans
        grown le_rfl)⟩
  | deadSite typed authorised several alternatives =>
    have within := meets.within ((Judgement.Premises.deadSite typed several).only alternatives)
    rw [ctx.plan_eq indexed found typed] at several within
    exact ⟨fun none => absurd none (Context.several_iff.mp several),
      fun _ => offers_of_alternatives free within grown⟩

theorem Meets.composed_call (indexed : D.callables.Indexed ds) {f : String} {args : List Expr}
    {scope : Scope} (meets : u.Meets (.call f args ctx scope ends result b ends' b')) :
    ∃ d passed ends₁ b₁, D.callables.find? f = some d ∧
      u.Meets (.arguments args ctx scope ends b passed ends₁ b₁) ∧
      (ctx.attacksOn f passed = [] → u.Meets (.inlined d passed ctx ends₁ result b₁ ends' b')) ∧
      (ctx.attacksOn f passed ≠ [] → u.Offers b₁.graph.size f
        (Callables.alternativesTo d (ctx.attacksOn f passed)) passed ctx result) := by
  obtain ⟨-, decls, -⟩ := meets.embeds
  cases meets.elaborates with
  | @callee _ _ _ _ _ ends₁ _ _ _ b₁ _ d passed found passing invoked =>
    obtain ⟨known, -⟩ := Context.callee_eq_ok found
    have known : D.callables.find? f = some d := decls ▸ known
    obtain rfl := indexed.registered.named f d known
    have before := meets.within ((Judgement.Premises.callee found).first passing invoked)
    have after := meets.within ((Judgement.Premises.callee found).second passing invoked)
    exact ⟨d, passed, ends₁, b₁, known, before, after.composed indexed⟩

theorem attacked_of_callSite (indexed : D.callables.Indexed ds)
    (u : template.Derivation D name channels first g) {i : Nat} {f : String}
    (new : first.graph.size ≤ i) (here : g.actions[i]? = some (.callSite f)) :
    ∃ args ctx scope ends result b ends' b' passed ends₁ b₁,
      u.Meets (.call f args ctx scope ends result b ends' b') ∧
      u.Meets (.arguments args ctx scope ends b passed ends₁ b₁) ∧ b₁.graph.size = i ∧
      ctx.attacksOn f passed ≠ [] := by
  rcases u.drawn new here with start | finish | ⟨K, meets, adds, -⟩
  · cases start
  · cases finish
  · obtain ⟨d, passed, ctx, ends₁, result, b₁, ends', b', objects, rfl, rfl, rfl, typed, several⟩ :=
      adds.callSite
    obtain ⟨-, decls, -⟩ := meets.embeds
    have called : ∃ f args scope ends b, ctx.callee f args.length b = .ok (d, b) ∧
        u.Meets (.call f args ctx scope ends result b ends' b') ∧
        u.Meets (.arguments args ctx scope ends b passed ends₁ b₁) := by
      rcases meets with inVars | inMain
      · rcases inVars.called with same | ⟨f, args, scope, ends, b, found, outer, passing⟩
        · cases same
        · exact ⟨f, args, scope, ends, b, found, .inl outer, .inl passing⟩
      · rcases inMain.called with same | ⟨f, args, scope, ends, b, found, outer, passing⟩
        · cases same
        · exact ⟨f, args, scope, ends, b, found, .inr outer, .inr passing⟩
    obtain ⟨f, args, scope, ends, b, found, outer, passing⟩ := called
    obtain ⟨known, -⟩ := Context.callee_eq_ok found
    obtain rfl := indexed.registered.named f d (decls ▸ known)
    rw [ctx.plan_eq (decls ▸ indexed) known typed] at several
    exact ⟨args, ctx, scope, ends, result, b, ends', b', passed, ends₁, b₁, outer, passing, rfl,
      Context.several_iff.mp several⟩

end Template.Derivation

/-- A call comes to a site with itself and then the granted attacks on it, in the order of their
declaration, as alternatives; a call without any is inlined on the spot. Inside an attack nothing is
intercepted. -/
theorem attacks_composed {D : Declarations} {requests : List Callables.Request}
    (filled : D.callables = .after requests) :
    (∀ f, D.callables.overridesOf f =
      ((Callables.Request.accepted requests).map Callables.Request.definition).filter fun d =>
        d.role = .active f) ∧
    (∀ f, ∀ a ∈ D.callables.overridesOf f, ∃ d, D.callables.find? f = some d ∧
      d.role.isAttack = false ∧ a.params.length = d.params.length) ∧
    (∀ request : Callables.Request,
      (∃ C, request.answer D.callables = .ok C ∧
        request.perform.outcome D.callables = (.ok (), C)) ∨
      ∃ d, request.answer D.callables = .error d ∧
        request.perform.outcome D.callables = (.error d, D.callables)) ∧
    (∀ (template : Template) name channels first e,
      elaborate D template name channels first = .ok e →
      ∃ u : template.Derivation D name channels { nextNonce := first } e.inst.graph,
        (∀ f args ctx scope ends result b ends' b',
          u.Meets (.call f args ctx scope ends result b ends' b') →
          ∃ d passed ends₁ b₁, D.callables.find? f = some d ∧
            u.Meets (.arguments args ctx scope ends b passed ends₁ b₁) ∧
            (ctx.attacksOn f passed = [] →
              u.Meets (.inlined d passed ctx ends₁ result b₁ ends' b')) ∧
            (ctx.attacksOn f passed ≠ [] → u.Offers b₁.graph.size f
              (Callables.alternativesTo d (ctx.attacksOn f passed)) passed ctx result)) ∧
        (∀ (i : Nat) f, e.inst.graph.actions[i]? = some (.callSite f) →
          ∃ args ctx scope ends result b ends' b' passed ends₁ b₁,
            u.Meets (.call f args ctx scope ends result b ends' b') ∧
            u.Meets (.arguments args ctx scope ends b passed ends₁ b₁) ∧ b₁.graph.size = i ∧
            ctx.attacksOn f passed ≠ []) ∧
        ∀ K, u.Meets K → (K.context.frame.intercept = true ↔
          ∀ f ∈ K.context.frame.calls, ∀ d, D.callables.find? f = some d →
            d.role.isAttack = false)) ∧
    ∀ depth c ctx flow b flow' b', ctx.frame.intercept = false →
      Context.command (Context.inlineUpTo depth) c ctx flow b = .ok (flow', b') →
      ∀ (i : Nat) f, b.graph.size ≤ i → b'.graph.actions[i]? ≠ some (.callSite f) := by
  have indexed : D.callables.Indexed
      (Definition.builtins ++ (Callables.Request.accepted requests).map (·.definition)) := by
    rw [filled]
    exact Callables.indexed_after requests
  refine ⟨fun f => ?_, fun f a member => ?_, fun request => request.serves _,
    fun template name channels first e done => ?_, ?_⟩
  · have builtin : Definition.builtins.filter (fun d => d.role = .active f) = [] :=
      (Callables.indexed_builtins.overrides f).symm
    rw [indexed.overrides, List.filter_append, builtin, List.nil_append]
  · rw [indexed.overrides] at member
    obtain ⟨listed, active⟩ := List.mem_filter.mp member
    obtain ⟨d, found, plain, same⟩ := indexed.targets a listed f (by simpa using active)
    exact ⟨d, found, plain, same.symm⟩
  · obtain ⟨u⟩ := exists_derivation done
    refine ⟨u, fun f args ctx scope ends result b ends' b' meets => meets.composed_call indexed,
      fun i f here => u.attacked_of_callSite indexed (Nat.zero_le i) here, fun K meets => ?_⟩
    obtain ⟨depth, nested⟩ := (meets.nests indexed.registered).nested
    exact nested.intercepts
  · intro depth c ctx flow b flow' b' inside done i f new here
    have derived := Context.derives_command (Context.inlines_inlineUpTo depth) done
    exact (Judgement.draws_no_callSite derived inside).new i _ new here f rfl

def Callables.Request.relaying : List Callables.Request :=
  [.syscall { name := "relay", params := ["c", "m"],
              body := .call "send" [.ident "c" none, .ident "m" none] none },
   .attack { name := "forge", params := ["c", "m"], target := some "send",
             body := .call "send" [.ident "c" none, .str "forged"] none },
   .attack { name := "spoof", params := ["c"], target := some "send", body := .skip },
   .attack { name := "delay", params := ["c", "m"], target := some "send", body := .skip },
   .attack { name := "drop", params := ["c", "m"], target := some "send", body := .skip }]

def Declarations.relayed : Declarations where
  theory := { budget := 64 }
  policy := { rights := .ofList [(("host_t", some "net_t"), ["relay"])]
              attackerRights := .ofList [("net_t", ["drop"]), ("host_t", ["forge"])] }
  callables := .after Callables.Request.relaying
  stores := { stores := .single "net" { name := "net", type := some "net_t", kind := .channel } }

def Node.sending : Node where
  index := 2
  action := .callSite "send"
  successors := [3, 6, 10]
  position := "p/main.0.relay"

theorem attacks_composed_relayed :
    (Declarations.relayed.callables.overridesOf "send").map (·.name) = ["forge", "delay", "drop"] ∧
    ∃ e, elaborate .relayed .caller "p" (.ofList [("c", "net")]) 1 = .ok e ∧
      e.inst.graph.node? 2 = some .sending ∧
      ∃ u : Template.caller.Derivation .relayed "p" (.ofList [("c", "net")]) { nextNonce := 1 }
          e.inst.graph,
        ∃ args ctx scope ends result b ends' b' passed ends₁ b₁,
          u.Meets (.call "send" args ctx scope ends result b ends' b') ∧
          u.Meets (.arguments args ctx scope ends b passed ends₁ b₁) ∧ b₁.graph.size = 2 ∧
          ctx.attacksOn "send" passed ≠ [] := by
  have ran : (elaborate .relayed .caller "p" (.ofList [("c", "net")]) 1).map
      (fun e => e.inst.graph.node? 2) = .ok (some .sending) := by
    decide +kernel
  refine ⟨by decide +kernel, ?_⟩
  cases done : elaborate .relayed .caller "p" (.ofList [("c", "net")]) 1 with
  | error fault => simp [done, Except.map] at ran
  | ok e =>
      obtain ⟨-, -, -, instances, -⟩ := attacks_composed (D := .relayed) rfl
      obtain ⟨u, -, sites, -⟩ := instances .caller "p" (.ofList [("c", "net")]) 1 e done
      have site : e.inst.graph.node? 2 = some .sending := by simpa [done, Except.map] using ran
      exact ⟨e, rfl, site, u, sites 2 "send" (Graph.acts_iff.mpr ⟨.sending, site, rfl⟩)⟩

end ThreatModel
