import Mathlib
import ThreatModel.Proofs.Elaboration.Loops
import ThreatModel.Proofs.Elaboration.Variables

set_option autoImplicit false

namespace ThreatModel

theorem Action.defines_elim {action : Action} {x : String} {P : Prop} (none : action.defines = [])
    (member : x ∈ action.defines) : P :=
  absurd (none ▸ member) List.not_mem_nil

theorem Build.Writes.absent {calls : String → Nat → Nat → Prop} {b₀ b b' : Build} {x : String}
    (writes : Writes calls none b b') (took : b₀.Took x) (counts : b₀.Counts b)
    (P : Nat → Action → Prop) : Draws (fun i action => x ∈ action.defines → P i action) b b' :=
  writes.draws.mono fun _ _ defined member =>
    absurd (took.mono counts) ((defined.2 x member).resolve_right (by simp)).1

namespace Judgement

def Returns (J : Judgement) (i : Nat) (action : Action) : Prop :=
  ∃ e loc ctx flow b flow' b', (command (.ret e loc) ctx flow b flow' b').Within J ∧
    (command (.ret e loc) ctx flow b flow' b').Adds i action

def Leaves : Judgement → Nat → Prop
  | .command _ _ _ _ flow' _, i | .sequence _ _ _ _ _ flow' _, i => i ∈ flow'.returns
  | .arms _ _ _ _ _ _ _ out _, i => i ∈ out.returns
  | .alternatives _ _ _ _ _ _ ends' _, i | .inlined _ _ _ _ _ _ ends' _, i => i ∈ ends'
  | _, _ => True

def Hands (J : Judgement) (x : String) (b b' : Build) : Prop :=
  Build.Draws (fun i action => x ∈ action.defines → J.Returns i action ∧ J.Leaves i) b b'

def HandsBack (J : Judgement) : Prop :=
  ∀ x, J.result = some x → J.before.Took x → J.OpenTips → J.Hands x J.before J.after

variable {J K : Judgement} {b b' : Build} {x : String}

theorem Returns.mono {i : Nat} {action : Action} (returns : K.Returns i action)
    (within : K.Within J) : J.Returns i action := by
  obtain ⟨e, loc, ctx, flow, b, flow', b', inside, adds⟩ := returns
  exact ⟨e, loc, ctx, flow, b, flow', b', inside.trans within, adds⟩

theorem Returns.assigns {i : Nat} {action : Action} (returns : J.Returns i action)
    (defines : x ∈ action.defines) : ∃ t, action = .assign x t := by
  obtain ⟨e, loc, ctx, flow, b, flow', b', -, adds⟩ := returns
  cases adds with
  | ret =>
    obtain rfl := List.mem_singleton.mp defines
    exact ⟨_, rfl⟩

theorem Within.hands (within : K.Within J) (leaves : ∀ i, K.Leaves i → J.Leaves i)
    (hands : K.Hands x b b') : J.Hands x b b' :=
  Build.Draws.mono hands fun i _ hands defines =>
    ⟨(hands defines).1.mono within, leaves i (hands defines).2⟩

end Judgement

open Judgement in
theorem Elaborates.handsBack {J : Judgement} (derived : Elaborates J) : J.HandsBack := by
  induction derived with
  | bindCall | bindTerm | str | ident | tuple | symbol | callTerm | noTerm | someTerms | noArgument
  | storeArgument | valueArgument | noParam | storeParam | valueParam =>
    rintro x ⟨⟩
  | skip | last | noArm | noAlternative => exact fun _ _ _ _ => .refl _
  | seq body ih =>
    intro x result took ready
    exact (Premises.seq.only body).hands (fun _ => id) (ih x result took ready)
  | bind bound =>
    -- What is not a return defines only variables that it takes itself.
    exact fun x _ took _ => bound.writes.absent took (.refl _) _
  | @new y ctx flow b _ _ =>
    intro x _ took _
    have writes : Build.Writes (fun _ _ _ => True) none b ((b.takeVar y).takeNonce.append ctx
      (.fresh (b.varFor y) b.nextNonce) flow.ends) := .define (.takeNonce (b.takeVar y)) rfl rfl
    exact writes.absent took (.refl _) _
  | branch arms ih =>
    intro x result took free
    have within := Premises.branch.only arms
    have tried := within.hands (fun _ => id) (ih x result took (within.embeds free).ready)
    exact tried.enter (Action.defines_elim rfl)
  | loop repeated arms ih ih' =>
    intro x result took free
    have inBody := Premises.loop.first repeated arms
    have inArms := Premises.loop.second repeated arms
    have ready := (inArms.embeds free).ready
    obtain ⟨ends, returned, -, returns, -⟩ := arms.threads ready
    have onward (i : Nat) (left : i ∈ _) : i ∈ _ := returns ▸ List.mem_append_left _ left
    have first := inBody.hands onward (ih x result took (inBody.embeds free).ready)
    have second := inArms.hands (fun _ => id) (ih' x result (took.mono repeated.counts) ready)
    have round := (first.enter (Action.defines_elim rfl)).trans
      (second.enter (Action.defines_elim rfl))
    exact (round.leave (Action.defines_elim rfl)).connect _ _
  | call called => exact fun x _ took _ => called.writes.absent took (.refl _) _
  | emit each =>
    intro x _ took _
    exact ((each.writes.absent took (.refl _) _).leave (Action.defines_elim rfl)).before rfl
  | put puts _ _ value =>
    intro x _ took _
    exact (value.writes.absent took (.refl _) _).leave
      (Action.defines_elim (by rcases puts with rfl | rfl <;> rfl))
  | @take action _ _ _ ctx flow b b₁ store t binds _ takes _ _ read _ =>
    intro x _ took _
    have writes : Build.Writes (fun _ _ _ => True) none b (b₁.append ctx
      (action.node store.name t binds.values) flow.ends) := .pattern takes read
    exact writes.absent took (.refl _) _
  | retValue inside result value =>
    intro x same took _
    obtain rfl := Option.some.inj (result.symm.trans same)
    refine (value.writes.absent took (.refl _) _).leave fun _ => ⟨?_, ?_⟩
    · exact ⟨_, _, _, _, _, _, _, .refl (.retValue inside result value), .ret result value⟩
    · simp [Judgement.Leaves, after]
  | retNothing _ _ value => exact fun x _ took _ => value.writes.absent took (.refl _) _
  | next first rest ih ih' =>
    intro x result took free
    have inFirst := Premises.next.first first rest
    have inRest := Premises.next.second first rest
    have ready := (inRest.embeds free).ready
    obtain ⟨returned, returns, -⟩ := rest.threads ready
    have onward (i : Nat) (left : i ∈ _) : i ∈ _ := returns ▸ List.mem_append_left _ left
    have early := inFirst.hands onward (ih x result took free)
    exact early.trans (inRest.hands (fun _ => id) (ih' x result (took.mono first.counts) ready))
  | dropArm never rest ih =>
    obtain rfl := Context.leaves_conditions never
    intro x result took several
    have ready := (((Premises.dropArm never).only rest).embeds several).ready
    exact Build.Draws.after
      (((Premises.dropArm never).only rest).hands (fun _ => id) (ih x result took ready)) rfl
  | takeArm guarded chosen rest ih ih' =>
    obtain rfl := Context.leaves_conditions guarded
    intro x result took several
    have inBody := (Premises.takeArm guarded).first chosen rest
    have inRest := (Premises.takeArm guarded).second chosen rest
    have ready := (inRest.embeds several).ready
    obtain ⟨ends, returned, -, returns, -⟩ := rest.threads ready
    have onward (i : Nat) (left : i ∈ _) : i ∈ _ := returns ▸ List.mem_append_left _ left
    have first := inBody.hands onward (ih x result took (inBody.embeds several).ready)
    have second := inRest.hands (fun _ => id) (ih' x result (took.mono chosen.counts) ready)
    exact (first.trans second).enter (Action.defines_elim rfl)
  | callee found passing invoked ih ih' =>
    intro x result took free
    have within := (Premises.callee found).second passing invoked
    exact (passing.writes.absent took (.refl _) _).trans (within.hands (fun _ => id)
      (ih' x result (took.mono passing.counts) (within.embeds free).ready))
  | direct typed _ single inlined ih =>
    intro x result took free
    have within := (Premises.direct typed single).only inlined
    exact within.hands (fun _ _ => trivial) (ih x result took free)
  | site typed _ several alternatives goesOn ih =>
    intro x result took free
    have within := (Premises.site typed several goesOn).only alternatives
    have tried := within.hands (fun _ _ => trivial) (ih x result took (within.embeds free).ready)
    exact (tried.enter (Action.defines_elim rfl)).leave (Action.defines_elim rfl)
  | deadSite typed _ several alternatives ih =>
    intro x result took free
    have within := (Premises.deadSite typed several).only alternatives
    have tried := within.hands (fun _ _ => trivial) (ih x result took (within.embeds free).ready)
    exact tried.enter (Action.defines_elim rfl)
  | someAlternatives first rest ih ih' =>
    intro x result took several
    have inFirst := Premises.someAlternatives.first first rest
    have inRest := Premises.someAlternatives.second first rest
    have here := inFirst.hands (fun _ left => List.mem_append_left _ left)
      (ih x result took (inFirst.embeds several).ready)
    have later := inRest.hands (fun _ left => List.mem_append_right _ left)
      (ih' x result (took.mono first.counts) (inRest.embeds several).ready)
    exact (here.trans later).enter (Action.defines_elim rfl)
  | inline params body _ ih ih' =>
    intro x result took free
    have within := Premises.inline.second params body
    exact (params.writes.absent took (.refl _) _).trans
      (within.hands (fun _ left => List.mem_append_right _ left)
        (ih' x result (took.mono params.counts) (within.embeds free).ready))

theorem Graph.Open.not_leads {g : Graph} {i j : Nat} (free : g.Open i) : ¬ g.Leads i j := by
  rintro ⟨node, found, next⟩
  obtain ⟨node', found', none, -⟩ := free
  obtain rfl := Option.some.inj (found.symm.trans found')
  simp [none] at next

namespace Elaborates

variable {ctx : Context} {ends ends' : Ends} {x : String} {b b' : Build} {p q j : Nat}
  {action action' : Action}

theorem passes_invoke {d : Definition} {args : List Argument}
    (derived : Elaborates (.invoke d args ctx ends (some x) b ends' b')) (took : b.Took x)
    (free : ∀ e ∈ ends, b.graph.Open e) (new : b.graph.size ≤ p) (new' : b.graph.size ≤ q)
    (here : b'.graph.actions[p]? = some action) (there : b'.graph.actions[q]? = some action')
    (first : x ∈ action.defines) (second : x ∈ action'.defines) (leads : b'.graph.Leads p j) :
    q < j := by
  cases derived with
  | direct _ _ _ inlined =>
    have left := ((inlined.handsBack x rfl took free).new p action new here first).2
    exact absurd leads ((inlined.threads free).free p left).not_leads
  | @site _ _ _ _ out _ _ b₁ objects _ _ _ alternatives _ =>
    have several := b.branches_append ctx (.callSite d.name) rfl free
    have left : Build.Draws (fun i action => x ∈ action.defines → i ∈ out) b
        (b₁.append ctx .join out) :=
      (((alternatives.handsBack x rfl took several).mono fun i action hands defines =>
        (hands defines).2).enter (Action.defines_elim rfl)).leave (Action.defines_elim rfl)
    have free₁ := (alternatives.threads several).1.free
    rcases Graph.leads_append rfl (fun e member => (free₁ e member).inside) leads with
      old | ⟨-, rfl⟩
    · exact absurd old (free₁ p (left.new p action new here first)).not_leads
    · exact (free₁ q (left.new q action' new' there second)).inside
  | deadSite _ _ _ alternatives =>
    have several := b.branches_append ctx (.callSite d.name) rfl free
    have none : Build.Draws (fun i action => x ∈ action.defines → False) b b' :=
      ((alternatives.handsBack x rfl took several).mono fun i action hands defines =>
        absurd (hands defines).2 List.not_mem_nil).enter (Action.defines_elim rfl)
    exact (none.new p action new here first).elim

theorem passes_call {f : String} {args : List Expr} {scope : Scope}
    (derived : Elaborates (.call f args ctx scope ends (some x) b ends' b')) (took : b.Took x)
    (free : ∀ e ∈ ends, b.graph.Open e) (new : b.graph.size ≤ p) (new' : b.graph.size ≤ q)
    (here : b'.graph.actions[p]? = some action) (there : b'.graph.actions[q]? = some action')
    (first : x ∈ action.defines) (second : x ∈ action'.defines) (leads : b'.graph.Leads p j) :
    q < j := by
  cases derived with
  | @callee _ _ _ _ _ ends₁ _ _ _ b₁ _ d passed found passing invoked =>
    -- Nothing is written to the result while the arguments are computed.
    have late {i : Nat} {action : Action} (new : b.graph.size ≤ i)
        (here : b'.graph.actions[i]? = some action) (defines : x ∈ action.defines) :
        b₁.graph.size ≤ i := by
      by_contra early
      have stood := (invoked.drawn.stands (Nat.lt_of_not_le early)).symm.trans here
      exact (passing.writes.absent took (.refl b) fun _ _ => False).new i action new stood defines
    exact invoked.passes_invoke (took.mono passing.counts) (passing.threads free).free
      (late new here first) (late new' there second) here there first second leads

end Elaborates

end ThreatModel
