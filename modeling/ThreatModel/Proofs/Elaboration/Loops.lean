import Mathlib
import ThreatModel.Proofs.Elaboration.Assigned
import ThreatModel.Proofs.Elaboration.Parts

set_option autoImplicit false

namespace ThreatModel

namespace Graph

structure Reducible (g : Graph) : Prop where
  inside : ∀ i j, g.Leads i j → j < g.size
  entry : ∀ last head, g.Leads last head → head ≤ last →
    ∀ i j, g.Leads i j → head < j → j ≤ last → head ≤ i

variable {g g' : Graph} {i j : Nat} {past : List Nat}

theorem Leads.inside (leads : g.Leads i j) : i < g.size := by
  obtain ⟨node, found, -⟩ := leads
  exact lt_size_of_node? found

theorem leads_append {node : Node} {ends : List Nat} (bare : node.successors = [])
    (inside : ∀ e ∈ ends, e < g.size) (leads : (g.append node ends).Leads i j) :
    g.Leads i j ∨ (i ∈ ends ∧ j = g.size) := by
  obtain ⟨found, here, next⟩ := leads
  rcases append_cases inside here with ⟨-, rfl⟩ | ⟨old, there, -, edges⟩
  · simp [bare] at next
  · exact (edges j next).imp_left fun kept => ⟨old, there, kept⟩

theorem leads_connect {source target : Nat} (leads : (g.connect source target).Leads i j) :
    g.Leads i j ∨ (i = source ∧ j = target) := by
  obtain ⟨found, here, next⟩ := leads
  rw [Option.mem_def, node?_connect] at here
  split at here
  next same =>
    obtain ⟨old, there, rfl⟩ := Option.map_eq_some_iff.mp here
    rcases List.mem_append.mp next with kept | drawn
    · exact .inl ⟨old, there, kept⟩
    · exact .inr ⟨same.symm, List.mem_singleton.mp drawn⟩
  next => exact .inl ⟨found, here, next⟩

namespace Reducible

theorem append {node : Node} {ends : List Nat} (bare : node.successors = [])
    (inside : ∀ e ∈ ends, e < g.size) (reducible : g.Reducible) :
    (g.append node ends).Reducible where
  inside := by
    intro i j leads
    rw [size_append]
    rcases leads_append bare inside leads with old | ⟨-, rfl⟩
    · exact (reducible.inside i j old).trans (Nat.lt_succ_self _)
    · exact Nat.lt_succ_self _
  entry := by
    intro last head back down i j leads above below
    rcases leads_append bare inside back with old | ⟨member, rfl⟩
    · have small := old.inside
      rcases leads_append bare inside leads with old' | ⟨-, rfl⟩
      · exact reducible.entry last head old down i j old' above below
      · omega
    · have := inside last member
      omega

theorem connect {head last : Nat} (reducible : g'.Reducible) (early : g.Reducible)
    (grows : g.Grows [head] g') (newest : g.size = head + 1) (latest : g'.size = last + 1) :
    (g'.connect last head).Reducible where
  inside := by
    intro i j leads
    rw [size_connect]
    rcases leads_connect leads with old | ⟨-, rfl⟩
    · exact reducible.inside i j old
    · have := grows.larger
      omega
  entry := by
    intro last' head' back down i j leads above below
    rcases leads_connect back with old | ⟨rfl, rfl⟩
    · rcases leads_connect leads with old' | ⟨rfl, rfl⟩
      · exact reducible.entry last' head' old down i j old' above below
      · have := old.inside
        omega
    · rcases leads_connect leads with old' | ⟨rfl, rfl⟩
      · -- An edge to a later node is drawn from a later one or from the head.
        obtain ⟨node, found, next⟩ := old'
        rcases grows.cases found with new | ⟨before, there, -, edges⟩
        · omega
        · rcases edges j next with kept | ⟨member, -⟩
          · have := early.inside i j ⟨before, there, kept⟩
            omega
          · exact (List.mem_singleton.mp member).ge
      · omega

theorem crosses (walk : g.Walk past i) (rising : (i :: past).Pairwise (· > ·)) {v : Nat}
    (below : v ≤ i) : v ∈ i :: past ∨ ∃ k j, g.Leads k j ∧ k < v ∧ v < j ∧ j ≤ i := by
  induction past generalizing i with
  | nil =>
    obtain rfl : i = 0 := walk
    simp [Nat.le_zero.mp below]
  | cons k past ih =>
    obtain ⟨leads, before⟩ := walk
    have down : k < i := (List.pairwise_cons.mp rising).1 k List.mem_cons_self
    rcases Nat.lt_or_ge k v with past | earlier
    · rcases below.eq_or_lt with rfl | less
      · exact .inl List.mem_cons_self
      · exact .inr ⟨k, i, leads, past, less, le_rfl⟩
    · rcases ih before (List.pairwise_cons.mp rising).2 earlier with
        passed | ⟨k', j, leads', under, beyond, bound⟩
      · exact .inl (List.mem_cons_of_mem _ passed)
      · exact .inr ⟨k', j, leads', under, beyond, bound.trans down.le⟩

theorem rising_of_walk (reducible : g.Reducible) (walk : g.Walk past i)
    (once : (i :: past).Nodup) : (i :: past).Pairwise (· > ·) := by
  induction past generalizing i with
  | nil => simp
  | cons k past ih =>
    obtain ⟨leads, before⟩ := walk
    have rising := ih before once.of_cons
    have up : k < i := by
      by_contra down
      -- The edge goes back to a node passed before, or some edge enters behind the head.
      rcases crosses before rising (Nat.le_of_not_lt down) with
        passed | ⟨k', j, leads', under, past, bound⟩
      · exact (List.nodup_cons.mp once).1 passed
      · exact absurd (reducible.entry k i leads (Nat.le_of_not_lt down) k' j leads' past bound)
          (Nat.not_le_of_lt under)
    refine List.pairwise_cons.mpr ⟨fun j member => ?_, rising⟩
    rcases List.mem_cons.mp member with rfl | earlier
    · exact up
    · exact ((List.pairwise_cons.mp rising).1 j earlier).trans up

end Reducible

end Graph

theorem Build.reducible_append {b : Build} {ends : Ends} (ctx : Context) (action : Action)
    (free : ∀ e ∈ ends, b.graph.Open e) (reducible : b.graph.Reducible) :
    (b.append ctx action ends).graph.Reducible :=
  reducible.append rfl fun e member => (free e member).inside

theorem Build.reducible_draw {b : Build} {i : Nat} (ctx : Context) (action : Action)
    (several : b.graph.Branches i) (reducible : b.graph.Reducible) :
    (b.append ctx action [i]).graph.Reducible :=
  reducible.append rfl (by simpa using several.inside)

namespace Judgement

def Reduces (J : Judgement) : Prop :=
  J.OpenTips → J.before.graph.Reducible → J.after.graph.Reducible

variable {b b₁ b₂ b' : Build} {ctx : Context} {flow : Flow}

theorem reduces_loop {body : Command} {as : List Arm} {inner : Flow} {out : Arms}
    (repeated : Elaborates (repetition body ctx flow b inner b₁))
    (tried : Elaborates (choosing as (ctx.enter "until") inner b₁ out b₂))
    (ih : (repetition body ctx flow b inner b₁).Reduces)
    (ih' : (choosing as (ctx.enter "until") inner b₁ out b₂).Reduces) :
    (loop body as ctx flow b b₁ out b₂).Reduces := by
  intro free reducible
  have opened := b.threads_append ctx .loopHead rfl free
  obtain ⟨early, -, ran, -⟩ := repeated.threads opened.free
  have free₁ := repeated.command_free opened.free
  have several := b₁.branches_append (ctx.enter "until") .choice rfl free₁
  have tries := tried.grows several
  have several₂ : b₂.graph.Branches b₁.graph.size := tries.branches several
  have again : b₂.graph.Grows [b₁.graph.size] (b₂.append (ctx.enter "again") (.guard [] out.taken)
      [b₁.graph.size]).graph := .append _ rfl (by simpa using several₂.inside)
  -- Everything from the head on is drawn from the head.
  have later : b.graph.size < b₁.graph.size := by simpa [Nat.succ_le_iff] using ran.larger
  have onward := ((ran.toGrows.trans (.append _ rfl fun e member => (free₁ e member).inside)
    (fun e member => ran.origin e (by simp [member]))).trans tries
      (by simp [tips, later])).trans again (by simp [later])
  have entered := b.reducible_append ctx .loopHead free reducible
  have looped := ih' several (b₁.reducible_append _ .choice free₁ (ih opened.free entered))
  exact (b₂.reducible_draw _ _ several₂ looped).connect entered onward (by simp) (by simp)

end Judgement

open Judgement in
theorem Elaborates.reduces {J : Judgement} (derived : Elaborates J) : J.Reduces := by
  induction derived with
  | skip | last | noArm | str | ident | noTerm | noArgument | noAlternative | noParam =>
    exact fun _ reducible => reducible
  | seq _ ih | bind _ ih | call _ ih | retNothing _ _ _ ih | bindCall _ _ _ _ ih | tuple _ _ ih
  | symbol _ _ ih | callTerm _ _ _ ih | storeArgument _ _ ih | direct _ _ _ _ ih
  | storeParam _ _ ih => exact ih
  | new _ => exact fun free => Build.reducible_append _ _ free
  | branch _ ih | deadSite _ _ _ _ ih =>
    exact fun free reducible => ih (Build.branches_append _ _ rfl free)
      (Build.reducible_append _ _ free reducible)
  | loop repeated arms ih ih' => exact reduces_loop repeated arms ih ih'
  | emit part ih | put _ _ _ part ih | retValue _ _ part ih | bindTerm _ _ part _ ih =>
    intro free reducible
    exact Build.reducible_append _ _ (part.threads free).free (ih free reducible)
  | take _ _ _ read _ =>
    have same := (Context.reads_plain read).graph
    intro free reducible
    exact Build.reducible_append _ _ (same ▸ free) (same ▸ reducible)
  | next first rest ih ih' =>
    intro free reducible
    exact ih' ((Premises.next.second first rest).embeds free).ready (ih free reducible)
  | dropArm never rest ih =>
    have same := (Context.reads_conditions never).graph
    intro several reducible
    exact ih (((Premises.dropArm never).only rest).embeds several).ready (same ▸ reducible)
  | takeArm guarded chosen rest ih ih' =>
    have same := (Context.reads_conditions guarded).graph
    intro several reducible
    have later := (((Premises.takeArm guarded).second chosen rest).embeds several).ready
    have inBody := (((Premises.takeArm guarded).first chosen rest).embeds several).ready
    exact ih' later (ih inBody (Build.reducible_draw _ _ (same ▸ several) (same ▸ reducible)))
  | someTerms first rest ih ih' | valueArgument _ first rest ih ih' | callee _ first rest ih ih'
  | inline first rest _ ih ih' =>
    exact fun free reducible => ih' (first.threads free).free (ih free reducible)
  | @site d _ ctx _ _ _ b _ _ _ _ _ alternatives _ ih =>
    intro free reducible
    have several := b.branches_append ctx (.callSite d.name) rfl free
    exact Build.reducible_append _ _ (alternatives.threads several).1.free
      (ih several (Build.reducible_append _ _ free reducible))
  | someAlternatives first rest ih ih' =>
    intro several reducible
    have later := ((Premises.someAlternatives.second first rest).embeds several).ready
    have inBody := ((Premises.someAlternatives.first first rest).embeds several).ready
    exact ih' later (ih inBody (Build.reducible_draw _ _ several reducible))
  | valueParam _ rest ih =>
    intro free reducible
    exact ih (Build.threads_append _ _ rfl free).free (Build.reducible_append _ _ free reducible)

namespace Judgement

variable {J K : Judgement} {Ks : List Judgement}

theorem Premises.reducible (rule : J.Premises Ks) (each : ∀ L ∈ Ks, Elaborates L)
    (member : K ∈ Ks) (ready : J.OpenTips) (reducible : J.before.graph.Reducible) :
    K.before.graph.Reducible := by
  have readies (L : Judgement) (member : L ∈ Ks) := (rule.embeds each member ready).ready
  have reduces (L : Judgement) (member : L ∈ Ks) := (each L member).reduces (readies L member)
  cases rule with
  | branch | deadSite | site | valueParam =>
    obtain rfl := List.mem_singleton.mp member
    exact Build.reducible_append _ _ ready reducible
  | dropArm never =>
    obtain rfl := List.mem_singleton.mp member
    exact (Context.reads_conditions never).graph ▸ reducible
  | @loop _ _ ctx _ _ b =>
    have entered := b.reducible_append ctx .loopHead ready reducible
    rcases List.mem_pair.mp member with rfl | rfl
    · exact entered
    · exact Build.reducible_append _ _
        ((each _ List.mem_cons_self).command_free (readies _ List.mem_cons_self))
        (reduces _ List.mem_cons_self entered)
  | @takeArm _ _ _ i choice ctx _ sofar _ _ b₁ _ _ group _ guarded =>
    have same := (Context.reads_conditions guarded).graph
    have several : b₁.graph.Branches choice := same ▸ ready
    have drawn := b₁.reducible_draw (ctx.enter s!"arm{i}") (.guard group sofar.taken) several
      (same ▸ reducible)
    rcases List.mem_pair.mp member with rfl | rfl
    · exact drawn
    · exact reduces _ List.mem_cons_self drawn
  | @someAlternatives a _ _ ctx _ _ b =>
    have drawn := b.reducible_draw (ctx.enter a.tag) (.alternative a.tag) ready reducible
    rcases List.mem_pair.mp member with rfl | rfl
    · exact drawn
    · exact reduces _ List.mem_cons_self drawn
  | next | someTerms | valueArgument | callee | inline =>
    rcases List.mem_pair.mp member with rfl | rfl
    · exact reducible
    · exact reduces _ List.mem_cons_self reducible
  | _ =>
    obtain rfl := List.mem_singleton.mp member
    exact reducible

theorem Within.reducible (within : K.Within J) (ready : J.OpenTips)
    (reducible : J.before.graph.Reducible) : K.before.graph.Reducible := by
  induction within with
  | refl => exact reducible
  | step rule each member _ ih =>
    exact ih (rule.embeds each member ready).ready (rule.reducible each member ready reducible)

end Judgement

namespace Template.Derivation

variable {template : Template} {D : Declarations} {name : String} {channels : Table String String}
  {b : Build} {g : Graph}

theorem started (u : template.Derivation D name channels b g) (empty : b.graph.size = 0) :
    (b.append (template.context D name) .start []).graph.Reducible ∧ u.b₁.graph.Reducible := by
  have none (i j : Nat) : ¬ b.graph.Leads i j := fun leads => by
    have := leads.inside
    omega
  have bare : b.graph.Reducible :=
    ⟨fun i j leads => absurd leads (none i j), fun i j leads => absurd leads (none i j)⟩
  have start : (b.append (template.context D name) .start []).graph.Reducible :=
    b.reducible_append _ _ (by simp) bare
  exact ⟨start, u.vars.reduces u.opened.1 start⟩

theorem reducible (u : template.Derivation D name channels b g) (empty : b.graph.size = 0) :
    g.Reducible := by
  obtain ⟨-, free, last⟩ := u.opened
  have ran := u.main.reduces free (u.started empty).2
  have closed : (u.b₂.close (template.context D name) u.flow'.ends).graph.Reducible := by
    unfold Build.close
    split
    next => exact ran
    next => exact Build.reducible_append _ _ last ran
  exact u.graph.symm.subst (motive := Graph.Reducible) closed

theorem Meets.reducible {u : template.Derivation D name channels b g} {K : Judgement}
    (meets : u.Meets K) (empty : b.graph.size = 0) : K.before.graph.Reducible :=
  meets.elim (fun within => within.reducible u.opened.1 (u.started empty).1)
    fun within => within.reducible u.opened.2.1 (u.started empty).2

end Template.Derivation

end ThreatModel
