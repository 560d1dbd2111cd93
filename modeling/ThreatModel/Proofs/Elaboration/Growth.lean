import Mathlib
import ThreatModel.Proofs.Graph.Growth
import ThreatModel.Proofs.Elaboration.Reading

set_option autoImplicit false

namespace ThreatModel

namespace Build

def taken (b : Build) (name : String) : Nat := (b.counters.find? name).getD 0

theorem taken_takeVar (b : Build) (name x : String) :
    (b.takeVar name).taken x = if name = x then b.taken x + 1 else b.taken x := by
  simp only [taken, takeVar, Table.find?_insert]
  split <;> simp_all

def Counts (b b' : Build) : Prop := (∀ x, b.taken x ≤ b'.taken x) ∧ b.nextNonce ≤ b'.nextNonce

namespace Counts

variable {b b₁ b' : Build}

theorem refl (b : Build) : b.Counts b := ⟨fun _ => le_rfl, le_rfl⟩

theorem trans (one : b.Counts b₁) (two : b₁.Counts b') : b.Counts b' :=
  ⟨fun x => (one.1 x).trans (two.1 x), one.2.trans two.2⟩

theorem takeVar (b : Build) (name : String) : b.Counts (b.takeVar name) := by
  refine ⟨fun x => ?_, le_rfl⟩
  rw [taken_takeVar]
  split <;> omega

theorem takeNonce (b : Build) : b.Counts b.takeNonce := ⟨fun _ => le_rfl, Nat.le_succ _⟩

end Counts

structure Reads (b b' : Build) : Prop where
  counts : b.Counts b'
  graph : b'.graph = b.graph
  events : b'.events = b.events

namespace Reads

variable {b b₁ b' : Build}

theorem refl (b : Build) : b.Reads b := ⟨.refl b, rfl, rfl⟩

theorem trans (one : b.Reads b₁) (two : b₁.Reads b') : b.Reads b' :=
  ⟨one.counts.trans two.counts, two.graph.trans one.graph, two.events.trans one.events⟩

theorem takeVar (b : Build) (name : String) : b.Reads (b.takeVar name) :=
  ⟨.takeVar b name, rfl, rfl⟩

end Reads

end Build

namespace Context

variable {ctx : Context} {scope : Scope} {isPattern : Bool} {binds binds' : Table String String}
  {b b' : Build}

theorem Reading.reads {es : List Expr} {ts : List Term}
    (reading : ctx.Reading scope isPattern es binds b ts binds' b') : b.Reads b' := by
  induction reading with
  | nil => exact .refl _
  | str _ ih | known _ _ ih => exact ih
  | fresh _ _ _ ih => exact (Build.Reads.takeVar _ _).trans ih
  | tuple _ _ _ ih ih' | symbol _ _ _ ih ih' => exact ih.trans ih'

theorem reads_plain {e : Expr} {t : Term}
    (done : ctx.plain scope isPattern e binds b = .ok ((t, binds'), b')) : b.Reads b' :=
  (reading_of_plain done).reads

theorem reads_conditions {comparisons : List Comparison} {group : Option (List Condition)}
    (done : ctx.conditions scope comparisons b = .ok (group, b')) : b.Reads b' := by
  have compared := compares_of_conditions done
  clear done
  induction compared with
  | nil => exact .refl _
  | never left right _ => exact (reads_plain left).trans (reads_plain right)
  | always left right _ _ ih | keep left right _ _ ih =>
    exact ((reads_plain left).trans (reads_plain right)).trans ih

end Context

/-- How a piece of syntax leads control on. Only a body that stands in place of a call returns. -/
def Judgement.Threads : Judgement → Prop
  | .command _ ctx flow b flow' b' | .sequence _ _ ctx flow b flow' b'
  | .bind _ _ ctx flow b flow' b' =>
    (∀ e ∈ flow.ends, b.graph.Open e) → ∃ returned, flow'.returns = flow.returns ++ returned ∧
      b.graph.Threads flow.ends b'.graph (flow'.ends ++ returned) ∧
      (∀ e ∈ returned, e ∉ flow'.ends) ∧ (ctx.frame.definition = none → returned = [])
  | .arms _ _ ctx choice _ sofar b out b' =>
    b.graph.Branches choice → ∃ ends returned, out.ends = sofar.ends ++ ends ∧
      out.returns = sofar.returns ++ returned ∧
      b.graph.Threads [choice] b'.graph (ends ++ returned) ∧ (∀ e ∈ returned, e ∉ ends) ∧
      (∀ e ∈ ends ++ returned, b.graph.size ≤ e) ∧ (ctx.frame.definition = none → returned = [])
  | .term _ _ _ ends b _ ends' b' | .terms _ _ _ ends b _ ends' b'
  | .arguments _ _ _ ends b _ ends' b' | .call _ _ _ _ ends _ b ends' b'
  | .invoke _ _ _ ends _ b ends' b' | .inlined _ _ _ ends _ b ends' b'
  | .params _ _ _ ends b _ ends' b' =>
    (∀ e ∈ ends, b.graph.Open e) → b.graph.Threads ends b'.graph ends'
  | .alternatives _ _ _ _ site b ends' b' =>
    b.graph.Branches site →
      b.graph.Threads [site] b'.graph ends' ∧ ∀ e ∈ ends', b.graph.size ≤ e

variable {b b₁ b' : Build} {ends ends' : Ends} {ctx : Context}

theorem StoreAction.branches_node (action : StoreAction) (store : String) (t : Term)
    (binds : List String) : (action.node store t binds).branches = false := by
  cases action <;> rfl

namespace Build

theorem node?_append_self {action : Action} (free : ∀ e ∈ ends, b.graph.Open e) :
    (b.append ctx action ends).graph.node? b.graph.size =
      some { index := b.graph.size, action, position := ctx.position } :=
  Graph.node?_append_self _ _ fun e member => (free e member).inside

theorem threads_append (ctx : Context) (action : Action) (straight : action.branches = false)
    (free : ∀ e ∈ ends, b.graph.Open e) :
    b.graph.Threads ends (b.append ctx action ends).graph [b.graph.size] :=
  .append _ rfl straight fun e member => (free e member).inside

theorem threads_draw (ctx : Context) (action : Action) (straight : action.branches = false) {i : Nat}
    (several : b.graph.Branches i) :
    b.graph.Threads [i] (b.append ctx action [i]).graph [b.graph.size] :=
  .append _ rfl straight (by simpa using several.inside)

theorem threads_branch (ctx : Context) (action : Action) (several : action.branches = true)
    (free : ∀ e ∈ ends, b.graph.Open e) :
    b.graph.Threads ends (b.append ctx action ends).graph [] :=
  .branch _ rfl several fun e member => (free e member).inside

theorem branches_append (ctx : Context) (action : Action) (several : action.branches = true)
    (free : ∀ e ∈ ends, b.graph.Open e) :
    (b.append ctx action ends).graph.Branches b.graph.size :=
  ⟨_, b.node?_append_self free, several⟩

end Build

theorem Graph.Branches.threads {g : Graph} {i : Nat} (several : g.Branches i) :
    g.Threads [i] g [] := by
  refine ⟨.refl _ _, by simp, by simp, fun j isOpen => .inr ⟨isOpen, ?_⟩⟩
  intro member
  obtain rfl := List.mem_singleton.mp member
  exact several.not_open isOpen

namespace Judgement

variable {scope : Scope} {flow flow' : Flow} {result : Option String}

theorem threads_on {action : Action} (straight : action.branches = false)
    (threads : b.graph.Threads flow.ends b₁.graph ends)
    (returns : flow'.returns = flow.returns) (left : flow'.ends = [b₁.graph.size]) :
    ∃ returned, flow'.returns = flow.returns ++ returned ∧
      b.graph.Threads flow.ends (b₁.append ctx action ends).graph (flow'.ends ++ returned) ∧
      (∀ e ∈ returned, e ∉ flow'.ends) ∧ (ctx.frame.definition = none → returned = []) := by
  refine ⟨[], by simp [returns], ?_, by simp, fun _ => rfl⟩
  rw [left, List.append_nil]
  exact threads.trans (b₁.threads_append ctx action straight threads.free)

theorem threads_through {action : Action} (several : action.branches = true)
    (free : ∀ e ∈ ends, b.graph.Open e) (tried : (b.append ctx action ends).graph.Threads
      [b.graph.size] b'.graph ends') : b.graph.Threads ends b'.graph ends' :=
  (b.threads_branch ctx action several free).beside tried (by simp) (by simp)

theorem threads_branch {as : List Arm} {out : Arms}
    (arms : (Judgement.choosing as ctx flow b out b').Threads) :
    (branch as ctx flow b out b').Threads := by
  intro free
  obtain ⟨ends, returned, left, back, tried, apart, -, onlyInside⟩ :=
    arms (b.branches_append ctx .choice rfl free)
  refine ⟨returned, back, ?_, by simpa [left] using apart, onlyInside⟩
  simpa [left] using threads_through rfl free tried

theorem threads_loop {body : Command} {as : List Arm} {inner : Flow} {b₂ : Build} {out : Arms}
    (repeated : (repetition body ctx flow b inner b₁).Threads)
    (arms : (Judgement.choosing as (ctx.enter "until") inner b₁ out b₂).Threads) :
    (loop body as ctx flow b b₁ out b₂).Threads := by
  intro free
  have opened := b.threads_append ctx .loopHead rfl free
  obtain ⟨early, returns, ran, apart, inside⟩ := repeated opened.free
  have entered := opened.trans ran
  have free₁ : ∀ e ∈ inner.ends, b₁.graph.Open e := fun e member => ran.free e (by simp [member])
  have several := b₁.branches_append (ctx.enter "until") .choice rfl free₁
  obtain ⟨ends, late, left, returns', tried, apart', fresh, inside'⟩ := arms several
  have low (e : Nat) (member : e ∈ early) : e < b₁.graph.size :=
    (ran.free e (by simp [member])).inside
  -- What the body returned at stands aside while control goes through the arms.
  have gone := entered.pass (threads_through rfl free₁ tried) apart
  have again := b₂.threads_draw (ctx.enter "again") (.guard [] out.taken) rfl
    (tried.branches several)
  have beyond : ∀ e ∈ early ++ (ends ++ late), e ∉ [b₁.graph.size] := by
    intro e member here
    obtain rfl := List.mem_singleton.mp here
    rcases List.mem_append.mp member with old | new
    · exact absurd (low _ old) (by omega)
    · have := fresh _ new
      simp only [Build.size_append] at this
      omega
  have drawn := gone.beside again (by simpa using .inr entered.larger) beyond
  have closed := drawn.connect b₂.graph.size b.graph.size gone.larger le_rfl
    fun member => absurd (gone.free _ member).inside (by omega)
  refine ⟨early ++ late, by simp [returns', returns], closed.reorder ?_, ?_, ?_⟩
  · intro e
    simp only [left, List.nil_append, List.mem_append]
    grind
  · intro e member
    rcases List.mem_append.mp member with old | new
    · intro among
      have among : e ∈ ends := by simpa [left] using among
      have := fresh e (by simp [among])
      have := low e old
      simp only [Build.size_append] at *
      omega
    · simpa [left] using apart' e new
  · intro outside
    rw [inside outside, inside' outside, List.append_nil]

theorem threads_takeArm {body : Command} {as : List Arm} {comparisons : List Comparison}
    {i choice : Nat} {sofar out : Arms} {b₂ : Build} {group : List Condition} {inner : Flow}
    (same : b₁.graph = b.graph)
    (chosen : (guarded body i ctx choice scope sofar group b₁ inner b₂).Threads)
    (rest : (remaining as i ctx choice scope sofar group inner b₂ out b').Threads) :
    (arms (.guarded comparisons body :: as) i ctx choice scope sofar b out b').Threads := by
  intro several
  rw [← same] at several ⊢
  have guarded := b₁.threads_draw (ctx.enter s!"arm{i}") (.guard group sofar.taken) rfl
    several
  obtain ⟨early, returns, ran, apart, inside⟩ := chosen guarded.free
  have gone := guarded.trans ran
  have new : ∀ e ∈ inner.ends ++ early, b₁.graph.size ≤ e := by
    intro e member
    rcases ran.origin e member with old | newer
    · exact (List.mem_singleton.mp old).ge
    · exact guarded.larger.trans newer
  obtain ⟨ends, late, left, returns', tried, apart', fresh, inside'⟩ := rest (gone.branches several)
  have both := gone.beside tried (by simp) fun e member here => by
    have := new e member
    have := List.mem_singleton.mp here
    have := several.inside
    omega
  refine ⟨inner.ends ++ ends, early ++ late, by simp [left], by simp [returns', returns],
    both.reorder ?_, ?_, ?_, ?_⟩
  · intro e
    simp only [List.mem_append]
    grind
  · intro e member among
    -- The ends of this arm lie before those of the later ones.
    have low (e : Nat) (member : e ∈ inner.ends ++ early) : e < b₂.graph.size :=
      (gone.free e member).inside
    rcases List.mem_append.mp member with old | old <;>
      rcases List.mem_append.mp among with here | here
    · exact apart e old here
    · exact absurd (low e (by simp [old])) (by simpa using fresh e (by simp [here]))
    · exact absurd (low e (by simp [here])) (by simpa using fresh e (by simp [old]))
    · exact apart' e old here
  · intro e member
    simp only [List.mem_append] at member new fresh
    rcases member with (old | here) | (old | here)
    · exact new e (.inl old)
    · exact gone.larger.trans (fresh e (.inl here))
    · exact new e (.inr old)
    · exact gone.larger.trans (fresh e (.inr here))
  · intro outside
    rw [inside outside, inside' outside, List.append_nil]

theorem threads_someAlternatives {a : Callables.Alternative} {plan : List Callables.Alternative}
    {args : List Argument} {site : Nat} {here later : Ends}
    (one : (alternative a args ctx result site b here b₁).Threads)
    (others : (alternatives plan args ctx result site b₁ later b').Threads) :
    (alternatives (a :: plan) args ctx result site b (here ++ later) b').Threads := by
  intro several
  have entered := b.threads_draw (ctx.enter a.tag) (.alternative a.tag) rfl several
  have ran := one entered.free
  have gone := entered.trans ran
  have new : ∀ e ∈ here, b.graph.size ≤ e := by
    intro e member
    rcases ran.origin e member with old | newer
    · exact (List.mem_singleton.mp old).ge
    · exact entered.larger.trans newer
  obtain ⟨tried, fresh⟩ := others (gone.branches several)
  refine ⟨gone.beside tried (by simp) fun e member same => ?_, ?_⟩
  · have := new e member
    have := List.mem_singleton.mp same
    have := several.inside
    omega
  · intro e member
    rcases List.mem_append.mp member with old | late
    · exact new e old
    · exact gone.larger.trans (fresh e late)

theorem threads_next {c : Command} {cs : List Command} {i : Nat} {flow₁ : Flow}
    (one : (command c (ctx.enter (toString i)) flow b flow₁ b₁).Threads)
    (others : (sequence cs (i + 1) ctx flow₁ b₁ flow' b').Threads) :
    (sequence (c :: cs) i ctx flow b flow' b').Threads := by
  intro free
  obtain ⟨early, returns, ran, apart, inside⟩ := one free
  obtain ⟨late, returns', gone, apart', inside'⟩ :=
    others fun e member => ran.free e (by simp [member])
  refine ⟨early ++ late, by simp [returns', returns], (ran.pass gone apart).reorder ?_, ?_, ?_⟩
  · intro e
    simp only [List.mem_append]
    grind
  · intro e member among
    rcases List.mem_append.mp member with old | new
    · -- An end that was returned at is not led on from, and no later end is as old.
      have low := (ran.free e (by simp [old])).inside
      rcases gone.origin e (by simp [among]) with kept | newer
      · exact apart e old kept
      · omega
    · exact apart' e new among
  · intro outside
    rw [inside outside, inside' outside, List.append_nil]

end Judgement

theorem Elaborates.threads {J : Judgement} (derived : Elaborates J) : J.Threads := by
  induction derived with
  | skip | last => exact fun free => ⟨[], by simp, by simpa using .refl free, by simp, fun _ => rfl⟩
  | seq _ ih | bind _ ih | tuple _ _ ih | symbol _ _ ih | callTerm _ _ _ ih
  | storeArgument _ _ ih | direct _ _ _ _ ih | storeParam _ _ ih => exact ih
  | new _ => exact fun free => Judgement.threads_on rfl (.refl free) rfl rfl
  | branch _ ih => exact Judgement.threads_branch ih
  | loop _ _ ih ih' => exact Judgement.threads_loop ih ih'
  | call _ ih | bindCall _ _ _ _ ih =>
    exact fun free => ⟨[], by simp, by simpa using ih free, by simp, fun _ => rfl⟩
  | emit _ ih => exact fun free => Judgement.threads_on rfl (ih free) rfl rfl
  | put _ _ _ _ ih =>
    exact fun free => Judgement.threads_on (StoreAction.branches_node ..) (ih free) rfl rfl
  | take _ _ _ read _ =>
    intro free
    have same := (Context.reads_plain read).graph
    refine Judgement.threads_on (StoreAction.branches_node ..) ?_ rfl rfl
    rw [same]
    exact .refl free
  | retValue inside _ _ ih =>
    intro free
    have ran := ih free
    exact ⟨_, rfl, ran.trans (Build.threads_append _ _ rfl ran.free), by simp,
      fun outside => by simp [outside] at inside⟩
  | retNothing inside _ _ ih =>
    exact fun free => ⟨_, rfl, ih free, by simp, fun outside => by simp [outside] at inside⟩
  | next _ _ ih ih' => exact Judgement.threads_next ih ih'
  | noArm =>
    intro several
    exact ⟨[], [], by simp, by simp, several.threads, by simp, by simp, fun _ => rfl⟩
  | dropArm never _ ih =>
    have same := (Context.reads_conditions never).graph
    intro several
    simpa [Build.note, same] using ih (by simpa [Build.note, same] using several)
  | takeArm guarded _ _ ih ih' =>
    exact Judgement.threads_takeArm (Context.reads_conditions guarded).graph ih ih'
  | bindTerm _ _ _ _ ih =>
    intro free
    refine Judgement.threads_on rfl ?_ rfl rfl
    exact ih free
  | str | ident _ | noTerm | noArgument | noParam => exact fun free => .refl free
  | someTerms _ _ ih ih' | valueArgument _ _ _ ih ih' | callee _ _ _ ih ih' =>
    exact fun free => (ih free).trans (ih' (ih free).free)
  | site _ _ _ _ _ ih =>
    intro free
    have gone := Judgement.threads_through rfl free (ih (Build.branches_append _ _ rfl free)).1
    exact gone.trans (Build.threads_append _ _ rfl gone.free)
  | deadSite _ _ _ _ ih =>
    intro free
    exact Judgement.threads_through rfl free (ih (Build.branches_append _ _ rfl free)).1
  | noAlternative => exact fun several => ⟨several.threads, by simp⟩
  | someAlternatives _ _ ih ih' => exact Judgement.threads_someAlternatives ih ih'
  | inline _ _ _ ih ih' =>
    intro free
    obtain ⟨returned, returns, ran, -⟩ := ih' (ih free).free
    have ran := (ih free).trans ran
    rwa [show _ = returned from returns]
  | valueParam _ _ ih =>
    intro free
    exact (Build.threads_append _ _ rfl free).trans (ih (Build.threads_append _ _ rfl free).free)

theorem Elaborates.command_free {c : Command} {flow flow' : Flow}
    (derived : Elaborates (.command c ctx flow b flow' b'))
    (free : ∀ e ∈ flow.ends, b.graph.Open e) : ∀ e ∈ flow'.ends, b'.graph.Open e := by
  obtain ⟨returned, -, threads, -⟩ := derived.threads free
  exact fun e member => threads.free e (List.mem_append_left _ member)

namespace Judgement

def before : Judgement → Build
  | .command _ _ _ b _ _ | .sequence _ _ _ _ b _ _ | .bind _ _ _ _ b _ _
  | .arms _ _ _ _ _ _ b _ _ | .term _ _ _ _ b _ _ _ | .terms _ _ _ _ b _ _ _
  | .arguments _ _ _ _ b _ _ _ | .call _ _ _ _ _ _ b _ _ | .invoke _ _ _ _ _ b _ _
  | .alternatives _ _ _ _ _ b _ _ | .inlined _ _ _ _ _ b _ _ | .params _ _ _ _ b _ _ _ => b

def after : Judgement → Build
  | .command _ _ _ _ _ b | .sequence _ _ _ _ _ _ b | .bind _ _ _ _ _ _ b
  | .arms _ _ _ _ _ _ _ _ b | .term _ _ _ _ _ _ _ b | .terms _ _ _ _ _ _ _ b
  | .arguments _ _ _ _ _ _ _ b | .call _ _ _ _ _ _ _ _ b | .invoke _ _ _ _ _ _ _ b
  | .alternatives _ _ _ _ _ _ _ b | .inlined _ _ _ _ _ _ _ b | .params _ _ _ _ _ _ _ b => b

end Judgement

theorem Elaborates.counts {J : Judgement} (derived : Elaborates J) : J.before.Counts J.after := by
  induction derived with
  | skip | last | noArm | str | ident | noTerm | noArgument | noAlternative | noParam =>
    exact .refl _
  | seq _ ih | bind _ ih | call _ ih | tuple _ _ ih | symbol _ _ ih | storeArgument _ _ ih
  | direct _ _ _ _ ih | storeParam _ _ ih => exact ih
  | branch _ ih | emit _ ih | put _ _ _ _ ih | retValue _ _ _ ih | retNothing _ _ _ ih
  | site _ _ _ _ _ ih | deadSite _ _ _ _ ih => exact ih
  | @new x _ _ b _ _ => exact (Build.Counts.takeVar b x).trans (.takeNonce _)
  | loop _ _ ih ih' | next _ _ ih ih' | someTerms _ _ ih ih' | valueArgument _ _ _ ih ih'
  | callee _ _ _ ih ih' | someAlternatives _ _ ih ih' | inline _ _ _ ih ih' => exact ih.trans ih'
  | take _ _ _ read _ => exact (Context.reads_plain read).counts
  | dropArm never _ ih => exact (Context.reads_conditions never).counts.trans ih
  | takeArm guarded _ _ ih ih' =>
    exact (Context.reads_conditions guarded).counts.trans (ih.trans ih')
  | @bindCall x _ _ _ _ _ b _ _ _ _ _ _ _ ih => exact (Build.Counts.takeVar b x).trans ih
  | @bindTerm x _ _ _ _ b₁ _ _ _ _ _ _ _ ih => exact ih.trans (.takeVar b₁ x)
  | @callTerm f _ _ _ _ _ _ b _ _ _ _ ih => exact (Build.Counts.takeVar b s!"{f}$ret").trans ih
  | @valueParam x _ _ _ _ _ _ _ _ b _ _ _ ih => exact (Build.Counts.takeVar b x).trans ih

end ThreatModel
