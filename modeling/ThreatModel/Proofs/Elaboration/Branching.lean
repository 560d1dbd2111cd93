import Mathlib
import ThreatModel.Proofs.Graph.Shape
import ThreatModel.Proofs.Elaboration.Growth
import ThreatModel.Proofs.Elaboration.Scoping

set_option autoImplicit false

namespace ThreatModel

def Expr.literal? : Expr → Option String
  | .str s => some s
  | .tuple [e] => e.literal?
  | _ => none

def Comparison.isNever (c : Comparison) : Bool :=
  match c.left.literal?, c.right.literal? with
  | some a, some b => (a == b) == c.negated
  | _, _ => false

def Arm.isLive : Arm → Bool
  | .guarded comparisons _ => comparisons.all fun c => !c.isNever

namespace Context

variable {ctx : Context} {scope : Scope} {b b' : Build} {binds binds' : Table String String}

theorem Finds.ne_lit {x : String} {t : Term} (finds : ctx.Finds scope binds x (some t))
    (s : String) : t ≠ .lit s := by
  cases finds with
  | @constant fresh => cases fresh <;> simp
  | _ => simp

theorem Reading.literals {es : List Expr} {ts : List Term}
    (reading : ctx.Reading scope false es binds b ts binds' b') :
    List.Forall₂ (fun e t => ∀ s, t = .lit s ↔ e.literal? = some s) es ts := by
  induction reading with
  | nil => exact .nil
  | str _ ih => exact .cons (by simp [Expr.literal?]) ih
  | known found _ ih => exact .cons (fun s => by simp [Expr.literal?, found.ne_lit s]) ih
  | fresh pattern => simp at pattern
  | tuple _ made _ ih ih' =>
    refine .cons (fun s => ?_) ih'
    -- A tuple of none has no term and one of several is a pair.
    cases ih with
    | nil => simp [Term.tuple, Term.tuple?] at made
    | cons one others =>
      cases others with
      | nil =>
        obtain rfl := Except.ok.inj made
        simpa [Expr.literal?] using one s
      | @cons _ u _ us _ _ =>
        simp only [Term.tuple, Term.tuple?] at made
        cases rest : Term.tuple? (u :: us) with
        | none => simp [rest] at made
        | some v =>
          simp only [rest, Option.map_some] at made
          cases made
          simp [Term.pair, Expr.literal?]
  | symbol _ _ _ _ ih' => exact .cons (by simp [Expr.literal?]) ih'

theorem eq_lit_iff {e : Expr} {t : Term}
    (done : ctx.plain scope false e binds b = .ok ((t, binds'), b')) (s : String) :
    t = .lit s ↔ e.literal? = some s :=
  (List.forall₂_cons.mp (reading_of_plain done).literals).1 s

theorem isSome_conditions {comparisons : List Comparison} {group : Option (List Condition)}
    (done : ctx.conditions scope comparisons b = .ok (group, b')) :
    group.isSome = comparisons.all fun c => !c.isNever := by
  have compared := compares_of_conditions done
  clear done
  induction compared with
  | nil => rfl
  | never left right decided =>
    simp [Comparison.isNever, (eq_lit_iff left _).mp rfl, (eq_lit_iff right _).mp rfl, decided]
  | always left right decided _ ih =>
    simp [Comparison.isNever, (eq_lit_iff left _).mp rfl, (eq_lit_iff right _).mp rfl, decided, ih]
  | @keep _ _ _ _ _ _ _ _ _ _ c left right undecided _ ih =>
    have undecided : c.isNever = false := by
      unfold Comparison.isNever
      split
      next u v here there =>
        exact absurd ((eq_lit_iff right v).mpr there)
          (undecided u v ((eq_lit_iff left u).mpr here))
      next => rfl
    simp [undecided, ih]

end Context

variable {b : Build} {ends : Ends} {ctx : Context} {J : Judgement} {action : Action} {i : Nat}
  {g : Graph}

namespace Judgement

def tips : Judgement → Ends
  | .command _ _ flow _ _ _ | .sequence _ _ _ flow _ _ _ | .bind _ _ _ flow _ _ _ => flow.ends
  | .arms _ _ _ choice _ _ _ _ _ => [choice]
  | .term _ _ _ ends _ _ _ _ | .terms _ _ _ ends _ _ _ _ | .arguments _ _ _ ends _ _ _ _
  | .call _ _ _ _ ends _ _ _ _ | .invoke _ _ _ ends _ _ _ _ | .inlined _ _ _ ends _ _ _ _
  | .params _ _ _ ends _ _ _ _ => ends
  | .alternatives _ _ _ _ site _ _ _ => [site]

/-- Edges may be drawn: one from each end, or several from a node that branches. -/
def OpenTips : Judgement → Prop
  | .arms _ _ _ choice _ _ b _ _ => b.graph.Branches choice
  | .alternatives _ _ _ _ site b _ _ => b.graph.Branches site
  | J => ∀ e ∈ J.tips, J.before.graph.Open e

end Judgement

theorem Elaborates.grows (derived : Elaborates J) (ready : J.OpenTips) :
    J.before.graph.Grows J.tips J.after.graph := by
  have threads := derived.threads
  cases J with
  | command | sequence | bind =>
    obtain ⟨returned, -, ran, -⟩ := threads ready
    exact ran.toGrows
  | arms =>
    obtain ⟨ends, returned, -, -, tried, -⟩ := threads ready
    exact tried.toGrows
  | alternatives => exact (threads ready).1.toGrows
  | term | terms | arguments | call | invoke | inlined | params => exact (threads ready).toGrows

theorem Graph.Grows.node?_draw {node : Node}
    (ran : (b.append ctx action [i]).graph.Grows [b.graph.size] g) (several : b.graph.Branches i)
    (found : b.graph.node? i = some node) :
    g.node? i = some { node with successors := node.successors ++ [b.graph.size] } := by
  have inside := several.inside
  have first : (b.append ctx action [i]).graph.node? i =
      some { node with successors := node.successors ++ [b.graph.size] } := by
    rw [Build.append, Graph.node?_append _ _ (by simpa using inside), if_neg inside.ne, found]
    simp
  obtain ⟨more, second, -, only⟩ := ran.kept i _ first
  have apart : i ∉ [b.graph.size] := by simpa using inside.ne
  rwa [only apart, List.append_nil] at second

def Graph.Gains (g g' : Graph) (i n : Nat) : Prop :=
  ∀ node, g.node? i = some node → ∃ node', g'.node? i = some node' ∧
    node'.action = node.action ∧ node'.successors.length = node.successors.length + n

namespace Graph.Gains

variable {g g' g'' : Graph} {i m n : Nat}

theorem refl (g : Graph) (i : Nat) : g.Gains g i 0 := fun node found => ⟨node, found, rfl, rfl⟩

theorem trans (one : g.Gains g' i m) (two : g'.Gains g'' i n) : g.Gains g'' i (m + n) := by
  intro node found
  obtain ⟨node', found', same, longer⟩ := one node found
  obtain ⟨node'', found'', same', longer'⟩ := two node' found'
  exact ⟨node'', found'', same'.trans same, by omega⟩

theorem of_grows (grows : g.Grows ends g') (apart : i ∉ ends) : g.Gains g' i 0 := by
  intro node found
  obtain ⟨more, there, -, only⟩ := grows.kept i node found
  exact ⟨_, there, rfl, by simp [only apart]⟩

theorem of_connect {source : Nat} (target : Nat) (other : i ≠ source) :
    g.Gains (g.connect source target) i 0 :=
  fun node found => ⟨node, by rw [node?_connect, if_neg other.symm, found], rfl, rfl⟩

theorem draw (ctx : Context) (action : Action) (inside : i < b.graph.size) :
    b.graph.Gains (b.append ctx action [i]).graph i 1 := by
  intro node found
  have others : i ≠ b.graph.size := inside.ne
  rw [Build.append, node?_append _ _ (by simpa using inside), if_neg others, found]
  exact ⟨_, rfl, rfl, by simp⟩

end Graph.Gains

def Judgement.Draws : Judgement → Prop
  | .arms as _ _ choice _ _ b _ b' =>
    b.graph.Branches choice → b.graph.Gains b'.graph choice (as.countP Arm.isLive)
  | .alternatives plan _ _ _ site b _ b' =>
    b.graph.Branches site → b.graph.Gains b'.graph site plan.length
  | _ => True

theorem Elaborates.draws (derived : Elaborates J) : J.Draws := by
  induction derived with
  | noArm | noAlternative => exact fun _ => .refl _ _
  | dropArm never _ ih =>
    have same := (Context.reads_conditions never).graph
    have dead := Context.isSome_conditions never
    intro several
    simpa [Build.note, same, Arm.isLive, ← dead] using
      ih (by simpa [Build.note, same] using several)
  | @takeArm comparisons body as i ctx choice scope sofar out b b₁ b₂ b' group inner guarded chosen
      rest _ ih' =>
    have same := (Context.reads_conditions guarded).graph
    have live := Context.isSome_conditions guarded
    intro several
    rw [← same] at several ⊢
    have drawn := b₁.threads_draw (ctx.enter s!"arm{i}") (.guard group sofar.taken) rfl several
    have apart : choice ∉ [b₁.graph.size] := by simpa using several.inside.ne
    have ran := Graph.Gains.of_grows (chosen.grows drawn.free) apart
    have later := ih' ((chosen.grows drawn.free).branches (drawn.branches several))
    have gained := ((Graph.Gains.draw _ _ several.inside).trans ran).trans later
    have counted : (Arm.guarded comparisons body :: as).countP Arm.isLive =
        1 + 0 + as.countP Arm.isLive := by
      rw [List.countP_cons_of_pos (by simpa [Arm.isLive] using live.symm), Nat.add_comm]
    rwa [counted]
  | @someAlternatives a plan args ctx result site here later b b₁ b' one others _ ih' =>
    intro several
    have entered := b.threads_draw (ctx.enter a.tag) (.alternative a.tag) rfl several
    have apart : site ∉ [b.graph.size] := by simpa using several.inside.ne
    have ran := Graph.Gains.of_grows (one.grows entered.free) apart
    have rest := ih' ((one.grows entered.free).branches (entered.branches several))
    have gained := ((Graph.Gains.draw _ _ several.inside).trans ran).trans rest
    rwa [List.length_cons, Nat.add_comm]
  | _ => trivial

namespace Judgement

def context : Judgement → Context
  | .command _ ctx _ _ _ _ | .sequence _ _ ctx _ _ _ _ | .bind _ _ ctx _ _ _ _
  | .arms _ _ ctx _ _ _ _ _ _ | .term _ ctx _ _ _ _ _ _ | .terms _ ctx _ _ _ _ _ _
  | .arguments _ ctx _ _ _ _ _ _ | .call _ _ ctx _ _ _ _ _ _ | .invoke _ _ ctx _ _ _ _ _
  | .alternatives _ _ ctx _ _ _ _ _ | .inlined _ _ ctx _ _ _ _ _ | .params _ ctx _ _ _ _ _ _ => ctx

end Judgement

end ThreatModel
