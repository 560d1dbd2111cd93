import Mathlib
import ThreatModel.Proofs.Theory.WellFormed
import ThreatModel.Proofs.Elaboration.Shape
import ThreatModel.Proofs.Elaboration.Drawn

set_option autoImplicit false

namespace ThreatModel

mutual

def Expr.denote? (D : Declarations) (scope : Scope) : Expr → Option Term
  | .str s => some (.lit s)
  | .ident x _ =>
    match scope.find? x with
    | some (.value y) => some (.var y)
    | some (.store _) => none
    | none =>
      match D.constants.find? x with
      | some fresh => some (if fresh then .var (freshConstantVar x) else .const x)
      | none =>
        if D.stores.contains x then none
        else if D.theory.symbols.find? x = some 0 then some (.app x [])
        else none
  | .tuple items => (Expr.denoteAll? D scope items).bind Term.tuple?
  | .apply f args _ =>
    if D.theory.symbols.find? f = some args.length then
      (Expr.denoteAll? D scope args).map (.app f)
    else none
  | .unsupported _ => none

def Expr.denoteAll? (D : Declarations) (scope : Scope) : List Expr → Option (List Term)
  | [] => some []
  | e :: es => (e.denote? D scope).bind fun t => (Expr.denoteAll? D scope es).map (t :: ·)

end

def Comparison.Holds (D : Declarations) (scope : Scope) (env : Subst) (c : Comparison) : Prop :=
  ∃ l r u v, c.left.denote? D scope = some l ∧ c.right.denote? D scope = some r ∧
    D.theory.normalize (l.subst env) = .ok u ∧ D.theory.normalize (r.subst env) = .ok v ∧
    (u = v ↔ c.negated = false)

def Arm.Holds (D : Declarations) (scope : Scope) (env : Subst) : Arm → Prop
  | .guarded comparisons _ => ∀ c ∈ comparisons, c.Holds D scope env

def Condition.Holds (T : Theory) (env : Subst) (c : Condition) : Prop :=
  ∃ u v, T.normalize (c.left.subst env) = .ok u ∧ T.normalize (c.right.subst env) = .ok v ∧
    (u = v ↔ c.equal = true)

def Theory.Satisfies (T : Theory) (env : Subst) (group : List Condition) : Prop :=
  ∀ c ∈ group, c.Holds T env

namespace Context

variable {ctx : Context} {scope : Scope} {env : Subst}

theorem Finds.denote? {x : String} {loc : Option Location} {t : Term}
    (finds : ctx.Finds scope .empty x (some t)) :
    (Expr.ident x loc).denote? ctx.decls scope = some t := by
  cases finds with
  | value bound => simp [Expr.denote?, bound]
  | pattern _ taken => simp at taken
  | constant unbound _ constant => simp [Expr.denote?, unbound, constant]
  | symbol unbound _ other unstored symbol =>
    simp [Expr.denote?, unbound, other, unstored, symbol]

theorem Reading.denoteAll? {es : List Expr} {ts : List Term} {b b' : Build}
    {binds binds' : Table String String} (reading : ctx.Reading scope false es binds b ts binds' b')
    (empty : binds = .empty) :
    binds' = .empty ∧ Expr.denoteAll? ctx.decls scope es = some ts := by
  induction reading with
  | nil => exact ⟨empty, by simp [Expr.denoteAll?]⟩
  | str _ ih =>
    obtain ⟨empty, all⟩ := ih empty
    exact ⟨empty, by simp [Expr.denoteAll?, Expr.denote?, all]⟩
  | known found _ ih =>
    subst empty
    obtain ⟨empty, all⟩ := ih rfl
    exact ⟨empty, by simp [Expr.denoteAll?, found.denote?, all]⟩
  | fresh pattern => simp at pattern
  | tuple _ made _ ih ih' =>
    obtain ⟨rfl, each⟩ := ih empty
    obtain ⟨empty, all⟩ := ih' rfl
    exact ⟨empty, by
      simp [Expr.denoteAll?, Expr.denote?, each, all, Term.tuple_eq_ok made]⟩
  | symbol arity _ _ ih ih' =>
    obtain ⟨rfl, each⟩ := ih empty
    obtain ⟨empty, all⟩ := ih' rfl
    exact ⟨empty, by simp [Expr.denoteAll?, Expr.denote?, each, all, arity]⟩

theorem denote?_of_plain {e : Expr} {b b' : Build} {t : Term} {binds : Table String String}
    (done : ctx.plain scope false e .empty b = .ok ((t, binds), b')) :
    e.denote? ctx.decls scope = some t := by
  obtain ⟨-, all⟩ := (reading_of_plain done).denoteAll? rfl
  simpa [Expr.denoteAll?, Option.bind_eq_some_iff] using all

theorem holds_iff_of_plain {c : Comparison} {b b₁ b' : Build} {l r : Term}
    {binds binds' : Table String String}
    (onLeft : ctx.plain scope false c.left .empty b = .ok ((l, binds), b₁))
    (onRight : ctx.plain scope false c.right .empty b₁ = .ok ((r, binds'), b')) :
    c.Holds ctx.decls scope env ↔
      Condition.Holds ctx.decls.theory env { left := l, right := r, equal := !c.negated } := by
  have left := denote?_of_plain onLeft
  have right := denote?_of_plain onRight
  simp [Comparison.Holds, Condition.Holds, left, right]

theorem holds_iff_of_conditions {comparisons : List Comparison} {group : Option (List Condition)}
    {b b' : Build} (done : ctx.conditions scope comparisons b = .ok (group, b')) :
    (∀ c ∈ comparisons, c.Holds ctx.decls scope env) ↔
      ∃ conditions, group = some conditions ∧ ctx.decls.theory.Satisfies env conditions := by
  unfold Theory.Satisfies
  have compared := compares_of_conditions done
  clear done
  -- Literals are their own normal forms, so a comparison of two is decided already.
  have decided {u v : String} {negated : Bool} : Condition.Holds ctx.decls.theory env
      { left := .lit u, right := .lit v, equal := !negated } ↔ ((u == v) == negated) = false := by
    have normal (s : String) : ctx.decls.theory.normalize (.lit s) = .ok (.lit s) :=
      Theory.normalize_of_normal (Rewriting.irreducible_atom rfl)
    simp only [Condition.Holds, Term.subst, normal, Except.ok.injEq]
    cases negated <;> by_cases same : u = v <;> simp [same]
  induction compared with
  | nil => simp
  | never left right never =>
    rw [List.forall_mem_cons, holds_iff_of_plain left right, decided]
    simp [never]
  | always left right holds _ ih =>
    rw [List.forall_mem_cons, holds_iff_of_plain left right, decided]
    simpa [holds] using ih
  | @keep _ _ _ _ _ _ _ _ _ group _ left right _ _ ih =>
    rw [List.forall_mem_cons, holds_iff_of_plain left right, and_congr_right' ih]
    cases group <;> simp

end Context

structure Slot where
  place : Nat
  group : List Condition

def Graph.Tries (g : Graph) : (taken : List (List Condition)) → List (Option Slot) → Prop
  | _, [] => True
  | taken, none :: rest => g.Tries taken rest
  | taken, some slot :: rest =>
    g.actions[slot.place]? = some (.guard slot.group taken) ∧
      g.Tries (taken ++ [slot.group]) rest

namespace Graph.Tries

variable {g g' : Graph} {taken : List (List Condition)} {slots : List (Option Slot)}

theorem mono (tries : g.Tries taken slots)
    (stands : ∀ (i : Nat) action, g.actions[i]? = some action → g'.actions[i]? = some action) :
    g'.Tries taken slots := by
  induction slots generalizing taken with
  | nil => trivial
  | cons slot rest ih =>
    cases slot with
    | none => exact @ih taken tries
    | some slot => exact ⟨stands _ _ tries.1, ih tries.2⟩

theorem concat (tries : g.Tries taken slots) {last : Slot}
    (here : g.actions[last.place]? =
      some (.guard last.group (taken ++ slots.reduceOption.map Slot.group))) :
    g.Tries taken (slots ++ [some last]) := by
  induction slots generalizing taken with
  | nil => exact ⟨by simpa using here, trivial⟩
  | cons slot rest ih =>
    cases slot with
    | none => exact @ih taken tries (by simpa using here)
    | some slot => exact ⟨tries.1, ih tries.2 (by simpa using here)⟩

end Graph.Tries

namespace Judgement

/-- The slots of arms whose elaboration is part of a judgement. Literals decide against an arm that
has none; otherwise the guard says what the comparisons say, and leads to the body of the arm. -/
inductive Slots (J : Judgement) (ctx : Context) (scope : Scope) :
    Nat → List Arm → List (Option Slot) → Prop
  | nil {i : Nat} : Slots J ctx scope i [] []
  | drop {i : Nat} {a : Arm} {as : List Arm} {slots : List (Option Slot)}
      (never : ∀ env, ¬ a.Holds ctx.decls scope env) (rest : Slots J ctx scope (i + 1) as slots) :
      Slots J ctx scope i (a :: as) (none :: slots)
  | take {i : Nat} {comparisons : List Comparison} {body : Command} {as : List Arm} {slot : Slot}
      {slots : List (Option Slot)}
      (means : ∀ env, (Arm.guarded comparisons body).Holds ctx.decls scope env ↔
        ctx.decls.theory.Satisfies env slot.group)
      (leads : ∃ flow b flow' b', flow.ends = [slot.place] ∧
        (command body (ctx.enter s!"arm{i}") flow b flow' b').Within J)
      (rest : Slots J ctx scope (i + 1) as slots) :
      Slots J ctx scope i (.guarded comparisons body :: as) (some slot :: slots)

theorem Slots.mono {J J' : Judgement} {ctx : Context} {scope : Scope} {i : Nat} {as : List Arm}
    {slots : List (Option Slot)} (fits : Slots J ctx scope i as slots)
    (wider : ∀ K : Judgement, K.Within J → K.Within J') : Slots J' ctx scope i as slots := by
  induction fits with
  | nil => exact .nil
  | drop never _ ih => exact .drop never ih
  | take means leads _ ih =>
    obtain ⟨flow, b, flow', b', starts, within⟩ := leads
    exact .take means ⟨flow, b, flow', b', starts, wider _ within⟩ ih

section

variable {J : Judgement} {ctx : Context} {scope : Scope} {i k : Nat} {as : List Arm}
  {slots : List (Option Slot)}

theorem Slots.length_eq (fits : Slots J ctx scope i as slots) : slots.length = as.length := by
  induction fits with
  | nil => rfl
  | drop _ _ ih | take _ _ _ ih => simp [ih]

theorem Slots.dropped (fits : Slots J ctx scope i as slots) (none : slots[k]? = some none) {a : Arm}
    (arm : as[k]? = some a) (env : Subst) : ¬ a.Holds ctx.decls scope env := by
  induction fits generalizing k with
  | nil => simp at arm
  | drop never _ ih =>
    cases k with
    | zero =>
      obtain rfl := Option.some.inj arm
      exact never env
    | succ k => exact ih none arm
  | take _ _ _ ih =>
    cases k with
    | zero => simp at none
    | succ k => exact ih none arm

theorem Slots.taken (fits : Slots J ctx scope i as slots) {slot : Slot}
    (here : slots[k]? = some (some slot)) : ∃ comparisons body,
      as[k]? = some (.guarded comparisons body) ∧
      (∀ env, (Arm.guarded comparisons body).Holds ctx.decls scope env ↔
        ctx.decls.theory.Satisfies env slot.group) ∧
      ∃ flow b flow' b', flow.ends = [slot.place] ∧
        (command body (ctx.enter s!"arm{i + k}") flow b flow' b').Within J := by
  induction fits generalizing k with
  | nil => simp at here
  | drop _ _ ih =>
    cases k with
    | zero => simp at here
    | succ k =>
      simpa only [List.getElem?_cons_succ, Nat.add_right_comm, Nat.add_assoc] using ih here
  | @take _ comparisons body _ _ _ means leads _ ih =>
    cases k with
    | zero =>
      obtain rfl : _ = slot := by simpa using here
      exact ⟨comparisons, body, rfl, means, leads⟩
    | succ k =>
      simpa only [List.getElem?_cons_succ, Nat.add_right_comm, Nat.add_assoc] using ih here

end

def Guards : Judgement → Prop
  | .arms as i ctx choice scope sofar b out b' =>
    b.graph.Branches choice → ∃ slots,
      Slots (.arms as i ctx choice scope sofar b out b') ctx scope i as slots ∧
      b'.graph.Tries sofar.taken slots ∧
      out.taken = sofar.taken ++ slots.reduceOption.map Slot.group ∧
      ∀ node, b.graph.node? choice = some node → b'.graph.node? choice =
        some { node with successors := node.successors ++ slots.reduceOption.map Slot.place }
  | _ => True

variable {b b₁ b₂ b' : Build} {ctx : Context} {scope : Scope} {as : List Arm} {i choice : Nat}
  {sofar out : Arms} {comparisons : List Comparison} {body : Command}

theorem guards_dropArm {text : String}
    (never : (ctx.enter s!"arm{i}").conditions scope comparisons b = .ok (none, b₁))
    (rest : Elaborates (arms as (i + 1) ctx choice scope sofar
      (b₁.note (ctx.enter s!"arm{i}") text) out b'))
    (ih : (arms as (i + 1) ctx choice scope sofar
      (b₁.note (ctx.enter s!"arm{i}") text) out b').Guards) :
    (arms (.guarded comparisons body :: as) i ctx choice scope sofar b out b').Guards := by
  intro several
  have same : (b₁.note (ctx.enter s!"arm{i}") text).graph = b.graph :=
    (Context.reads_conditions never).graph
  obtain ⟨slots, fits, tries, groups, places⟩ := ih (same ▸ several)
  refine ⟨none :: slots, .drop (fun env holds => ?_) (fits.mono fun K within => ?_), tries,
    by simpa using groups, by rwa [same] at places⟩
  · obtain ⟨conditions, absent, -⟩ := (Context.holds_iff_of_conditions never).mp holds
    simp at absent
  · exact within.trans (Premises.dropArm never |>.only rest)

theorem guards_takeArm {group : List Condition} {inner : Flow}
    (guarded : (ctx.enter s!"arm{i}").conditions scope comparisons b = .ok (some group, b₁))
    (chosen : Elaborates (.guarded body i ctx choice scope sofar group b₁ inner b₂))
    (rest : Elaborates (remaining as i ctx choice scope sofar group inner b₂ out b'))
    (ih : (remaining as i ctx choice scope sofar group inner b₂ out b').Guards) :
    (arms (.guarded comparisons body :: as) i ctx choice scope sofar b out b').Guards := by
  intro several
  have same := (Context.reads_conditions guarded).graph
  have several : b₁.graph.Branches choice := same ▸ several
  have drawn := b₁.threads_draw (ctx.enter s!"arm{i}") (.guard group sofar.taken) rfl several
  have ran := chosen.grows drawn.free
  have several₂ := ran.branches (drawn.branches several)
  obtain ⟨slots, fits, tries, groups, places⟩ := ih several₂
  refine ⟨some ⟨b₁.graph.size, group⟩ :: slots,
    .take (fun env => ?_) ?_ (fits.mono fun K within => ?_), ⟨?_, tries⟩, by simpa using groups,
    fun node found => ?_⟩
  · exact (Context.holds_iff_of_conditions guarded).trans (by simp)
  · exact ⟨_, _, _, _, rfl, Premises.takeArm guarded |>.first chosen rest⟩
  · exact within.trans (Premises.takeArm guarded |>.second chosen rest)
  · -- The guard stays while its body and the other arms are elaborated.
    exact (rest.grows several₂).stands (ran.stands (b₁.stands_append ..))
  · rw [← same] at found
    simpa using places _ (ran.node?_draw several found)

end Judgement

theorem Elaborates.guards {J : Judgement} (derived : Elaborates J) : J.Guards := by
  induction derived with
  | noArm => exact fun _ => ⟨[], .nil, trivial, by simp, fun node found => by simpa using found⟩
  | dropArm never rest ih => exact Judgement.guards_dropArm never rest ih
  | takeArm guarded chosen rest _ ih => exact Judgement.guards_takeArm guarded chosen rest ih
  | _ => trivial

end ThreatModel
