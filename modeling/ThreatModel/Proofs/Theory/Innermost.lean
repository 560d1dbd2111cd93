import Mathlib
import ThreatModel.Theory.Basic
import ThreatModel.Proofs.Term.Matching

set_option autoImplicit false

namespace ThreatModel

def Equation.Bound (e : Equation) : Prop := ∀ x ∈ e.rhs.vars, x ∈ e.lhs.vars

theorem Equation.exists_of_reduct? {e : Equation} {t r : Term} (rewritten : e.reduct? t = some r) :
    ∃ σ : Subst, t = e.lhs.subst σ ∧ r = e.rhs.subst σ := by
  obtain ⟨σ, met, rfl⟩ : ∃ σ, e.lhs.match? t = some σ ∧ e.rhs.subst σ = r := by
    simpa [Equation.reduct?] using rewritten
  exact ⟨σ, (Term.extend?_sound met).2.symm, rfl⟩

theorem Equation.reduct?_eq_none_iff {e : Equation} {t : Term} :
    e.reduct? t = none ↔ ∀ σ : Subst, t ≠ e.lhs.subst σ := by
  rw [Equation.reduct?, Option.map_eq_none_iff, Term.match?_eq_none_iff]

theorem Equation.Bound.reduct?_under {e : Equation} (bound : e.Bound) (g : String → Term) :
    e.reduct? (e.lhs.under g) = some (e.rhs.under g) := by
  have unknown (x : String) (u : Term) (found : Table.empty.find? x = some u) : g x = u := by
    simp at found
  obtain ⟨σ, met, agrees⟩ := Term.exists_extend? e.lhs unknown
  rw [Equation.reduct?, Term.match?, met, Option.map_some, Term.subst_eq_under]
  refine congrArg some (Term.under_congr fun x inside => ?_)
  obtain ⟨u, found⟩ := (Term.extend?_sound met).1.covers x (bound x inside)
  rw [Subst.value_of_find? found, agrees x u found]

namespace Rewriting

inductive RewritesFirst : List Equation → Term → Term → Prop
  | here {e : Equation} {rest : List Equation} {t r : Term} (σ : Subst)
      (left : t = e.lhs.subst σ) (right : r = e.rhs.subst σ) : RewritesFirst (e :: rest) t r
  | later {e : Equation} {rest : List Equation} {t r : Term}
      (other : ∀ σ : Subst, t ≠ e.lhs.subst σ) (found : RewritesFirst rest t r) :
      RewritesFirst (e :: rest) t r

mutual

/-- The term comes to a value in as many rewrites: the arguments first, then the root, by the first
equation that applies to it, as long as there is one. -/
inductive Evaluates (equations : List Equation) : Term → Term → Nat → Prop
  | atom {t : Term} (plain : t.isApp = false) : Evaluates equations t t 0
  | built {f : String} {ts args : List Term} {n : Nat} (each : EvaluatesAll equations ts args n)
      (stands : ∀ e ∈ equations, ∀ σ : Subst, .app f args ≠ e.lhs.subst σ) :
      Evaluates equations (.app f ts) (.app f args) n
  | rewritten {f : String} {ts args : List Term} {t v : Term} {n m : Nat}
      (each : EvaluatesAll equations ts args n)
      (rewrites : RewritesFirst equations (.app f args) t) (later : Evaluates equations t v m) :
      Evaluates equations (.app f ts) v (n + (m + 1))

inductive EvaluatesAll (equations : List Equation) : List Term → List Term → Nat → Prop
  | nil : EvaluatesAll equations [] [] 0
  | cons {t v : Term} {ts vs : List Term} {n m : Nat} (head : Evaluates equations t v n)
      (tail : EvaluatesAll equations ts vs m) :
      EvaluatesAll equations (t :: ts) (v :: vs) (n + m)

end

variable {equations : List Equation}

theorem rewritesFirst_of_rewriteRoot? {t r : Term} (rewritten : rewriteRoot? equations t = some r) :
    RewritesFirst equations t r := by
  induction equations with
  | nil => simp [rewriteRoot?] at rewritten
  | cons e rest ih =>
    simp only [rewriteRoot?, List.findSome?_cons] at rewritten
    cases applied : e.reduct? t with
    | none =>
      rw [applied] at rewritten
      exact .later (Equation.reduct?_eq_none_iff.mp applied) (ih rewritten)
    | some u =>
      rw [applied] at rewritten
      obtain ⟨σ, left, right⟩ := Equation.exists_of_reduct? (applied.trans rewritten)
      exact .here σ left right

theorem RewritesFirst.rewriteRoot?_eq {t r : Term} (rewrites : RewritesFirst equations t r)
    (bound : ∀ e ∈ equations, e.Bound) : rewriteRoot? equations t = some r := by
  induction rewrites with
  | @here e rest t r σ left right =>
    -- Matching finds the values of `σ`, as far as the right-hand side uses them.
    have applied := (bound e (by simp)).reduct?_under σ.value
    rw [← Term.subst_eq_under, ← Term.subst_eq_under, ← left, ← right] at applied
    simp [rewriteRoot?, applied]
  | @later e rest t r other _ ih =>
    have passed : e.reduct? t = none := Equation.reduct?_eq_none_iff.mpr other
    have among := ih fun d member => bound d (by simp [member])
    simpa [rewriteRoot?, passed] using among

theorem rewriteRoot?_eq_none_iff {t : Term} :
    rewriteRoot? equations t = none ↔ ∀ e ∈ equations, ∀ σ : Subst, t ≠ e.lhs.subst σ := by
  simp only [rewriteRoot?, List.findSome?_eq_none_iff, Equation.reduct?_eq_none_iff]

def Spends (equations : List Equation) (next : Evaluator) : Prop :=
  ∀ left t r left', next left t = .ok (r, left') →
    ∃ n, left = left' + n ∧ Evaluates equations t r n

section Spending

variable {next : Evaluator} {left left' : Nat}

theorem evaluateWith_app {f : String} {ts : List Term} {r : Term}
    (done : evaluateWith equations next left (.app f ts) = .ok (r, left')) :
    ∃ args left₁, evaluateAllWith equations next left ts = .ok (args, left₁) ∧
      ((rewriteRoot? equations (.app f args) = none ∧ r = .app f args ∧ left' = left₁) ∨
        ∃ reduct left₂, rewriteRoot? equations (.app f args) = some reduct ∧ left₁ = left₂ + 1 ∧
          next left₂ reduct = .ok (r, left')) := by
  simp only [evaluateWith] at done
  split at done
  next => simp at done
  next args left₁ inner =>
    refine ⟨args, left₁, inner, ?_⟩
    split at done
    next stands =>
      simp only [Except.ok.injEq, Prod.mk.injEq] at done
      exact .inl ⟨stands, done.1.symm, done.2.symm⟩
    next => simp at done
    next reduct left₂ rewrites => exact .inr ⟨reduct, left₂, rewrites, rfl, done⟩

theorem evaluateAllWith_cons {t : Term} {ts rs : List Term}
    (done : evaluateAllWith equations next left (t :: ts) = .ok (rs, left')) :
    ∃ r left₁ rest, evaluateWith equations next left t = .ok (r, left₁) ∧
      evaluateAllWith equations next left₁ ts = .ok (rest, left') ∧ rs = r :: rest := by
  simp only [evaluateAllWith] at done
  split at done
  next => simp at done
  next r left₁ head =>
    split at done
    next => simp at done
    next rest left₂ tail =>
      simp only [Except.ok.injEq, Prod.mk.injEq] at done
      obtain ⟨rfl, rfl⟩ := done
      exact ⟨r, left₁, rest, head, tail, rfl⟩

mutual

theorem evaluates_of_evaluateWith (later : Spends equations next) :
    ∀ {left left' : Nat} {t r : Term}, evaluateWith equations next left t = .ok (r, left') →
      ∃ n, left = left' + n ∧ Evaluates equations t r n
  | _, _, .var _, _, done | _, _, .const _, _, done | _, _, .lit _, _, done
  | _, _, .name _, _, done => by
    simp only [evaluateWith, Except.ok.injEq, Prod.mk.injEq] at done
    obtain ⟨rfl, rfl⟩ := done
    exact ⟨0, rfl, .atom rfl⟩
  | left, left', .app f ts, r, done => by
    obtain ⟨args, left₁, inner, root⟩ := evaluateWith_app done
    obtain ⟨n, spent, each⟩ := evaluatesAll_of_evaluateAllWith later inner
    rcases root with ⟨stands, rfl, rfl⟩ | ⟨reduct, left₂, rewrites, rfl, done⟩
    · exact ⟨n, spent, .built each (rewriteRoot?_eq_none_iff.mp stands)⟩
    · obtain ⟨m, spent', value⟩ := later _ _ _ _ done
      exact ⟨n + (m + 1), by omega,
        .rewritten each (rewritesFirst_of_rewriteRoot? rewrites) value⟩

theorem evaluatesAll_of_evaluateAllWith (later : Spends equations next) :
    ∀ {left left' : Nat} {ts rs : List Term},
      evaluateAllWith equations next left ts = .ok (rs, left') →
      ∃ n, left = left' + n ∧ EvaluatesAll equations ts rs n
  | _, _, [], _, done => by
    simp only [evaluateAllWith, Except.ok.injEq, Prod.mk.injEq] at done
    obtain ⟨rfl, rfl⟩ := done
    exact ⟨0, rfl, .nil⟩
  | _, _, t :: ts, rs, done => by
    obtain ⟨r, left₁, rest, head, tail, rfl⟩ := evaluateAllWith_cons done
    obtain ⟨n, spent, first⟩ := evaluates_of_evaluateWith later head
    obtain ⟨m, spent', others⟩ := evaluatesAll_of_evaluateAllWith later tail
    exact ⟨n + m, by omega, .cons first others⟩

end

end Spending

def beyond (equations : List Equation) : Nat → Evaluator
  | 0 => fun _ t => .error t
  | depth + 1 => evaluate equations depth

theorem evaluate_eq (depth : Nat) :
    evaluate equations depth = evaluateWith equations (beyond equations depth) := by
  cases depth <;> rfl

theorem spends_evaluate (depth : Nat) : Spends equations (evaluate equations depth) := by
  induction depth with
  | zero => exact fun _ _ _ _ done => evaluates_of_evaluateWith (by simp [Spends]) done
  | succ depth ih => exact fun _ _ _ _ done => evaluates_of_evaluateWith ih done

mutual

theorem evaluate_of_evaluates (bound : ∀ e ∈ equations, e.Bound) :
    ∀ {t r : Term} {n : Nat}, Evaluates equations t r n → ∀ depth left : Nat,
      left + n ≤ depth → evaluate equations depth (left + n) t = .ok (r, left)
  | t, _, _, .atom plain, depth, left, _ => by
    rw [evaluate_eq]
    cases t with
    | app f ts => simp [Term.isApp] at plain
    | _ => rfl
  | _, _, _, .built each stands, depth, left, enough => by
    rw [evaluate_eq, evaluateWith, evaluateAllWith_of_evaluatesAll bound each depth left enough]
    simp only [rewriteRoot?_eq_none_iff.mpr stands]
  | _, _, _, @Evaluates.rewritten _ _ _ _ _ _ n m each rewrites later, depth, left, enough => by
    -- The rewrite at the root is paid for, so the depth goes down with the rewrites left.
    obtain ⟨depth, rfl⟩ : ∃ d, depth = d + 1 := ⟨depth - 1, by omega⟩
    have inner := evaluateAllWith_of_evaluatesAll bound each (depth + 1) (left + m + 1) (by omega)
    have split : left + (n + (m + 1)) = left + m + 1 + n := by omega
    rw [evaluate_eq, split, evaluateWith, inner]
    simp only [rewrites.rewriteRoot?_eq bound, beyond]
    exact evaluate_of_evaluates bound later depth left (by omega)

theorem evaluateAllWith_of_evaluatesAll (bound : ∀ e ∈ equations, e.Bound) :
    ∀ {ts rs : List Term} {n : Nat}, EvaluatesAll equations ts rs n → ∀ depth left : Nat,
      left + n ≤ depth →
      evaluateAllWith equations (beyond equations depth) (left + n) ts = .ok (rs, left)
  | _, _, _, .nil, _, _, _ => rfl
  | _, _, _, @EvaluatesAll.cons _ _ _ _ _ n m head tail, depth, left, enough => by
    have first := evaluate_of_evaluates bound head depth (left + m) (by omega)
    have rest := evaluateAllWith_of_evaluatesAll bound tail depth left (by omega)
    have split : left + (n + m) = left + m + n := by omega
    rw [evaluate_eq] at first
    simp only [split, evaluateAllWith, first, rest]

end

section Recursion

/-- The evaluator takes every reduct on by itself, so that nothing but the rewrites left bounds its
recursion. -/
def Solves (equations : List Equation) (run : Evaluator) : Prop :=
  ∀ left t, run left t = evaluateWith equations run left t

variable {next next' : Evaluator}

mutual

theorem evaluateWith_congr (spends : Spends equations next') :
    ∀ {left : Nat}, (∀ left' < left, ∀ u, next left' u = next' left' u) → ∀ t : Term,
      evaluateWith equations next left t = evaluateWith equations next' left t
  | _, _, .var _ | _, _, .const _ | _, _, .lit _ | _, _, .name _ => by simp only [evaluateWith]
  | left, agree, .app f ts => by
    -- A reduct is taken on with fewer rewrites left, so only those matter.
    simp only [evaluateWith, evaluateAllWith_congr spends agree ts]
    cases inner : evaluateAllWith equations next' left ts with
    | error last => rfl
    | ok found =>
      obtain ⟨args, left'⟩ := found
      obtain ⟨n, spent, -⟩ := evaluatesAll_of_evaluateAllWith spends inner
      dsimp only
      cases rewriteRoot? equations (.app f args) with
      | none => rfl
      | some reduct =>
        cases left' with
        | zero => rfl
        | succ left'' => exact agree left'' (by omega) reduct

theorem evaluateAllWith_congr (spends : Spends equations next') :
    ∀ {left : Nat}, (∀ left' < left, ∀ u, next left' u = next' left' u) → ∀ ts : List Term,
      evaluateAllWith equations next left ts = evaluateAllWith equations next' left ts
  | _, _, [] => rfl
  | left, agree, t :: ts => by
    simp only [evaluateAllWith, evaluateWith_congr spends agree t]
    cases head : evaluateWith equations next' left t with
    | error last => rfl
    | ok found =>
      obtain ⟨v, left'⟩ := found
      obtain ⟨n, spent, -⟩ := evaluates_of_evaluateWith spends head
      have rest : evaluateAllWith equations next left' ts =
          evaluateAllWith equations next' left' ts :=
        evaluateAllWith_congr spends (fun left'' less => agree left'' (by omega)) ts
      simp only [rest]

end

theorem evaluate_succ {depth left : Nat} (enough : left ≤ depth) (t : Term) :
    evaluate equations (depth + 1) left t = evaluate equations depth left t := by
  induction depth generalizing left t with
  | zero =>
    obtain rfl : left = 0 := by omega
    have none : Spends equations (beyond equations 0) := by simp [Spends, beyond]
    exact evaluateWith_congr none (by simp) t
  | succ depth ih =>
    exact evaluateWith_congr (spends_evaluate depth) (fun left' less u => ih (by omega) u) t

theorem evaluate_of_le {depth left : Nat} (enough : left ≤ depth) (t : Term) :
    evaluate equations depth left t = evaluate equations left left t := by
  induction depth, enough using Nat.le_induction with
  | base => rfl
  | succ depth enough ih => exact (evaluate_succ enough t).trans ih

theorem solves_evaluate : Solves equations fun left => evaluate equations left left := by
  intro left t
  have spends : Spends equations fun left => evaluate equations left left :=
    fun left => spends_evaluate left left
  show evaluate equations left left t = _
  rw [evaluate_eq]
  -- A reduct has a depth of its own here, and the depth that is left over there.
  refine evaluateWith_congr spends (fun left' less u => ?_) t
  obtain ⟨depth, rfl⟩ : ∃ depth, left = depth + 1 := ⟨left - 1, by omega⟩
  exact evaluate_of_le (by omega) u

theorem Solves.eq_evaluate {run : Evaluator} (solves : Solves equations run) (left : Nat)
    (t : Term) : run left t = evaluate equations left left t := by
  induction left using Nat.strong_induction_on generalizing t with
  | _ left ih =>
    -- Two solutions agree on all reducts, since these are taken on with fewer rewrites left.
    have same := evaluateWith_congr (fun left => spends_evaluate left left) ih t
    exact (solves left t).trans (same.trans (solves_evaluate left t).symm)

end Recursion

end Rewriting

end ThreatModel
