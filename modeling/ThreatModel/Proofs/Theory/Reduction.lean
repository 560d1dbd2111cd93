import Mathlib
import ThreatModel.Proofs.Theory.WellFormed

set_option autoImplicit false

namespace ThreatModel

theorem Subst.exists_value (xs : List String) (g : String → Term) :
    ∃ σ : Subst, ∀ x ∈ xs, σ.value x = g x := by
  induction xs with
  | nil => exact ⟨.empty, by simp⟩
  | cons x xs ih =>
    obtain ⟨σ, values⟩ := ih
    refine ⟨σ.insert x (g x), fun y member => ?_⟩
    simp only [Subst.value, Table.find?_insert]
    by_cases same : x = y
    · simp [same]
    · have later : y ∈ xs := (List.mem_cons.mp member).resolve_left (Ne.symm same)
      simpa [same, Subst.value] using values y later

namespace Rewriting

inductive Rewrites (equations : List Equation) : Term → Term → Prop
  | root {e : Equation} {s t : Term} (member : e ∈ equations) (σ : Subst)
      (left : s = e.lhs.subst σ) (right : t = e.rhs.subst σ) : Rewrites equations s t
  | inside {s t : Term} (f : String) (before after : List Term) (step : Rewrites equations s t) :
      Rewrites equations (.app f (before ++ s :: after)) (.app f (before ++ t :: after))

abbrev RewritesTo (equations : List Equation) : Term → Term → Prop :=
  Relation.ReflTransGen (Rewrites equations)

variable {equations : List Equation} {s t r : Term}

theorem Rewrites.exists_redex (step : Rewrites equations s t) :
    ∃ u ∈ s.subterms, ∃ e ∈ equations, ∃ σ : Subst, u = e.lhs.subst σ := by
  induction step with
  | @root e s t member σ left _ => exact ⟨s, s.subterms_self, e, member, σ, left⟩
  | inside f before after _ ih =>
    obtain ⟨u, within, redex⟩ := ih
    exact ⟨u, Term.subterms_of_arg (by simp) within, redex⟩

theorem Rewrites.under (step : Rewrites equations s t) (g : String → Term) :
    Rewrites equations (s.under g) (t.under g) := by
  induction step with
  | @root e s t member σ left right =>
    -- The values of the equation's own variables are instantiated in their turn.
    obtain ⟨σ', values⟩ := Subst.exists_value (e.lhs.vars ++ e.rhs.vars) fun x =>
      (σ.value x).under g
    have instantiated {u : Term} (among : ∀ x ∈ u.vars, x ∈ e.lhs.vars ++ e.rhs.vars) :
        (u.subst σ).under g = u.subst σ' := by
      rw [Term.subst_eq_under, Term.subst_eq_under, Term.under_under]
      exact Term.under_congr fun x inside => (values x (among x inside)).symm
    rw [left, right]
    exact .root member σ' (instantiated fun x inside => by simp [inside])
      (instantiated fun x inside => by simp [inside])
  | inside f before after _ ih =>
    simpa using Rewrites.inside f (before.map (Term.under g)) (after.map (Term.under g)) ih

theorem RewritesTo.subst (path : RewritesTo equations s t) (σ : Subst) :
    RewritesTo equations (s.subst σ) (t.subst σ) := by
  rw [Term.subst_eq_under, Term.subst_eq_under]
  exact path.lift _ fun _ _ step => step.under σ.value

theorem RewritesTo.app {ts us : List Term} (each : List.Forall₂ (RewritesTo equations) ts us)
    (f : String) : RewritesTo equations (.app f ts) (.app f us) := by
  suffices behind : ∀ before : List Term,
      RewritesTo equations (.app f (before ++ ts)) (.app f (before ++ us)) from behind []
  induction each with
  | nil => exact fun _ => .refl
  | @cons t u ts us path _ ih =>
    intro before
    have first : RewritesTo equations (.app f (before ++ t :: ts)) (.app f (before ++ u :: ts)) :=
      path.lift (fun v => Term.app f (before ++ v :: ts)) fun _ _ step =>
        Rewrites.inside f before ts step
    have rest := ih (before ++ [u])
    simp only [List.append_assoc, List.singleton_append] at rest
    exact first.trans rest

theorem RewritesFirst.exists_equation (rewrites : RewritesFirst equations t r) :
    ∃ e ∈ equations, ∃ σ : Subst, t = e.lhs.subst σ ∧ r = e.rhs.subst σ := by
  induction rewrites with
  | @here e _ _ _ σ left right => exact ⟨e, by simp, σ, left, right⟩
  | later _ _ ih =>
    obtain ⟨e, member, found⟩ := ih
    exact ⟨e, by simp [member], found⟩

theorem RewritesFirst.rewrites (first : RewritesFirst equations t r) : Rewrites equations t r := by
  obtain ⟨e, member, σ, left, right⟩ := first.exists_equation
  exact .root member σ left right

mutual

theorem Evaluates.rewritesTo : ∀ {t r : Term} {n : Nat}, Evaluates equations t r n →
    RewritesTo equations t r
  | _, _, _, .atom _ => .refl
  | _, _, _, .built each _ => .app each.rewritesTo _
  | _, _, _, .rewritten each first later =>
    ((RewritesTo.app each.rewritesTo _).tail first.rewrites).trans later.rewritesTo

theorem EvaluatesAll.rewritesTo : ∀ {ts rs : List Term} {n : Nat}, EvaluatesAll equations ts rs n →
    List.Forall₂ (RewritesTo equations) ts rs
  | _, _, _, .nil => .nil
  | _, _, _, .cons head tail => .cons head.rewritesTo tail.rewritesTo

end

end Rewriting

namespace Theory

open Rewriting

variable {T : Theory} {t u r : Term}

theorem rewritesTo_of_normalize (done : T.normalize t = .ok r) : RewritesTo T.equations t r := by
  obtain ⟨left, evaluated⟩ := normalize_eq_ok done
  obtain ⟨n, -, value⟩ := spends_evaluate _ _ _ _ _ evaluated
  exact value.rewritesTo

theorem Oriented.not_rewrites (oriented : T.Oriented) (normal : T.Normal t) (u : Term) :
    ¬ Rewrites T.equations t u := by
  intro step
  obtain ⟨s, inside, e, member, σ, redex⟩ := step.exists_redex
  exact oriented.normal_iff.mp normal s inside e member σ redex

theorem Oriented.eq_of_rewritesTo (oriented : T.Oriented) (normal : T.Normal t)
    (path : RewritesTo T.equations t u) : u = t :=
  (Relation.reflTransGen_iff_eq (oriented.not_rewrites normal)).mp path

end Theory

end ThreatModel
