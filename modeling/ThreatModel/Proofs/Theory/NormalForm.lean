import Mathlib
import ThreatModel.Proofs.Theory.Evaluation

set_option autoImplicit false

namespace ThreatModel

namespace Rewriting

variable {equations : List Equation}

def Irreducible (equations : List Equation) (t : Term) : Prop :=
  ∀ f args, Term.app f args ∈ t.subterms → rewriteRoot? equations (.app f args) = none

theorem irreducible_app {f : String} {args : List Term} :
    Irreducible equations (.app f args) ↔
      rewriteRoot? equations (.app f args) = none ∧ ∀ t ∈ args, Irreducible equations t := by
  constructor
  · intro irreducible
    refine ⟨irreducible f args (by simp), ?_⟩
    exact fun t member g ts inside => irreducible g ts (Term.subterms_of_arg member inside)
  · rintro ⟨root, inner⟩ g ts inside
    simp only [Term.subterms_app, List.mem_cons, List.mem_flatMap] at inside
    rcases inside with same | ⟨t, member, deeper⟩
    · rw [same]; exact root
    · exact inner t member g ts deeper

theorem irreducible_atom {t : Term} (atom : t.isApp = false) : Irreducible equations t := by
  intro f args inside
  cases t <;> simp_all [Term.isApp, Term.subterms]

theorem Irreducible.subterm {s t : Term} (irreducible : Irreducible equations t)
    (inside : s ∈ t.subterms) : Irreducible equations s :=
  fun f args deeper => irreducible f args (Term.subterms_trans deeper inside)

mutual

theorem evaluateWith_of_irreducible (next : Evaluator) (left : Nat) :
    ∀ {t : Term}, Irreducible equations t → evaluateWith equations next left t = .ok (t, left)
  | .var _, _ | .const _, _ | .lit _, _ | .name _, _ => by simp [evaluateWith]
  | .app f args, irreducible => by
    obtain ⟨root, inner⟩ := irreducible_app.mp irreducible
    simp [evaluateWith, evaluateAllWith_of_irreducible next left inner, root]

theorem evaluateAllWith_of_irreducible (next : Evaluator) (left : Nat) :
    ∀ {ts : List Term}, (∀ t ∈ ts, Irreducible equations t) →
      evaluateAllWith equations next left ts = .ok (ts, left)
  | [], _ => by simp [evaluateAllWith]
  | t :: ts, each => by
    have head := evaluateWith_of_irreducible next left (each t (by simp))
    have tail := evaluateAllWith_of_irreducible next left fun u (member : u ∈ ts) =>
      each u (by simp [member])
    simp [evaluateAllWith, head, tail]

end

theorem evaluate_of_irreducible (depth left : Nat) {t : Term}
    (irreducible : Irreducible equations t) : evaluate equations depth left t = .ok (t, left) := by
  cases depth <;> exact evaluateWith_of_irreducible _ _ irreducible

theorem Irreducible.value {t : Term} (irreducible : Irreducible equations t) :
    Value equations t t :=
  value_of_evaluate (evaluate_of_irreducible 0 0 irreducible)

theorem Value.irreducible {t v : Term} (value : Value equations t v) :
    Irreducible equations v := by
  refine value.induct (P := fun _ v => Irreducible equations v) ?atom ?built ?rewritten
  case atom => exact fun t plain => irreducible_atom plain
  case built =>
    intro f ts args each stands
    have inner : List.Forall₂ (fun v t => Irreducible equations v ∧ Value equations t v) args ts :=
      .flip (each.imp fun _ _ => And.symm)
    exact irreducible_app.mpr ⟨stands, ((List.forall₂_and_left _ _).mp inner).1⟩
  case rewritten => exact fun _ _ _ _ _ _ _ later => later

theorem irreducible_of_values {ts args : List Term}
    (each : List.Forall₂ (Value equations) ts args) : ∀ v ∈ args, Irreducible equations v := by
  have inner : List.Forall₂ (fun v t => Irreducible equations v ∧ Value equations t v) args ts :=
    .flip (each.imp fun _ _ value => ⟨value.irreducible, value⟩)
  exact ((List.forall₂_and_left _ _).mp inner).1

/-- A property of terms that survives every way a normalisation makes one term of another. -/
structure Kept (equations : List Equation) (P : Term → Prop) : Prop where
  argument : ∀ f ts, P (.app f ts) → ∀ t ∈ ts, P t
  rebuild : ∀ f ts ts', P (.app f ts) → ts'.length = ts.length → (∀ t ∈ ts', P t) → P (.app f ts')
  reduct : ∀ e ∈ equations, ∀ t r, P t → e.reduct? t = some r → P r

theorem Kept.root {P : Term → Prop} (kept : Kept equations P) {t r : Term} (holds : P t)
    (rewritten : rewriteRoot? equations t = some r) : P r := by
  obtain ⟨e, member, step⟩ := List.exists_of_findSome?_eq_some rewritten
  exact kept.reduct e member t r holds step

theorem Kept.rebuilt {P : Term → Prop} (kept : Kept equations P) {f : String} {ts args : List Term}
    (each : List.Forall₂ (fun t v => P t → P v) ts args) (holds : P (.app f ts)) :
    P (.app f args) := by
  refine kept.rebuild f ts args holds each.length_eq.symm ?_
  have inner := kept.argument f ts holds
  clear holds
  induction each with
  | nil => simp
  | cons head _ ih =>
    rw [List.forall_mem_cons] at inner ⊢
    exact ⟨head inner.1, ih inner.2⟩

theorem Kept.value {P : Term → Prop} (kept : Kept equations P) {t v : Term}
    (value : Value equations t v) (holds : P t) : P v := by
  refine value.induct (P := fun t v => P t → P v) ?atom ?built ?rewritten holds
  case atom => exact fun _ _ holds => holds
  case built =>
    intro f ts args each stands holds
    exact kept.rebuilt (each.imp fun _ _ => And.right) holds
  case rewritten =>
    intro f ts args t v each rewrites later holds
    exact later (kept.root (kept.rebuilt (each.imp fun _ _ => And.right) holds) rewrites)

end Rewriting

end ThreatModel
