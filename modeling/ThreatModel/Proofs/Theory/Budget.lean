import Mathlib
import ThreatModel.Proofs.Theory.Declared

set_option autoImplicit false

namespace ThreatModel.Theory

open Result

theorem normalize_redex {T : Theory} {f : String} {args : List Term} {r : Term}
    (budget : 0 < T.budget) (inner : ∀ a ∈ args, T.Normal a)
    (root : rewriteRoot? T.equations (.app f args) = some r) (normal : T.Normal r) :
    T.normalize (.app f args) = .ok r := by
  have limit : 0 < T.limitFor (.app f args) := by
    simp only [limitFor, stepLimit]
    have size : 0 < (Term.app f args).size := by simp [Term.size]
    positivity
  obtain ⟨n, allowed⟩ : ∃ n, (T.limitFor (.app f args)).toNat = n + 1 :=
    ⟨(T.limitFor (.app f args)).toNat - 1, by omega⟩
  simp only [normalize, allowed, Rewriting.evaluate, Rewriting.evaluateWith,
    Rewriting.evaluateAllWith_of_irreducible _ _ inner, root,
    Rewriting.evaluate_of_irreducible _ _ normal]

theorem declareEquation_eq_ok {T : Theory} {e : Equation} (unsealed : T.closed = false)
    (declared : T.misuse? e.lhs = none ∧ T.misuse? e.rhs = none) (applied : e.lhs.isApp = true)
    (bound : e.Bound) (v : Term)
    (left : ({ T with equations := T.equations ++ [e] } : Theory).normalize
      (e.lhs.subst e.skolem) = .ok v)
    (right : ({ T with equations := T.equations ++ [e] } : Theory).normalize
      (e.rhs.subst e.skolem) = .ok v) :
    T.declareEquation e.lhs e.rhs = .ok { T with equations := T.equations ++ [e] } := by
  simp only [declareEquation, throw_bind, ite_throw_eq_ok_iff, bind_eq_ok_iff, pure_eq_ok_iff,
    lift_eq_ok_iff, checkTerm, declared.1, declared.2, fires]
  exact ⟨by simp [unsealed], (), trivial, (), trivial, by simp [applied],
    by simpa [List.isEmpty_iff, Equation.Bound] using bound, (),
    ⟨v, left, v, right, by simp⟩, trivial⟩

def pairs (budget : Int) (equations : List Equation) : Theory :=
  { budget, equations, symbols := ⟨[("pair", 2), ("fst", 1), ("snd", 1)]⟩ }

def ofFirst : Equation := ⟨.app "fst" [.pair (.var "x") (.var "y")], .var "x"⟩

def ofSecond : Equation := ⟨.app "snd" [.pair (.var "x") (.var "y")], .var "y"⟩

theorem normal_const (T : Theory) (c : String) : T.Normal (.const c) :=
  Rewriting.irreducible_atom rfl

theorem normal_pair {T : Theory} {c c' : String}
    (root : rewriteRoot? T.equations (.pair (.const c) (.const c')) = none) :
    ∀ a ∈ [Term.pair (.const c) (.const c')], T.Normal a := by
  intro a member
  rw [List.mem_singleton.mp member]
  refine Rewriting.irreducible_app.mpr ⟨root, ?_⟩
  intro part among
  simp only [List.mem_cons, List.not_mem_nil, or_false] at among
  rcases among with rfl | rfl
  · exact normal_const T c
  · exact normal_const T c'

theorem ofBudget_eq (budget : Int) : ofBudget budget = (do
    let T ← (pairs budget []).declareEquation ofFirst.lhs ofFirst.rhs
    T.declareEquation ofSecond.lhs ofSecond.rhs) := rfl

theorem ofBudget_eq_ok {budget : Int} (positive : 0 < budget) :
    ofBudget budget = .ok (pairs budget [ofFirst, ofSecond]) := by
  -- Neither equation says anything of a pair, so its instance is one rewrite away from a constant.
  have first : (pairs budget []).declareEquation ofFirst.lhs ofFirst.rhs =
      .ok (pairs budget [ofFirst]) :=
    declareEquation_eq_ok rfl ⟨rfl, rfl⟩ rfl (by simp [Equation.Bound, ofFirst, Term.pair])
      (.const "$sk0") (normalize_redex positive (normal_pair rfl) rfl (normal_const _ _))
      (normalize_of_normal (normal_const _ _))
  have second : (pairs budget [ofFirst]).declareEquation ofSecond.lhs ofSecond.rhs =
      .ok (pairs budget [ofFirst, ofSecond]) :=
    declareEquation_eq_ok rfl ⟨rfl, rfl⟩ rfl (by simp [Equation.Bound, ofSecond, Term.pair])
      (.const "$sk1") (normalize_redex positive (normal_pair rfl) rfl (normal_const _ _))
      (normalize_of_normal (normal_const _ _))
  rw [ofBudget_eq, first, ok_bind, second]

theorem positive_of_ofBudget {budget : Int} {T : Theory} (done : ofBudget budget = .ok T) :
    0 < budget := by
  rw [ofBudget_eq, bind_eq_ok_iff] at done
  obtain ⟨T₁, first, -⟩ := done
  obtain ⟨rfl, -, fired⟩ := exists_of_declareEquation first
  simp only [fires, bind_eq_ok_iff] at fired
  obtain ⟨r, rewritten, -⟩ := fired
  by_contra small
  have none : ((pairs budget [ofFirst]).limitFor (ofFirst.lhs.subst ofFirst.skolem)).toNat = 0 := by
    have size : (ofFirst.lhs.subst ofFirst.skolem).size = 4 := rfl
    simp only [limitFor, stepLimit, size, pairs, List.length_singleton]
    omega
  have stuck : Rewriting.evaluate [ofFirst] 0 0 (ofFirst.lhs.subst ofFirst.skolem) =
      .error (ofFirst.lhs.subst ofFirst.skolem) := rfl
  obtain ⟨left, evaluated⟩ := normalize_eq_ok (T := pairs budget [ofFirst]) rewritten
  rw [none] at evaluated
  cases stuck.symm.trans evaluated

theorem Declared.positive {T : Theory} (declared : T.Declared) : 0 < T.budget := by
  induction declared with
  | start done =>
    have positive := positive_of_ofBudget done
    rw [ofBudget_eq_ok positive] at done
    exact Except.ok.inj done ▸ positive
  | symbol _ done ih =>
    obtain ⟨-, rfl⟩ := exists_of_declareSymbol done
    exact ih
  | equation _ done ih =>
    obtain ⟨rfl, -⟩ := exists_of_declareEquation done
    exact ih
  | close _ ih => exact ih

end ThreatModel.Theory
