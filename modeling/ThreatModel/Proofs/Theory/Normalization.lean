import Mathlib
import ThreatModel.Proofs.Theory.Reduction
import ThreatModel.Proofs.Theory.Transactions

set_option autoImplicit false

namespace ThreatModel.Theory

open Rewriting Result

variable {T : Theory} {t r : Term}

theorem limitFor_eq (T : Theory) (t : Term) :
    T.limitFor t = T.budget * (T.equations.length + 1) * t.subterms.length := by
  rw [limitFor, stepLimit, Term.length_subterms]

theorem limitFor_nonneg (allowing : 0 ≤ T.budget) (t : Term) : 0 ≤ T.limitFor t := by
  rw [limitFor_eq]
  positivity

theorem limitFor_le {T' : Theory} (same : T'.equations = T.equations)
    (more : T.budget ≤ T'.budget) (t : Term) : T.limitFor t ≤ T'.limitFor t := by
  rw [limitFor_eq, limitFor_eq, same]
  gcongr

theorem normalize_eq (T : Theory) (t : Term) :
    T.normalize t =
      ((evaluate T.equations (T.limitFor t).toNat (T.limitFor t).toNat t).map Prod.fst).mapError
        fun last => { cause := .diverged (T.limitFor t) last } := by
  simp only [normalize]
  cases evaluate T.equations (T.limitFor t).toNat (T.limitFor t).toNat t <;> rfl

theorem Oriented.bound (oriented : T.Oriented) : ∀ e ∈ T.equations, e.Bound :=
  fun e member => (oriented e member).bound

theorem Oriented.normalize_eq_ok_iff (oriented : T.Oriented) (allowing : 0 ≤ T.budget) :
    T.normalize t = .ok r ↔ ∃ n : Nat, n ≤ T.limitFor t ∧ Evaluates T.equations t r n := by
  have limit := limitFor_nonneg allowing t
  constructor
  · intro done
    obtain ⟨left, evaluated⟩ := normalize_eq_ok done
    obtain ⟨n, spent, value⟩ := spends_evaluate _ _ _ _ _ evaluated
    exact ⟨n, by omega, value⟩
  · rintro ⟨n, within, value⟩
    -- What is not needed is left in the end.
    obtain ⟨left, split⟩ : ∃ left, (T.limitFor t).toNat = left + n :=
      ⟨(T.limitFor t).toNat - n, by omega⟩
    have evaluated := evaluate_of_evaluates oriented.bound value (left + n) left le_rfl
    rw [normalize_eq, split, evaluated]
    rfl

theorem Oriented.evaluates_unique (oriented : T.Oriented) {r' : Term} {n n' : Nat}
    (value : Evaluates T.equations t r n) (value' : Evaluates T.equations t r' n') :
    r = r' ∧ n = n' := by
  -- Given what the two need together, the evaluator follows either of them.
  have one := evaluate_of_evaluates oriented.bound value (n' + n) n' le_rfl
  have other := evaluate_of_evaluates oriented.bound value' (n + n') n le_rfl
  rw [Nat.add_comm n n', one] at other
  simpa [eq_comm] using other

theorem normalize_eq_ok_or_diverged (T : Theory) (t : Term) :
    (∃ r, T.normalize t = .ok r) ∨
      ∃ last, T.normalize t = .error { cause := .diverged (T.limitFor t) last } := by
  rw [normalize_eq]
  cases evaluate T.equations (T.limitFor t).toNat (T.limitFor t).toNat t with
  | ok found => exact .inl ⟨found.1, rfl⟩
  | error last => exact .inr ⟨last, rfl⟩

theorem Oriented.normalize_eq_diverged_iff (oriented : T.Oriented) (allowing : 0 ≤ T.budget) :
    (∃ last, T.normalize t = .error { cause := .diverged (T.limitFor t) last }) ↔
      (∃ r, ∃ n : Nat, T.limitFor t < n ∧ Evaluates T.equations t r n) ∨
        ∀ r n, ¬ Evaluates T.equations t r n := by
  constructor
  · rintro ⟨last, diverged⟩
    refine or_iff_not_imp_right.mpr fun ends => ?_
    obtain ⟨r, n, value⟩ : ∃ r n, Evaluates T.equations t r n := by simpa using ends
    refine ⟨r, n, ?_, value⟩
    by_contra within
    have done := (oriented.normalize_eq_ok_iff allowing).mpr ⟨n, not_lt.mp within, value⟩
    cases diverged.symm.trans done
  · intro late
    refine (normalize_eq_ok_or_diverged T t).resolve_left ?_
    rintro ⟨r', done⟩
    obtain ⟨n', within, value'⟩ := (oriented.normalize_eq_ok_iff allowing).mp done
    rcases late with ⟨r, n, beyond, value⟩ | endless
    · obtain ⟨-, rfl⟩ := oriented.evaluates_unique value value'
      omega
    · exact endless r' n' value'

/-- A result is the value that the term comes to within the limit; if it comes to its value too
late, or never, that is what is reported. A larger budget takes back no result. -/
theorem normalize_budgeted (oriented : T.Oriented) (positive : 1 ≤ T.budget) (t : Term) :
    let limit := T.budget * (T.equations.length + 1) * t.subterms.length
    (∃ run : Evaluator, Solves T.equations run ∧
      (∀ other, Solves T.equations other → other = run) ∧
      T.normalize t = ((run limit.toNat t).map Prod.fst).mapError
        fun last => { cause := .diverged limit last }) ∧
    (∀ r, T.normalize t = .ok r ↔ ∃ n : Nat, n ≤ limit ∧ Evaluates T.equations t r n) ∧
    ((∃ last, T.normalize t = .error { cause := .diverged limit last }) ↔
      (∃ r, ∃ n : Nat, limit < n ∧ Evaluates T.equations t r n) ∨
        ∀ r n, ¬ Evaluates T.equations t r n) ∧
    (∀ T' : Theory, T'.equations = T.equations → T.budget ≤ T'.budget →
      ∀ r, T.normalize t = .ok r → T'.normalize t = .ok r) ∧
    ∀ budget, (∃ T₀, ofBudget budget = .ok T₀) ↔ 1 ≤ budget := by
  have allowing : 0 ≤ T.budget := by omega
  simp only [← limitFor_eq]
  refine ⟨⟨_, solves_evaluate, ?_, normalize_eq T t⟩, ?_, ?_, ?_, ?_⟩
  · intro other solves
    funext left u
    exact solves.eq_evaluate left u
  · exact fun r => oriented.normalize_eq_ok_iff allowing
  · exact oriented.normalize_eq_diverged_iff allowing
  · intro T' same more r done
    have oriented' : T'.Oriented := fun e member => oriented e (same ▸ member)
    obtain ⟨n, within, value⟩ := (oriented.normalize_eq_ok_iff allowing).mp done
    refine (oriented'.normalize_eq_ok_iff (allowing.trans more)).mpr ⟨n, ?_, same ▸ value⟩
    exact within.trans (limitFor_le same more t)
  · intro budget
    constructor
    · rintro ⟨T₀, created⟩
      exact positive_of_ofBudget created
    · exact fun enough => ⟨_, ofBudget_eq_ok enough⟩

def spinning : Theory :=
  [Request.symbol "c" 0 none, .symbol "ap" 2 none,
    .equation ⟨.app "ap" [.app "c" [], .var "x"], .app "ap" [.var "x", .var "x"]⟩ none].foldl
      Request.serve (pairs 2 [ofFirst, ofSecond])

theorem declared_spinning : spinning.Declared :=
  (Declared.start (ofBudget_eq_ok (by decide))).serveAll _

theorem normalize_budgeted_spinning :
    spinning.Declared ∧ spinning.budget = 2 ∧ spinning.equations.length = 3 ∧
    (∃ n : Nat, (n : Int) ≤ 2 * 4 * 6 ∧ Evaluates spinning.equations
      (.app "fst" [.pair (.app "ap" [.app "c" [], .const "k"]) (.app "c" [])])
      (.app "ap" [.const "k", .const "k"]) n) ∧
    ∀ r, ∀ n : Nat, Evaluates spinning.equations (.app "ap" [.app "c" [], .app "c" []]) r n →
      (2 * 4 * 3 : Int) < n := by
  have oriented := declared_spinning.oriented
  have positive : 1 ≤ spinning.budget := declared_spinning.positive
  refine ⟨declared_spinning, by decide +kernel, by decide +kernel, ?_, fun r n value => ?_⟩
  · obtain ⟨-, results, -⟩ := normalize_budgeted oriented positive
      (.app "fst" [.pair (.app "ap" [.app "c" [], .const "k"]) (.app "c" [])])
    obtain ⟨n, within, value⟩ := (results (.app "ap" [.const "k", .const "k"])).mp
      (by decide +kernel)
    exact ⟨n, within, value⟩
  · obtain ⟨-, results, -⟩ := normalize_budgeted oriented positive
      (.app "ap" [.app "c" [], .app "c" []])
    by_contra within
    have done := (results r).mpr ⟨n, not_lt.mp within, value⟩
    have diverged : (spinning.normalize (.app "ap" [.app "c" [], .app "c" []])).isOk = false := by
      decide +kernel
    rw [done] at diverged
    cases diverged

theorem isNormal_eq_ok {verdict : Bool} (done : T.isNormal t = .ok verdict) :
    verdict = true ↔ T.Normal t := by
  simp only [isNormal, bind_eq_ok_iff, pure_eq_ok_iff] at done
  obtain ⟨r, normalized, rfl⟩ := done
  rw [decide_eq_true_iff]
  constructor
  · rintro rfl
    exact normal_of_normalize normalized
  · intro normal
    rw [normalize_of_normal normal] at normalized
    exact (Except.ok.inj normalized).symm

/-- What normalising gives can be reached by rewriting and has no instance of a left-hand side
inside; it is left as it is under any budget. The test for normal forms, where it comes to an end,
tells whether there is such an instance. -/
theorem normalize_reaches_normal (oriented : T.Oriented) :
    (∀ t r, T.normalize t = .ok r →
      Relation.ReflTransGen (Rewrites T.equations) t r ∧
      (∀ s ∈ r.subterms, ∀ e ∈ T.equations, ∀ σ : Subst, s ≠ e.lhs.subst σ) ∧
      ∀ budget, ({ T with budget } : Theory).normalize r = .ok r) ∧
    ∀ u verdict, T.isNormal u = .ok verdict →
      (verdict = true ↔
        ∀ s ∈ u.subterms, ∀ e ∈ T.equations, ∀ σ : Subst, s ≠ e.lhs.subst σ) := by
  refine ⟨fun t r done => ⟨rewritesTo_of_normalize done, ?_, fun budget => ?_⟩, ?_⟩
  · exact oriented.normal_iff.mp (normal_of_normalize done)
  · have normal : T.Normal r := normal_of_normalize done
    exact normalize_of_normal (T := { T with budget }) normal
  · exact fun u verdict judged => (isNormal_eq_ok judged).trans oriented.normal_iff

def ciphers : Theory :=
  [Request.symbol "enc" 2 none, .symbol "dec" 2 none,
    .equation ⟨.app "dec" [.app "enc" [.var "m", .var "k"], .var "k"], .var "m"⟩ none].foldl
      Request.serve (pairs 2 [ofFirst, ofSecond])

theorem declared_ciphers : ciphers.Declared :=
  (Declared.start (ofBudget_eq_ok (by decide))).serveAll _

theorem normalize_ciphers_reaches_normal :
    ciphers.Declared ∧
    Relation.ReflTransGen (Rewrites ciphers.equations)
      (.pair (.app "fst" [.pair (.var "m") (.var "k")])
        (.app "dec" [.app "enc" [.app "dec" [.app "enc" [.var "m", .var "x"], .var "x"], .var "k"],
          .var "x"]))
      (.pair (.var "m") (.app "dec" [.app "enc" [.var "m", .var "k"], .var "x"])) ∧
    ∀ σ : Subst, Term.app "dec" [.app "enc" [.var "m", .var "k"], .var "x"] ≠
      .subst σ (.app "dec" [.app "enc" [.var "m", .var "k"], .var "k"]) := by
  obtain ⟨reached, -⟩ := normalize_reaches_normal declared_ciphers.oriented
  obtain ⟨path, apart, -⟩ := reached
    (.pair (.app "fst" [.pair (.var "m") (.var "k")])
      (.app "dec" [.app "enc" [.app "dec" [.app "enc" [.var "m", .var "x"], .var "x"], .var "k"],
        .var "x"]))
    (.pair (.var "m") (.app "dec" [.app "enc" [.var "m", .var "k"], .var "x"])) (by decide +kernel)
  refine ⟨declared_ciphers, path, ?_⟩
  exact apart _ (by decide +kernel)
    ⟨.app "dec" [.app "enc" [.var "m", .var "k"], .var "k"], .var "m"⟩ (by decide +kernel)

end ThreatModel.Theory
