import Mathlib
import ThreatModel.Proofs.Theory.Normalization
import ThreatModel.Proofs.Theory.Renaming

set_option autoImplicit false

namespace ThreatModel

theorem exists_injective_of_injOn {ρ : String → String} {xs : List String}
    (distinct : Set.InjOn ρ {x | x ∈ xs}) :
    ∃ ρ', Function.Injective ρ' ∧ ∀ x ∈ xs, ρ x = ρ' x := by
  obtain ⟨moved, agrees⟩ := Equiv.Perm.exists_extending_pair
    (fun x : {x // x ∈ xs} => x.1) (fun x => ρ x.1) Subtype.val_injective distinct.injective
  exact ⟨moved, moved.injective, fun x member => (agrees ⟨x, member⟩).symm⟩

namespace Theory

variable {T : Theory}

theorem Oriented.wellFormed (oriented : T.Oriented)
    (nameless : ∀ e ∈ T.equations, e.lhs.names = [] ∧ e.rhs.names = []) : T.WellFormed :=
  fun e member => ⟨oriented e member, nameless e member⟩

theorem WellFormed.recast_normalize (sound : T.WellFormed) {t u : Term}
    {ρ ρ' r r' : String → String} (done : T.normalize t = .ok u) (vars : ∀ x ∈ t.vars, ρ x = ρ' x)
    (names : ∀ n ∈ t.names, r n = r' n) : u.recast ρ r = u.recast ρ' r' := by
  have kept := kept_of_normalize (sound.kept_vars (· ∈ t.vars)) (fun _ inside => inside) done
  exact Term.recast_congr (fun x inside => vars x (kept x inside))
    fun n inside => names n (sound.names done n inside)

/-- A term whose variables and nonces are called otherwise has the normal form of the term, with
these called otherwise, and has none within its bound exactly if the term has none. -/
theorem normalize_hygienic (oriented : T.Oriented)
    (nameless : ∀ e ∈ T.equations, e.lhs.names = [] ∧ e.rhs.names = []) (t : Term)
    {ρ r : String → String} (vars : Set.InjOn ρ {x | x ∈ t.vars})
    (names : Set.InjOn r {n | n ∈ t.names}) :
    (∀ v, T.normalize (t.recast ρ r) = .ok v ↔ ∃ u, T.normalize t = .ok u ∧ v = u.recast ρ r) ∧
    ((∃ last, T.normalize (t.recast ρ r) = .error { cause := .diverged (T.limitFor t) last }) ↔
      ∃ last, T.normalize t = .error { cause := .diverged (T.limitFor t) last }) := by
  have sound := oriented.wellFormed nameless
  obtain ⟨ρ', vars', sameVars⟩ := exists_injective_of_injOn vars
  obtain ⟨r', names', sameNames⟩ := exists_injective_of_injOn names
  -- A renaming that keeps all strings apart does the same to the term, and to all it comes to.
  have renamed : T.normalize (t.recast ρ r) =
      ((T.normalize t).map (Term.recast ρ' r')).mapError (Diagnostic.recast ρ' r') := by
    rw [Term.recast_congr sameVars sameNames]
    exact (sound.indifferent vars' names').normalize t
  rcases normalize_eq_ok_or_diverged T t with ⟨u, done⟩ | ⟨last, diverged⟩
  · have value : T.normalize (t.recast ρ r) = .ok (u.recast ρ r) := by
      rw [renamed, done, sound.recast_normalize done sameVars sameNames]
      rfl
    simp [value, done, eq_comm]
  · have diverges : T.normalize (t.recast ρ r) =
        .error { cause := .diverged (T.limitFor t) (last.recast ρ' r') } := by
      rw [renamed, diverged]
      rfl
    simp [diverges, diverged]

theorem normalize_ciphers_hygienic :
    ciphers.Declared ∧
    (∀ e ∈ ciphers.equations, e.lhs.names = [] ∧ e.rhs.names = []) ∧
    ciphers.normalize (.pair (.var "k") (.app "dec"
        [.app "enc" [.app "enc" [.var "k", .var "m"], .name "n"], .name "n"])) =
      .ok (.pair (.var "k") (.app "enc" [.var "k", .var "m"])) := by
  have nameless : ∀ e ∈ ciphers.equations, e.lhs.names = [] ∧ e.rhs.names = [] := by
    decide +kernel
  obtain ⟨results, -⟩ := normalize_hygienic declared_ciphers.oriented nameless
    (.pair (.var "a") (.app "dec"
      [.app "enc" [.app "enc" [.var "a", .var "b"], .name "s"], .name "s"]))
    (ρ := fun x => if x = "a" then "k" else "m") (r := fun _ => "n")
    (by simp [Set.InjOn, Term.pair]) (by simp [Set.InjOn, Term.pair])
  refine ⟨declared_ciphers, nameless, (results _).mpr ⟨.pair (.var "a")
    (.app "enc" [.var "a", .var "b"]), by decide +kernel, by decide +kernel⟩⟩

end Theory

end ThreatModel
