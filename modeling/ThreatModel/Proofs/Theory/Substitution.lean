import Mathlib
import ThreatModel.Proofs.Theory.Confluence

set_option autoImplicit false

namespace ThreatModel

namespace Rewriting

variable {equations : List Equation} {v : Term}

theorem value_under_iff {t : Term} {g h : String → Term}
    (values : ∀ x ∈ t.vars, Value equations (g x) (h x)) :
    Value equations (t.under g) v ↔ Value equations (t.under h) v := by
  induction t using Term.induct generalizing v with
  | var x =>
    have value : Value equations (g x) (h x) := values x (by simp)
    have settled : Value equations (h x) (h x) := value.irreducible.value
    constructor
    · intro before
      exact before.unique value ▸ settled
    · intro after
      exact after.unique settled ▸ value
  | const | lit | name => rfl
  | app f args ih =>
    -- The arguments come to the same values, and only these matter at the root.
    have each (us : List Term) :
        List.Forall₂ (fun t v => Value equations (t.under g) v) args us ↔
          List.Forall₂ (fun t v => Value equations (t.under h) v) args us := by
      have inner (t : Term) (member : t ∈ args) (v : Term) :
          Value equations (t.under g) v ↔ Value equations (t.under h) v :=
        ih t member fun x inside => values x (by simpa using ⟨t, member, inside⟩)
      clear ih values
      induction args generalizing us with
      | nil => simp
      | cons t ts rest =>
        simp only [List.forall₂_cons_left_iff, inner t (by simp),
          rest _ fun u member => inner u (by simp [member])]
    simp only [Term.under_app, value_app_iff, List.forall₂_map_left_iff, each]

end Rewriting

namespace Theory

open Rewriting

/-- What a term comes to with values put in for its variables, it comes to with the normal forms of
these values. -/
theorem normalize_subst_normalized (T : Theory) (t : Term) (σ σ' : Subst) {r r' : Term}
    (values : ∀ x ∈ t.vars,
      Option.Rel (fun u v => T.normalize u = .ok v) (σ.find? x) (σ'.find? x))
    (before : T.normalize (t.subst σ) = .ok r) (after : T.normalize (t.subst σ') = .ok r') :
    r = r' := by
  have each : ∀ x ∈ t.vars, Value T.equations (σ.value x) (σ'.value x) := by
    intro x inside
    have related := values x inside
    simp only [Subst.value]
    generalize σ.find? x = found, σ'.find? x = found' at related ⊢
    cases related with
    | none => exact .atom rfl
    | some done => exact value_of_normalize done
  have first := value_of_normalize before
  have second := value_of_normalize after
  rw [Term.subst_eq_under] at first second
  exact ((value_under_iff each).mp first).unique second

def ofDecryption : Equation :=
  ⟨.app "dec" [.app "enc" [.var "m", .var "k"], .var "k"], .var "m"⟩

def ofEncryption : Equation := ⟨.app "enc" [.var "m", .var "k"], .pair (.var "m") (.var "k")⟩

def exposedCiphers : Theory := (Request.equation ofEncryption none).serve ciphers

theorem declared_exposedCiphers : exposedCiphers.Declared := declared_ciphers.serve _

theorem not_confluent_exposedCiphers : ¬ Confluent exposedCiphers.equations := by
  intro confluent
  have decrypts : Rewrites exposedCiphers.equations
      (.app "dec" [.app "enc" [.var "m", .var "k"], .var "k"]) (.var "m") :=
    .root (e := ofDecryption) (by decide +kernel) .empty rfl rfl
  have exposes : Rewrites exposedCiphers.equations
      (.app "enc" [.var "m", .var "k"]) (.pair (.var "m") (.var "k")) :=
    .root (e := ofEncryption) (by decide +kernel) .empty rfl rfl
  have convertible : Convertible exposedCiphers.equations (.var "m")
      (.app "dec" [.pair (.var "m") (.var "k"), .var "k"]) :=
    .trans _ _ _ (.symm _ _ (.rel _ _ decrypts))
      (.rel _ _ (.inside "dec" [] [.var "k"] exposes))
  have same := declared_exposedCiphers.oriented.eq_of_convertible confluent
    (normal_of_normalize (t := .var "m") (by decide +kernel))
    (normal_of_normalize (t := .app "dec" [.pair (.var "m") (.var "k"), .var "k"])
      (by decide +kernel)) convertible
  cases same

theorem normalize_exposedCiphers_subst :
    exposedCiphers.Declared ∧ ¬ Confluent exposedCiphers.equations ∧
    exposedCiphers.normalize (.app "enc" [.var "a", .const "k"]) =
      .ok (.pair (.var "a") (.const "k")) ∧
    (exposedCiphers.normalize
      (.app "dec" [.app "enc" [.var "a", .const "k"], .const "k"])).isOk = true ∧
    (exposedCiphers.normalize
      (.app "dec" [.pair (.var "a") (.const "k"), .const "k"])).isOk = true ∧
    ∀ r r',
      exposedCiphers.normalize
        (.app "dec" [.app "enc" [.var "a", .const "k"], .const "k"]) = .ok r →
      exposedCiphers.normalize (.app "dec" [.pair (.var "a") (.const "k"), .const "k"]) = .ok r' →
      r = r' := by
  have value : exposedCiphers.normalize (.app "enc" [.var "a", .const "k"]) =
      .ok (.pair (.var "a") (.const "k")) := by decide +kernel
  refine ⟨declared_exposedCiphers, not_confluent_exposedCiphers, value, by decide +kernel,
    by decide +kernel, fun r r' before after => ?_⟩
  refine normalize_subst_normalized exposedCiphers (.app "dec" [.var "y", .const "k"])
    (.single "y" (.app "enc" [.var "a", .const "k"]))
    (.single "y" (.pair (.var "a") (.const "k"))) (fun x inside => ?_) before after
  obtain rfl : x = "y" := by simpa using inside
  exact .some value

end Theory

end ThreatModel
