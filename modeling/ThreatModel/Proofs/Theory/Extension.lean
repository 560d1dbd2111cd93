import Mathlib
import ThreatModel.Proofs.Theory.Substitution

set_option autoImplicit false

namespace ThreatModel

namespace Rewriting

/-- While the one term is evaluated, an equation is looked for that applies to the other one. -/
inductive Visits (equations : List Equation) : Term → Term → Prop
  | root {f : String} {ts args : List Term} (each : List.Forall₂ (Value equations) ts args) :
      Visits equations (.app f ts) (.app f args)
  | argument {f : String} {ts : List Term} {t u : Term} (member : t ∈ ts)
      (inner : Visits equations t u) : Visits equations (.app f ts) u
  | reduct {f : String} {ts args : List Term} {t u : Term}
      (each : List.Forall₂ (Value equations) ts args)
      (rewrites : rewriteRoot? equations (.app f args) = some t) (later : Visits equations t u) :
      Visits equations (.app f ts) u

variable {equations added : List Equation} {next next' : Evaluator} {t u : Term}

theorem Visits.exists_app (visits : Visits equations t u) :
    ∃ f args, u = .app f args ∧ ∀ a ∈ args, Irreducible equations a := by
  induction visits with
  | @root f _ args each => exact ⟨f, args, rfl, irreducible_of_values each⟩
  | argument _ _ ih => exact ih
  | reduct _ _ _ ih => exact ih

theorem Kept.visits {P : Term → Prop} (kept : Kept equations P) (visits : Visits equations t u)
    (holds : P t) : P u := by
  have rebuilt {f : String} {ts args : List Term} (each : List.Forall₂ (Value equations) ts args)
      (holds : P (.app f ts)) : P (.app f args) :=
    kept.rebuilt (each.imp fun _ _ value => kept.value value) holds
  induction visits with
  | root each => exact rebuilt each holds
  | argument member _ ih => exact ih (kept.argument _ _ holds _ member)
  | reduct each rewrites _ ih => exact ih (kept.root (rebuilt each holds) rewrites)

def Untouched (equations added : List Equation) (t : Term) : Prop :=
  ∀ u, Visits equations t u → rewriteRoot? equations u = none → rewriteRoot? added u = none

theorem rewriteRoot?_append (equations added : List Equation) (t : Term) :
    rewriteRoot? (equations ++ added) t =
      (rewriteRoot? equations t).or (rewriteRoot? added t) :=
  List.findSome?_append

theorem Untouched.root {f : String} {ts args : List Term}
    (untouched : Untouched equations added (.app f ts))
    (each : List.Forall₂ (Value equations) ts args) :
    rewriteRoot? (equations ++ added) (.app f args) = rewriteRoot? equations (.app f args) := by
  rw [rewriteRoot?_append]
  cases stands : rewriteRoot? equations (.app f args) with
  | none => exact untouched _ (.root each) stands
  | some r => rfl

mutual

theorem evaluateWith_append
    (values : ∀ left t r left', next left t = .ok (r, left') → Value equations t r)
    (agree : ∀ left t, Untouched equations added t → next' left t = next left t) (left : Nat) :
    ∀ {t : Term}, Untouched equations added t →
      evaluateWith (equations ++ added) next' left t = evaluateWith equations next left t
  | .var _, _ | .const _, _ | .lit _, _ | .name _, _ => by simp only [evaluateWith]
  | .app f ts, untouched => by
    have inner := evaluateAllWith_append values agree left fun t (member : t ∈ ts) u visits =>
      untouched u (.argument member visits)
    simp only [evaluateWith, inner]
    cases done : evaluateAllWith equations next left ts with
    | error last => rfl
    | ok found =>
      obtain ⟨args, left'⟩ := found
      have each := values_of_evaluateAllWith values done
      simp only [untouched.root each]
      cases rewrites : rewriteRoot? equations (.app f args) with
      | none => rfl
      | some r =>
        cases left' with
        | zero => rfl
        | succ left'' =>
          exact agree left'' r fun u visits => untouched u (.reduct each rewrites visits)

theorem evaluateAllWith_append
    (values : ∀ left t r left', next left t = .ok (r, left') → Value equations t r)
    (agree : ∀ left t, Untouched equations added t → next' left t = next left t) (left : Nat) :
    ∀ {ts : List Term}, (∀ t ∈ ts, Untouched equations added t) →
      evaluateAllWith (equations ++ added) next' left ts = evaluateAllWith equations next left ts
  | [], _ => by simp only [evaluateAllWith]
  | t :: ts, each => by
    have head := evaluateWith_append values agree left (each t (by simp))
    simp only [evaluateAllWith, head]
    cases evaluateWith equations next left t with
    | error last => rfl
    | ok found =>
      have tail := evaluateAllWith_append values agree found.2 fun u (member : u ∈ ts) =>
        each u (by simp [member])
      simp only [tail]

end

theorem evaluate_append (depth left : Nat) (untouched : Untouched equations added t) :
    evaluate (equations ++ added) depth left t = evaluate equations depth left t := by
  induction depth generalizing left t with
  | zero => exact evaluateWith_append (by simp) (fun _ _ _ => rfl) left untouched
  | succ depth ih =>
    exact evaluateWith_append (fun _ _ _ _ => value_of_evaluate) (fun left _ => ih left) left
      untouched

end Rewriting

theorem Term.uses_atom {allowed : String → Nat → Prop} {t : Term} (atom : t.isApp = false) :
    t.Uses allowed := by
  intro f args inside
  cases t <;> simp_all [Term.isApp, Term.subterms]

theorem Equation.isApp_skolem (e : Equation) (x : String) : (e.skolem.value x).isApp = false := by
  cases found : e.skolem.find? x with
  | none =>
    rw [Subst.value_of_none found]
    rfl
  | some u =>
    obtain ⟨i, _, entry⟩ := List.mem_mapIdx.mp (Table.mem_entries_of_find? found)
    obtain ⟨-, rfl⟩ := Prod.mk.inj entry
    rw [Subst.value_of_find? found]
    rfl

namespace Theory

open Rewriting Result

variable {T : Theory} {e : Equation} {before after : List Equation}

/-- Both sides of the equation, with a constant of its own for each variable, have the same normal
form. -/
def Alive (T : Theory) (e : Equation) : Prop :=
  ∃ v, T.normalize (e.lhs.subst e.skolem) = .ok v ∧ T.normalize (e.rhs.subst e.skolem) = .ok v

theorem fires_eq_ok_iff {declaration : String} {location : Option Location} :
    T.fires e declaration location = .ok () ↔ T.Alive e := by
  simp only [fires, bind_eq_ok_iff, Alive]
  constructor
  · rintro ⟨left, one, right, other, same⟩
    split at same
    next equal => exact ⟨left, one, equal ▸ other⟩
    next => cases same
  · rintro ⟨v, one, other⟩
    exact ⟨v, one, v, other, by simp⟩

def Vetted (T : Theory) : Prop :=
  ∀ before e after, T.equations = before ++ e :: after →
    ({ T with equations := before ++ [e] } : Theory).Alive e

theorem Vetted.declareEquation {T' : Theory} {lhs rhs : Term} {location : Option Location}
    (vetted : T.Vetted) (done : T.declareEquation lhs rhs location = .ok T') : T'.Vetted := by
  obtain ⟨rfl, -, fired⟩ := exists_of_declareEquation done
  intro before e after place
  rcases List.eq_nil_or_concat after with rfl | ⟨rest, last, rfl⟩
  · obtain ⟨rfl, new⟩ := List.append_inj' place rfl
    obtain rfl := List.singleton_inj.mp new
    exact fires_eq_ok_iff.mp fired
  · have split : T.equations ++ [⟨lhs, rhs⟩] = (before ++ e :: rest) ++ [last] := by
      simpa using place
    exact vetted before e rest (List.append_inj' split rfl).1

theorem Declared.vetted (declared : T.Declared) : T.Vetted := by
  refine declared.of_kept (by simp [Vetted]) ?_ Vetted.declareEquation fun vetted => vetted
  intro T T' f arity location vetted done
  obtain ⟨-, rfl⟩ := exists_of_declareSymbol done
  exact vetted

theorem limitFor_le_of_append (allowing : 0 ≤ T.budget) (split : T.equations = before ++ after)
    (t : Term) : ({ T with equations := before } : Theory).limitFor t ≤ T.limitFor t := by
  rw [limitFor_eq, limitFor_eq, split, List.length_append]
  push_cast
  gcongr
  omega

theorem Oriented.normalize_of_append (oriented : T.Oriented) (allowing : 0 ≤ T.budget)
    (split : T.equations = before ++ after) {t r : Term} (untouched : Untouched before after t)
    (done : ({ T with equations := before } : Theory).normalize t = .ok r) :
    T.normalize t = .ok r := by
  have bound : ∀ d ∈ before, d.Bound := fun d member => (oriented d (by simp [split, member])).bound
  have earlier : ({ T with equations := before } : Theory).Oriented :=
    fun d member => oriented d (by simp [split, member])
  obtain ⟨n, within, value⟩ := (earlier.normalize_eq_ok_iff allowing).mp done
  have limit : (n : Int) ≤ T.limitFor t := within.trans (limitFor_le_of_append allowing split t)
  obtain ⟨left, spare⟩ : ∃ left, (T.limitFor t).toNat = left + n :=
    ⟨(T.limitFor t).toNat - n, by omega⟩
  rw [normalize_eq, spare, split, evaluate_append _ _ untouched,
    evaluate_of_evaluates bound value (left + n) left le_rfl]
  rfl

theorem Declared.alive_of_untouched (declared : T.Declared)
    (place : T.equations = before ++ e :: after)
    (left : Untouched (before ++ [e]) after (e.lhs.subst e.skolem))
    (right : Untouched (before ++ [e]) after (e.rhs.subst e.skolem)) : T.Alive e := by
  have split : T.equations = (before ++ [e]) ++ after := by simpa using place
  have allowing : 0 ≤ T.budget := declared.positive.le
  obtain ⟨v, one, other⟩ := declared.vetted before e after place
  exact ⟨v, declared.oriented.normalize_of_append allowing split left one,
    declared.oriented.normalize_of_append allowing split right other⟩

theorem untouched_of_constructor {equations : List Equation} {added : Theory}
    (bound : ∀ d ∈ equations, d.Bound) (results : ∀ d ∈ equations, added.Constructor d.rhs)
    (oriented : added.Oriented) {t : Term} (built : added.Constructor t) :
    Untouched equations added.equations t := by
  intro u visits _
  have kept : Kept equations (Term.Uses fun f _ => ¬ added.Defines f) := kept_uses bound results
  have uses := kept.visits visits built
  obtain ⟨f, args, rfl, -⟩ := visits.exists_app
  exact oriented.rewriteRoot?_eq_none (uses f args (by simp)) args

theorem constructor_skolem {added : Theory} {t : Term} (built : added.Constructor t) :
    added.Constructor (t.subst e.skolem) := by
  have uses : t.Uses fun f _ => ¬ added.Defines f := built
  rw [Term.subst_eq_under]
  exact uses.under fun x _ => Term.uses_atom (e.isApp_skolem x)

/-- An equation fires when it is declared, and in the end, unless one that came later applies to an
application that was left standing while the two sides were compared. -/
theorem alive_unless_interfered (declared : T.Declared)
    (place : T.equations = before ++ e :: after) :
    let earlier : Theory := { T with equations := before ++ [e] }
    let added : Theory := { T with equations := after }
    earlier.Alive e ∧
    (T.Alive e ∨ ∃ d ∈ after, ∃ u,
      (Visits earlier.equations (e.lhs.subst e.skolem) u ∨
        Visits earlier.equations (e.rhs.subst e.skolem) u) ∧
      rewriteRoot? earlier.equations u = none ∧ ∃ σ : Subst, u = d.lhs.subst σ) ∧
    (added.Constructor e.lhs → (∀ d ∈ earlier.equations, added.Constructor d.rhs) → T.Alive e) := by
  intro earlier added
  refine ⟨declared.vetted before e after place, ?_, fun built results => ?_⟩
  · by_contra! ⟨dead, apart⟩
    refine dead (declared.alive_of_untouched place (fun u visits stands => ?_)
      fun u visits stands => ?_)
    · exact rewriteRoot?_eq_none_iff.mpr fun d member => apart d member u (.inl visits) stands
    · exact rewriteRoot?_eq_none_iff.mpr fun d member => apart d member u (.inr visits) stands
  · have bound : ∀ d ∈ earlier.equations, d.Bound := by
      intro d member
      have among : d ∈ T.equations := by
        rw [place, List.append_cons]
        exact List.mem_append_left after member
      exact (declared.oriented d among).bound
    have oriented : added.Oriented := fun d member =>
      declared.oriented d (by simp [place, show d ∈ after from member])
    exact declared.alive_of_untouched place
      (untouched_of_constructor bound results oriented (constructor_skolem built))
      (untouched_of_constructor bound results oriented
        (constructor_skolem (results e (by simp [earlier]))))

theorem exposedCiphers_alive_unless_interfered :
    exposedCiphers.Declared ∧
    exposedCiphers.equations = [ofFirst, ofSecond, ofDecryption, ofEncryption] ∧
    ({ exposedCiphers with equations := [ofFirst, ofSecond, ofDecryption] } : Theory).Alive
      ofDecryption ∧
    exposedCiphers.Alive ofFirst := by
  have first : exposedCiphers.equations =
      [] ++ ofFirst :: [ofSecond, ofDecryption, ofEncryption] := by decide +kernel
  have third : exposedCiphers.equations =
      [ofFirst, ofSecond] ++ ofDecryption :: [ofEncryption] := by decide +kernel
  obtain ⟨-, -, apart⟩ := alive_unless_interfered declared_exposedCiphers first
  obtain ⟨then_alive, -⟩ := alive_unless_interfered declared_exposedCiphers third
  exact ⟨declared_exposedCiphers, first, then_alive, apart (by decide +kernel) (by decide +kernel)⟩

theorem exposedCiphers_decryption_dead :
    exposedCiphers.Declared ∧ ofDecryption ∈ exposedCiphers.equations ∧
    exposedCiphers.normalize (ofDecryption.lhs.subst ofDecryption.skolem) =
      .ok (.app "dec" [.pair (.const "$sk1") (.const "$sk0"), .const "$sk0"]) ∧
    exposedCiphers.normalize (ofDecryption.rhs.subst ofDecryption.skolem) = .ok (.const "$sk1") ∧
    ¬ exposedCiphers.Alive ofDecryption := by
  have left : exposedCiphers.normalize (ofDecryption.lhs.subst ofDecryption.skolem) =
      .ok (.app "dec" [.pair (.const "$sk1") (.const "$sk0"), .const "$sk0"]) := by decide +kernel
  have right : exposedCiphers.normalize (ofDecryption.rhs.subst ofDecryption.skolem) =
      .ok (.const "$sk1") := by decide +kernel
  refine ⟨declared_exposedCiphers, by decide +kernel, left, right, ?_⟩
  rintro ⟨v, one, other⟩
  rw [left] at one
  rw [right] at other
  cases (Except.ok.inj one).trans (Except.ok.inj other).symm

end Theory

end ThreatModel
