import Mathlib
import ThreatModel.Theory.Declare
import ThreatModel.Proofs.Theory.WellFormed

set_option autoImplicit false

namespace ThreatModel

open Result

namespace Theory

variable {T : Theory} {f : String}

theorem misuse?_eq_none_iff {t : Term} :
    T.misuse? t = none ↔
      ∀ f args, Term.app f args ∈ t.subterms → T.symbols.find? f = some args.length := by
  rw [misuse?, List.findSome?_eq_none_iff]
  refine ⟨fun each f args inside => ?_, fun each s inside => ?_⟩
  · have here := each _ inside
    cases known : T.symbols.find? f with
    | none => simp [known] at here
    | some arity => simpa [known] using here
  · cases s with
    | app f args => simp [each f args inside]
    | _ => rfl

theorem checkTerm_eq_ok_iff {t : Term} {declaration : Option String} {location : Option Location}
    {done : Unit} : T.checkTerm t declaration location = .ok done ↔ T.misuse? t = none := by
  rw [checkTerm]
  cases T.misuse? t <;> simp

end Theory

/-- What a theory asks of an equation before it takes it. -/
structure Equation.Accepted (T : Theory) (e : Equation) : Prop extends e.Oriented where
  left : T.misuse? e.lhs = none
  right : T.misuse? e.rhs = none

theorem Equation.Accepted.mono {T T' : Theory} {e : Equation} (accepted : e.Accepted T)
    (more : ∀ f n, T.symbols.find? f = some n → T'.symbols.find? f = some n) : e.Accepted T' := by
  have known {t : Term} (before : T.misuse? t = none) : T'.misuse? t = none :=
    Theory.misuse?_eq_none_iff.mpr fun f args inside =>
      more f _ (Theory.misuse?_eq_none_iff.mp before f args inside)
  exact ⟨accepted.toOriented, known accepted.left, known accepted.right⟩

namespace Theory

variable {T T' : Theory} {f : String} {arity : Int} {lhs rhs : Term} {location : Option Location}

theorem exists_of_declareSymbol (done : T.declareSymbol f arity location = .ok T') :
    T.symbols.find? f = none ∧ T' = { T with symbols := T.symbols.insert f arity.toNat } := by
  simp only [declareSymbol] at done
  split at done
  next => simp at done
  next =>
    split at done
    next => simp at done
    next unknown =>
      split at done
      next => simp at done
      next => exact ⟨unknown, (Except.ok.inj done).symm⟩

theorem exists_of_declareEquation (done : T.declareEquation lhs rhs location = .ok T') :
    T' = { T with equations := T.equations ++ [⟨lhs, rhs⟩] } ∧
      (Equation.mk lhs rhs).Accepted T ∧
      T'.fires ⟨lhs, rhs⟩ (Equation.mk lhs rhs).text location = .ok () := by
  simp only [declareEquation, throw_bind, ite_throw_eq_ok_iff, bind_eq_ok_iff, pure_eq_ok_iff,
    lift_eq_ok_iff, checkTerm_eq_ok_iff] at done
  obtain ⟨-, _, left, _, right, applied, bound, _, fired, rfl⟩ := done
  refine ⟨rfl, ⟨⟨by simpa using applied, ?_⟩, left, right⟩, fired⟩
  simpa [Equation.Bound, List.isEmpty_iff] using bound

def Consistent (T : Theory) : Prop := ∀ e ∈ T.equations, e.Accepted T

theorem Consistent.declareSymbol (consistent : T.Consistent)
    (done : T.declareSymbol f arity location = .ok T') : T'.Consistent := by
  obtain ⟨unknown, rfl⟩ := exists_of_declareSymbol done
  refine fun e member => (consistent e member).mono fun g n known => ?_
  -- The new symbol is none that an equation could have used.
  rw [Table.find?_insert, if_neg, known]
  rintro rfl
  simp [unknown] at known

theorem Consistent.declareEquation (consistent : T.Consistent)
    (done : T.declareEquation lhs rhs location = .ok T') : T'.Consistent := by
  obtain ⟨rfl, accepted, -⟩ := exists_of_declareEquation done
  intro e member
  refine Equation.Accepted.mono (T := T) ?_ fun _ _ known => known
  rcases List.mem_append.mp member with old | new
  · exact consistent e old
  · exact List.mem_singleton.mp new ▸ accepted

theorem WellFormed.declareSymbol (sound : T.WellFormed)
    (done : T.declareSymbol f arity location = .ok T') : T'.WellFormed := by
  obtain ⟨-, rfl⟩ := exists_of_declareSymbol done
  exact sound

theorem WellFormed.declareEquation (sound : T.WellFormed)
    (nameless : lhs.names = [] ∧ rhs.names = [])
    (done : T.declareEquation lhs rhs location = .ok T') : T'.WellFormed := by
  obtain ⟨rfl, accepted, -⟩ := exists_of_declareEquation done
  intro e member
  rcases List.mem_append.mp member with old | new
  · exact sound e old
  · obtain rfl : e = ⟨lhs, rhs⟩ := by simpa using new
    exact ⟨accepted.toOriented, nameless⟩

theorem wellFormed_ofBudget {budget : Int} (done : ofBudget budget = .ok T) : T.WellFormed := by
  simp only [ofBudget, bind_eq_ok_iff] at done
  obtain ⟨T₁, h₁, T₂, h₂, T₃, h₃, T₄, h₄, h₅⟩ := done
  have start : ({ budget } : Theory).WellFormed := by simp [WellFormed]
  have paired := ((start.declareSymbol h₁).declareSymbol h₂).declareSymbol h₃
  exact (paired.declareEquation (by simp [Term.pair]) h₄).declareEquation (by simp [Term.pair]) h₅

inductive Declared : Theory → Prop
  | start {budget : Int} {T : Theory} (done : ofBudget budget = .ok T) : Declared T
  | symbol {T T' : Theory} {f : String} {arity : Int} {location : Option Location}
      (declared : Declared T) (done : T.declareSymbol f arity location = .ok T') : Declared T'
  | equation {T T' : Theory} {lhs rhs : Term} {location : Option Location}
      (declared : Declared T) (done : T.declareEquation lhs rhs location = .ok T') : Declared T'
  | close {T : Theory} (declared : Declared T) : Declared T.close

theorem Declared.of_kept {P : Theory → Prop} (empty : ∀ budget, P { budget })
    (symbol : ∀ {T T' : Theory} {f : String} {arity : Int} {location : Option Location},
      P T → T.declareSymbol f arity location = .ok T' → P T')
    (equation : ∀ {T T' : Theory} {lhs rhs : Term} {location : Option Location},
      P T → T.declareEquation lhs rhs location = .ok T' → P T')
    (close : ∀ {T : Theory}, P T → P T.close) (declared : T.Declared) : P T := by
  induction declared with
  | start done =>
    -- The pairs are declared as everything else is.
    simp only [ofBudget, bind_eq_ok_iff] at done
    obtain ⟨T₁, h₁, T₂, h₂, T₃, h₃, T₄, h₄, h₅⟩ := done
    exact equation (equation (symbol (symbol (symbol (empty _) h₁) h₂) h₃) h₄) h₅
  | symbol _ done ih => exact symbol ih done
  | equation _ done ih => exact equation ih done
  | close _ ih => exact close ih

theorem Declared.consistent (declared : T.Declared) : T.Consistent := by
  refine declared.of_kept (by simp [Consistent]) Consistent.declareSymbol
    Consistent.declareEquation ?_
  exact fun consistent e member => (consistent e member).mono fun _ _ known => known

theorem Declared.oriented (declared : T.Declared) : T.Oriented :=
  fun e member => (declared.consistent e member).toOriented

theorem Declared.vars_normalize (declared : T.Declared) {t r : Term}
    (done : T.normalize t = .ok r) : ∀ x ∈ r.vars, x ∈ t.vars :=
  kept_of_normalize
    (Rewriting.kept_vars (fun e member => (declared.consistent e member).bound) (· ∈ t.vars))
    (fun _ inside => inside) done

theorem Consistent.kept (consistent : T.Consistent) :
    Rewriting.Kept T.equations fun t => T.misuse? t = none := by
  have results : ∀ e ∈ T.equations, e.rhs.Uses fun f n => T.symbols.find? f = some n :=
    fun e member => misuse?_eq_none_iff.mp (consistent e member).right
  simp only [misuse?_eq_none_iff]
  exact Rewriting.kept_uses (fun e member => (consistent e member).bound) results

theorem Declared.misuse?_normalize (declared : T.Declared) {t r : Term}
    (known : T.misuse? t = none) (done : T.normalize t = .ok r) : T.misuse? r = none :=
  kept_of_normalize declared.consistent.kept known done

end Theory

end ThreatModel
