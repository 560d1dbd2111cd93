import Mathlib
import ThreatModel.Diagnostic.Fault

set_option autoImplicit false

namespace ThreatModel.Result

variable {ε α β : Type} {a : α} {e : ε} {f : α → Except ε β} {x : Except ε α} {xs ys kept : List α}
  {R : α → β → Prop} {p : α → Except ε Bool} {q : β → Except ε Bool}

@[simp] theorem pure_eq_ok_iff {b : α} : (pure a : Except ε α) = .ok b ↔ a = b := by
  simp [pure, Except.pure]

@[simp] theorem pure_ne_error : (pure a : Except ε α) ≠ .error e := by
  simp [pure, Except.pure]

@[simp] theorem throw_ne_ok : (throw e : Except ε α) ≠ .ok a := by
  simp [throw, throwThe, MonadExceptOf.throw]

@[simp] theorem throw_eq_error_iff {f : ε} : (throw e : Except ε α) = .error f ↔ e = f := by
  simp [throw, throwThe, MonadExceptOf.throw]

theorem bind_eq_ok_iff {b : β} : x >>= f = .ok b ↔ ∃ a, x = .ok a ∧ f a = .ok b := by
  cases x <;> simp [bind, Except.bind]

theorem bind_eq_error_iff :
    x >>= f = .error e ↔ x = .error e ∨ ∃ a, x = .ok a ∧ f a = .error e := by
  cases x <;> simp [bind, Except.bind]

@[simp] theorem ok_bind : (Except.ok a >>= f) = f a := rfl

@[simp] theorem throw_bind : (throw e >>= f) = throw e := rfl

theorem ite_throw_eq_ok_iff {c : Prop} [Decidable c] :
    (if c then throw e else x) = .ok a ↔ ¬ c ∧ x = .ok a := by
  split <;> simp_all

@[simp] theorem lift_ok : (liftM (Except.ok a : Except Diagnostic α) : Result α) = .ok a := rfl

@[simp] theorem lift_eq_ok_iff {x : Except Diagnostic α} :
    (liftM x : Result α) = .ok a ↔ x = .ok a :=
  Result.ofFlaw_eq_ok_iff x a

theorem lift_eq_error_iff {x : Except Diagnostic α} {e : Fault} :
    (liftM x : Result α) = .error e ↔ ∃ d, x = .error d ∧ e = .flaw d := by
  change Result.ofFlaw x = .error e ↔ _
  cases x <;> simp [Result.ofFlaw, eq_comm]

theorem mapM_eq_ok_iff {ys : List β} :
    xs.mapM f = .ok ys ↔ List.Forall₂ (fun x y => f x = .ok y) xs ys := by
  induction xs generalizing ys with
  | nil => cases ys <;> simp
  | cons x xs ih =>
    simp only [List.mapM_cons, bind_eq_ok_iff, pure_eq_ok_iff, List.forall₂_cons_left_iff, ih]
    constructor
    · rintro ⟨y, hy, rest, hrest, rfl⟩
      exact ⟨y, rest, hy, hrest, rfl⟩
    · rintro ⟨y, rest, hy, hrest, rfl⟩
      exact ⟨y, hy, rest, hrest, rfl⟩

theorem exists_of_forall₂ {ys : List β} {x : α} (each : List.Forall₂ R xs ys) (member : x ∈ xs) :
    ∃ y ∈ ys, R x y := by
  induction each with
  | nil => simp at member
  | @cons x' y xs ys head _ ih =>
    rcases List.mem_cons.mp member with rfl | later
    · exact ⟨y, by simp, head⟩
    · obtain ⟨y', member', h⟩ := ih later
      exact ⟨y', by simp [member'], h⟩

theorem mem_of_mapM_eq_ok {ys : List β} {y : β} (done : xs.mapM f = .ok ys) (member : y ∈ ys) :
    ∃ x ∈ xs, f x = .ok y :=
  exists_of_forall₂ (mapM_eq_ok_iff.mp done).flip member

theorem exists_of_mapM_eq_ok {ys : List β} {x : α} (done : xs.mapM f = .ok ys) (member : x ∈ xs) :
    ∃ y ∈ ys, f x = .ok y :=
  exists_of_forall₂ (mapM_eq_ok_iff.mp done) member

theorem exists_mapM_eq_ok (each : ∀ x ∈ xs, ∃ y, f x = .ok y) : ∃ ys, xs.mapM f = .ok ys := by
  induction xs with
  | nil => exact ⟨[], by simp⟩
  | cons x xs ih =>
    obtain ⟨y, hy⟩ := each x (by simp)
    obtain ⟨ys, hys⟩ := ih fun x' member => each x' (by simp [member])
    exact ⟨y :: ys, by simp [List.mapM_cons, hy, hys]⟩

theorem mapM_eq_error (failed : xs.mapM f = .error e) : ∃ x ∈ xs, f x = .error e := by
  induction xs with
  | nil => simp at failed
  | cons x xs ih =>
    simp only [List.mapM_cons, bind_eq_error_iff, pure_ne_error, and_false, exists_false,
      or_false] at failed
    rcases failed with here | ⟨y, -, later⟩
    · exact ⟨x, by simp, here⟩
    · obtain ⟨x', member, holds⟩ := ih later
      exact ⟨x', by simp [member], holds⟩

theorem mem_filterAuxM (done : xs.filterAuxM p kept = .ok ys) (y : α) :
    y ∈ ys ↔ (y ∈ xs ∧ p y = .ok true) ∨ y ∈ kept := by
  induction xs generalizing kept with
  | nil =>
    obtain rfl : kept = ys := by simpa [List.filterAuxM] using done
    simp
  | cons x xs ih =>
    simp only [List.filterAuxM, bind_eq_ok_iff] at done
    obtain ⟨verdict, judged, done⟩ := done
    rw [ih done]
    cases verdict with
    | true =>
      simp only [cond_true, List.mem_cons]
      constructor
      · rintro (⟨member, holds⟩ | rfl | member)
        · exact .inl ⟨.inr member, holds⟩
        · exact .inl ⟨.inl rfl, judged⟩
        · exact .inr member
      · rintro (⟨rfl | member, holds⟩ | member)
        · exact .inr (.inl rfl)
        · exact .inl ⟨member, holds⟩
        · exact .inr (.inr member)
    | false =>
      simp only [cond_false, List.mem_cons]
      constructor
      · rintro (⟨member, holds⟩ | member)
        · exact .inl ⟨.inr member, holds⟩
        · exact .inr member
      · rintro (⟨rfl | member, holds⟩ | member)
        · simp [judged] at holds
        · exact .inl ⟨member, holds⟩
        · exact .inr member

theorem mem_filterM_iff (done : xs.filterM p = .ok ys) (y : α) :
    y ∈ ys ↔ y ∈ xs ∧ p y = .ok true := by
  simp only [List.filterM, bind_eq_ok_iff, pure_eq_ok_iff] at done
  obtain ⟨reversed, filtered, rfl⟩ := done
  simpa using mem_filterAuxM filtered y

theorem exists_of_filterAuxM (done : xs.filterAuxM p kept = .ok ys) :
    ∀ x ∈ xs, ∃ verdict, p x = .ok verdict := by
  induction xs generalizing kept with
  | nil => simp
  | cons x xs ih =>
    simp only [List.filterAuxM, bind_eq_ok_iff] at done
    obtain ⟨verdict, judged, done⟩ := done
    exact List.forall_mem_cons.mpr ⟨⟨verdict, judged⟩, ih done⟩

theorem exists_of_filterM_eq_ok (done : xs.filterM p = .ok ys) :
    ∀ x ∈ xs, ∃ verdict, p x = .ok verdict := by
  simp only [List.filterM, bind_eq_ok_iff] at done
  obtain ⟨reversed, filtered, -⟩ := done
  exact exists_of_filterAuxM filtered

theorem filterM_eq_nil (done : xs.filterM p = .ok []) {x : α} (member : x ∈ xs) :
    p x = .ok false := by
  have dropped (holds : p x = .ok true) : False := by
    simpa using (mem_filterM_iff done x).mpr ⟨member, holds⟩
  obtain ⟨verdict, judged⟩ := exists_of_filterM_eq_ok done x member
  cases verdict with
  | false => exact judged
  | true => exact (dropped judged).elim

theorem filterAuxM_eq_error (failed : xs.filterAuxM p kept = .error e) :
    ∃ x ∈ xs, p x = .error e := by
  induction xs generalizing kept with
  | nil => simp [List.filterAuxM] at failed
  | cons x xs ih =>
    simp only [List.filterAuxM, bind_eq_error_iff] at failed
    rcases failed with here | ⟨verdict, -, later⟩
    · exact ⟨x, by simp, here⟩
    · obtain ⟨x', member, holds⟩ := ih later
      exact ⟨x', by simp [member], holds⟩

theorem filterM_eq_error (failed : xs.filterM p = .error e) : ∃ x ∈ xs, p x = .error e := by
  simp only [List.filterM, bind_eq_error_iff, pure_ne_error, and_false, exists_false,
    or_false] at failed
  exact filterAuxM_eq_error failed

theorem allM_eq_error (failed : xs.allM p = .error e) : ∃ x ∈ xs, p x = .error e := by
  induction xs with
  | nil => simp [List.allM] at failed
  | cons x xs ih =>
    simp only [List.allM, bind_eq_error_iff] at failed
    rcases failed with here | ⟨verdict, -, later⟩
    · exact ⟨x, by simp, here⟩
    · cases verdict with
      | false => simp at later
      | true =>
        obtain ⟨x', member, holds⟩ := ih later
        exact ⟨x', by simp [member], holds⟩

theorem anyM_eq_error (failed : xs.anyM p = .error e) : ∃ x ∈ xs, p x = .error e := by
  induction xs with
  | nil => simp [List.anyM] at failed
  | cons x xs ih =>
    simp only [List.anyM, bind_eq_error_iff] at failed
    rcases failed with here | ⟨verdict, -, later⟩
    · exact ⟨x, by simp, here⟩
    · cases verdict with
      | true => simp at later
      | false =>
        obtain ⟨x', member, holds⟩ := ih later
        exact ⟨x', by simp [member], holds⟩

theorem allM_map {g : α → β} {b : Bool} (same : ∀ x ∈ xs, ∀ b, p x = .ok b → q (g x) = .ok b)
    (done : xs.allM p = .ok b) : (xs.map g).allM q = .ok b := by
  induction xs with
  | nil => exact done
  | cons x xs ih =>
    simp only [List.map_cons, List.allM, bind_eq_ok_iff] at done ⊢
    obtain ⟨verdict, judged, done⟩ := done
    refine ⟨verdict, same x (by simp) verdict judged, ?_⟩
    cases verdict with
    | false => exact done
    | true => exact ih (fun x member => same x (by simp [member])) done

theorem anyM_map {g : α → β} {b : Bool} (same : ∀ x ∈ xs, ∀ b, p x = .ok b → q (g x) = .ok b)
    (done : xs.anyM p = .ok b) : (xs.map g).anyM q = .ok b := by
  induction xs with
  | nil => exact done
  | cons x xs ih =>
    simp only [List.map_cons, List.anyM, bind_eq_ok_iff] at done ⊢
    obtain ⟨verdict, judged, done⟩ := done
    refine ⟨verdict, same x (by simp) verdict judged, ?_⟩
    cases verdict with
    | true => exact done
    | false => exact ih (fun x member => same x (by simp [member])) done

theorem filterAuxM_forall₂ {xs' kept' : List β} (alike : List.Forall₂ R xs xs')
    (before : List.Forall₂ R kept kept') (same : ∀ x x' b, R x x' → p x = .ok b → q x' = .ok b)
    (done : xs.filterAuxM p kept = .ok ys) :
    ∃ ys', xs'.filterAuxM q kept' = .ok ys' ∧ List.Forall₂ R ys ys' := by
  induction alike generalizing kept kept' with
  | nil =>
    obtain rfl : kept = ys := by simpa [List.filterAuxM] using done
    exact ⟨kept', rfl, before⟩
  | @cons x x' xs xs' pair _ ih =>
    simp only [List.filterAuxM, bind_eq_ok_iff] at done
    obtain ⟨verdict, judged, done⟩ := done
    simp only [List.filterAuxM, same x x' verdict pair judged, ok_bind]
    cases verdict with
    | true => exact ih (.cons pair before) done
    | false => exact ih before done

theorem filterM_forall₂ {xs' : List β} (alike : List.Forall₂ R xs xs')
    (same : ∀ x x' b, R x x' → p x = .ok b → q x' = .ok b) (done : xs.filterM p = .ok ys) :
    ∃ ys', xs'.filterM q = .ok ys' ∧ List.Forall₂ R ys ys' := by
  simp only [List.filterM, bind_eq_ok_iff, pure_eq_ok_iff] at done ⊢
  obtain ⟨reversed, filtered, rfl⟩ := done
  obtain ⟨reversed', filtered', pairs⟩ := filterAuxM_forall₂ alike .nil same filtered
  exact ⟨reversed'.reverse, ⟨reversed', filtered', rfl⟩, List.rel_reverse pairs⟩

end ThreatModel.Result
