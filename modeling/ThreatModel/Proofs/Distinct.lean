import Mathlib

set_option autoImplicit false

namespace ThreatModel

variable {α : Type} [BEq α]

@[elab_as_elim]
theorem eraseDups_induction {motive : List α → Prop} (nil : motive [])
    (cons : ∀ x rest, motive (rest.filter fun y => !y == x) → motive (x :: rest))
    (xs : List α) : motive xs := by
  cases xs with
  | nil => exact nil
  | cons x rest =>
    exact cons x rest (eraseDups_induction nil cons (rest.filter fun y => !y == x))
termination_by xs.length
decreasing_by exact Nat.lt_succ_of_le (List.length_filter_le _ _)

theorem nodup_eraseDups [LawfulBEq α] (xs : List α) : xs.eraseDups.Nodup := by
  induction xs using eraseDups_induction with
  | nil => simp
  | cons x rest ih =>
    rw [List.eraseDups_cons, List.nodup_cons]
    exact ⟨by simp, ih⟩

theorem eraseDups_map {β : Type} [BEq β] [LawfulBEq α] [LawfulBEq β] {f : α → β}
    (distinct : Function.Injective f) (xs : List α) :
    (xs.map f).eraseDups = xs.eraseDups.map f := by
  induction xs using eraseDups_induction with
  | nil => simp
  | cons x rest ih =>
    have others : (rest.map f).filter (fun y => !y == f x) =
        (rest.filter fun y => !y == x).map f := by
      rw [List.filter_map]
      congr 1
      refine List.filter_congr fun y _ => ?_
      rw [Function.comp_apply, Bool.eq_iff_iff]
      simp [distinct.eq_iff]
    rw [List.map_cons, List.eraseDups_cons, List.eraseDups_cons, List.map_cons, others, ih]

theorem filter_eraseDups [LawfulBEq α] (q : α → Bool) (xs : List α) :
    xs.eraseDups.filter q = (xs.filter q).eraseDups := by
  induction xs using eraseDups_induction with
  | nil => rfl
  | cons x rest ih =>
    rw [List.eraseDups_cons, List.filter_cons, List.filter_cons, ih]
    split
    next =>
      rw [List.eraseDups_cons, List.filter_filter, List.filter_filter]
      simp only [Bool.and_comm]
    next out =>
      -- What passes the filter is not the element that does not.
      rw [List.filter_filter]
      congr 1
      refine List.filter_congr fun y _ => ?_
      by_cases same : y = x <;> simp [same, out]

end ThreatModel
