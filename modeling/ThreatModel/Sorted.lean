set_option autoImplicit false

namespace ThreatModel.Sorted

variable {α : Type} [LT α] [DecidableLT α] [DecidableEq α]

def insert (x : α) : List α → List α
  | [] => [x]
  | y :: ys =>
      if x = y then y :: ys
      else if x < y then x :: y :: ys
      else y :: insert x ys

def ofList (xs : List α) : List α := xs.foldr insert []

@[simp] theorem mem_insert (a x : α) (xs : List α) : a ∈ insert x xs ↔ a = x ∨ a ∈ xs := by
  induction xs with
  | nil => simp [insert]
  | cons y ys ih =>
      by_cases same : x = y
      · simp [insert, same]
      · by_cases less : x < y
        · simp [insert, same, less]
        · simp only [insert, same, less, ↓reduceIte, List.mem_cons, ih]
          exact or_left_comm

@[simp] theorem mem_ofList (a : α) (xs : List α) : a ∈ ofList xs ↔ a ∈ xs := by
  induction xs with
  | nil => simp [ofList]
  | cons x xs ih =>
      have step : ofList (x :: xs) = insert x (ofList xs) := rfl
      rw [step, mem_insert, ih, List.mem_cons]

end ThreatModel.Sorted
