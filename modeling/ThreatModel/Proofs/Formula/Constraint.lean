import Mathlib
import ThreatModel.Formula.Check

set_option autoImplicit false

namespace ThreatModel

abbrev Valuation := String → Nat

inductive Valuation.Varies : List (String × Nat) → Valuation → Valuation → Prop
  | none (g : Valuation) : Varies [] g g
  | name {x : String} {bound k : Nat} {rest : List (String × Nat)} {g h : Valuation}
      (below : k < bound) (others : Varies rest (Function.update g x k) h) :
      Varies ((x, bound) :: rest) g h

namespace Constraint

variable {bounds : List (String × Nat)} {body : Assignment → Bool} {P : Valuation → Prop}

def Meets (options : List (List (String × Nat))) (g : Valuation) : Prop :=
  ∃ option ∈ options, ∀ pin ∈ option, g pin.1 = pin.2

mutual

def Holds : Constraint → Valuation → Prop
  | .const value, _ => value = true
  | .less x y, g => g x < g y
  | .same x y, g => g x = g y
  | .oneOf options, g => Meets options g
  | .not c, g => ¬ Holds c g
  | .and cs, g => AllHold cs g
  | .or cs, g => OneHolds cs g
  | .implies p c, g => Holds p g → Holds c g
  | .all bounds body, g => ∀ h, Valuation.Varies bounds g h → Holds body h
  | .some bounds body, g => ∃ h, Valuation.Varies bounds g h ∧ Holds body h

def AllHold : List Constraint → Valuation → Prop
  | [], _ => True
  | c :: cs, g => Holds c g ∧ AllHold cs g

def OneHolds : List Constraint → Valuation → Prop
  | [], _ => False
  | c :: cs, g => Holds c g ∨ OneHolds cs g

end

theorem valueOf_cons (x : String) (k : Nat) (a : Assignment) :
    valueOf ((x, k) :: a) = Function.update (valueOf a) x k := by
  funext y
  by_cases same : x = y
  · simp [valueOf, Table.lookup, same]
  · simp [valueOf, Table.lookup, same, Ne.symm same]

theorem forAll_iff (means : ∀ a, body a = true ↔ P (valueOf a)) {a : Assignment} :
    forAll body bounds a = true ↔ ∀ h, Valuation.Varies bounds (valueOf a) h → P h := by
  induction bounds generalizing a with
  | nil =>
    rw [forAll, means]
    constructor
    · rintro holds h ⟨⟩
      exact holds
    · exact fun each => each _ (.none _)
  | cons first rest ih =>
    obtain ⟨x, bound⟩ := first
    simp only [forAll, List.all_eq_true, List.mem_range, ih, valueOf_cons]
    constructor
    · rintro each h (_ | ⟨below, others⟩)
      exact each _ below h others
    · exact fun each k below h others => each h (.name below others)

theorem forSome_iff (means : ∀ a, body a = true ↔ P (valueOf a)) {a : Assignment} :
    forSome body bounds a = true ↔ ∃ h, Valuation.Varies bounds (valueOf a) h ∧ P h := by
  induction bounds generalizing a with
  | nil =>
    rw [forSome, means]
    constructor
    · exact fun holds => ⟨_, .none _, holds⟩
    · rintro ⟨h, ⟨⟩, holds⟩
      exact holds
  | cons first rest ih =>
    obtain ⟨x, bound⟩ := first
    simp only [forSome, List.any_eq_true, List.mem_range, ih, valueOf_cons]
    constructor
    · rintro ⟨k, below, h, others, holds⟩
      exact ⟨h, .name below others, holds⟩
    · rintro ⟨h, _ | ⟨below, others⟩, holds⟩
      exact ⟨_, below, h, others, holds⟩

mutual

theorem holds_iff : ∀ (c : Constraint) (a : Assignment), c.holds a = true ↔ c.Holds (valueOf a)
  | .const value, a => by simp [holds, Holds]
  | .less x y, a => by simp [holds, Holds]
  | .same x y, a => by simp [holds, Holds]
  | .oneOf options, a => by simp [holds, Holds, Meets]
  | .not c, a => by simp [holds, Holds, ← holds_iff c a]
  | .and cs, a => by simp [holds, Holds, ← allHold_iff cs a]
  | .or cs, a => by simp [holds, Holds, ← oneHolds_iff cs a]
  | .implies p c, a => by
    simp only [holds, Holds, ← holds_iff p a, ← holds_iff c a, Bool.or_eq_true, Bool.not_eq_true',
      ← Bool.not_eq_true, imp_iff_not_or]
  | .all bounds body, a => by
    simp only [holds, Holds]
    exact forAll_iff (holds_iff body)
  | .some bounds body, a => by
    simp only [holds, Holds]
    exact forSome_iff (holds_iff body)

theorem allHold_iff : ∀ (cs : List Constraint) (a : Assignment),
    allHold cs a = true ↔ AllHold cs (valueOf a)
  | [], a => by simp [allHold, AllHold]
  | c :: cs, a => by simp [allHold, AllHold, ← holds_iff c a, ← allHold_iff cs a]

theorem oneHolds_iff : ∀ (cs : List Constraint) (a : Assignment),
    oneHolds cs a = true ↔ OneHolds cs (valueOf a)
  | [], a => by simp [oneHolds, OneHolds]
  | c :: cs, a => by simp [oneHolds, OneHolds, ← holds_iff c a, ← oneHolds_iff cs a]

end

end Constraint

namespace Domain

variable {D : Domain} {g h : Valuation} {xs bound : List String}

theorem varies_iff :
    Valuation.Varies (xs.map fun x => (x, D.bound x)) g h ↔
      (∀ x ∈ xs, h x < D.bound x) ∧ ∀ x ∉ xs, h x = g x := by
  induction xs generalizing g with
  | nil =>
    constructor
    · rintro ⟨⟩
      simp
    · rintro ⟨-, same⟩
      obtain rfl : h = g := funext fun x => same x (by simp)
      exact .none h
  | cons x rest ih =>
    constructor
    · rintro (_ | ⟨below, others⟩)
      obtain ⟨bounded, kept⟩ := ih.mp others
      constructor
      · intro y member
        by_cases later : y ∈ rest
        · exact bounded y later
        · obtain rfl : y = x := by simpa [later] using member
          simpa [kept y later] using below
      · intro y absent
        obtain ⟨other, later⟩ : y ≠ x ∧ y ∉ rest := by simpa using absent
        simp [kept y later, other]
    · rintro ⟨bounded, kept⟩
      refine .name (bounded x (by simp)) (ih.mpr ⟨fun y later => bounded y (by simp [later]), ?_⟩)
      intro y later
      by_cases same : y = x
      · simp [same]
      · simp [same, kept y (by simp [same, later])]

end Domain

end ThreatModel
