import Mathlib
import ThreatModel.Proofs.Term.Matching

set_option autoImplicit false

namespace ThreatModel

theorem dot_not_mem_toDigits (n : Nat) : '.' ∉ Nat.toDigits 10 n := by
  intro member
  have digit := Nat.isDigit_of_mem_toDigits (by omega) (by omega) member
  simp at digit

theorem numbered_injective {x y : String} {m n : Nat} (same : s!"{x}.{m}" = s!"{y}.{n}") :
    x = y ∧ m = n := by
  have texts : x.toList ++ '.' :: Nat.toDigits 10 m = y.toList ++ '.' :: Nat.toDigits 10 n := by
    have dot : (toString ".").toList = ['.'] := rfl
    simpa [Nat.toList_repr, dot, toString] using congrArg String.toList same
  -- No digit is a point, so the number begins after the last one.
  have split : x.toList = y.toList ∧ Nat.toDigits 10 m = Nat.toDigits 10 n := by
    rcases List.append_eq_append_iff.mp texts with ⟨more, names, numbers⟩ | ⟨more, names, numbers⟩
    · cases more with
      | nil => simp_all
      | cons c rest =>
        obtain ⟨rfl, digits⟩ := List.cons.inj numbers
        exact absurd (digits ▸ by simp : '.' ∈ Nat.toDigits 10 m) (dot_not_mem_toDigits m)
    · cases more with
      | nil => simp_all
      | cons c rest =>
        obtain ⟨rfl, digits⟩ := List.cons.inj numbers
        exact absurd (digits ▸ by simp : '.' ∈ Nat.toDigits 10 n) (dot_not_mem_toDigits n)
  refine ⟨String.toList_inj.mp split.1, ?_⟩
  rw [← Nat.repr_inj, Nat.repr_eq_ofList_toDigits, Nat.repr_eq_ofList_toDigits, split.2]

end ThreatModel

namespace ThreatModel.Term

mutual

def names : Term → List String
  | .name n => [n]
  | .app _ args => namesAll args
  | _ => []

def namesAll : List Term → List String
  | [] => []
  | t :: ts => names t ++ namesAll ts

end

theorem namesAll_eq_flatMap (ts : List Term) : namesAll ts = ts.flatMap names := by
  induction ts with
  | nil => rfl
  | cons t ts ih => simp [namesAll, ih]

@[simp] theorem names_var (x : String) : (Term.var x).names = [] := rfl

@[simp] theorem names_const (c : String) : (Term.const c).names = [] := rfl

@[simp] theorem names_lit (s : String) : (Term.lit s).names = [] := rfl

@[simp] theorem names_name (n : String) : (Term.name n).names = [n] := rfl

@[simp] theorem names_app (f : String) (args : List Term) :
    (Term.app f args).names = args.flatMap names :=
  namesAll_eq_flatMap args

theorem mem_names_under {g : String → Term} {t : Term} {n : String} :
    n ∈ (t.under g).names ↔ n ∈ t.names ∨ ∃ x ∈ t.vars, n ∈ (g x).names := by
  induction t using Term.induct with
  | var | const | lit | name => simp
  | app f args ih =>
    simp only [under_app, names_app, vars_app, List.mem_flatMap, List.mem_map,
      exists_exists_and_eq_and]
    constructor
    · rintro ⟨t, member, inside⟩
      rcases (ih t member).mp inside with own | ⟨x, hx, hn⟩
      · exact Or.inl ⟨t, member, own⟩
      · exact Or.inr ⟨x, ⟨t, member, hx⟩, hn⟩
    · rintro (⟨t, member, own⟩ | ⟨x, ⟨t, member, hx⟩, hn⟩)
      · exact ⟨t, member, (ih t member).mpr (Or.inl own)⟩
      · exact ⟨t, member, (ih t member).mpr (Or.inr ⟨x, hx, hn⟩)⟩

theorem mem_names_of_subterm {s t : Term} (inside : s ∈ t.subterms) {n : String}
    (occurs : n ∈ s.names) : n ∈ t.names := by
  refine of_subterm (P := (n ∈ names ·)) inside occurs fun f args t member deeper => ?_
  rw [names_app, List.mem_flatMap]
  exact ⟨t, member, deeper⟩

theorem mem_vars_of_subterm {s t : Term} (inside : s ∈ t.subterms) {x : String}
    (occurs : x ∈ s.vars) : x ∈ t.vars := by
  refine of_subterm (P := (x ∈ vars ·)) inside occurs fun f args t member deeper => ?_
  rw [vars_app, List.mem_flatMap]
  exact ⟨t, member, deeper⟩

theorem of_tuple? {P : List Term → Term → Prop} {ts : List Term} {t : Term}
    (made : tuple? ts = some t) (one : ∀ t, P [t] t)
    (more : ∀ s ts u, P ts u → P (s :: ts) (pair s u)) : P ts t := by
  induction ts generalizing t with
  | nil => simp [tuple?] at made
  | cons s rest ih =>
    cases rest with
    | nil =>
      obtain rfl : s = t := by simpa [tuple?] using made
      exact one s
    | cons s' rest =>
      obtain ⟨u, tail, rfl⟩ : ∃ u, tuple? (s' :: rest) = some u ∧ pair s u = t := by
        simpa [tuple?] using made
      exact more s (s' :: rest) u (ih tail)

theorem tuple?_names {ts : List Term} {t : Term} (made : tuple? ts = some t) :
    t.names = ts.flatMap names := by
  refine of_tuple? (P := fun ts t => t.names = ts.flatMap names) made (by simp) ?_
  exact fun s ts u same => by simp [pair, same]

theorem tuple?_vars {ts : List Term} {t : Term} (made : tuple? ts = some t) :
    t.vars = ts.flatMap vars := by
  refine of_tuple? (P := fun ts t => t.vars = ts.flatMap vars) made (by simp) ?_
  exact fun s ts u same => by simp [pair, same]

end ThreatModel.Term
