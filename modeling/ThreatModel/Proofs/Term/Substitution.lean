import Mathlib
import ThreatModel.Term.Basic
import ThreatModel.Proofs.Table

set_option autoImplicit false

namespace ThreatModel

namespace Term

mutual

def under (g : String → Term) : Term → Term
  | .var x => g x
  | .app f args => .app f (underAll g args)
  | t => t

def underAll (g : String → Term) : List Term → List Term
  | [] => []
  | t :: ts => under g t :: underAll g ts

end

theorem underAll_eq_map (g : String → Term) (ts : List Term) : underAll g ts = ts.map (under g) := by
  induction ts with
  | nil => rfl
  | cons t ts ih => simp [underAll, ih]

@[simp] theorem under_var (g : String → Term) (x : String) : (Term.var x).under g = g x := rfl

@[simp] theorem under_const (g : String → Term) (c : String) :
    (Term.const c).under g = .const c := rfl

@[simp] theorem under_lit (g : String → Term) (s : String) : (Term.lit s).under g = .lit s := rfl

@[simp] theorem under_name (g : String → Term) (n : String) : (Term.name n).under g = .name n := rfl

@[simp] theorem under_app (g : String → Term) (f : String) (args : List Term) :
    (Term.app f args).under g = .app f (args.map (under g)) :=
  congrArg (Term.app f) (underAll_eq_map g args)

@[simp] theorem vars_var (x : String) : (Term.var x).vars = [x] := rfl

@[simp] theorem vars_const (c : String) : (Term.const c).vars = [] := rfl

@[simp] theorem vars_lit (s : String) : (Term.lit s).vars = [] := rfl

@[simp] theorem vars_name (n : String) : (Term.name n).vars = [] := rfl

@[simp] theorem vars_app (f : String) (args : List Term) :
    (Term.app f args).vars = args.flatMap vars :=
  varsAll_eq_flatMap args

theorem sizeAll_eq_sum (ts : List Term) : sizeAll ts = (ts.map size).sum := by
  induction ts with
  | nil => rfl
  | cons t ts ih => simp [sizeAll, ih]

theorem under_congr {g h : String → Term} {t : Term} (agree : ∀ x ∈ t.vars, g x = h x) :
    t.under g = t.under h := by
  induction t using Term.induct with
  | var x => simpa using agree
  | const | lit | name => simp
  | app f args ih =>
    simp only [under_app, Term.app.injEq, List.map_inj_left, true_and]
    intro t member
    exact ih t member fun x inside => agree x (by simpa using ⟨t, member, inside⟩)

theorem under_under (g h : String → Term) (t : Term) :
    (t.under g).under h = t.under fun x => (g x).under h := by
  induction t using Term.induct with
  | var | const | lit | name => simp
  | app f args ih => simpa using ih

theorem under_var_self (t : Term) : t.under Term.var = t := by
  induction t using Term.induct with
  | var | const | lit | name => simp
  | app f args ih =>
    simp only [under_app, Term.app.injEq, true_and]
    exact (List.map_congr_left ih).trans (List.map_id args)

theorem under_of_ground (g : String → Term) {t : Term} (ground : t.vars = []) : t.under g = t := by
  conv_rhs => rw [← under_var_self t]
  exact under_congr (by simp [ground])

theorem mem_vars_under {g : String → Term} {t : Term} {y : String} :
    y ∈ (t.under g).vars ↔ ∃ x ∈ t.vars, y ∈ (g x).vars := by
  induction t using Term.induct with
  | var | const | lit | name => simp
  | app f args ih =>
    simp only [under_app, vars_app, List.mem_flatMap, List.mem_map, exists_exists_and_eq_and]
    constructor
    · rintro ⟨t, member, inside⟩
      obtain ⟨x, hx, hy⟩ := (ih t member).mp inside
      exact ⟨x, ⟨t, member, hx⟩, hy⟩
    · rintro ⟨x, ⟨t, member, hx⟩, hy⟩
      exact ⟨t, member, (ih t member).mpr ⟨x, hx, hy⟩⟩

theorem mapVars_eq_under (f : String → String) (t : Term) :
    t.mapVars f = t.under fun x => .var (f x) := by
  induction t using Term.induct with
  | var | const | lit | name => simp [mapVars]
  | app g args ih => simpa [mapVars, mapVarsAll_eq_map] using ih

theorem isGround_iff {t : Term} : t.isGround = true ↔ t.vars = [] := by
  simp [isGround]

end Term

namespace Subst

def value (σ : Subst) (x : String) : Term := (σ.find? x).getD (.var x)

theorem value_of_find? {σ : Subst} {x : String} {t : Term} (found : σ.find? x = some t) :
    σ.value x = t := by
  simp [value, found]

theorem value_of_none {σ : Subst} {x : String} (absent : σ.find? x = none) :
    σ.value x = .var x := by
  simp [value, absent]

end Subst

namespace Term

theorem subst_eq_under (σ : Subst) (t : Term) : t.subst σ = t.under σ.value := by
  induction t using Term.induct with
  | var | const | lit | name => simp [subst, Subst.value]
  | app f args ih => simpa [subst, substAll_eq_map] using ih

theorem mem_vars_subst {σ : Subst} {t : Term} {x : String}
    (closed : ∀ y u, σ.find? y = some u → u.vars = []) :
    x ∈ (t.subst σ).vars ↔ x ∈ t.vars ∧ σ.find? x = none := by
  rw [subst_eq_under, mem_vars_under]
  constructor
  · rintro ⟨y, inside, left⟩
    cases found : σ.find? y with
    | none =>
      rw [Subst.value_of_none found] at left
      obtain rfl : x = y := by simpa using left
      exact ⟨inside, found⟩
    | some u =>
      rw [Subst.value_of_find? found, closed y u found] at left
      simp at left
  · rintro ⟨inside, absent⟩
    exact ⟨x, inside, by simp [Subst.value_of_none absent]⟩

theorem tuple?_eq_none {ts : List Term} (none : tuple? ts = none) : ts = [] := by
  induction ts with
  | nil => rfl
  | cons t rest ih =>
    cases rest with
    | nil => simp [tuple?] at none
    | cons t' rest =>
      have shorter : tuple? (t' :: rest) = Option.none := by simpa [tuple?] using none
      exact absurd (ih shorter) (by simp)

end Term

end ThreatModel
