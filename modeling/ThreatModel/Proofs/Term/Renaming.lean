import Mathlib
import ThreatModel.Proofs.Term.Names

set_option autoImplicit false

namespace ThreatModel

namespace Term

mutual

def recast (ρ r : String → String) : Term → Term
  | .var x => .var (ρ x)
  | .app f args => .app f (recastAll ρ r args)
  | .name n => .name (r n)
  | .const c => .const c
  | .lit s => .lit s

def recastAll (ρ r : String → String) : List Term → List Term
  | [] => []
  | t :: ts => recast ρ r t :: recastAll ρ r ts

end

variable {κ ρ r : String → String} {s t : Term}

theorem recastAll_eq_map (ρ r : String → String) (ts : List Term) :
    recastAll ρ r ts = ts.map (recast ρ r) := by
  induction ts with
  | nil => rfl
  | cons t ts ih => simp [recastAll, ih]

@[simp] theorem recast_var (x : String) : (Term.var x).recast ρ r = .var (ρ x) := rfl

@[simp] theorem recast_const (c : String) : (Term.const c).recast ρ r = .const c := rfl

@[simp] theorem recast_lit (s : String) : (Term.lit s).recast ρ r = .lit s := rfl

@[simp] theorem recast_name (n : String) : (Term.name n).recast ρ r = .name (r n) := rfl

@[simp] theorem recast_app (f : String) (args : List Term) :
    (Term.app f args).recast ρ r = .app f (args.map (recast ρ r)) :=
  congrArg (Term.app f) (recastAll_eq_map ρ r args)

theorem recast_congr {ρ' r' : String → String} (vars : ∀ x ∈ t.vars, ρ x = ρ' x)
    (names : ∀ n ∈ t.names, r n = r' n) : t.recast ρ r = t.recast ρ' r' := by
  induction t using Term.induct with
  | var x => simpa using vars
  | const | lit => simp
  | app f args ih =>
    simp only [recast_app, Term.app.injEq, List.map_inj_left, true_and]
    intro t member
    refine ih t member (fun x inside => vars x ?_) fun n inside => names n ?_
    · simpa using ⟨t, member, inside⟩
    · simpa using ⟨t, member, inside⟩
  | name n => simpa using names

theorem recast_id (t : Term) : t.recast id id = t := by
  induction t using Term.induct with
  | var | const | lit | name => simp
  | app f args ih =>
    simp only [recast_app, Term.app.injEq, true_and]
    exact (List.map_congr_left ih).trans (List.map_id args)

theorem recast_of_ground (ρ' : String → String) (ground : t.vars = []) :
    t.recast ρ r = t.recast ρ' r :=
  recast_congr (by simp [ground]) fun _ _ => rfl

theorem recast_of_nameless (nameless : t.names = []) : t.recast id r = t :=
  (recast_congr (fun _ _ => rfl) (by simp [nameless])).trans t.recast_id

theorem vars_recast (t : Term) : (t.recast ρ r).vars = t.vars.map ρ := by
  induction t using Term.induct with
  | var | const | lit | name => simp
  | app f args ih =>
    simp only [recast_app, vars_app, List.flatMap_map, List.map_flatMap]
    exact List.flatMap_congr ih

theorem size_recast (t : Term) : (t.recast ρ r).size = t.size := by
  induction t using Term.induct with
  | var | const | lit | name => simp [size]
  | app f args ih =>
    simp only [recast_app, size, sizeAll_eq_sum, List.map_map, Nat.add_right_cancel_iff]
    exact congrArg List.sum (List.map_congr_left ih)

theorem recast_injective (vars : Function.Injective ρ) (names : Function.Injective r) :
    Function.Injective (recast ρ r) := by
  intro s t same
  induction s using Term.induct generalizing t with
  | var x => cases t <;> simp_all [vars.eq_iff]
  | const | lit => cases t <;> simp_all
  | app f args ih =>
    cases t with
    | app g ts =>
      simp only [recast_app, Term.app.injEq] at same
      obtain ⟨rfl, same⟩ := same
      congr 1
      induction args generalizing ts with
      | nil => simpa using same.symm
      | cons a rest ih' =>
        cases ts with
        | nil => simp at same
        | cons b bs =>
          obtain ⟨first, others⟩ := List.cons.inj same
          rw [ih a (by simp) first, ih' (fun t member => ih t (by simp [member])) bs others]
    | _ => simp at same
  | name n => cases t <;> simp_all [names.eq_iff]

end Term

namespace Table

variable {κ κ' α β : Type} [DecidableEq κ] [DecidableEq κ'] {f : κ → κ'} {g : α → β}

def carry (f : κ → κ') (g : α → β) (t : Table κ α) : Table κ' β :=
  ⟨t.entries.map fun (k, v) => (f k, g v)⟩

omit [DecidableEq κ] [DecidableEq κ'] in
@[simp] theorem carry_empty : (empty : Table κ α).carry f g = empty := rfl

theorem find?_carry (distinct : Function.Injective f) (t : Table κ α) (key : κ) :
    (t.carry f g).find? (f key) = (t.find? key).map g := by
  obtain ⟨entries⟩ := t
  simp only [carry, find?]
  induction entries with
  | nil => rfl
  | cons entry rest ih =>
    by_cases hit : entry.1 = key
    · simp [lookup, hit]
    · simp [lookup, hit, distinct.eq_iff, ih]

theorem carry_insert (distinct : Function.Injective f) (t : Table κ α) (key : κ) (value : α) :
    (t.insert key value).carry f g = (t.carry f g).insert (f key) (g value) := by
  obtain ⟨entries⟩ := t
  simp only [carry, insert, Table.mk.injEq]
  induction entries with
  | nil => rfl
  | cons entry rest ih =>
    by_cases hit : entry.1 = key
    · simp [write, hit]
    · simp [write, hit, distinct.eq_iff, ih]

theorem carry_merge (distinct : Function.Injective f) (t other : Table κ α) :
    (t.merge other).carry f g = (t.carry f g).merge (other.carry f g) := by
  obtain ⟨pairs⟩ := other
  induction pairs generalizing t with
  | nil => rfl
  | cons pair rest ih =>
    have later := ih (t.insert pair.1 pair.2)
    rw [carry_insert distinct] at later
    exact later

theorem carry_filter (distinct : Function.Injective f) (t : Table κ α) (keys : List κ) :
    (t.filter fun k => !keys.contains k).carry f g =
      (t.carry f g).filter fun k => !(keys.map f).contains k := by
  simp only [carry, filter, Table.mk.injEq, List.filter_map]
  congr 1
  refine List.filter_congr fun entry _ => ?_
  simp [distinct.eq_iff]

end Table

namespace Term

variable {κ ρ r : String → String}

theorem recast_subst (distinct : Function.Injective κ) (σ : Subst) (t : Term)
    (left : ∀ x ∈ t.vars, σ.find? x = none → κ x = ρ x) :
    (t.subst σ).recast ρ r = (t.recast κ r).subst (σ.carry κ (recast ρ r)) := by
  rw [subst_eq_under, subst_eq_under]
  induction t using Term.induct with
  | var x =>
    simp only [under_var, recast_var, Subst.value, Table.find?_carry distinct]
    cases found : σ.find? x with
    | none => simp [left x (by simp) found]
    | some u => rfl
  | const | lit | name => simp
  | app f args ih =>
    simp only [under_app, recast_app, List.map_map, Term.app.injEq, List.map_inj_left, true_and]
    intro t member
    exact ih t member fun x inside => left x (by simpa using ⟨t, member, inside⟩)

mutual

theorem extend?_recast (distinct : Function.Injective κ) (vars : Function.Injective ρ)
    (names : Function.Injective r) : ∀ (p t : Term) (σ : Subst),
    extend? (p.recast κ r) (t.recast ρ r) (σ.carry κ (recast ρ r)) =
      (extend? p t σ).map (Table.carry κ (recast ρ r))
  | .var x, t, σ => by
    simp only [recast_var, extend?, Table.find?_carry distinct]
    cases σ.find? x with
    | none => simp [Table.carry_insert distinct]
    | some u => by_cases same : u = t <;> simp [same, (recast_injective vars names).eq_iff]
  | .app f ps, .app g ts, σ => by
    simp only [recast_app, extend?]
    by_cases same : f = g
    · simpa [same] using extendAll?_recast distinct vars names ps ts σ
    · simp [same]
  | .app _ _, .var _, _ | .app _ _, .const _, _ | .app _ _, .lit _, _ | .app _ _, .name _, _ => by
    simp [extend?]
  | .const c, t, σ => by cases t <;> simp [extend?]
  | .lit c, t, σ => by cases t <;> simp [extend?]
  | .name c, t, σ => by cases t <;> simp [extend?, names.eq_iff]

theorem extendAll?_recast (distinct : Function.Injective κ) (vars : Function.Injective ρ)
    (names : Function.Injective r) : ∀ (ps ts : List Term) (σ : Subst),
    extendAll? (ps.map (recast κ r)) (ts.map (recast ρ r)) (σ.carry κ (recast ρ r)) =
      (extendAll? ps ts σ).map (Table.carry κ (recast ρ r))
  | [], [], σ => rfl
  | p :: ps, t :: ts, σ => by
    simp only [List.map_cons, extendAll?, extend?_recast distinct vars names p t σ]
    cases extend? p t σ with
    | none => rfl
    | some σ' => exact extendAll?_recast distinct vars names ps ts σ'
  | [], _ :: _, _ | _ :: _, [], _ => by simp [extendAll?]

end

end Term

end ThreatModel
