import Mathlib
import ThreatModel.Proofs.Term.Matching

set_option autoImplicit false

namespace ThreatModel.Term

mutual

def consts : Term → List String
  | .const c => [c]
  | .app _ args => constsAll args
  | _ => []

def constsAll : List Term → List String
  | [] => []
  | t :: ts => consts t ++ constsAll ts

end

mutual

def fill (h : String → Term) : Term → Term
  | .const c => h c
  | .app f args => .app f (fillAll h args)
  | .var x => .var x
  | .lit s => .lit s
  | .name n => .name n

def fillAll (h : String → Term) : List Term → List Term
  | [] => []
  | t :: ts => fill h t :: fillAll h ts

end

variable {h : String → Term}

theorem constsAll_eq_flatMap (ts : List Term) : constsAll ts = ts.flatMap consts := by
  induction ts with
  | nil => rfl
  | cons t ts ih => simp [constsAll, ih]

theorem fillAll_eq_map (ts : List Term) : fillAll h ts = ts.map (fill h) := by
  induction ts with
  | nil => rfl
  | cons t ts ih => simp [fillAll, ih]

@[simp] theorem consts_app (f : String) (args : List Term) :
    (Term.app f args).consts = args.flatMap consts :=
  constsAll_eq_flatMap args

@[simp] theorem fill_app (f : String) (args : List Term) :
    (Term.app f args).fill h = .app f (args.map (fill h)) :=
  congrArg (Term.app f) (fillAll_eq_map args)

theorem fill_under {g : String → Term} {t : Term} (fixed : ∀ c ∈ t.consts, h c = .const c) :
    (t.under g).fill h = t.under fun x => (g x).fill h := by
  induction t using Term.induct with
  | var | lit | name => rfl
  | const c => exact fixed c (by simp [consts])
  | app f args ih =>
    simp only [under_app, fill_app, List.map_map, Term.app.injEq, List.map_inj_left, true_and]
    intro t member
    exact ih t member fun c inside => fixed c (by simpa using ⟨t, member, inside⟩)

theorem fill_mem_subterms {s t : Term} (inside : s ∈ t.subterms) :
    s.fill h ∈ (t.fill h).subterms := by
  refine of_subterm (P := fun t => s.fill h ∈ (t.fill h).subterms) inside (subterms_self _) ?_
  intro f args t member deeper
  rw [fill_app]
  exact subterms_of_arg (List.mem_map_of_mem member) deeper

end ThreatModel.Term
