import Mathlib
import ThreatModel.Proofs.Theory.Innermost

set_option autoImplicit false

namespace ThreatModel

namespace Rewriting

/-- What a term comes to when it is rewritten innermost first, at each root by the first equation
that matches. -/
inductive Value (equations : List Equation) : Term → Term → Prop
  | atom {t : Term} (plain : t.isApp = false) : Value equations t t
  | built {f : String} {ts args : List Term} (each : List.Forall₂ (Value equations) ts args)
      (stands : rewriteRoot? equations (.app f args) = none) :
      Value equations (.app f ts) (.app f args)
  | rewritten {f : String} {ts args : List Term} {t v : Term}
      (each : List.Forall₂ (Value equations) ts args)
      (rewrites : rewriteRoot? equations (.app f args) = some t) (later : Value equations t v) :
      Value equations (.app f ts) v

variable {equations : List Equation} {next : Evaluator} {t r v v' : Term}

theorem Value.induct {P : Term → Term → Prop}
    (atom : ∀ t : Term, t.isApp = false → P t t)
    (built : ∀ f ts args, List.Forall₂ (fun t v => Value equations t v ∧ P t v) ts args →
      rewriteRoot? equations (.app f args) = none → P (.app f ts) (.app f args))
    (rewritten : ∀ f ts args t v, List.Forall₂ (fun t v => Value equations t v ∧ P t v) ts args →
      rewriteRoot? equations (.app f args) = some t → P t v → P (.app f ts) v)
    (value : Value equations t v) : P t v :=
  @Value.rec equations (fun t v _ => P t v)
    (fun ts vs _ => List.Forall₂ (fun t v => Value equations t v ∧ P t v) ts vs)
    (fun {t} plain => atom t plain)
    (fun {f ts args} _ stands each => built f ts args each stands)
    (fun {f ts args t v} _ rewrites _ each later => rewritten f ts args t v each rewrites later)
    .nil (fun head _ first rest => .cons ⟨head, first⟩ rest) t v value

theorem eq_of_forall₂_value {ts args args' : List Term}
    (each : List.Forall₂ (fun t v => Value equations t v ∧ ∀ v', Value equations t v' → v = v')
      ts args)
    (each' : List.Forall₂ (Value equations) ts args') : args = args' := by
  induction each generalizing args' with
  | nil => exact (List.forall₂_nil_left_iff.mp each').symm
  | cons head _ ih =>
    obtain ⟨v', vs', head', tail', rfl⟩ := List.forall₂_cons_left_iff.mp each'
    rw [head.2 v' head', ih tail']

theorem Value.unique (one : Value equations t v) (other : Value equations t v') : v = v' := by
  suffices all : ∀ v', Value equations t v' → v = v' from all v' other
  refine one.induct (P := fun t v => ∀ v', Value equations t v' → v = v') ?atom ?built ?rewritten
  case atom =>
    intro t plain v' other
    cases other with
    | atom => rfl
    | built | rewritten => simp [Term.isApp] at plain
  case built =>
    intro f ts args each stands v' other
    cases other with
    | atom plain => simp [Term.isApp] at plain
    | built each' => rw [eq_of_forall₂_value each each']
    | rewritten each' rewrites =>
      rw [← eq_of_forall₂_value each each', stands] at rewrites
      cases rewrites
  case rewritten =>
    intro f ts args t v each rewrites later v' other
    cases other with
    | atom plain => simp [Term.isApp] at plain
    | built each' stands =>
      rw [← eq_of_forall₂_value each each', rewrites] at stands
      cases stands
    | rewritten each' rewrites' later' =>
      rw [← eq_of_forall₂_value each each', rewrites] at rewrites'
      exact later v' (Option.some.inj rewrites' ▸ later')

mutual

theorem value_of_evaluateWith
    (later : ∀ left t r left', next left t = .ok (r, left') → Value equations t r) :
    ∀ {left left' : Nat} {t r : Term}, evaluateWith equations next left t = .ok (r, left') →
      Value equations t r
  | _, _, .var _, _, done | _, _, .const _, _, done | _, _, .lit _, _, done
  | _, _, .name _, _, done => by
    simp only [evaluateWith, Except.ok.injEq, Prod.mk.injEq] at done
    exact done.1 ▸ .atom rfl
  | left, left', .app f ts, r, done => by
    obtain ⟨args, left₁, inner, root⟩ := evaluateWith_app done
    have each := values_of_evaluateAllWith later inner
    rcases root with ⟨stands, rfl, -⟩ | ⟨reduct, left₂, rewrites, -, done⟩
    · exact .built each stands
    · exact .rewritten each rewrites (later _ _ _ _ done)

theorem values_of_evaluateAllWith
    (later : ∀ left t r left', next left t = .ok (r, left') → Value equations t r) :
    ∀ {left left' : Nat} {ts rs : List Term},
      evaluateAllWith equations next left ts = .ok (rs, left') →
      List.Forall₂ (Value equations) ts rs
  | _, _, [], _, done => by
    simp only [evaluateAllWith, Except.ok.injEq, Prod.mk.injEq] at done
    exact done.1 ▸ .nil
  | _, _, t :: ts, rs, done => by
    obtain ⟨r, left₁, rest, head, tail, rfl⟩ := evaluateAllWith_cons done
    exact .cons (value_of_evaluateWith later head) (values_of_evaluateAllWith later tail)

end

theorem value_of_evaluate {depth left left' : Nat}
    (done : evaluate equations depth left t = .ok (r, left')) : Value equations t r := by
  induction depth generalizing left left' t r with
  | zero => exact value_of_evaluateWith (by simp) done
  | succ depth ih => exact value_of_evaluateWith (fun _ _ _ _ => ih) done

theorem value_app_iff {f : String} {ts : List Term} :
    Value equations (.app f ts) v ↔ ∃ args, List.Forall₂ (Value equations) ts args ∧
      ((rewriteRoot? equations (.app f args) = none ∧ v = .app f args) ∨
        ∃ t, rewriteRoot? equations (.app f args) = some t ∧ Value equations t v) := by
  constructor
  · intro value
    cases value with
    | atom plain => simp [Term.isApp] at plain
    | @built _ _ args each stands => exact ⟨args, each, .inl ⟨stands, rfl⟩⟩
    | @rewritten _ _ args t _ each rewrites later => exact ⟨args, each, .inr ⟨t, rewrites, later⟩⟩
  · rintro ⟨args, each, ⟨stands, rfl⟩ | ⟨t, rewrites, later⟩⟩
    · exact .built each stands
    · exact .rewritten each rewrites later

end Rewriting

end ThreatModel
