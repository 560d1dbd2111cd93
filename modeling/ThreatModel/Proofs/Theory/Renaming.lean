import Mathlib
import ThreatModel.Store.Basic
import ThreatModel.Proofs.Term.Renaming
import ThreatModel.Proofs.Theory.WellFormed

set_option autoImplicit false

namespace ThreatModel

open Result

def Store.recast (r : String → String) (held : Store) : Store :=
  { held with facts := held.facts.map (Term.recast id r) }

variable {ρ r : String → String}

theorem Store.erase_recast (names : Function.Injective r) (held : Store) (fact : Term) :
    (held.erase fact).recast r = (held.recast r).erase (fact.recast id r) := by
  simp [Store.recast, Store.erase,
    List.map_erase (Term.recast_injective Function.injective_id names)]

theorem Equation.reduct?_recast {e : Equation} (nameless : e.lhs.names = [] ∧ e.rhs.names = [])
    (vars : Function.Injective ρ) (names : Function.Injective r)
    (kept : ∀ x ∈ e.rhs.vars, x ∈ e.lhs.vars ∨ x = ρ x) (t : Term) :
    e.reduct? (t.recast ρ r) = (e.reduct? t).map (Term.recast ρ r) := by
  have met := Term.extend?_recast Function.injective_id vars names e.lhs t .empty
  rw [Term.recast_of_nameless nameless.1, Table.carry_empty] at met
  simp only [reduct?, Term.match?, met, Option.map_map]
  cases found : Term.extend? e.lhs t .empty with
  | none => rfl
  | some σ =>
    obtain ⟨covers, -⟩ := Term.extend?_sound found
    have bound : ∀ x ∈ e.rhs.vars, σ.find? x = none → id x = ρ x := by
      intro x inside missing
      refine (kept x inside).resolve_left fun among => ?_
      obtain ⟨u, value⟩ := covers.covers x among
      simp [missing] at value
    have rewritten := Term.recast_subst (r := r) Function.injective_id σ e.rhs bound
    rw [Term.recast_of_nameless nameless.2] at rewritten
    exact congrArg some rewritten.symm

namespace Rewriting

variable {equations : List Equation}

def Indifferent (equations : List Equation) (ρ r : String → String) : Prop :=
  ∀ t, rewriteRoot? equations (t.recast ρ r) = (rewriteRoot? equations t).map (Term.recast ρ r)

theorem indifferent_of_forall (each : ∀ e ∈ equations, ∀ t : Term,
    e.reduct? (t.recast ρ r) = (e.reduct? t).map (Term.recast ρ r)) :
    Indifferent equations ρ r := by
  intro t
  simp only [rewriteRoot?]
  induction equations with
  | nil => rfl
  | cons e rest ih =>
    simp only [List.findSome?_cons, each e (by simp)]
    cases e.reduct? t with
    | none => exact ih fun e member => each e (by simp [member])
    | some u => rfl

theorem indifferent_of_nameless
    (nameless : ∀ e ∈ equations, e.lhs.names = [] ∧ e.rhs.names = [])
    (names : Function.Injective r) : Indifferent equations id r :=
  indifferent_of_forall fun e member =>
    e.reduct?_recast (nameless e member) Function.injective_id names fun _ _ => .inr rfl

def Outcome.recast {α : Type} (ρ r : String → String) (change : α → α) : Outcome α → Outcome α
  | .ok (value, left) => .ok (change value, left)
  | .error last => .error (last.recast ρ r)

mutual

theorem evaluateWith_recast (indifferent : Indifferent equations ρ r) {next : Evaluator}
    (later : ∀ left t, next left (t.recast ρ r) =
      Outcome.recast ρ r (Term.recast ρ r) (next left t)) (left : Nat) : ∀ t : Term,
    evaluateWith equations next left (t.recast ρ r) =
      Outcome.recast ρ r (Term.recast ρ r) (evaluateWith equations next left t)
  | .var _ | .const _ | .lit _ | .name _ => by simp [evaluateWith, Outcome.recast]
  | .app f args => by
    simp only [Term.recast_app, evaluateWith, evaluateAllWith_recast indifferent later left args]
    cases evaluateAllWith equations next left args with
    | error last => rfl
    | ok found =>
      obtain ⟨args', left'⟩ := found
      have root := indifferent (.app f args')
      rw [Term.recast_app] at root
      simp only [Outcome.recast, root]
      cases rewriteRoot? equations (.app f args') with
      | none => simp
      | some reduct =>
        cases left' with
        | zero => simp
        | succ left'' => exact later left'' reduct

theorem evaluateAllWith_recast (indifferent : Indifferent equations ρ r) {next : Evaluator}
    (later : ∀ left t, next left (t.recast ρ r) =
      Outcome.recast ρ r (Term.recast ρ r) (next left t)) (left : Nat) : ∀ ts : List Term,
    evaluateAllWith equations next left (ts.map (Term.recast ρ r)) =
      Outcome.recast ρ r (List.map (Term.recast ρ r)) (evaluateAllWith equations next left ts)
  | [] => rfl
  | t :: ts => by
    simp only [List.map_cons, evaluateAllWith, evaluateWith_recast indifferent later left t]
    cases evaluateWith equations next left t with
    | error last => rfl
    | ok found =>
      simp only [Outcome.recast, evaluateAllWith_recast indifferent later found.2 ts]
      cases evaluateAllWith equations next found.2 ts with
      | error last => rfl
      | ok others => rfl

end

theorem evaluate_recast (indifferent : Indifferent equations ρ r) (depth left : Nat) (t : Term) :
    evaluate equations depth left (t.recast ρ r) =
      Outcome.recast ρ r (Term.recast ρ r) (evaluate equations depth left t) := by
  induction depth generalizing left t with
  | zero => exact evaluateWith_recast indifferent (fun _ _ => rfl) left t
  | succ depth ih => exact evaluateWith_recast indifferent ih left t

end Rewriting

def Diagnostic.recast (ρ r : String → String) (d : Diagnostic) : Diagnostic :=
  match d.cause with
  | .diverged limit last => { d with cause := .diverged limit (last.recast ρ r) }
  | _ => d

theorem Rewriting.Indifferent.normalize {T : Theory} (indifferent : Indifferent T.equations ρ r)
    (t : Term) :
    T.normalize (t.recast ρ r) =
      ((T.normalize t).map (Term.recast ρ r)).mapError (Diagnostic.recast ρ r) := by
  -- The number of rewrites allowed goes by the size of the term.
  have allowed : T.limitFor (t.recast ρ r) = T.limitFor t := by
    simp [Theory.limitFor, Term.size_recast]
  simp only [Theory.normalize, allowed, evaluate_recast indifferent]
  cases evaluate T.equations (T.limitFor t).toNat (T.limitFor t).toNat t with
  | error last => rfl
  | ok found => rfl

theorem Rewriting.Indifferent.normalizeAll {T : Theory} (indifferent : Indifferent T.equations ρ r)
    (ts : List Term) :
    T.normalizeAll (ts.map (Term.recast ρ r)) =
      ((T.normalizeAll ts).map (List.map (Term.recast ρ r))).mapError (Diagnostic.recast ρ r) := by
  simp only [Theory.normalizeAll]
  induction ts with
  | nil => rfl
  | cons t ts ih =>
    simp only [List.map_cons, List.mapM_cons, indifferent.normalize t, ih]
    cases T.normalize t with
    | error d => rfl
    | ok u => cases ts.mapM T.normalize <;> rfl

namespace Theory.WellFormed

variable {T : Theory} {t p fact : Term} {options : List Store.Candidate} {held : Store}

theorem indifferent (sound : T.WellFormed) (vars : Function.Injective ρ)
    (names : Function.Injective r) : Rewriting.Indifferent T.equations ρ r :=
  Rewriting.indifferent_of_forall fun e member =>
    e.reduct?_recast (sound e member).nameless vars names fun x inside =>
      .inl ((sound e member).bound x inside)

theorem normalize_recast (sound : T.WellFormed) (vars : Function.Injective ρ)
    (names : Function.Injective r) {u : Term} (done : T.normalize t = .ok u) :
    T.normalize (t.recast ρ r) = .ok (u.recast ρ r) := by
  rw [(sound.indifferent vars names).normalize t, done]
  rfl

theorem equal_recast (sound : T.WellFormed) (vars : Function.Injective ρ)
    (names : Function.Injective r) {s : Term} {same : Bool} (done : T.equal s t = .ok same) :
    T.equal (s.recast ρ r) (t.recast ρ r) = .ok same := by
  simp only [equal, bind_eq_ok_iff, pure_eq_ok_iff] at done ⊢
  obtain ⟨s', left, t', right, rfl⟩ := done
  exact ⟨_, sound.normalize_recast vars names left, _, sound.normalize_recast vars names right,
    by simp [(Term.recast_injective vars names).eq_iff]⟩

theorem match?_recast (sound : T.WellFormed) (vars : Function.Injective ρ)
    (names : Function.Injective r) {found : Option Subst} (done : T.match? p t = .ok found) :
    T.match? (p.recast ρ r) (t.recast ρ r) = .ok (found.map (Table.carry ρ (Term.recast ρ r))) := by
  simp only [match?, bind_eq_ok_iff, pure_eq_ok_iff] at done ⊢
  obtain ⟨p', left, t', right, rfl⟩ := done
  refine ⟨_, sound.normalize_recast vars names left, _, sound.normalize_recast vars names right, ?_⟩
  simpa [Term.match?] using Term.extend?_recast vars vars names p' t' .empty

theorem candidates_recast (sound : T.WellFormed) (vars : Function.Injective ρ)
    (names : Function.Injective r) {facts : List Term}
    (done : Store.candidates T p facts = .ok options) :
    Store.candidates T (p.recast ρ r) (facts.map (Term.recast ρ r)) =
      .ok (options.map fun (fact, found) =>
        (fact.recast ρ r, found.carry ρ (Term.recast ρ r))) := by
  induction facts generalizing options with
  | nil =>
    obtain rfl : [] = options := by simpa [Store.candidates] using done
    rfl
  | cons fact rest ih =>
    simp only [Store.candidates, bind_eq_ok_iff] at done
    obtain ⟨found, met, done⟩ := done
    simp only [List.map_cons, Store.candidates, bind_eq_ok_iff]
    refine ⟨_, sound.match?_recast vars names met, ?_⟩
    cases found with
    | none => exact ih done
    | some σ =>
      simp only [bind_eq_ok_iff, pure_eq_ok_iff] at done
      obtain ⟨others, later, rfl⟩ := done
      simp only [Option.map_some, ih later, ok_bind, pure_eq_ok_iff]
      -- A fact is told from the others as its renaming is from theirs.
      simp only [List.map_cons, List.filter_map]
      congr 2
      refine List.filter_congr fun option _ => ?_
      simp [(Term.recast_injective vars names).eq_iff]

theorem insert_recast (sound : T.WellFormed) (names : Function.Injective r) {after : Store}
    (done : held.insert T fact = .ok after) :
    (held.recast r).insert T (fact.recast id r) = .ok (after.recast r) := by
  have ground : (fact.recast id r).isGround = fact.isGround := by
    rw [Bool.eq_iff_iff, Term.isGround_iff, Term.isGround_iff, Term.vars_recast, List.map_id]
  simp only [Store.insert, ground] at done ⊢
  split at done
  next => simp at done
  next closed =>
    simp only [bind_eq_ok_iff, lift_eq_ok_iff, pure_eq_ok_iff] at done
    obtain ⟨normal, made, rfl⟩ := done
    have made' := sound.normalize_recast Function.injective_id names made
    simp only [if_neg closed, bind_eq_ok_iff, lift_eq_ok_iff, pure_eq_ok_iff]
    exact ⟨_, made', by simp [Store.recast]⟩

theorem holds_recast (sound : T.WellFormed) (names : Function.Injective r) {verdict : Bool}
    (done : held.holds T fact = .ok verdict) :
    (held.recast r).holds T (fact.recast id r) = .ok verdict := by
  simp only [Store.holds, bind_eq_ok_iff, pure_eq_ok_iff] at done ⊢
  obtain ⟨normal, made, rfl⟩ := done
  refine ⟨_, sound.normalize_recast Function.injective_id names made, ?_⟩
  simp [Store.recast, (Term.recast_injective Function.injective_id names).eq_iff]

theorem remove_recast (sound : T.WellFormed) (names : Function.Injective r) {after : Store}
    (done : held.remove T fact = .ok after) :
    (held.recast r).remove T (fact.recast id r) = .ok (after.recast r) := by
  simp only [Store.remove, bind_eq_ok_iff] at done
  obtain ⟨normal, made, done⟩ := done
  split at done
  next there =>
    have made' := sound.normalize_recast Function.injective_id names made
    have there' : normal.recast id r ∈ (held.recast r).facts :=
      List.mem_map_of_mem (by simpa using there)
    obtain rfl : held.erase normal = after := by simpa using done
    simp [Store.remove, made', there', Store.erase_recast names]
  next => simp at done

theorem candidatesOf_recast (sound : T.WellFormed) (vars : Function.Injective ρ)
    (names : Function.Injective r) (ground : ∀ fact ∈ held.facts, fact.vars = [])
    (done : held.candidatesOf T p = .ok options) :
    (held.recast r).candidatesOf T (p.recast ρ r) =
      .ok (options.map fun (fact, found) =>
        (fact.recast ρ r, found.carry ρ (Term.recast ρ r))) := by
  -- Facts are closed, so the pattern's variables may be renamed besides.
  have facts : (held.recast r).facts = held.facts.map (Term.recast ρ r) :=
    List.map_congr_left fun fact member => Term.recast_of_ground ρ (ground fact member)
  simp only [Store.candidatesOf, facts]
  exact sound.candidates_recast vars names done

end Theory.WellFormed

end ThreatModel
