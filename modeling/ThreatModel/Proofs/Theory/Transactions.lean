import Mathlib
import ThreatModel.Proofs.Requests
import ThreatModel.Proofs.Theory.Budget

set_option autoImplicit false

namespace ThreatModel.Theory

open Result

section Requests

variable {T : Theory} {e : Equation} {location : Option Location}

def vet (T : Theory) (e : Equation) (location : Option Location) : Result Unit := do
  if T.closed then throw .theoryClosed
  let declaration := some e.text
  T.checkTerm e.lhs declaration location
  T.checkTerm e.rhs declaration location
  if !e.lhs.isApp then
    throw (.flaw { cause := .headlessEquation e.text, declaration, location })
  let loose := e.rhs.vars.filter fun x => !e.lhs.vars.contains x
  if !loose.isEmpty then
    throw (.flaw { cause := .looseVariables e.text (Sorted.ofList loose), declaration, location })

def register (T : Theory) (e : Equation) : Theory := { T with equations := T.equations ++ [e] }

def unregister (T : Theory) : Theory := { T with equations := T.equations.dropLast }

theorem unregister_register (T : Theory) (e : Equation) : (T.register e).unregister = T := by
  simp [register, unregister]

theorem declareEquation_eq (T : Theory) (e : Equation) (location : Option Location) :
    T.declareEquation e.lhs e.rhs location = (do
      T.vet e location
      (T.register e).fires e e.text location
      return T.register e) := by
  simp only [declareEquation, vet, register, throw_bind]
  -- Both sides pass the same checks in the same order.
  by_cases closed : T.closed = true
  · simp only [if_pos closed, throw_bind]
  · simp only [if_neg closed]
    cases T.checkTerm e.lhs (some e.text) location with
    | error d => rfl
    | ok _ =>
      cases T.checkTerm e.rhs (some e.text) location with
      | error d => rfl
      | ok _ =>
        simp only [lift_ok, ok_bind]
        split
        · rfl
        · split <;> rfl

/-- Tries whether the equation that was registered last fires, and takes it back if it does not. -/
def probe (e : Equation) (location : Option Location) : Edit Fault Theory Unit := do
  try
    Edit.judge (Result.ofFlaw ((← get).fires e e.text location))
  catch fault =>
    modify unregister
    throw fault

theorem outcome_fires (T : Theory) (e : Equation) (location : Option Location) :
    (do Edit.judge (Result.ofFlaw ((← get).fires e e.text location)) :
      Edit Fault Theory Unit).outcome T =
      (Result.ofFlaw (T.fires e e.text location), T) :=
  Edit.outcome_bind_ok Edit.outcome_get _

theorem outcome_probe_of_fires {done : Unit} (fired : T.fires e e.text location = .ok done) :
    (probe e location).outcome T = (.ok (), T) := by
  have tried := outcome_fires T e location
  rw [fired] at tried
  exact Edit.outcome_tryCatch_ok tried _

theorem outcome_probe_of_stuck {d : Diagnostic} (stuck : T.fires e e.text location = .error d) :
    (probe e location).outcome T = (.error (.flaw d), T.unregister) := by
  have tried := outcome_fires T e location
  rw [stuck] at tried
  refine (Edit.outcome_tryCatch_error tried _).trans ?_
  rw [Edit.outcome_bind_ok (Edit.outcome_modify _), Edit.outcome_throw]

inductive Request where
  | symbol (f : String) (arity : Int) (location : Option Location)
  | equation (e : Equation) (location : Option Location)
  | close

namespace Request

def answer (T : Theory) : Request → Result Theory
  | .symbol f arity location => T.declareSymbol f arity location
  | .equation e location => T.declareEquation e.lhs e.rhs location
  | .close => .ok T.close

def perform : Request → Edit Fault Theory Unit
  | .symbol f arity location => do set (← Edit.judge ((← get).declareSymbol f arity location))
  | .equation e location => do
      Edit.judge ((← get).vet e location)
      modify fun T => T.register e
      probe e location
  | .close => modify Theory.close

theorem outcome_symbol (T : Theory) (f : String) (arity : Int) (location : Option Location) :
    (perform (.symbol f arity location)).outcome T =
      (Edit.judge (T.declareSymbol f arity location) >>= set).outcome T :=
  Edit.outcome_bind_ok Edit.outcome_get _

theorem outcome_equation (T : Theory) (e : Equation) (location : Option Location) :
    (perform (.equation e location)).outcome T =
      (do
        Edit.judge (T.vet e location)
        modify fun T => T.register e
        probe e location : Edit Fault Theory Unit).outcome T :=
  Edit.outcome_bind_ok Edit.outcome_get _

theorem outcome_equation_of_vet {done : Unit} (vetted : T.vet e location = .ok done) :
    (perform (.equation e location)).outcome T = (probe e location).outcome (T.register e) := by
  rw [outcome_equation, vetted, Edit.outcome_bind_ok (Edit.outcome_judge _),
    Edit.outcome_bind_ok (Edit.outcome_modify _)]

theorem atomic (T : Theory) (request : Request) :
    (∃ T', request.answer T = .ok T' ∧ request.perform.outcome T = (.ok (), T')) ∨
      ∃ fault, request.answer T = .error fault ∧ request.perform.outcome T = (.error fault, T) := by
  cases request with
  | symbol f arity location =>
    simp only [answer, outcome_symbol]
    cases T.declareSymbol f arity location with
    | ok T' => exact .inl ⟨T', rfl, Edit.outcome_bind_ok (Edit.outcome_judge _) _⟩
    | error fault =>
      exact .inr ⟨fault, rfl, Edit.outcome_bind_error (Edit.outcome_judge _) _⟩
  | equation e location =>
    simp only [answer, declareEquation_eq]
    cases vetted : T.vet e location with
    | error fault =>
      refine .inr ⟨fault, rfl, ?_⟩
      rw [outcome_equation, vetted, Edit.outcome_bind_error (Edit.outcome_judge _)]
    | ok _ =>
      rw [outcome_equation_of_vet vetted]
      cases fired : (T.register e).fires e e.text location with
      | ok _ => exact .inl ⟨_, rfl, outcome_probe_of_fires fired⟩
      | error d =>
        refine .inr ⟨.flaw d, rfl, ?_⟩
        rw [outcome_probe_of_stuck fired, unregister_register]
  | close => exact .inl ⟨_, rfl, rfl⟩

def serve (T : Theory) (request : Request) : Theory := (request.perform.outcome T).2

end Request

theorem Declared.answer {T' : Theory} {request : Request} (declared : T.Declared)
    (answered : request.answer T = .ok T') : T'.Declared := by
  cases request with
  | symbol f arity location => exact .symbol declared answered
  | equation e location => exact .equation declared answered
  | close => exact Except.ok.inj answered ▸ .close declared

theorem Declared.serve (declared : T.Declared) (request : Request) : (request.serve T).Declared := by
  rw [Request.serve]
  rcases request.atomic T with ⟨T', answered, served⟩ | ⟨fault, -, refused⟩
  · rw [served]
    exact declared.answer answered
  · rw [refused]
    exact declared

theorem Declared.serveAll (declared : T.Declared) (requests : List Request) :
    (requests.foldl Request.serve T).Declared := by
  induction requests generalizing T with
  | nil => exact declared
  | cons request rest ih => exact ih (declared.serve request)

end Requests

/-- Whatever was asked of a theory so far, in vain or not, every equation it has could be declared
again, and the next request does as it should or changes nothing. -/
theorem consistent_after_requests {budget : Int} {T₀ : Theory} (created : ofBudget budget = .ok T₀)
    (requests : List Request) :
    let T := requests.foldl Request.serve T₀
    (∀ e ∈ T.equations, e.lhs.isApp = true ∧ (∀ x ∈ e.rhs.vars, x ∈ e.lhs.vars) ∧
      ∀ declaration location, T.checkTerm e.lhs declaration location = .ok () ∧
        T.checkTerm e.rhs declaration location = .ok ()) ∧
    (∀ request : Request,
      (∃ T', request.answer T = .ok T' ∧ request.perform.outcome T = (.ok (), T')) ∨
        ∃ fault, request.answer T = .error fault ∧
          request.perform.outcome T = (.error fault, T)) ∧
    ∀ t r, T.normalize t = .ok r →
      (∀ x ∈ r.vars, x ∈ t.vars) ∧
        ∀ declaration location, T.checkTerm t declaration location = .ok () →
          T.checkTerm r declaration location = .ok () := by
  intro T
  have declared : T.Declared := (Declared.start created).serveAll requests
  refine ⟨fun e member => ?_, fun request => request.atomic T, fun t r done => ?_⟩
  · have accepted := declared.consistent e member
    exact ⟨accepted.applied, accepted.bound, fun _ _ =>
      ⟨checkTerm_eq_ok_iff.mpr accepted.left, checkTerm_eq_ok_iff.mpr accepted.right⟩⟩
  · refine ⟨declared.vars_normalize done, fun _ _ checked => checkTerm_eq_ok_iff.mpr ?_⟩
    exact declared.misuse?_normalize (checkTerm_eq_ok_iff.mp checked) done

def mixedRequests : List Request :=
  [.symbol "enc" 2 none, .symbol "dec" 2 none, .symbol "enc" 1 none,
    .equation ⟨.app "dec" [.app "enc" [.var "m", .var "k"], .var "k"], .var "m"⟩ none,
    .equation ⟨.app "enc" [.var "m", .var "k"], .app "enc" [.var "k", .var "m"]⟩ none,
    .equation ⟨.app "fst" [.app "pair" [.var "x", .var "y"]], .var "y"⟩ none,
    .close, .symbol "late" 0 none]

theorem consistent_after_mixedRequests : ∃ T₀, ofBudget 3 = .ok T₀ ∧
    let T := mixedRequests.foldl Request.serve T₀
    T.symbols.keys = ["pair", "fst", "snd", "enc", "dec"] ∧ T.closed = true ∧
      T.equations.length = 3 ∧
      ∀ e ∈ T.equations, e.lhs.isApp = true ∧ ∀ x ∈ e.rhs.vars, x ∈ e.lhs.vars := by
  have created : ofBudget 3 = _ := ofBudget_eq_ok (by decide)
  obtain ⟨accepted, -⟩ := consistent_after_requests created mixedRequests
  refine ⟨_, created, by decide +kernel, by decide +kernel, by decide +kernel, fun e member => ?_⟩
  exact ⟨(accepted e member).1, (accepted e member).2.1⟩

end ThreatModel.Theory
