import Mathlib
import ThreatModel.Proofs.Result

set_option autoImplicit false

namespace ThreatModel

open Result

abbrev Edit (ε σ : Type) := ExceptT ε (StateM σ)

namespace Edit

variable {ε σ ρ α β : Type} {s s' : σ}

def outcome (p : Edit ε σ α) (s : σ) : Except ε α × σ := (p.run.run s).run

def judge (verdict : Except ε α) : Edit ε σ α := ExceptT.mk (pure verdict)

section Outcomes

variable {p : Edit ε σ α} {a : α} {e : ε}

theorem outcome_judge (verdict : Except ε α) :
    (judge verdict : Edit ε σ α).outcome s = (verdict, s) := rfl

theorem outcome_throw (e : ε) : (throw e : Edit ε σ α).outcome s = (.error e, s) := rfl

theorem outcome_get : (get : Edit ε σ σ).outcome s = (.ok s, s) := rfl

theorem outcome_modify (change : σ → σ) :
    (modify change : Edit ε σ PUnit).outcome s = (.ok (), change s) := rfl

theorem outcome_bind_ok (ran : p.outcome s = (.ok a, s')) (k : α → Edit ε σ β) :
    (p >>= k).outcome s = (k a).outcome s' := by
  simp only [outcome] at ran ⊢
  simp [ExceptT.run_bind, StateT.run_bind, ran]

theorem outcome_bind_error (failed : p.outcome s = (.error e, s')) (k : α → Edit ε σ β) :
    (p >>= k).outcome s = (.error e, s') := by
  simp only [outcome] at failed ⊢
  simp [ExceptT.run_bind, StateT.run_bind, failed]

theorem outcome_tryCatch_ok (ran : p.outcome s = (.ok a, s')) (undo : ε → Edit ε σ α) :
    (tryCatch p undo).outcome s = (.ok a, s') := by
  simp only [outcome] at ran ⊢
  simp [ExceptT.run_tryCatch, StateT.run_bind, ran]

theorem outcome_tryCatch_error (failed : p.outcome s = (.error e, s')) (undo : ε → Edit ε σ α) :
    (tryCatch p undo).outcome s = (undo e).outcome s' := by
  simp only [outcome] at failed ⊢
  simp [ExceptT.run_tryCatch, StateT.run_bind, failed]

end Outcomes

variable {p : Edit ε σ Unit} {answer : σ → Except ε σ}

def check (verdict : σ → Except ε Unit) : Edit ε σ Unit := do judge (verdict (← get))

theorem outcome_check (verdict : σ → Except ε Unit) :
    (check verdict : Edit ε σ Unit).outcome s = (verdict s, s) :=
  outcome_bind_ok outcome_get _

/-- All or nothing: the state becomes what the answer tells, or the program fails as the answer does
and leaves the state as it was. -/
def Serves (p : Edit ε σ Unit) (answer : σ → Except ε σ) : Prop :=
  ∀ s, (∃ s', answer s = .ok s' ∧ p.outcome s = (.ok (), s')) ∨
    ∃ e, answer s = .error e ∧ p.outcome s = (.error e, s)

theorem Serves.check (serves : p.Serves answer) (verdict : σ → Except ε Unit) :
    (check verdict >>= fun _ => p).Serves fun s => verdict s >>= fun _ => answer s := by
  intro s
  have checked := outcome_check verdict (s := s)
  cases judged : verdict s with
  | ok _ =>
    rw [judged] at checked
    simpa only [outcome_bind_ok checked, judged, Result.ok_bind] using serves s
  | error e =>
    rw [judged] at checked
    exact .inr ⟨e, congrArg (· >>= fun _ => answer s) judged, outcome_bind_error checked _⟩

theorem serves_modify (change : σ → σ) :
    (modify change : Edit ε σ Unit).Serves fun s => .ok (change s) :=
  fun s => .inl ⟨change s, rfl, rfl⟩

theorem serves_modify_twice (change later : σ → σ) :
    (do modify change; modify later : Edit ε σ Unit).Serves fun s => .ok (later (change s)) :=
  fun s => .inl ⟨later (change s), rfl, rfl⟩

section Runs

variable (perform : ρ → Edit ε σ Unit)

def serve (s : σ) (request : ρ) : σ := ((perform request).outcome s).2

def accepted : σ → List ρ → List ρ
  | _, [] => []
  | s, request :: rest =>
    if ((perform request).outcome s).1.isOk then
      request :: accepted (serve perform s request) rest
    else accepted (serve perform s request) rest

variable {perform} {answers : ρ → σ → Except ε σ}

theorem foldlM_accepted (serves : ∀ request, (perform request).Serves (answers request)) (s : σ)
    (requests : List ρ) :
    (accepted perform s requests).foldlM (fun s request => answers request s) s =
      .ok (requests.foldl (serve perform) s) := by
  induction requests generalizing s with
  | nil => rfl
  | cons request rest ih =>
    rw [accepted, List.foldl_cons]
    rcases serves request s with ⟨s', answered, served⟩ | ⟨e, -, refused⟩
    · rw [if_pos (by simp [served, Except.isOk, Except.toBool]), List.foldlM_cons, answered,
        ok_bind, serve, served]
      exact ih s'
    · rw [if_neg (by simp [refused, Except.isOk, Except.toBool]), serve, refused]
      exact ih s

end Runs

end Edit

end ThreatModel
