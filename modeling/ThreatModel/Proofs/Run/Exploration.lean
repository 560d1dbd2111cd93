import Mathlib
import ThreatModel.Run.Explore
import ThreatModel.Proofs.Run.Interleaving

set_option autoImplicit false

namespace ThreatModel

open Result

theorem Exploration.mem_add {config : RunConfig} {x : Exploration} {t t' : Trace}
    (member : t ∈ (x.add config t').traces) : t ∈ x.traces ∨ t = t' := by
  unfold add at member
  split at member
  · split at member
    · exact .inl member
    · simpa using member
  · simpa using member

namespace System

variable {S : System} {D : Declarations} {config : RunConfig} {s₀ s s' : State} {t : Trace}
  {x : Exploration} {history : List Step}

def Yields (S : System) (config : RunConfig) (s : State) (t : Trace) : Prop :=
  S.continuations config s = .ok [] ∧ t = .ofState s (config.maxSteps ≤ s.steps)

theorem Run.explores (run : S.Run config s₀ history s) (explores : S.Explores config s s') :
    ∃ later, S.Run config s₀ later s' := by
  obtain ⟨name, -, out, stepped, member⟩ := explores.interleaves
  obtain ⟨step, node, takes, rfl, -, rfl⟩ := exists_takes_of_step stepped member
  exact ⟨_, run.step takes⟩

theorem Run.continues (run : S.Run config s₀ history s) {next : List State}
    (continued : S.continuations config s = .ok next) (member : s' ∈ next) :
    ∃ later, S.Run config s₀ later s' := by
  unfold continuations at continued
  split at continued
  · exact run.explores ⟨next, continued, member⟩
  · obtain rfl := Except.ok.inj continued
    simp at member

theorem Run.exists_of_exploreFrom {depth : Nat} (run : S.Run config s₀ history s)
    (member : t ∈ (S.exploreFrom config depth s x).traces) :
    t ∈ x.traces ∨ ∃ later f, S.Run config s₀ later f ∧ S.Yields config f t := by
  induction depth generalizing s history x with
  | zero =>
    unfold exploreFrom at member
    split at member <;> exact .inl member
  | succ depth ih =>
    -- The states after this one are searched in turn, each adding to what was found before it.
    have fold (next : List State) (reached : ∀ s' ∈ next, ∃ later, S.Run config s₀ later s')
        (x : Exploration)
        (member : t ∈ (next.foldl (fun x s' => S.exploreFrom config depth s' x) x).traces) :
        t ∈ x.traces ∨ ∃ later f, S.Run config s₀ later f ∧ S.Yields config f t := by
      induction next generalizing x with
      | nil => exact .inl member
      | cons first rest others =>
        obtain ⟨later, run⟩ := reached first List.mem_cons_self
        rcases others (fun s' among => reached s' (List.mem_cons_of_mem _ among)) _ member with
          early | found
        · exact ih run early
        · exact .inr found
    unfold exploreFrom at member
    split at member
    next => exact .inl member
    next =>
      split at member
      next => exact .inl member
      next ended =>
        rcases Exploration.mem_add member with old | rfl
        · exact .inl old
        · exact .inr ⟨history, s, run, ended, rfl⟩
      next next _ continued =>
        exact fold next (fun s' among => run.continues continued among) x member

theorem exists_run_of_explore (explored : S.explore config = .ok x) (member : t ∈ x.traces) :
    ∃ s₀ history s, State.initial S = .ok s₀ ∧ S.Run config s₀ history s ∧ S.Yields config s t := by
  simp only [explore, bind_eq_ok_iff, pure_eq_ok_iff, lift_eq_ok_iff] at explored
  obtain ⟨s₀, initial, rfl⟩ := explored
  rcases Run.exists_of_exploreFrom .start member with old | ⟨history, s, run, yields⟩
  · simp at old
  · exact ⟨s₀, history, s, initial, run, yields⟩

end System

end ThreatModel
