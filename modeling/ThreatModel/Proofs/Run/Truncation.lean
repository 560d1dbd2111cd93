import Mathlib
import ThreatModel.Proofs.Run.Outcome
import ThreatModel.Proofs.Run.Search

set_option autoImplicit false

namespace ThreatModel

open Result Relation

namespace System

variable {S : System} {D : Declarations} {config : RunConfig} {s₀ s s' : State} {t : Trace}
  {bound : Int}

section Bounds

-- A bound on the steps of a run has no say in what a step does.
theorem perform_withBound (s : State) (T : Theory) (config : RunConfig) (bound : Int)
    (name : String) (next : List Nat) (m : Move) :
    s.perform T { config with maxSteps := bound } name next m = s.perform T config name next m := by
  cases m <;> rfl

theorem step_withBound (S : System) (config : RunConfig) (bound : Int) (s : State)
    (name : String) : S.step { config with maxSteps := bound } s name = S.step config s name := by
  have same (next : List Nat) : s.perform S.theory { config with maxSteps := bound } name next =
      s.perform S.theory config name next :=
    funext (perform_withBound s S.theory config bound name next)
  simp only [step, same]

theorem successors_withBound (S : System) (config : RunConfig) (bound : Int) (s : State) :
    S.successors { config with maxSteps := bound } s = S.successors config s := by
  have all (names : List String) : S.stepAll { config with maxSteps := bound } s names =
      S.stepAll config s names := by
    induction names with
    | nil => rfl
    | cons name rest ih => rw [stepAll, stepAll, step_withBound, ih]
  simp only [successors, step_withBound, all]

theorem Continues.mono (continues : S.Continues config s s') (more : config.maxSteps ≤ bound) :
    S.Continues { config with maxSteps := bound } s s' := by
  obtain ⟨next, continued, member⟩ := continues
  refine ⟨next, ?_, member⟩
  unfold continuations at continued ⊢
  split at continued
  next going =>
    rw [if_pos (lt_of_lt_of_le going more), successors_withBound, continued]
  next =>
    obtain rfl := Except.ok.inj continued
    simp at member

theorem reached_withBound (reached : ReflTransGen (S.Continues config) s₀ s)
    (more : config.maxSteps ≤ bound) :
    ReflTransGen (S.Continues { config with maxSteps := bound }) s₀ s := by
  have wider : S.Continues config ≤ S.Continues { config with maxSteps := bound } :=
    fun _ _ continues => continues.mono more
  exact ReflTransGen.mono wider _ _ reached

theorem Run.of_reached (reached : ReflTransGen (S.Continues config) s₀ s) :
    ∃ history, S.Run config s₀ history s := by
  induction reached with
  | refl => exact ⟨[], .start⟩
  | tail _ continues ih =>
    obtain ⟨history, run⟩ := ih
    obtain ⟨next, continued, member⟩ := continues
    exact run.continues continued member

end Bounds

section Marks

theorem Yields.truncated_iff (yields : S.Yields config s t) :
    t.truncated = true ↔ config.maxSteps ≤ t.steps := by
  obtain ⟨-, rfl⟩ := yields
  simp [Trace.ofState]

theorem Yields.successors_eq (yields : S.Yields config s t) (going : t.steps < config.maxSteps) :
    S.successors config s = .ok [] := by
  obtain ⟨ended, rfl⟩ := yields
  have below : (s.steps : Int) < config.maxSteps := going
  rwa [continuations, if_pos below] at ended

theorem Yields.withBound (yields : S.Yields config s t) (rests : S.successors config s = .ok [])
    (more : t.steps < bound) :
    S.Yields { config with maxSteps := bound } s { t with truncated := false } := by
  obtain ⟨-, rfl⟩ := yields
  have below : (s.steps : Int) < bound := more
  refine ⟨?_, ?_⟩
  · rw [continuations, if_pos below, successors_withBound, rests]
  · simp [Trace.ofState, below]

theorem Yields.truncated_iff_cases (yields : S.Yields config s t)
    (within : t.steps ≤ config.maxSteps) :
    t.truncated = true ↔ (∃ s', S.Explores config s s') ∨
      (∃ fault, S.successors config s = .error fault) ∨
      S.successors config s = .ok [] ∧ t.steps = config.maxSteps := by
  rw [yields.truncated_iff]
  constructor
  · intro met
    cases next : S.successors config s with
    | error fault => exact .inr (.inl ⟨fault, rfl⟩)
    | ok states =>
      cases states with
      | nil => exact .inr (.inr ⟨rfl, by omega⟩)
      | cons s' rest => exact .inl ⟨s', s' :: rest, next, by simp⟩
  · intro cut
    by_contra short
    have none := yields.successors_eq (by omega)
    rcases cut with ⟨s', next, explored, member⟩ | ⟨fault, failed⟩ | ⟨-, met⟩
    · obtain rfl := Except.ok.inj (none.symm.trans explored)
      simp at member
    · rw [none] at failed
      cases failed
    · omega

theorem Compiled.waits_of_rest (compiled : S.Compiled D) (sound : s.Sound S)
    (rests : S.successors config s = .ok []) :
    ∀ name ∈ s.active, ∃ place node, S.StandsAt s name place node ∧ S.Waits s name node := by
  intro name active
  obtain ⟨place, node, stands⟩ := exists_stands sound active
  exact ⟨place, node, stands,
    compiled.waits_of_stuck sound stands (compiled.stuck_of_successors rests name active)⟩

end Marks

/-- A trace is marked as cut if and only if the state it stems from has a successor, or its
successors cannot be told, or the run came to rest with the last step it may take. -/
theorem truncated_iff_cut_or_at_rest {options : CompilerConfig} {M : Model} {x : Exploration}
    (done : compile options M = .ok S) (room : 0 ≤ config.maxSteps)
    (explored : S.explore config = .ok x) :
    ∃ s₀, State.initial S = .ok s₀ ∧
      (∀ t ∈ x.traces, ∃ s, ReflTransGen (S.Continues config) s₀ s ∧ S.Yields config s t) ∧
      ∀ s t, ReflTransGen (S.Continues config) s₀ s → S.Yields config s t →
        (t.truncated = true ↔ (∃ s', S.Explores config s s') ∨
          (∃ fault, S.successors config s = .error fault) ∨
          S.successors config s = .ok [] ∧ t.steps = config.maxSteps) ∧
        (S.successors config s = .ok [] →
          (∀ name ∈ s.active, ∃ place node, S.StandsAt s name place node ∧ S.Waits s name node) ∧
          ∀ bound, config.maxSteps < bound →
            ReflTransGen (S.Continues { config with maxSteps := bound }) s₀ s ∧
            S.Yields { config with maxSteps := bound } s { t with truncated := false }) := by
  obtain ⟨D, -, compiled, -⟩ := exists_declared done
  have initial := compiled.initial_eq
  obtain ⟨last, leads, ended⟩ := Search.exists_end S config ⟨[S.start], {}⟩
  obtain rfl : last.found = x := by
    have same := (Search.outcome_initial initial).symm.trans explored
    rw [leads.outcome_eq, Search.outcome_of_end ended] at same
    exact Except.ok.inj same
  refine ⟨S.start, initial, (Search.Within.of_leads leads).traces, fun s t reached yields => ?_⟩
  have within : t.steps ≤ config.maxSteps := by
    obtain ⟨-, rfl⟩ := yields
    simpa [Trace.ofState, room] using steps_le_of_reached initial reached
  refine ⟨yields.truncated_iff_cases within, fun rests => ⟨?_, fun bound more => ?_⟩⟩
  · obtain ⟨history, run⟩ := Run.of_reached reached
    exact compiled.waits_of_rest (compiled.run_sound compiled.start_sound run) rests
  · exact ⟨reached_withBound reached more.le, yields.withBound rests (by omega)⟩

end System

-- One instance that listens where nobody speaks: it gets as far as the channel.
def Model.listener : Model where
  types := [{ name := "host_t", kind := .process }, { name := "net_t", kind := .channel }]
  grants := [{ subject := "host_t", object := some "net_t", operations := ["recv"] }]
  channels := [{ name := "net", type := "net_t" }]
  processes :=
    [{ name := "Listener", type := "host_t", params := [{ name := "c", type := "net_t" }]
       main := .seq [.bind "x" (.apply "recv" [.ident "c" none] none),
         .emit { tag := "Heard", args := [.ident "x" none] }] }]
  system := some
    { instances := [{ template := "Listener", args := ["net"], name := some "a" }]
      lemmas := [{ name := "heard", kind := .reachable
                   events := [{ tag := "Heard", args := [.ident "y" none] }] }] }

theorem System.listener_marked_at_rest : ∃ S x t s₀ s, compile {} Model.listener = .ok S ∧
    S.explore { maxSteps := 1 } = .ok x ∧ t ∈ x.traces ∧ State.initial S = .ok s₀ ∧
      ReflTransGen (S.Continues { maxSteps := 1 }) s₀ s ∧ S.Yields { maxSteps := 1 } s t ∧
      t.truncated = true ∧ S.successors { maxSteps := 1 } s = .ok [] ∧
      (∃ place node, S.StandsAt s "a" place node ∧ S.Waits s "a" node) ∧
      S.Yields { maxSteps := 2 } s { t with truncated := false } := by
  have ran : (do
      let S ← compile {} Model.listener
      let s₀ ← State.initial S
      let x ← S.explore { maxSteps := 1 }
      let next ← S.continuations { maxSteps := 1 } s₀
      let ends ← next.mapM (S.successors { maxSteps := 1 })
      return (decide (x.traces = next.map fun s => .ofState s true),
        next.map fun s => (s.active, s.steps), ends) :
          Result (Bool × List (List String × Nat) × List (List State))) =
      .ok (true, [(["a"], 1)], [[]]) := by
    decide +kernel
  simp only [bind_eq_ok_iff, pure_eq_ok_iff, lift_eq_ok_iff, Prod.mk.injEq,
    decide_eq_true_iff] at ran
  obtain ⟨S, done, s₀, initial, x, explored, next, continued, ends, tried, traces, stands, rfl⟩ :=
    ran
  obtain ⟨s, rfl, here⟩ := List.map_eq_singleton_iff.mp stands
  obtain ⟨active, steps⟩ := Prod.mk.inj here
  have rests : S.successors { maxSteps := 1 } s = .ok [] := by
    simpa using mapM_eq_ok_iff.mp tried
  have reached : ReflTransGen (S.Continues { maxSteps := 1 }) s₀ s :=
    .single ⟨[s], continued, by simp⟩
  have yields : S.Yields { maxSteps := 1 } s (.ofState s true) :=
    ⟨by simp [continuations, steps], by simp [steps]⟩
  obtain ⟨s₁, initial', -, marks⟩ := truncated_iff_cut_or_at_rest done (by decide) explored
  obtain rfl := Except.ok.inj (initial.symm.trans initial')
  obtain ⟨mark, restful⟩ := marks s _ reached yields
  obtain ⟨waits, later⟩ := restful rests
  exact ⟨S, x, _, s₀, s, done, explored, by simp [traces], initial, reached, yields,
    mark.mpr (.inr (.inr ⟨rests, by simp [Trace.ofState, steps]⟩)), rests,
    waits "a" (by simp [active]), (later 2 (by decide)).2⟩

end ThreatModel
