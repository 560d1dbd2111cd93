import Mathlib
import ThreatModel.Proofs.Run.Independence

set_option autoImplicit false

namespace ThreatModel

open Result

namespace System

variable {S : System} {D : Declarations} {config : RunConfig} {s s' s'' t f : State}
  {name other : String} {place : Nat} {node : Node}

def StepsTo (S : System) (config : RunConfig) (s : State) (name : String) (s' : State) : Prop :=
  ∃ out, S.step config s name = .ok out ∧ s' ∈ out

def Stuck (S : System) (config : RunConfig) (s : State) : Prop :=
  ∀ name ∈ s.active, S.step config s name = .ok []

theorem stands_unique {place' : Nat} {node' : Node} (one : S.StandsAt s name place node)
    (two : S.StandsAt s name place' node') : place = place' ∧ node = node' := by
  obtain ⟨found, inst, got, here⟩ := one
  obtain ⟨found', inst', got', here'⟩ := two
  obtain rfl : place = place' := by simpa [found] using found'
  obtain rfl : inst = inst' := Except.ok.inj (got.symm.trans got')
  exact ⟨rfl, Option.some.inj (here.symm.trans here')⟩

theorem StandsAt.congr (stands : S.StandsAt s name place node)
    (same : t.pcs.find? name = s.pcs.find? name) : S.StandsAt t name place node :=
  ⟨same.trans stands.1, stands.2⟩

theorem mem_active_of_stands (stands : S.StandsAt s name place node) : name ∈ s.active := by
  refine List.mem_map.mpr ⟨(name, some place), ?_, rfl⟩
  simpa using Table.mem_entries_of_find? stands.1

theorem exists_stands (sound : s.Sound S) (active : name ∈ s.active) :
    ∃ place node, S.StandsAt s name place node := by
  obtain ⟨⟨_, pc⟩, member, rfl⟩ := List.mem_map.mp active
  obtain ⟨entry, some_⟩ := List.mem_filter.mp member
  obtain ⟨place, rfl⟩ := Option.isSome_iff_exists.mp some_
  have found := Table.find?_of_mem_entries sound.distinct entry
  obtain ⟨inst, got⟩ := (sound.instances _).mp (State.mem_keys_of_find? found)
  obtain ⟨node, here⟩ := Graph.exists_node? (sound.places _ place inst found got)
  exact ⟨place, node, found, inst, got, here⟩

namespace Compiled

variable {n : Nat} {names : List String}

theorem steps_sound (compiled : S.Compiled D) (sound : s.Sound S)
    (steps : S.StepsTo config s name s') : s'.Sound S := by
  obtain ⟨out, stepped, member⟩ := steps
  obtain ⟨step, node, takes, rfl, -, rfl⟩ := exists_takes_of_step stepped member
  exact compiled.step_sound sound takes

theorem steps_frame (compiled : S.Compiled D) (sound : s.Sound S) (distinct : name ≠ other)
    (steps : S.StepsTo config s name s') :
    s'.pcs.find? other = s.pcs.find? other ∧ s'.env other = s.env other := by
  obtain ⟨place, node, moves, m, -, -, -, performs⟩ := (compiled.mem_step_iff sound).mp steps
  exact (State.moved_of_perform performs).frame distinct

/-- A silent step of one instance after a step of another can be taken before it. -/
theorem swap (compiled : S.Compiled D) (sound : s.Sound S) (distinct : name ≠ other)
    (stands : S.StandsAt s name place node) (silent : node.action.isSilent = true)
    (first : S.StepsTo config s other s') (second : S.StepsTo config s' name s'') :
    ∃ t t', S.StepsTo config s name t ∧ S.StepsTo config t other t' ∧ t'.Alike s'' := by
  have sound' := compiled.steps_sound sound first
  obtain ⟨place₂, node₂, moves₂, m₂, stands₂, offered₂, among₂, performs₂⟩ :=
    (compiled.mem_step_iff sound).mp first
  obtain ⟨placed, env⟩ := (State.moved_of_perform performs₂).frame (Ne.symm distinct)
  obtain ⟨place₁, node₁, moves, m, stands₁, offered, among, performs⟩ :=
    (compiled.mem_step_iff sound').mp second
  obtain ⟨rfl, rfl⟩ := stands_unique (stands.congr placed) stands₁
  have offers := offers_of_mem offered among
  obtain ⟨inst, got, found⟩ := stands.2
  obtain ⟨inst₂, got₂, found₂⟩ := stands₂.2
  -- The two instances draw under different ids, so each sees the counts it would see alone.
  have apart {x y : String} {id : Nat} (drawn : node.action = .fresh x id)
      (drawn₂ : m₂ = .draw y id) : False := by
    subst drawn₂
    cases offers_of_mem offered₂ among₂ with
    | draw action =>
      exact compiled.draws_apart got got₂ distinct ⟨place, node, x, found, drawn⟩
        ⟨place₂, node₂, y, found₂, action⟩
  -- So the silent move is the same update in both states, and updates commute with other moves.
  obtain ⟨u, local_⟩ := update?_of_silent silent offers (s.env name) s.drawn.count
  have local' : m.update? (s'.env name) s'.drawn.count node.successors = some u := by
    rw [env, ← local_]
    cases m with
    | draw x id =>
      have drawn : ∃ y, node.action = .fresh y id := by
        cases offers with
        | draw action => exact ⟨x, action⟩
      obtain ⟨y, drawn⟩ := drawn
      have count := State.perform_count sound.ordered (fun z same => apart drawn same) performs₂
      simp [Move.update?, count]
    | _ => rfl
  have present : name ∈ s.pcs.keys := (sound.instances name).mpr ⟨inst, got⟩
  have values : name ∈ s.envs.keys := (sound.environments name).mpr present
  have values' : name ∈ s'.envs.keys :=
    (sound'.environments name).mpr ((sound'.instances name).mpr ⟨inst, got⟩)
  obtain rfl : s'.update name u = s'' :=
    Except.ok.inj ((State.perform_eq_update values' local').symm.trans performs)
  have early : s.perform S.theory config name node.successors m = .ok (s.update name u) :=
    State.perform_eq_update values local_
  obtain ⟨t', late, alike⟩ := State.perform_update distinct sound.ordered present values
    (by
      intro x id drawn₂ drawn
      obtain ⟨y, drawn⟩ := draws_of_offers offers local_ drawn
      exact apart drawn drawn₂)
    performs₂
  have offered' : S.movesAt s name node = .ok moves := by
    rw [movesAt_of_silent silent env.symm]
    exact offered
  have steps : S.StepsTo config s name (s.update name u) :=
    (compiled.mem_step_iff sound).mpr ⟨place, node, moves, m, stands, offered', among, early⟩
  obtain ⟨placed₂, env₂⟩ := (State.moved_of_perform early).frame distinct
  refine ⟨s.update name u, t', steps, ?_, alike⟩
  have offered₂' : S.movesAt (s.update name u) other node₂ = .ok moves₂ := by
    rw [movesAt_congr env₂ rfl]
    exact offered₂
  exact (compiled.mem_step_iff (compiled.steps_sound sound steps)).mpr
    ⟨place₂, node₂, moves₂, m₂, stands₂.congr placed₂, offered₂', among₂, late⟩

theorem steps_alike (compiled : S.Compiled D) (sound : s.Sound S) (alike : s.Alike t)
    (steps : S.StepsTo config s name s') : ∃ t', S.StepsTo config t name t' ∧ s'.Alike t' := by
  obtain ⟨place, node, moves, m, stands, offered, among, performs⟩ :=
    (compiled.mem_step_iff sound).mp steps
  obtain ⟨t', performs', alike'⟩ := State.perform_of_alike alike performs
  refine ⟨t', (compiled.mem_step_iff (alike.sound sound)).mpr
    ⟨place, node, moves, m, stands.congr (by rw [alike.pcs]), ?_, among, performs'⟩, alike'⟩
  rw [← movesAt_congr (alike.env name) alike.stores]
  exact offered

theorem path_alike (compiled : S.Compiled D) (sound : s.Sound S) (alike : s.Alike t)
    (path : Path (S.Interleaves config) n s f) :
    ∃ f', Path (S.Interleaves config) n t f' ∧ f.Alike f' := by
  induction path generalizing t with
  | refl => exact ⟨t, .refl t, alike⟩
  | head first _ ih =>
    obtain ⟨name, active, steps⟩ := first
    obtain ⟨t', steps', alike'⟩ := compiled.steps_alike sound alike steps
    obtain ⟨f', path', ends⟩ := ih (compiled.steps_sound sound steps) alike'
    exact ⟨f', .head ⟨name, alike.active ▸ active, steps'⟩ path', ends⟩

theorem step_ne_nil_of_silent (compiled : S.Compiled D) (stands : S.StandsAt s name place node)
    (silent : node.action.isSilent = true) : S.step config s name ≠ .ok [] := by
  intro stepped
  obtain ⟨place', node', moves, stands', offered, performed⟩ := step_eq_ok_iff.mp stepped
  obtain ⟨rfl, rfl⟩ := stands_unique stands stands'
  obtain ⟨-, inst, got, found⟩ := stands
  obtain ⟨first, next, -, sound⟩ := compiled.each inst (mem_of_get got).1
  -- Every call site was given its alternatives.
  have sites (f : String) (action : node.action = .callSite f) : node.successors ≠ [] :=
    fun none => sound.sites place ⟨node, f, found, action, none⟩
  cases moves with
  | nil => exact exists_offered_of_silent sites silent offered rfl
  | cons m rest =>
    obtain ⟨_, _, -, -, absurd_⟩ := List.forall₂_cons_left_iff.mp (mapM_eq_ok_iff.mp performed)
    simp at absurd_

theorem not_stuck_of_silent (compiled : S.Compiled D) (stands : S.StandsAt s name place node)
    (silent : node.action.isSilent = true) : ¬ S.Stuck config s :=
  fun stuck => compiled.step_ne_nil_of_silent stands silent (stuck name (mem_active_of_stands stands))

theorem stuck_alike (alike : s.Alike t) (stuck : S.Stuck config s) : S.Stuck config t := by
  intro name active
  obtain ⟨place, node, moves, stands, offered, performed⟩ :=
    step_eq_ok_iff.mp (stuck name (alike.active ▸ active))
  obtain rfl : moves = [] := List.forall₂_nil_right_iff.mp (mapM_eq_ok_iff.mp performed)
  refine step_eq_ok_iff.mpr ⟨place, node, [], stands.congr (by rw [alike.pcs]), ?_, rfl⟩
  rw [← movesAt_congr (alike.env name) alike.stores]
  exact offered

theorem silent_first (compiled : S.Compiled D) (sound : s.Sound S)
    (path : Path (S.Interleaves config) (n + 1) s f) (stuck : S.Stuck config f)
    (stands : S.StandsAt s name place node) (silent : node.action.isSilent = true) :
    ∃ s' f', S.StepsTo config s name s' ∧ Path (S.Interleaves config) n s' f' ∧ f'.Alike f := by
  induction n generalizing s with
  | zero =>
    cases path with
    | head first rest =>
      cases rest
      obtain ⟨mover, active, steps⟩ := first
      by_cases same : mover = name
      · subst same
        exact ⟨f, f, steps, .refl f, .refl f⟩
      · -- Another instance made the last step and left the silent one where it was.
        have kept := (compiled.steps_frame sound same steps).1
        exact absurd stuck (compiled.not_stuck_of_silent (stands.congr kept) silent)
  | succ n ih =>
    cases path with
    | @head _ s₁ _ _ first rest =>
      obtain ⟨mover, active, steps⟩ := first
      by_cases same : mover = name
      · subst same
        exact ⟨s₁, f, steps, rest, .refl f⟩
      · have sound₁ := compiled.steps_sound sound steps
        have kept := (compiled.steps_frame sound same steps).1
        -- The rest of the run can begin with the silent step, which then moves one step up.
        obtain ⟨s₂, f₁, steps₁, path₁, alike₁⟩ := ih sound₁ rest (stands.congr kept)
        obtain ⟨t, t', early, late, alike⟩ :=
          compiled.swap sound (Ne.symm same) stands silent steps steps₁
        have sound₂ := compiled.steps_sound sound₁ steps₁
        obtain ⟨f₂, path₂, alike₂⟩ := compiled.path_alike sound₂ alike.symm path₁
        have active' : mover ∈ t.active := by
          obtain ⟨place', node', moves, stands', -, -⟩ := step_eq_ok_iff.mp late.choose_spec.1
          exact mem_active_of_stands stands'
        exact ⟨t, f₂, early, .head ⟨mover, active', late⟩ path₂, alike₂.symm.trans alike₁⟩

theorem exists_movesAt (compiled : S.Compiled D) (sound : s.Sound S)
    (stands : S.StandsAt s name place node) (env : s.env name = t.env name) {moves : List Move}
    (offered : S.movesAt t name node = .ok moves) : ∃ moves, S.movesAt s name node = .ok moves := by
  obtain ⟨inst, got, found, -, nameless, touches⟩ := compiled.node_sound stands
  have stored (store : String) (touched : node.action.store? = some store) :
      ∃ held, s.stores.find? store = some held :=
    Table.exists_find?_iff.mpr ((sound.stores store).mpr (touches store touched))
  have matched (store : String) (touched : node.action.store? = some store) {p pattern : Term}
      (made : S.theory.normalize p = .ok pattern) : ∃ held, s.stores.find? store = some held ∧
        ∃ options, held.candidatesOf S.theory pattern = .ok options := by
    obtain ⟨held, here⟩ := stored store touched
    exact ⟨held, here, Store.exists_candidatesOf (Theory.normal_of_normalize made)
      (sound.facts store held here).2⟩
  -- Its terms have the same values in both states; only what the stores hold may differ.
  cases action : node.action with
  | remove store v =>
    simp only [movesAt, action, bind_eq_ok_iff] at offered
    obtain ⟨fact, value, -⟩ := offered
    rw [← env] at value
    obtain ⟨held, here⟩ := stored store (by simp [action, Action.store?])
    have normal :=
      compiled.value_of_evaluate sound (nameless v (by simp [action, Action.terms])) value
    simp only [movesAt, action, bind_eq_ok_iff, lift_eq_ok_iff, State.store_eq_ok_iff]
    have decided : held.holds S.theory fact = .ok (held.facts.contains fact) :=
      Store.holds_of_normal normal.normal
    cases there : held.facts.contains fact with
    | true => exact ⟨_, fact, value, held, here, true, there ▸ decided, rfl⟩
    | false => exact ⟨_, fact, value, held, here, false, there ▸ decided, rfl⟩
  | consume store p binds =>
    simp only [movesAt, action, bind_eq_ok_iff, lift_eq_ok_iff] at offered
    obtain ⟨_, -, pattern, made, -⟩ := offered
    rw [← env] at made
    obtain ⟨held, here, options, matching⟩ := matched store (by simp [action, Action.store?]) made
    simp only [movesAt, action, bind_eq_ok_iff, lift_eq_ok_iff, State.store_eq_ok_iff,
      pure_eq_ok_iff]
    exact ⟨_, held, here, pattern, made, options, matching, rfl⟩
  | read store p binds =>
    simp only [movesAt, action, bind_eq_ok_iff, lift_eq_ok_iff] at offered
    obtain ⟨_, -, pattern, made, -⟩ := offered
    rw [← env] at made
    obtain ⟨held, here, options, matching⟩ := matched store (by simp [action, Action.store?]) made
    simp only [movesAt, action, bind_eq_ok_iff, lift_eq_ok_iff, State.store_eq_ok_iff,
      Store.read, pure_eq_ok_iff]
    exact ⟨_, held, here, pattern, made, _, ⟨options, matching, rfl⟩, rfl⟩
  | start | fresh x id | assign x v | guard cs excluded | choice | loopHead | callSite f
  | alternative tag | join =>
    exact ⟨moves, (movesAt_of_silent (by simp [action, Action.isSilent]) env).trans offered⟩
  | finish =>
    simp only [movesAt, action]
    exact ⟨_, rfl⟩
  | insert store v | emit v index =>
    simp only [movesAt, action, ← env] at offered ⊢
    exact ⟨moves, offered⟩

theorem exists_step (compiled : S.Compiled D) (sound : s.Sound S)
    (path : Path (S.Interleaves config) n s f) (stuck : S.Stuck config f)
    (active : name ∈ s.active) : ∃ out, S.step config s name = .ok out := by
  induction path with
  | refl => exact ⟨[], stuck name active⟩
  | @head s s₁ f n first rest ih =>
    obtain ⟨mover, -, steps⟩ := first
    by_cases same : mover = name
    · subst same
      obtain ⟨out, stepped, -⟩ := steps
      exact ⟨out, stepped⟩
    · -- Another instance moves; this one could step afterwards, and nothing it needs has changed.
      obtain ⟨place, node, stands⟩ := exists_stands sound active
      obtain ⟨kept, env⟩ := compiled.steps_frame sound same steps
      have stands₁ := stands.congr kept
      obtain ⟨out, stepped⟩ :=
        ih (compiled.steps_sound sound steps) stuck (mem_active_of_stands stands₁)
      obtain ⟨place', node', moves, stands', offered, -⟩ := step_eq_ok_iff.mp stepped
      obtain ⟨rfl, rfl⟩ := stands_unique stands₁ stands'
      obtain ⟨moves', offered'⟩ := compiled.exists_movesAt sound stands env.symm offered
      exact (compiled.exists_stepped sound stands offered').imp fun out stepped => stepped.1

theorem firstSilent?_ok (sound : s.Sound S) (active : ∀ name ∈ names, name ∈ s.active) :
    ∃ found, S.firstSilent? s names = .ok found := by
  induction names with
  | nil => exact ⟨none, rfl⟩
  | cons first rest ih =>
    obtain ⟨place, node, stands⟩ := exists_stands sound (active first (by simp))
    obtain ⟨found, later⟩ := ih fun name member => active name (by simp [member])
    have here : S.isSilentAt s first = .ok node.action.isSilent := by
      simp only [isSilentAt, bind_eq_ok_iff, pure_eq_ok_iff]
      exact ⟨node, current_eq_ok_iff.mpr ⟨place, stands⟩, rfl⟩
    cases silent : node.action.isSilent with
    | true => exact ⟨some first, by simp [firstSilent?, here, silent]⟩
    | false => exact ⟨found, by simp [firstSilent?, here, silent, later]⟩

theorem exists_of_stepAll {out : List State} (done : S.stepAll config s names = .ok out) :
    ∀ name ∈ names, ∃ part, S.step config s name = .ok part ∧ part ⊆ out := by
  induction names generalizing out with
  | nil => simp
  | cons first rest ih =>
    simp only [stepAll, bind_eq_ok_iff, pure_eq_ok_iff] at done
    obtain ⟨here, stepped, later, others, rfl⟩ := done
    refine List.forall_mem_cons.mpr ⟨⟨here, stepped, List.subset_append_left _ _⟩, ?_⟩
    intro name member
    obtain ⟨part, stepped, among⟩ := ih others name member
    exact ⟨part, stepped, List.subset_append_of_subset_right _ among⟩

theorem exists_stepAll (each : ∀ name ∈ names, ∃ out, S.step config s name = .ok out) :
    ∃ out, S.stepAll config s names = .ok out ∧
      ∀ name ∈ names, ∀ s', S.StepsTo config s name s' → s' ∈ out := by
  induction names with
  | nil => exact ⟨[], rfl, by simp⟩
  | cons first rest ih =>
    obtain ⟨here, stepped⟩ := each first (by simp)
    obtain ⟨later, others, all⟩ := ih fun name member => each name (by simp [member])
    refine ⟨here ++ later, by simp [stepAll, stepped, others], ?_⟩
    intro name member s' steps
    rcases List.mem_cons.mp member with rfl | among
    · obtain ⟨out, stepped', inside⟩ := steps
      obtain rfl : here = out := Except.ok.inj (stepped.symm.trans stepped')
      exact List.mem_append_left _ inside
    · exact List.mem_append_right _ (all name among s' steps)

theorem exists_explored (compiled : S.Compiled D) (sound : s.Sound S)
    (path : Path (S.Interleaves config) n s f) (stuck : S.Stuck config f) :
    ∃ f', Path (S.Explores config) n s f' ∧ f'.Alike f := by
  induction n generalizing s f with
  | zero =>
    cases path
    exact ⟨s, .refl s, .refl s⟩
  | succ n ih =>
    obtain ⟨found, silent⟩ := firstSilent?_ok sound fun name member => member
    cases found with
    | some name =>
      -- The search runs this instance alone; the run is reordered to begin with it.
      obtain ⟨-, node, here, quiet⟩ := mem_of_firstSilent? silent
      obtain ⟨place, stands⟩ := current_eq_ok_iff.mp here
      obtain ⟨s', f₁, steps, rest, alike⟩ :=
        compiled.silent_first sound path stuck stands quiet
      have sound' := compiled.steps_sound sound steps
      obtain ⟨f', explored, alike'⟩ := ih sound' rest (stuck_alike alike.symm stuck)
      obtain ⟨out, stepped, member⟩ := steps
      refine ⟨f', .head ⟨out, ?_, member⟩ explored, alike'.trans alike⟩
      simp [successors, silent, stepped]
    | none =>
      -- Every instance is tried, so the run's own first step is among those explored.
      obtain ⟨out, stepped, all⟩ :=
        exists_stepAll fun name active => compiled.exists_step sound path stuck active
      cases path with
      | @head _ s' _ _ first rest =>
        obtain ⟨name, active, steps⟩ := first
        obtain ⟨f', explored, alike⟩ := ih (compiled.steps_sound sound steps) rest stuck
        refine ⟨f', .head ⟨out, ?_, all name active s' steps⟩ explored, alike⟩
        simp [successors, silent, stepped]

end Compiled

theorem Path.interleaves {n : Nat} (path : Path (S.Explores config) n s f) :
    Path (S.Interleaves config) n s f := by
  induction path with
  | refl => exact .refl _
  | head first _ ih => exact .head first.interleaves ih

/-- The search is exact: it comes to every end that some interleaving comes to, in as many steps,
and takes no steps of its own. -/
theorem explores_exactly {compiler : CompilerConfig} {M : Model} (done : compile compiler M = .ok S)
    (config : RunConfig) :
    ∃ s₀, State.initial S = .ok s₀ ∧
      (∀ n f, Path (S.Interleaves config) n s₀ f → S.Stuck config f →
        ∃ f', Path (S.Explores config) n s₀ f' ∧ f'.Alike f) ∧
      ∀ n s, Path (S.Explores config) n s₀ s → Path (S.Interleaves config) n s₀ s := by
  obtain ⟨D, compiled⟩ := compiled_of_compile done
  refine ⟨S.start, compiled.initial_eq, ?_, fun n s path => path.interleaves⟩
  intro n f path stuck
  exact compiled.exists_explored compiled.start_sound path stuck

def schedule (S : System) (config : RunConfig) : List String → State → Result State
  | [], s => .ok s
  | name :: rest, s => do
      match ← S.step config s name with
      | [] => throw .outOfRange
      | next :: _ => schedule S config rest next

theorem path_of_schedule {names : List String} {f : State}
    (followed : S.schedule config names s = .ok f) :
    Path (S.Interleaves config) names.length s f := by
  induction names generalizing s with
  | nil => exact Except.ok.inj followed ▸ .refl s
  | cons name rest ih =>
    rw [schedule, bind_eq_ok_iff] at followed
    obtain ⟨out, stepped, followed⟩ := followed
    cases out with
    | nil => simp at followed
    | cons next others =>
      obtain ⟨place, node, moves, stands, -⟩ := step_eq_ok_iff.mp stepped
      exact .head ⟨name, mem_active_of_stands stands, _, stepped, List.mem_cons_self⟩ (ih followed)

instance (S : System) (config : RunConfig) (s : State) : Decidable (S.Stuck config s) :=
  inferInstanceAs (Decidable (∀ name ∈ s.active, S.step config s name = .ok []))

end System

def Model.rivals : Model where
  types := Model.courier.types
  grants := Model.courier.grants
  constants := Model.courier.constants
  channels := Model.courier.channels
  processes := Model.courier.processes
  system := some
    { instances := [{ template := "Sender", args := ["net"], name := some "a" },
        { template := "Receiver", args := ["net"], name := some "b" },
        { template := "Receiver", args := ["net"], name := some "c" }]
      lemmas := [{ name := "arrives", kind := .reachable,
                   events := [{ tag := "Got", args := [.ident "y" none] }] }] }

namespace System

/-- The second receiver starts, silently, before the sender does and takes what is sent, so that the
first one waits for ever. The search does not start so, but comes to that end too. -/
theorem explores_rivals_exactly : ∃ S s₀ s₁ f f', compile {} Model.rivals = .ok S ∧
    State.initial S = .ok s₀ ∧ S.Interleaves {} s₀ s₁ ∧ ¬ S.Explores {} s₀ s₁ ∧
    Path (S.Interleaves {}) 11 s₀ f ∧ S.Stuck {} f ∧ f.active = ["b"] ∧
    Path (S.Explores {}) 11 s₀ f' ∧ f'.Alike f := by
  have ran : (do
      let S ← compile {} Model.rivals
      let s₀ ← State.initial S
      let s₁ ← S.schedule {} ["c"] s₀
      let f ← S.schedule {} ["a", "a", "a", "a", "c", "c", "b", "a", "c", "c"] s₁
      let out ← S.successors {} s₀
      return (out.contains s₁, decide (S.Stuck {} f), f.active) :
        Result (Bool × Bool × List String)) = .ok (false, true, ["b"]) := by
    decide +kernel
  simp only [bind_eq_ok_iff, pure_eq_ok_iff, lift_eq_ok_iff, Prod.mk.injEq,
    decide_eq_true_eq] at ran
  obtain ⟨S, done, s₀, initial, s₁, started, f, followed, out, explored, apart, stuck, waits⟩ := ran
  have silent := path_of_schedule started
  cases silent with
  | head first rest =>
    cases rest with
    | refl =>
      have whole : Path (S.Interleaves {}) 11 s₀ f := .head first (path_of_schedule followed)
      obtain ⟨s₀', initial', reaches, -⟩ := explores_exactly done {}
      obtain rfl := Except.ok.inj (initial.symm.trans initial')
      obtain ⟨f', path, alike⟩ := reaches 11 f whole stuck
      refine ⟨S, s₀, s₁, f, f', done, initial, first, ?_, whole, stuck, waits, path, alike⟩
      rintro ⟨out', explored', member⟩
      obtain rfl := Except.ok.inj (explored.symm.trans explored')
      simp [member] at apart

end System

end ThreatModel
