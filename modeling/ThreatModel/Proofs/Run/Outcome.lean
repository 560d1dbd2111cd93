import Mathlib
import ThreatModel.Proofs.Elaboration.Shape
import ThreatModel.Proofs.Run.Exploration

set_option autoImplicit false

namespace ThreatModel

open Result

theorem Table.mem_keys_filter {κ α : Type} [DecidableEq κ] {t : Table κ α} {key : κ}
    {p : κ × α → Bool} (distinct : t.keys.Nodup) :
    key ∈ (t.entries.filter p).map (·.1) ↔
      ∃ value, t.find? key = some value ∧ p (key, value) = true := by
  constructor
  · intro member
    obtain ⟨⟨_, value⟩, among, rfl⟩ := List.mem_map.mp member
    obtain ⟨entry, kept⟩ := List.mem_filter.mp among
    exact ⟨value, find?_of_mem_entries distinct entry, kept⟩
  · rintro ⟨value, found, kept⟩
    exact List.mem_map.mpr ⟨_, List.mem_filter.mpr ⟨mem_entries_of_find? found, kept⟩, rfl⟩

namespace Store

variable {T : Theory} {names : Set String}

theorem unmatched_of_candidatesOf {held : Store} {pattern : Term} (normal : T.Normal pattern)
    (values : ∀ fact ∈ held.facts, fact.Value T names)
    (none : held.candidatesOf T pattern = .ok []) :
    ∀ fact ∈ held.facts, ∀ σ : Subst, fact ≠ pattern.subst σ := by
  unfold candidatesOf at none
  generalize held.facts = facts at values none
  induction facts with
  | nil => simp
  | cons first rest ih =>
    simp only [candidates, bind_eq_ok_iff] at none
    obtain ⟨met, tried, none⟩ := none
    cases met with
    | none =>
      have unmet := match?_eq_ok normal (values first (by simp)) tried
      exact List.forall_mem_cons.mpr ⟨Term.match?_eq_none_iff.mp unmet,
        ih (fun fact member => values fact (by simp [member])) none⟩
    | some found =>
      simp only [bind_eq_ok_iff, pure_eq_ok_iff] at none
      obtain ⟨others, -, absurd_⟩ := none
      simp at absurd_

end Store

namespace System

variable {S : System} {D : Declarations} {config : RunConfig} {s₀ s : State} {step : Step}
  {name : String} {place : Nat} {node : Node} {history : List Step}

-- A choice none of whose guards holds.
def DeadEnd (S : System) (s : State) (name : String) (node : Node) : Prop :=
  node.action = .choice ∧ ∃ inst, S.get name = .ok inst ∧ ∀ i ∈ node.successors,
    ∃ arm, inst.graph.node? i = some arm ∧ S.guardHolds (s.env name) arm.action = .ok false

-- A node that takes or reads a fact from a store that holds none such.
def Waits (S : System) (s : State) (name : String) (node : Node) : Prop :=
  match node.action with
  | .remove store t => ∃ held fact, s.stores.find? store = some held ∧
      S.evaluate (s.env name) t = .ok fact ∧ fact ∉ held.facts
  | .consume store p binds | .read store p binds => ∃ held pattern,
      s.stores.find? store = some held ∧ S.instantiate (s.env name) p binds = .ok pattern ∧
      ∀ fact ∈ held.facts, ∀ σ : Subst, fact ≠ pattern.subst σ
  | _ => False

theorem Offers.deadEnd (offers : S.Offers s name node .stop) : S.DeadEnd s name node := by
  cases offers with
  | stop action graph live =>
    obtain ⟨inst, got, rfl⟩ := graph_eq_ok_iff.mp graph
    refine ⟨action, inst, got, fun i among => ?_⟩
    have fails := filterM_eq_nil live among
    simpa only [bind_eq_ok_iff, nodeAt_eq_ok_iff] using fails

theorem Offers.finish_iff {m : Move} (offers : S.Offers s name node m) :
    m = .finish ↔ node.action = .finish := by
  cases offers with
  | pass passes =>
    rcases passes with action | ⟨_, _, action⟩ | action | ⟨_, action⟩ | action <;> simp [action]
  | finish action => simp [action]
  | stop action | arm action | alternative action | draw action | assign action | insert action
  | remove action | consume action | read action | emit action => simp [action]

theorem Compiled.waits_of_stuck (compiled : S.Compiled D) (sound : s.Sound S)
    (stands : S.StandsAt s name place node) (stepped : S.step config s name = .ok []) :
    S.Waits s name node := by
  obtain ⟨place', node', moves, stands', offered, performed⟩ := step_eq_ok_iff.mp stepped
  obtain ⟨rfl, rfl⟩ := stands_unique stands stands'
  obtain rfl : moves = [] := List.forall₂_nil_right_iff.mp (mapM_eq_ok_iff.mp performed)
  obtain ⟨inst, got, found, -, nameless, -⟩ := compiled.node_sound stands
  unfold Waits
  cases action : node.action with
  | remove store t =>
    simp only [movesAt, action, bind_eq_ok_iff, State.store_eq_ok_iff, lift_eq_ok_iff] at offered
    obtain ⟨fact, value, held, here, holds, decided, offered⟩ := offered
    have normal :=
      compiled.value_of_evaluate sound (nameless t (by simp [action, Action.terms])) value
    rw [Store.holds_of_normal normal.normal] at decided
    obtain rfl := Except.ok.inj decided
    refine ⟨held, fact, here, value, fun member => ?_⟩
    simp [member] at offered
  | consume store p binds =>
    simp only [movesAt, action, bind_eq_ok_iff, State.store_eq_ok_iff, lift_eq_ok_iff,
      pure_eq_ok_iff] at offered
    obtain ⟨held, here, pattern, made, options, matching, none⟩ := offered
    obtain rfl := List.map_eq_nil_iff.mp none
    exact ⟨held, pattern, here, made, Store.unmatched_of_candidatesOf
      (Theory.normal_of_normalize made) (sound.facts store held here).2 matching⟩
  | read store p binds =>
    simp only [movesAt, action, bind_eq_ok_iff, State.store_eq_ok_iff, lift_eq_ok_iff, Store.read,
      pure_eq_ok_iff] at offered
    obtain ⟨held, here, pattern, made, founds, ⟨options, matching, rfl⟩, none⟩ := offered
    obtain rfl := List.map_eq_nil_iff.mp (List.map_eq_nil_iff.mp none)
    exact ⟨held, pattern, here, made, Store.unmatched_of_candidatesOf
      (Theory.normal_of_normalize made) (sound.facts store held here).2 matching⟩
  | finish => simp [movesAt, action] at offered
  | insert store t | emit t index =>
    simp only [movesAt, action, bind_eq_ok_iff, pure_eq_ok_iff] at offered
    obtain ⟨v, -, absurd_⟩ := offered
    simp at absurd_
  | _ => exact compiled.step_ne_nil_of_silent stands (by simp [action, Action.isSilent]) stepped

theorem Compiled.stuck_of_successors (compiled : S.Compiled D)
    (none : S.successors config s = .ok []) : S.Stuck config s := by
  simp only [successors, bind_eq_ok_iff] at none
  obtain ⟨found, silent, none⟩ := none
  cases found with
  | some name =>
    -- An instance that goes on silently always can.
    obtain ⟨-, node, here, quiet⟩ := mem_of_firstSilent? silent
    obtain ⟨place, stands⟩ := current_eq_ok_iff.mp here
    exact absurd none (compiled.step_ne_nil_of_silent stands quiet)
  | none =>
    intro name active
    obtain ⟨part, stepped, among⟩ := exists_of_stepAll none name active
    rwa [List.eq_nil_of_subset_nil among] at stepped

-- Control leaves every node but the end of a graph and the places where it branches.
def Ends (S : System) : Prop :=
  ∀ inst ∈ S.instances, ∀ i node, inst.graph.node? i = some node → node.successors = [] →
    node.action = .finish ∨ node.action.branches = true

theorem ends_of_elaborated (each : ∀ inst ∈ S.instances, inst.Elaborated D) : S.Ends := by
  intro inst member i node found none
  obtain ⟨template, name, channels, first, e, done, rfl⟩ := each inst member
  obtain ⟨b, ran, -⟩ := exists_build_of_elaborate done
  cases straight : node.action.branches with
  | true => exact .inr rfl
  | false => exact .inl (Template.ended rfl rfl ran ⟨node, found, none, straight⟩ found)

theorem Ends.target_eq_none_iff (ends : S.Ends) (takes : S.Takes config step node) :
    step.move.target node.successors = none ↔ step.move = .finish ∨ step.move = .stop := by
  obtain ⟨-, inst, got, found⟩ := takes.stands
  have onward (straight : node.action.branches = false) (other : node.action ≠ .finish) :
      node.successors ≠ [] := by
    intro none
    rcases ends inst (Compiled.mem_of_get got).1 _ node found none with finish | branches
    · exact other finish
    · simp [straight] at branches
  have offers := takes.offers
  generalize step.move = m at offers
  cases offers with
  | finish | stop | arm | alternative => simp [Move.target]
  | pass passes =>
    have passing : node.action.branches = false ∧ node.action ≠ .finish := by
      rcases passes with action | ⟨_, _, action⟩ | action | ⟨_, action⟩ | action <;>
        simp [action, Action.branches]
    simpa [Move.target] using onward passing.1 passing.2
  | draw action | assign action | insert action | remove action | consume action | read action
  | emit action =>
    have goesOn := onward (by simp [action, Action.branches]) (by simp [action])
    simpa [Move.target] using goesOn

def Made (history : List Step) (name : String) (m : Move) : Prop :=
  ∃ step ∈ history, step.owner = name ∧ step.move = m

theorem made_append {m : Move} : Made (history ++ [step]) name m ↔
    Made history name m ∨ step.owner = name ∧ step.move = m := by
  simp [Made, or_and_right, exists_or]

-- Whoever has ended has come to its end or was stopped, and only one of the two and once.
structure Accounts (history : List Step) (s : State) : Prop where
  once : s.dead.Nodup
  stopped : ∀ name, name ∈ s.dead ↔ Made history name .stop
  ended : ∀ name, s.pcs.find? name = some none ↔ Made history name .finish ∨ name ∈ s.dead
  apart : ∀ name, Made history name .finish → name ∉ s.dead

theorem Ends.accounts_step (ends : S.Ends) (takes : S.Takes config step node)
    (accounts : Accounts history step.before) : Accounts (history ++ [step]) step.after := by
  have standing := takes.stands.1
  have moved := (State.moved_of_perform takes.performs).places
  have dead := (State.moved_of_perform takes.performs).dead
  have final := ends.target_eq_none_iff takes
  -- It still stood somewhere, so it had not ended before.
  have before : ¬ (Made history step.owner .finish ∨ step.owner ∈ step.before.dead) := by
    rw [← accounts.ended, standing]
    simp
  have unfinished := fun finished => before (.inl finished)
  have alive := fun stopped => before (.inr stopped)
  constructor
  · rw [dead]
    split
    · exact List.nodup_append.mpr ⟨accounts.once, List.nodup_singleton _, by grind⟩
    · exact accounts.once
  · intro name
    rw [dead, made_append, ← accounts.stopped]
    split <;> grind
  · -- The one that moved has ended if this was its last move; the others are where they were.
    intro name
    rw [moved, Table.find?_insert, dead, made_append]
    have old := accounts.ended name
    grind
  · intro name
    rw [dead, made_append]
    have old := accounts.apart name
    grind

theorem Ends.accounts_run (ends : S.Ends) (run : S.Run config S.start history s) :
    Accounts history s := by
  induction run with
  | start =>
    refine ⟨List.nodup_nil, by simp [start, opening, Made], fun name => ?_, by simp [Made]⟩
    constructor
    · intro found
      obtain ⟨inst, -, -, absurd_⟩ : ∃ inst ∈ S.instances, inst.name = name ∧ some 0 = none := by
        simpa using Table.find?_ofList found
      simp at absurd_
    · simp [Made, start, opening]
  | step _ takes ih => exact ends.accounts_step takes ih

theorem Accounts.mem_finished (accounts : Accounts history s) (sound : s.Sound S)
    {truncated : Bool} :
    name ∈ (Trace.ofState s truncated).finished ↔ Made history name .finish := by
  have ended := accounts.ended name
  have apart := accounts.apart name
  simp only [Trace.ofState, Table.mem_keys_filter sound.distinct]
  constructor
  · rintro ⟨pc, found, kept⟩
    obtain ⟨rfl, alive⟩ : pc = none ∧ name ∉ s.dead := by simpa using kept
    exact (ended.mp found).resolve_right alive
  · intro finished
    exact ⟨none, ended.mpr (.inl finished), by simpa using apart finished⟩

theorem mem_active_iff (sound : s.Sound S) :
    name ∈ s.active ↔ ∃ place, s.pcs.find? name = some (some place) := by
  simp [State.active, Table.mem_keys_filter sound.distinct, Option.isSome_iff_exists]

theorem Accounts.perm (accounts : Accounts history s) (sound : s.Sound S)
    (distinct : (S.instances.map (·.name)).Nodup) (truncated : Bool) :
    ((Trace.ofState s truncated).finished ++ (Trace.ofState s truncated).blocked).Perm
      (S.instances.map (·.name)) := by
  have ended (name : String) (final : Made history name .finish ∨ name ∈ s.dead) :
      name ∉ s.active := by
    rw [mem_active_iff sound, (accounts.ended name).mpr final]
    simp
  have once : s.active.Nodup := (List.filter_sublist.map Prod.fst).nodup sound.distinct
  have once' : (Trace.ofState s truncated).finished.Nodup :=
    (List.filter_sublist.map Prod.fst).nodup sound.distinct
  refine (List.perm_ext_iff_of_nodup ?_ distinct).mpr fun name => ?_
  · refine List.nodup_append.mpr ⟨once', List.nodup_append.mpr ⟨once, accounts.once, ?_⟩, ?_⟩
    · rintro name standing _ stopped rfl
      exact ended name (.inr stopped) standing
    · rintro name finished _ blocked rfl
      have finished := (accounts.mem_finished sound).mp finished
      rcases List.mem_append.mp blocked with standing | stopped
      · exact ended name (.inl finished) standing
      · exact accounts.apart name finished stopped
  · change name ∈ _ ++ (s.active ++ s.dead) ↔ _
    rw [List.mem_append, List.mem_append, accounts.mem_finished sound, mem_active_iff sound,
      ← exists_get_iff, ← sound.instances, ← Table.exists_find?_iff, Option.exists,
      accounts.ended name]
    tauto

/-- Every instance comes to its end or is blocked, and not both. It comes to its end by the end node
of its graph only. Where the run was not cut, the others are stopped or wait. -/
theorem explored_outcomes {compiler : CompilerConfig} {M : Model} {x : Exploration} {t : Trace}
    (done : compile compiler M = .ok S) (explored : S.explore config = .ok x)
    (member : t ∈ x.traces) :
    ∃ s₀ history s, State.initial S = .ok s₀ ∧ S.Run config s₀ history s ∧
      t = .ofState s (config.maxSteps ≤ s.steps) ∧
      (S.instances.map (·.name)).Nodup ∧
      (t.finished ++ t.blocked).Perm (S.instances.map (·.name)) ∧
      (∀ name, name ∈ t.finished ↔ ∃ step ∈ history, ∃ node, S.Takes config step node ∧
        step.owner = name ∧ node.action = .finish) ∧
      (t.truncated = false → ∀ name ∈ t.blocked,
        (∃ step ∈ history, ∃ node, S.Takes config step node ∧ step.owner = name ∧
          step.move = .stop ∧ S.DeadEnd step.before name node) ∨
        ∃ place node, S.StandsAt s name place node ∧ S.Waits s name node) := by
  obtain ⟨D, -, compiled, elaborated⟩ := exists_declared done
  obtain ⟨s₀, history, s, initial, run, ended, rfl⟩ := exists_run_of_explore explored member
  refine ⟨s₀, history, s, initial, run, rfl, nodup_names done, ?_⟩
  rw [compiled.initial_eq] at initial
  obtain rfl := Except.ok.inj initial
  have sound := compiled.run_sound compiled.start_sound run
  have accounts := (ends_of_elaborated elaborated).accounts_run run
  refine ⟨accounts.perm sound (nodup_names done) _, fun name => ?_, fun whole name blocked => ?_⟩
  · rw [accounts.mem_finished sound]
    constructor
    · rintro ⟨step, among, rfl, moves⟩
      obtain ⟨-, node, -, takes⟩ := run.exists_of_mem among
      exact ⟨step, among, node, takes, rfl, takes.offers.finish_iff.mp moves⟩
    · rintro ⟨step, among, node, takes, rfl, action⟩
      exact ⟨step, among, rfl, takes.offers.finish_iff.mpr action⟩
  · rcases List.mem_append.mp blocked with standing | stopped
    · obtain ⟨place, node, stands⟩ := exists_stands sound standing
      have going : s.steps < config.maxSteps := by simpa [Trace.ofState] using whole
      simp only [continuations, going, if_true] at ended
      exact .inr ⟨place, node, stands,
        compiled.waits_of_stuck sound stands (compiled.stuck_of_successors ended name standing)⟩
    · obtain ⟨step, among, rfl, moves⟩ := (accounts.stopped name).mp stopped
      obtain ⟨-, node, -, takes⟩ := run.exists_of_mem among
      exact .inl ⟨step, among, node, takes, rfl, moves, (moves ▸ takes.offers).deadEnd⟩

end System

-- The first instance sends and is done, the second takes what it gets for the wrong thing, and the
-- third listens where nobody speaks.
def Model.strandedParty : Model where
  types := [{ name := "host_t", kind := .process }, { name := "net_t", kind := .channel }]
  grants := [{ subject := "host_t", object := some "net_t", operations := ["send", "recv"] }]
  channels := [{ name := "net", type := "net_t" }, { name := "spare", type := "net_t" }]
  processes :=
    [{ name := "Sender", type := "host_t", params := [{ name := "c", type := "net_t" }]
       main := .call "send" [.ident "c" none, .str "go"] none },
     { name := "Receiver", type := "host_t", params := [{ name := "c", type := "net_t" }]
       main := .seq [.bind "x" (.apply "recv" [.ident "c" none] none),
         .branch [.guarded [{ left := .ident "x" none, right := .str "stay", negated := false }]
           (.emit { tag := "Stays", args := [] })]] }]
  system := some
    { instances := [{ template := "Sender", args := ["net"], name := some "a" },
        { template := "Receiver", args := ["net"], name := some "b" },
        { template := "Receiver", args := ["spare"], name := some "c" }]
      lemmas := [{ name := "stays", kind := .reachable,
                   events := [{ tag := "Stays", args := [] }] }] }

theorem System.explored_strandedParty_outcomes : ∃ S x t s₀ history s,
    compile {} Model.strandedParty = .ok S ∧ S.explore {} = .ok x ∧ t ∈ x.traces ∧
      State.initial S = .ok s₀ ∧ S.Run {} s₀ history s ∧ S.instances.map (·.name) = ["a", "b", "c"] ∧
      t.finished = ["a"] ∧ t.blocked = ["c", "b"] ∧ t.truncated = false ∧
      (∃ step ∈ history, ∃ node, S.Takes {} step node ∧ step.owner = "a" ∧ node.action = .finish) ∧
      ∀ name ∈ ["b", "c"],
        (∃ step ∈ history, ∃ node, S.Takes {} step node ∧ step.owner = name ∧
          step.move = .stop ∧ S.DeadEnd step.before name node) ∨
        ∃ place node, S.StandsAt s name place node ∧ S.Waits s name node := by
  have ran : (do
      let S ← compile {} Model.strandedParty
      let x ← S.explore {}
      return (S.instances.map (·.name),
        x.traces.map fun t => (t.finished, t.blocked, t.truncated)) :
          Result (List String × List (List String × List String × Bool))) =
      .ok (["a", "b", "c"], [(["a"], ["c", "b"], false)]) := by
    decide +kernel
  simp only [Result.bind_eq_ok_iff, Result.pure_eq_ok_iff, Prod.mk.injEq] at ran
  obtain ⟨S, done, x, explored, names, traces⟩ := ran
  obtain ⟨t, member, same⟩ := List.mem_map.mp (traces ▸ List.mem_singleton_self _)
  obtain ⟨finished, blocked, whole⟩ : t.finished = ["a"] ∧ t.blocked = ["c", "b"] ∧
      t.truncated = false := by simpa using same
  obtain ⟨s₀, history, s, initial, run, -, -, -, ends, waits⟩ :=
    explored_outcomes done explored member
  refine ⟨S, x, t, s₀, history, s, done, explored, member, initial, run, names, finished, blocked,
    whole, (ends "a").mp (by simp [finished]), fun name among => waits whole name ?_⟩
  rw [blocked]
  simp only [List.mem_cons, List.not_mem_nil, or_false] at among ⊢
  exact among.symm

end ThreatModel
