import Mathlib
import ThreatModel.Proofs.Run.Exploration

set_option autoImplicit false

namespace ThreatModel

open Result Relation

namespace State

variable {s s' : State} {T : Theory} {config : RunConfig} {name : String} {next : List Nat}
  {m : Move}

/-- A bound on the steps that may follow a state: each of them counts or ends an instance. -/
def rank (config : RunConfig) (s : State) : Nat :=
  (config.maxSteps - s.steps).toNat + s.active.length

theorem length_active_insert {place : Nat} (stands : s.pcs.find? name = some (some place))
    (pc : Option Nat) (moved : s'.pcs = s.pcs.insert name pc) :
    s'.active.length + (if pc.isSome then 0 else 1) = s.active.length := by
  simp only [active, moved, List.length_map, Table.find?, Table.insert] at stands ⊢
  generalize s.pcs.entries = entries at stands ⊢
  induction entries with
  | nil => simp [Table.lookup] at stands
  | cons entry rest ih =>
    obtain ⟨k, v⟩ := entry
    simp only [Table.lookup, Table.write] at stands ⊢
    split at stands
    next here =>
      obtain rfl := Option.some.inj stands
      cases pc <;> simp [here]
    next other =>
      have later := ih stands
      cases v <;> simp [other] <;> omega

theorem rank_perform {place : Nat} (going : s.steps < config.maxSteps)
    (stands : s.pcs.find? name = some (some place))
    (done : s.perform T config name next m = .ok s') : s'.rank config < s.rank config := by
  have moved := moved_of_perform done
  have active := length_active_insert stands _ moved.places
  unfold rank
  rw [moved.steps]
  rcases m.cost_or_ends next with costs | ⟨free, ends⟩
  · omega
  · simp only [ends, Option.isSome_none, Bool.false_eq_true, if_false] at active
    omega

theorem length_active_le (s : State) : s.active.length ≤ s.pcs.keys.length := by
  simp only [active, Table.keys, List.length_map]
  exact List.length_filter_le _ _

theorem rank_initial {S : System} (config : RunConfig) (initial : State.initial S = .ok s) :
    s.steps = 0 ∧ s.rank config < S.depthBound config := by
  obtain ⟨steps, placed⟩ : s.steps = 0 ∧
      s.pcs = .ofList (S.instances.map fun inst => (inst.name, some 0)) := by
    simp only [State.initial, bind_eq_ok_iff, pure_eq_ok_iff] at initial
    obtain ⟨stores, -, rfl⟩ := initial
    exact ⟨rfl, rfl⟩
  -- Instances are told apart by their names, so no more of them stand anywhere than there are.
  have standing := List.subperm_of_subset
    (Table.nodup_keys_ofList (S.instances.map fun inst => (inst.name, (some 0 : Option Nat))))
    (fun key member => Table.mem_keys_ofList.mp member)
  have few := standing.length_le
  have fewer := s.length_active_le
  simp only [placed, List.length_map] at few fewer
  refine ⟨steps, ?_⟩
  simp only [rank, System.depthBound, steps]
  omega

end State

namespace Exploration

variable (config : RunConfig) (x : Exploration) (t : Trace)

@[simp] theorem fault_add : (x.add config t).fault = x.fault := by
  unfold add
  split <;> [split; skip] <;> rfl

theorem length_add_le : (x.add config t).traces.length ≤ x.traces.length + 1 := by
  unfold add
  split <;> [split; skip] <;> simp

end Exploration

namespace System

variable {S : System} {config : RunConfig} {s₀ s s' : State} {x : Exploration} {t : Trace}

def Continues (S : System) (config : RunConfig) (s s' : State) : Prop :=
  ∃ next, S.continuations config s = .ok next ∧ s' ∈ next

theorem Continues.exists_takes (continues : S.Continues config s s') :
    s.steps < config.maxSteps ∧
      ∃ step node, S.Takes config step node ∧ step.before = s ∧ step.after = s' := by
  obtain ⟨next, continued, member⟩ := continues
  unfold continuations at continued
  split at continued
  next going =>
    obtain ⟨name, -, out, stepped, member⟩ := Explores.interleaves ⟨next, continued, member⟩
    obtain ⟨step, node, takes, before, -, after⟩ := exists_takes_of_step stepped member
    exact ⟨going, step, node, takes, before, after⟩
  next =>
    obtain rfl := Except.ok.inj continued
    simp at member

theorem Continues.rank_lt (continues : S.Continues config s s') :
    s'.rank config < s.rank config := by
  obtain ⟨going, step, node, takes, rfl, rfl⟩ := continues.exists_takes
  exact State.rank_perform going takes.stands.1 takes.performs

theorem Continues.steps_le (continues : S.Continues config s s') : s'.steps ≤ config.maxSteps := by
  obtain ⟨going, step, node, takes, rfl, rfl⟩ := continues.exists_takes
  rw [(State.moved_of_perform takes.performs).steps]
  rcases step.move.cost_or_ends node.successors with costs | ⟨free, -⟩ <;> omega

theorem steps_le_of_reached (initial : State.initial S = .ok s₀)
    (reached : ReflTransGen (S.Continues config) s₀ s) : s.steps ≤ max config.maxSteps 0 := by
  rcases reached.cases_tail with rfl | ⟨before, -, continues⟩
  · simp [(State.rank_initial config initial).1]
  · exact le_max_of_le_left continues.steps_le

theorem exploreFrom_of_isOver {depth : Nat} (enough : x.isOver config) :
    S.exploreFrom config depth s x = x := by
  cases depth <;> simp [exploreFrom, enough]

theorem exploreFrom_eq_of_rank_lt {depth depth' : Nat} (below : s.rank config < depth)
    (below' : s.rank config < depth') :
    S.exploreFrom config depth s x = S.exploreFrom config depth' s x := by
  induction depth generalizing depth' s x with
  | zero => simp at below
  | succ depth ih =>
    cases depth' with
    | zero => simp at below'
    | succ depth' =>
      unfold exploreFrom
      split
      next => rfl
      next =>
        split
        next => rfl
        next => rfl
        next next _ continued =>
          refine List.foldl_ext _ _ x fun x s' member => ?_
          have less : s'.rank config < s.rank config :=
            Continues.rank_lt ⟨next, continued, member⟩
          exact ih (by omega) (by omega)

def searchFrom (S : System) (config : RunConfig) (x : Exploration) (s : State) : Exploration :=
  S.exploreFrom config (s.rank config + 1) s x

theorem searchFrom_of_isOver (enough : x.isOver config) : S.searchFrom config x s = x :=
  exploreFrom_of_isOver enough

theorem searchFrom_eq_fault (going : x.isOver config = false) {fault : Fault}
    (failed : S.continuations config s = .error fault) :
    S.searchFrom config x s = { x with fault := some fault } := by
  simp [searchFrom, exploreFrom, going, failed]

theorem searchFrom_eq_add (going : x.isOver config = false)
    (ended : S.continuations config s = .ok []) :
    S.searchFrom config x s = x.add config (.ofState s (config.maxSteps ≤ s.steps)) := by
  simp [searchFrom, exploreFrom, going, ended]

theorem searchFrom_eq_foldl (going : x.isOver config = false) {next : List State}
    (some : next ≠ []) (continued : S.continuations config s = .ok next) :
    S.searchFrom config x s = next.foldl (S.searchFrom config) x := by
  have deeper : S.searchFrom config x s =
      next.foldl (fun x s' => S.exploreFrom config (s.rank config) s' x) x := by
    cases next with
    | nil => exact absurd rfl some
    | cons first rest => simp [searchFrom, exploreFrom, going, continued]
  rw [deeper]
  refine List.foldl_ext _ _ x fun x s' member => ?_
  have less : s'.rank config < s.rank config := Continues.rank_lt ⟨next, continued, member⟩
  exact exploreFrom_eq_of_rank_lt less (Nat.lt_succ_self _)

end System

structure Search where
  pending : List State
  found : Exploration := {}

namespace Search

variable {S : System} {config : RunConfig} {s₀ s : State} {w w' last : Search}

def next? (S : System) (config : RunConfig) (w : Search) : Option Search :=
  match w.pending with
  | [] => none
  | s :: rest =>
    if w.found.isOver config then none
    else
      match S.continuations config s with
      | .error fault => some { pending := rest, found := { w.found with fault := some fault } }
      | .ok [] =>
        let t := .ofState s (config.maxSteps ≤ s.steps)
        some { pending := rest, found := w.found.add config t }
      | .ok next => some { pending := next ++ rest, found := w.found }

inductive Round (S : System) (config : RunConfig) (x : Exploration) (s : State) :
    List State → Exploration → Prop
  | fault {x' : Exploration} {fault : Fault} (failed : S.continuations config s = .error fault)
      (noted : x' = { x with fault := some fault }) : Round S config x s [] x'
  | trace {x' : Exploration} (ended : S.continuations config s = .ok [])
      (added : x' = x.add config (.ofState s (config.maxSteps ≤ s.steps))) :
      Round S config x s [] x'
  | states {next : List State} (some : next ≠ [])
      (continued : S.continuations config s = .ok next) : Round S config x s next x

theorem exists_round (round : w.next? S config = some w') :
    ∃ s rest next, w.pending = s :: rest ∧ w.found.isOver config = false ∧
      Round S config w.found s next w'.found ∧ w'.pending = next ++ rest := by
  obtain ⟨pending, x⟩ := w
  cases pending with
  | nil => simp [next?] at round
  | cons s rest =>
    simp only [next?] at round
    split at round
    next => simp at round
    next going =>
      have going : x.isOver config = false := by simpa using going
      split at round
      next fault failed =>
        obtain rfl := Option.some.inj round
        exact ⟨s, rest, [], rfl, going, .fault failed rfl, rfl⟩
      next ended =>
        obtain rfl := Option.some.inj round
        exact ⟨s, rest, [], rfl, going, .trace ended rfl, rfl⟩
      next next nonempty continued =>
        obtain rfl := Option.some.inj round
        exact ⟨s, rest, next, rfl, going, .states nonempty continued, rfl⟩

theorem Round.continues {x x' : Exploration} {next : List State}
    (round : Round S config x s next x') : ∀ s' ∈ next, S.Continues config s s' := by
  cases round with
  | fault | trace => simp
  | states _ continued => exact fun s' member => ⟨next, continued, member⟩

theorem cutExpand_of_next? (round : w.next? S config = some w') :
    CutExpand (· < ·) (Multiset.ofList (w'.pending.map (State.rank config)))
      (Multiset.ofList (w.pending.map (State.rank config))) := by
  obtain ⟨s, rest, next, pending, -, round, pending'⟩ := exists_round round
  -- A round replaces a state by states that rank lower, as many as there may be.
  refine ⟨Multiset.ofList (next.map (State.rank config)), s.rank config, ?_, ?_⟩
  · intro n member
    obtain ⟨s', among, rfl⟩ := List.mem_map.mp (Multiset.mem_coe.mp member)
    exact (round.continues s' among).rank_lt
  · rw [pending, pending', List.map_append, List.map_cons, ← Multiset.coe_add, ← Multiset.cons_coe,
      ← Multiset.singleton_add]
    abel

theorem wellFounded_next? (S : System) (config : RunConfig) :
    WellFounded fun w' w : Search => w.next? S config = some w' :=
  Subrelation.wf cutExpand_of_next?
    (InvImage.wf (fun w : Search => Multiset.ofList (w.pending.map (State.rank config)))
      wellFounded_lt.cutExpand)

def Leads (S : System) (config : RunConfig) : Search → Search → Prop :=
  ReflTransGen fun w w' => w.next? S config = some w'

theorem exists_end (S : System) (config : RunConfig) (w : Search) :
    ∃ last, w.Leads S config last ∧ last.next? S config = none := by
  induction w using (wellFounded_next? S config).induction with
  | _ w ih =>
    cases round : w.next? S config with
    | none => exact ⟨w, .refl, round⟩
    | some w' =>
      obtain ⟨last, leads, ended⟩ := ih w' round
      exact ⟨last, .head round leads, ended⟩

def outcome (S : System) (config : RunConfig) (w : Search) : Exploration :=
  w.pending.foldl (S.searchFrom config) w.found

theorem foldl_searchFrom_of_isOver {x : Exploration} (enough : x.isOver config) (ss : List State) :
    ss.foldl (S.searchFrom config) x = x := by
  induction ss with
  | nil => rfl
  | cons s rest ih => rw [List.foldl_cons, System.searchFrom_of_isOver enough, ih]

theorem Round.searchFrom_eq {x x' : Exploration} {next : List State}
    (going : x.isOver config = false) (round : Round S config x s next x') :
    S.searchFrom config x s = next.foldl (S.searchFrom config) x' := by
  cases round with
  | fault failed noted => rw [noted, System.searchFrom_eq_fault going failed, List.foldl_nil]
  | trace ended added => rw [added, System.searchFrom_eq_add going ended, List.foldl_nil]
  | states some continued => exact System.searchFrom_eq_foldl going some continued

theorem outcome_of_next? (round : w.next? S config = some w') :
    w.outcome S config = w'.outcome S config := by
  obtain ⟨s, rest, next, pending, going, round, pending'⟩ := exists_round round
  simp only [outcome, pending, pending', List.foldl_cons, List.foldl_append,
    round.searchFrom_eq going]

theorem outcome_of_end (ended : w.next? S config = none) : w.outcome S config = w.found := by
  obtain ⟨pending, x⟩ := w
  cases pending with
  | nil => rfl
  | cons s rest =>
    simp only [next?] at ended
    split at ended
    next enough => exact foldl_searchFrom_of_isOver enough _
    next => split at ended <;> simp at ended

theorem Leads.outcome_eq (leads : w.Leads S config last) :
    w.outcome S config = last.outcome S config := by
  induction leads with
  | refl => rfl
  | tail _ round ih => exact ih.trans (outcome_of_next? round)

theorem outcome_initial (initial : State.initial S = .ok s₀) :
    S.explore config = .ok ((⟨[s₀], {}⟩ : Search).outcome S config) := by
  have deep := (State.rank_initial config initial).2
  have same : S.exploreFrom config (S.depthBound config) s₀ {} = S.searchFrom config {} s₀ :=
    System.exploreFrom_eq_of_rank_lt deep (Nat.lt_succ_self _)
  simp only [System.explore, bind_eq_ok_iff, pure_eq_ok_iff, lift_eq_ok_iff]
  exact ⟨s₀, initial, same⟩

structure Within (S : System) (config : RunConfig) (s₀ : State) (w : Search) : Prop where
  pending : ∀ s ∈ w.pending, ReflTransGen (S.Continues config) s₀ s
  traces : ∀ t ∈ w.found.traces, ∃ s, ReflTransGen (S.Continues config) s₀ s ∧ S.Yields config s t
  fault : ∀ fault, w.found.fault = some fault →
    ∃ s, ReflTransGen (S.Continues config) s₀ s ∧ S.continuations config s = .error fault
  few : w.found.traces.length ≤ max config.maxTraces 0

theorem Within.next? (within : w.Within S config s₀) (round : w.next? S config = some w') :
    w'.Within S config s₀ := by
  obtain ⟨pending, x⟩ := w
  obtain ⟨pending', x'⟩ := w'
  obtain ⟨s, rest, next, rfl, going, round, rfl⟩ := exists_round round
  obtain ⟨reached, traces, faults, few⟩ := within
  simp only [Exploration.isOver, Bool.or_eq_false_iff, decide_eq_false_iff_not, not_le] at going
  dsimp only at round traces faults few
  have here := reached s List.mem_cons_self
  refine ⟨?_, ?_, ?_, ?_⟩
  · intro s' member
    rcases List.mem_append.mp member with new | old
    · exact here.tail (round.continues s' new)
    · exact reached s' (List.mem_cons_of_mem _ old)
  · cases round with
    | fault _ noted => simpa only [noted] using traces
    | trace ended added =>
      intro t member
      rcases Exploration.mem_add (added ▸ member) with old | rfl
      · exact traces t old
      · exact ⟨s, here, ended, rfl⟩
    | states => exact traces
  · cases round with
    | fault failed noted =>
      subst noted
      rintro fault ⟨⟩
      exact ⟨s, here, failed⟩
    | trace _ added => simpa only [added, Exploration.fault_add] using faults
    | states => exact faults
  · cases round with
    | fault _ noted => simpa only [noted] using few
    | trace _ added =>
      have more := x.length_add_le config (.ofState s (config.maxSteps ≤ s.steps))
      rw [← added] at more
      exact le_max_of_le_left (by simp only; omega)
    | states => exact few

theorem Within.of_leads (initial : (⟨[s₀], {}⟩ : Search).Leads S config w) :
    w.Within S config s₀ := by
  induction initial with
  | refl => exact ⟨by simpa using .refl, by simp, by simp, by simp⟩
  | tail _ round ih => exact ih.next? round

end Search

namespace System

/-- A search comes to an end, and stays within its bounds. Only a step that cannot be taken makes
it fail. -/
theorem explore_ends_within_bounds (S : System) (config : RunConfig) :
    (WellFounded fun w' w : Search => w.next? S config = some w') ∧
      ((∃ d, State.initial S = .error d ∧ S.explore config = .error (.flaw d) ∧
          ∀ options M, compile options M ≠ .ok S) ∨
        ∃ s₀ last, State.initial S = .ok s₀ ∧ Search.Leads S config ⟨[s₀], {}⟩ last ∧
          last.next? S config = none ∧ S.explore config = .ok last.found ∧
          (∀ fault, last.found.fault = some fault → ∃ s,
            ReflTransGen (S.Continues config) s₀ s ∧ S.continuations config s = .error fault) ∧
          (∀ t ∈ last.found.traces, t.steps ≤ max config.maxSteps 0) ∧
          last.found.traces.length ≤ max config.maxTraces 0) := by
  refine ⟨Search.wellFounded_next? S config, ?_⟩
  cases initial : State.initial S with
  | error d =>
      refine .inl ⟨d, rfl, ?_, ?_⟩
      · simp only [explore, bind_eq_error_iff, lift_eq_error_iff]
        exact .inl ⟨d, initial, rfl⟩
      · intro options M done
        obtain ⟨D, compiled⟩ := compiled_of_compile done
        rw [compiled.initial_eq] at initial
        cases initial
  | ok s₀ =>
      obtain ⟨last, leads, ended⟩ := Search.exists_end S config ⟨[s₀], {}⟩
      have within := Search.Within.of_leads leads
      have explored : S.explore config = .ok last.found := by
        rw [Search.outcome_initial initial, leads.outcome_eq, Search.outcome_of_end ended]
      refine .inr ⟨s₀, last, rfl, leads, ended, explored, within.fault, ?_, within.few⟩
      intro t member
      obtain ⟨s, reached, -, rfl⟩ := within.traces t member
      exact steps_le_of_reached initial reached

end System

-- A loop that nothing leaves and nothing holds up.
def Model.spinner : Model where
  types := [{ name := "host_t", kind := .process }]
  processes :=
    [{ name := "Spinner", type := "host_t", params := []
       main := .seq [.loop .skip [], .emit { tag := "Done", args := [] }] }]
  system := some
    { instances := [{ template := "Spinner", args := [], name := some "a" }]
      lemmas := [{ name := "ends", kind := .reachable
                   events := [{ tag := "Done", args := [] }] }] }

theorem System.explore_spinner_ends : ∃ S s₀ last, compile {} Model.spinner = .ok S ∧
    Search.Leads S { maxSteps := 7 } ⟨[s₀], {}⟩ last ∧ last.next? S { maxSteps := 7 } = none ∧
      S.explore { maxSteps := 7 } = .ok last.found ∧
      last.found.traces.map (fun t => (t.steps, t.truncated)) = [(7, true)] := by
  have ran : (do
      let S ← compile {} Model.spinner
      let x ← S.explore { maxSteps := 7 }
      return x.traces.map fun t => (t.steps, t.truncated) : Result (List (Nat × Bool))) =
      .ok [(7, true)] := by
    decide +kernel
  simp only [bind_eq_ok_iff, pure_eq_ok_iff] at ran
  obtain ⟨S, done, x, explored, traces⟩ := ran
  obtain ⟨-, ⟨d, -, -, uncompiled⟩ | ⟨s₀, last, -, leads, ended, same, -, -, -⟩⟩ :=
    S.explore_ends_within_bounds { maxSteps := 7 }
  · exact absurd done (uncompiled {} Model.spinner)
  · obtain rfl := Except.ok.inj (explored.symm.trans same)
    exact ⟨S, s₀, last, done, leads, ended, explored, traces⟩

end ThreatModel
