import Mathlib
import ThreatModel.Proofs.Distinct
import ThreatModel.Proofs.Run.Search

set_option autoImplicit false

namespace ThreatModel

open Result Relation

def Trace.distinct (ts : List Trace) : List Trace := ts.eraseDupsBy fun t t' => t.key == t'.key

namespace Trace

@[simp] theorem distinct_nil : distinct [] = [] := rfl

theorem distinct_cons (t : Trace) (ts : List Trace) :
    distinct (t :: ts) = t :: distinct (ts.filter fun t' => t'.key != t.key) := by
  rw [distinct, List.eraseDupsBy_cons, distinct]
  congr 2
  refine List.filter_congr fun t' _ => ?_
  cases same : t'.key == t.key <;> simp [bne, same]

theorem keys_distinct (ts : List Trace) : (distinct ts).map key = (ts.map key).eraseDups := by
  cases ts with
  | nil => rfl
  | cons t rest =>
    rw [distinct_cons, List.map_cons, keys_distinct (rest.filter fun t' => t'.key != t.key),
      List.map_cons, List.eraseDups_cons, List.filter_map]
    rfl
termination_by ts.length
decreasing_by exact Nat.lt_succ_of_le (List.length_filter_le _ _)

theorem nodup_keys_distinct (ts : List Trace) : ((distinct ts).map key).Nodup := by
  rw [keys_distinct]
  exact nodup_eraseDups _

end Trace

namespace Exploration

variable {config : RunConfig} {x : Exploration} {t : Trace}

def visit (config : RunConfig) (x : Exploration) (t : Trace) : Exploration :=
  if x.isOver config then x else x.add config t

theorem foldl_visit_of_isOver (enough : x.isOver config) (ts : List Trace) :
    ts.foldl (visit config) x = x := by
  induction ts with
  | nil => rfl
  | cons t rest ih => rw [List.foldl_cons, visit, if_pos enough, ih]

def wanted (config : RunConfig) (seen : List (List (String × Term))) (ts : List Trace) :
    List Trace :=
  if config.dedupe then Trace.distinct (ts.filter fun t => !seen.contains t.key) else ts

theorem wanted_nil (seen : List (List (String × Term))) : wanted config seen [] = [] := by
  simp [wanted]

theorem visit_known (known : config.dedupe = true ∧ t.key ∈ x.seen) (ts : List Trace) :
    x.add config t = x ∧ wanted config x.seen (t :: ts) = wanted config x.seen ts := by
  simp [add, wanted, known]

theorem visit_new (new : ¬ (config.dedupe = true ∧ t.key ∈ x.seen)) (ts : List Trace) :
    (x.add config t).traces = x.traces ++ [t] ∧
      wanted config x.seen (t :: ts) = t :: wanted config (x.add config t).seen ts := by
  by_cases dedupe : config.dedupe
  · have unseen : x.seen.contains t.key = false := by
      simpa using fun seen => new ⟨dedupe, seen⟩
    have added : x.add config t =
        { x with traces := x.traces ++ [t], seen := t.key :: x.seen } := by
      rw [add, if_pos dedupe, unseen]
      rfl
    have others : (ts.filter fun t' => !x.seen.contains t'.key).filter (fun t' => t'.key != t.key) =
        ts.filter fun t' => !(t.key :: x.seen).contains t'.key := by
      rw [List.filter_filter]
      refine List.filter_congr fun t' _ => ?_
      rw [List.contains_cons, Bool.not_or, bne]
    rw [added]
    refine ⟨rfl, ?_⟩
    rw [wanted, if_pos dedupe, List.filter_cons, unseen, Bool.not_false, if_pos rfl,
      Trace.distinct_cons, others, wanted, if_pos dedupe]
  · simp [add, wanted, dedupe]

theorem foldl_visit (config : RunConfig) (clear : x.fault = none) (ts : List Trace) :
    (ts.foldl (visit config) x).fault = none ∧
      (ts.foldl (visit config) x).traces =
        x.traces ++ (wanted config x.seen ts).take (config.maxTraces - x.traces.length).toNat := by
  induction ts generalizing x with
  | nil => simp [clear, wanted_nil]
  | cons t rest ih =>
    by_cases enough : x.isOver config
    · have none : (config.maxTraces - x.traces.length).toNat = 0 := by
        simp only [isOver, clear, Option.isSome_none, Bool.false_or, decide_eq_true_eq] at enough
        omega
      rw [foldl_visit_of_isOver enough, none]
      simp [clear]
    · have going : x.traces.length < config.maxTraces := by simpa [isOver, clear] using enough
      rw [List.foldl_cons, visit, if_neg enough]
      by_cases known : config.dedupe = true ∧ t.key ∈ x.seen
      · obtain ⟨same, fewer⟩ := visit_known known rest
        rw [same, fewer]
        exact ih clear
      · obtain ⟨more, counts⟩ := visit_new known rest
        have room : (config.maxTraces - x.traces.length).toNat =
            (config.maxTraces - (x.add config t).traces.length).toNat + 1 := by
          rw [more, List.length_append, List.length_singleton]
          omega
        obtain ⟨fault, found⟩ := ih (x := x.add config t) (by simpa using clear)
        rw [counts, room, List.take_succ_cons, found, more]
        simp [fault]

end Exploration

namespace System

variable {S : System} {config : RunConfig} {s₀ s s' : State} {x : Exploration} {next : List State}

/-- The traces at the leaves of the tree of runs that begin at a state, from left to right. A run
is cut when it is as long as it may be. -/
def leaves (S : System) (config : RunConfig) (s : State) : List Trace :=
  match continued : S.continuations config s with
  | .error _ => []
  | .ok [] => [.ofState s (config.maxSteps ≤ s.steps)]
  | .ok (first :: rest) => (first :: rest).attach.flatMap fun s' =>
    have := Continues.rank_lt ⟨_, continued, s'.2⟩
    S.leaves config s'.1
termination_by s.rank config

theorem leaves_of_end (ended : S.continuations config s = .ok []) :
    S.leaves config s = [.ofState s (config.maxSteps ≤ s.steps)] := by
  rw [leaves]
  split <;> simp_all

theorem leaves_of_continued (some : next ≠ []) (continued : S.continuations config s = .ok next) :
    S.leaves config s = next.flatMap (S.leaves config) := by
  rw [leaves]
  split
  next failed => simp [continued] at failed
  next ended => simp_all
  next first rest same =>
    obtain rfl := Except.ok.inj (continued.symm.trans same)
    conv_rhs => rw [← List.attach_map_subtype_val (first :: rest), List.flatMap_map]

def Unfailing (S : System) (config : RunConfig) (s : State) : Prop :=
  ∀ s', ReflTransGen (S.Continues config) s s' → ∃ next, S.continuations config s' = .ok next

theorem searchFrom_eq_foldl_leaves (unfailing : S.Unfailing config s) :
    S.searchFrom config x s = (S.leaves config s).foldl (Exploration.visit config) x := by
  induction ranked : s.rank config using Nat.strong_induction_on generalizing s x with
  | _ n ih =>
    by_cases enough : x.isOver config
    · rw [searchFrom_of_isOver enough, Exploration.foldl_visit_of_isOver enough]
    · have going : x.isOver config = false := by simpa using enough
      obtain ⟨next, continued⟩ := unfailing s .refl
      by_cases ended : next = []
      · subst ended
        rw [searchFrom_eq_add going continued, leaves_of_end continued]
        simp [Exploration.visit, going]
      · rw [searchFrom_eq_foldl going ended continued, leaves_of_continued ended continued,
          List.foldl_flatMap]
        refine List.foldl_ext _ _ x fun x s' member => ?_
        have continues : S.Continues config s s' := ⟨next, continued, member⟩
        have below (f : State) (reached : ReflTransGen (S.Continues config) s' f) :=
          unfailing f (.head continues reached)
        exact ih _ (ranked ▸ continues.rank_lt) below rfl

theorem explore_leaves (initial : State.initial S = .ok s₀) (unfailing : S.Unfailing config s₀) :
    ∃ x, S.explore config = .ok x ∧ x.fault = none ∧
      x.traces = (if config.dedupe then Trace.distinct (S.leaves config s₀)
        else S.leaves config s₀).take config.maxTraces.toNat := by
  have none : ({} : Exploration).fault = none := rfl
  obtain ⟨clear, found⟩ := Exploration.foldl_visit config none (S.leaves config s₀)
  rw [← searchFrom_eq_foldl_leaves unfailing] at clear found
  refine ⟨_, Search.outcome_initial initial, clear, found.trans ?_⟩
  simp [Exploration.wanted]

/-- The loop over states finds the traces at the leaves of the tree of runs, from left to right and
up to the number wanted, without those that repeat a sequence of events if so asked. -/
theorem traces_eq_take_leaves (initial : State.initial S = .ok s₀)
    (unfailing : S.Unfailing config s₀) :
    ∃ last, Search.Leads S config ⟨[s₀], {}⟩ last ∧ last.next? S config = none ∧
      S.traces config = .ok last.found.traces ∧
      last.found.traces =
        (if config.dedupe then Trace.distinct (S.leaves config s₀) else S.leaves config s₀).take
          config.maxTraces.toNat ∧
      (config.dedupe = true → (last.found.traces.map Trace.key).Nodup ∧
        ((Trace.distinct (S.leaves config s₀)).length ≤ config.maxTraces →
          ∀ t ∈ S.leaves config s₀, (last.found.traces.map Trace.key).count t.key = 1)) := by
  obtain ⟨last, leads, ended⟩ := Search.exists_end S config ⟨[s₀], {}⟩
  obtain ⟨x, explored, clear, found⟩ := explore_leaves initial unfailing
  obtain rfl : x = last.found := by
    have same := explored.symm.trans (Search.outcome_initial initial)
    rw [leads.outcome_eq, Search.outcome_of_end ended] at same
    exact Except.ok.inj same
  refine ⟨last, leads, ended, by simp [traces, explored, clear], found, fun dedupe => ?_⟩
  rw [if_pos dedupe] at found
  have once := Trace.nodup_keys_distinct (S.leaves config s₀)
  have nodup : (last.found.traces.map Trace.key).Nodup := by
    rw [found, List.map_take]
    exact once.sublist (List.take_sublist _ _)
  refine ⟨nodup, fun few t member => List.count_eq_one_of_mem nodup ?_⟩
  rw [found, List.take_of_length_le (by omega), Trace.keys_distinct, List.mem_eraseDups]
  exact List.mem_map_of_mem member

def stepsBelow (S : System) (config : RunConfig) : (depth : Nat) → State → Bool
  | 0, _ => false
  | depth + 1, s =>
    match S.continuations config s with
    | .error _ => false
    | .ok next => next.all (stepsBelow S config depth)

theorem unfailing_of_stepsBelow {depth : Nat} (below : S.stepsBelow config depth s = true) :
    S.Unfailing config s := by
  induction depth generalizing s with
  | zero => simp [stepsBelow] at below
  | succ depth ih =>
    simp only [stepsBelow] at below
    split at below
    next => simp at below
    next next continued =>
      intro f reached
      rcases reached.cases_head with rfl | ⟨s', ⟨next', continued', member⟩, reached⟩
      · exact ⟨next, continued⟩
      · obtain rfl := Except.ok.inj (continued.symm.trans continued')
        exact ih (List.all_eq_true.mp below s' member) f reached

end System

-- Two instances that each tell one thing and end, in six ways and two orders of telling.
def Model.heralds : Model where
  types := [{ name := "host_t", kind := .process }]
  processes :=
    [{ name := "Herald", type := "host_t", params := []
       main := .emit { tag := "Told", args := [] } }]
  system := some
    { instances := [{ template := "Herald", args := [], name := some "a" },
        { template := "Herald", args := [], name := some "b" }]
      lemmas := [{ name := "told", kind := .reachable
                   events := [{ tag := "Told", args := [] }] }] }

theorem System.traces_heralds_once : ∃ S s₀ ts ts', compile {} Model.heralds = .ok S ∧
    State.initial S = .ok s₀ ∧ S.Unfailing {} s₀ ∧ S.traces {} = .ok ts ∧
      ts = (Trace.distinct (S.leaves {} s₀)).take 1000 ∧
      ts.map (fun t => t.events.map (·.owner)) = [["a", "b"], ["b", "a"]] ∧
      S.Unfailing { dedupe := false, maxTraces := 4 } s₀ ∧
      S.traces { dedupe := false, maxTraces := 4 } = .ok ts' ∧
      ts' = (S.leaves { dedupe := false, maxTraces := 4 } s₀).take 4 ∧
      ts'.map (fun t => t.events.map (·.owner)) =
        [["a", "b"], ["a", "b"], ["a", "b"], ["b", "a"]] := by
  have ran : (do
      let S ← compile {} Model.heralds
      let s₀ ← State.initial S
      let ts ← S.traces {}
      let ts' ← S.traces { dedupe := false, maxTraces := 4 }
      return (S.stepsBelow {} 20 s₀, S.stepsBelow { dedupe := false, maxTraces := 4 } 20 s₀,
        ts.map fun t => t.events.map (·.owner), ts'.map fun t => t.events.map (·.owner)) :
          Result (Bool × Bool × List (List String) × List (List String))) =
      .ok (true, true, [["a", "b"], ["b", "a"]],
        [["a", "b"], ["a", "b"], ["a", "b"], ["b", "a"]]) := by
    decide +kernel
  simp only [bind_eq_ok_iff, pure_eq_ok_iff, lift_eq_ok_iff, Prod.mk.injEq] at ran
  obtain ⟨S, done, s₀, initial, ts, traced, ts', traced', below, below', orders, orders'⟩ := ran
  have unfailing := unfailing_of_stepsBelow below
  have unfailing' := unfailing_of_stepsBelow below'
  obtain ⟨last, -, -, found, taken, -⟩ := traces_eq_take_leaves initial unfailing
  obtain ⟨last', -, -, found', taken', -⟩ := traces_eq_take_leaves initial unfailing'
  obtain rfl := Except.ok.inj (traced.symm.trans found)
  obtain rfl := Except.ok.inj (traced'.symm.trans found')
  exact ⟨S, s₀, _, _, done, initial, unfailing, traced, taken, orders, unfailing', traced', taken',
    orders'⟩

end ThreatModel
