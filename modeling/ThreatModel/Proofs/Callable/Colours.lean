import Mathlib
import ThreatModel.Proofs.Callable.Recursion

set_option autoImplicit false

namespace ThreatModel

open Relation

namespace CallGraph

inductive Colour where
  | active
  | done
  deriving DecidableEq

/-- The search as a loop: the names that are being explored, latest first, each with the calls that
are still to be looked at; the path of these names; and what was met so far. -/
structure Walk where
  stack : List (String × List String) := []
  path : List String := []
  colours : Table String Colour := .empty
  cycles : List (List String) := []

namespace Walk

def enter (G : CallGraph) (w : Walk) (name : String) : Walk :=
  { w with
    stack := (name, (G.find? name).getD []) :: w.stack
    path := w.path ++ [name]
    colours := w.colours.insert name .active }

def next? (G : CallGraph) (w : Walk) : Option Walk :=
  match w.stack with
  | [] => none
  | (name, []) :: rest =>
    some { w with
      stack := rest
      path := w.path.dropLast
      colours := w.colours.insert name .done }
  | (name, called :: later) :: rest =>
    let w := { w with stack := (name, later) :: rest }
    match w.colours.find? called with
    | some .active =>
      let around := w.path.dropWhile (· ≠ called) ++ [called]
      some { w with cycles := (Search.report { cycles := w.cycles } around).cycles }
    | some .done => some w
    | none => some (w.enter G called)

def Leads (G : CallGraph) : Walk → Walk → Prop :=
  ReflTransGen fun w w' => w.next? G = some w'

/-- Explores from one name after another, where it was not met yet, for as long as it takes. -/
inductive Covers (G : CallGraph) : List String → Walk → Walk → Prop
  | nil (w : Walk) : Covers G [] w w
  | known {root : String} {roots : List String} {w w' : Walk}
      (met : w.colours.contains root = true) (rest : Covers G roots w w') :
      Covers G (root :: roots) w w'
  | explore {root : String} {roots : List String} {w w₁ w' : Walk}
      (new : w.colours.contains root = false)
      (ran : Leads G ({ w with stack := [], path := [] }.enter G root) w₁)
      (stopped : w₁.next? G = none) (rest : Covers G roots w₁ w') : Covers G (root :: roots) w w'

variable {G : CallGraph} {w w' w₁ w₂ : Walk} {s : Search} {init : List String} {name called : String}
  {rest : List (String × List String)} {later roots : List String} {depth : Nat}

theorem leads_unique (one : Leads G w w₁) (two : Leads G w w₂) (stopped : w₁.next? G = none)
    (stopped' : w₂.next? G = none) : w₁ = w₂ := by
  have only : Relator.RightUnique fun w w' => Walk.next? G w = some w' := by
    intro w w₁ w₂ one two
    exact Option.some.inj (one.symm.trans two)
  rcases one.total_of_right_unique only two with on | on
  · rcases on.cases_head with same | ⟨_, goes, -⟩
    · exact same
    · simp [stopped] at goes
  · rcases on.cases_head with same | ⟨_, goes, -⟩
    · exact same.symm
    · simp [stopped'] at goes

theorem covers_unique (one : Covers G roots w w₁) (two : Covers G roots w w₂) : w₁ = w₂ := by
  induction one with
  | nil => cases two; rfl
  | known met _ ih =>
    cases two with
    | known _ rest => exact ih rest
    | explore new => simp [met] at new
  | explore new ran stopped _ ih =>
    cases two with
    | known met => simp [new] at met
    | explore _ ran' stopped' rest =>
      obtain rfl := leads_unique ran ran' stopped stopped'
      exact ih rest

structure Shows (w : Walk) (s : Search) : Prop where
  active : ∀ x, w.colours.find? x = some .active ↔ x ∈ w.path
  done : ∀ x, w.colours.find? x = some .done ↔ x ∈ s.done
  cycles : w.cycles = s.cycles

theorem Shows.enter (shows : w.Shows s) (new : called ∉ s.done) :
    (w.enter G called).Shows s where
  active x := by
    by_cases same : called = x
    · simp [Walk.enter, same]
    · simp [Walk.enter, Table.find?_insert_of_ne _ _ same, shows.active, Ne.symm same]
  done x := by
    by_cases same : called = x
    · simp [Walk.enter, ← same, new]
    · simp [Walk.enter, Table.find?_insert_of_ne _ _ same, shows.done]
  cycles := shows.cycles

theorem Shows.leave (shows : w.Shows s) (path : w.path = init ++ [name]) (distinct : w.path.Nodup) :
    Shows { w with stack := rest, path := init, colours := w.colours.insert name .done }
      { s with done := name :: s.done } where
  active x := by
    have off : name ∉ init := by
      rw [path] at distinct
      simpa using (List.nodup_append.mp distinct).2.2 name
    by_cases same : name = x
    · simp [← same, off]
    · simp [Table.find?_insert_of_ne _ _ same, shows.active, path, Ne.symm same]
  done x := by
    by_cases same : name = x
    · simp [same]
    · simp [Table.find?_insert_of_ne _ _ same, shows.done, Ne.symm same]
  cycles := shows.cycles

theorem Shows.find?_eq_none (shows : w.Shows s) (off : called ∉ w.path) (new : called ∉ s.done) :
    w.colours.find? called = none := by
  cases found : w.colours.find? called with
  | none => rfl
  | some colour =>
    cases colour with
    | active => exact absurd ((shows.active called).mp found) off
    | done => exact absurd ((shows.done called).mp found) new

theorem Shows.report (shows : w.Shows s) (cycle : List String) (stack : List (String × List String)) :
    Shows { w with stack, cycles := (Search.report { cycles := w.cycles } cycle).cycles }
      (s.report cycle) := by
  have kept : (s.report cycle).done = s.done := by
    unfold Search.report
    split <;> rfl
  have same : (Search.report { cycles := w.cycles } cycle).cycles = (s.report cycle).cycles := by
    unfold Search.report
    rw [shows.cycles]
    dsimp only
    split <;> rfl
  exact ⟨shows.active, fun x => by rw [kept]; exact shows.done x, same⟩

theorem Shows.unstack (shows : w.Shows s) (stack : List (String × List String)) :
    Shows { w with stack } s :=
  ⟨shows.active, shows.done, shows.cycles⟩

def Explores (G : CallGraph) (depth : Nat) (path : List String) (name : String) : Prop :=
  ∀ (w : Walk) (s : Search) (rest : List (String × List String)),
    w.stack = (name, (G.find? name).getD []) :: rest → w.path = path → w.Shows s →
    ∃ w', Leads G w w' ∧ w'.stack = rest ∧ w'.path = path.dropLast ∧
      w'.Shows (visit G depth path name s)

theorem leads_follow {path : List String}
    (explores : ∀ called ∈ later, called ∉ path → Explores G depth (path ++ [called]) called)
    (shows : w.Shows s) (stack : w.stack = (name, later) :: rest) (on : w.path = path) :
    ∃ w', Leads G w w' ∧ w'.stack = (name, []) :: rest ∧ w'.path = path ∧
      w'.Shows (later.foldl (G.follow depth path) s) := by
  induction later generalizing w s with
  | nil => exact ⟨w, .refl, stack, on, shows⟩
  | cons called later ih =>
    have others := fun x member => explores x (List.mem_cons_of_mem called member)
    rw [List.foldl_cons, follow]
    split
    next again =>
      have found := (shows.active called).mpr (on ▸ again)
      obtain ⟨w', leads, rest'⟩ := ih others
        (shows.report (path.dropWhile (· ≠ called) ++ [called]) ((name, later) :: rest)) rfl on
      exact ⟨w', .head (by simp [next?, stack, found, on]) leads, rest'⟩
    next off =>
      split
      next known =>
        have found := (shows.done called).mpr known
        obtain ⟨w', leads, rest'⟩ := ih others (shows.unstack ((name, later) :: rest)) rfl on
        exact ⟨w', .head (by simp [next?, stack, found]) leads, rest'⟩
      next new =>
        have found := shows.find?_eq_none (on ▸ off) new
        -- The name goes on the stack and comes off it again before the next call is looked at.
        let inside : Walk := { w with stack := (name, later) :: rest }
        have entered : (inside.enter G called).Shows s := (shows.unstack _).enter new
        obtain ⟨w₁, there, stack₁, path₁, shows₁⟩ := explores called List.mem_cons_self off
          (inside.enter G called) s _ rfl (by simp [inside, Walk.enter, on]) entered
        rw [List.dropLast_concat] at path₁
        obtain ⟨w', leads, rest'⟩ := ih others shows₁ stack₁ path₁
        exact ⟨w', .head (by simp [next?, stack, found, inside]) (there.trans leads), rest'⟩

theorem explores_visit (closed : G.Closed) {path : List String}
    (long : G.size < path.length + depth) (distinct : path.Nodup) (listed : path ⊆ G.keys)
    (ends : path.getLast? = some name) : Explores G depth path name := by
  induction depth generalizing path name with
  | zero =>
    have short := (distinct.subperm listed).length_le
    simp only [Table.keys, List.length_map, Table.size] at short long
    omega
  | succ depth ih =>
    intro w s rest stack on shows
    have inner (called : String) (calls : called ∈ (G.find? name).getD []) (off : called ∉ path) :
        Explores G depth (path ++ [called]) called := by
      refine ih (by simp; omega) ?_ ?_ (by simp)
      · exact List.concat_eq_append ▸ distinct.concat off
      · exact List.append_subset.mpr ⟨listed, by simpa using closed name called calls⟩
    obtain ⟨w₁, leads, stack₁, path₁, shows₁⟩ := leads_follow inner shows stack on
    obtain ⟨init, rfl⟩ := List.getLast?_eq_some_iff.mp ends
    rw [visit_succ, List.dropLast_concat]
    refine ⟨_, leads.tail (b := w₁) ?_, rfl, rfl, shows₁.leave path₁ (path₁ ▸ distinct)⟩
    simp [next?, stack₁, path₁]

theorem exists_covers (closed : G.Closed) (listed : roots ⊆ G.keys) (idle : w.stack = [])
    (off : w.path = []) (shows : w.Shows s) :
    ∃ w', Covers G roots w w' ∧ w'.Shows (roots.foldl (fun s root =>
      if root ∈ s.done then s else visit G G.size [root] root s) s) := by
  induction roots generalizing w s with
  | nil => exact ⟨w, .nil w, shows⟩
  | cons root roots ih =>
    obtain ⟨here, others⟩ := List.cons_subset.mp listed
    rw [List.foldl_cons]
    by_cases known : root ∈ s.done
    · rw [if_pos known]
      obtain ⟨w', covers, shows'⟩ := ih others idle off shows
      exact ⟨w', .known (by simp [Table.contains, (shows.done root).mpr known]) covers, shows'⟩
    · rw [if_neg known]
      have found := shows.find?_eq_none (by simp [off]) known
      have alone : Explores G G.size [root] root :=
        explores_visit closed (by simp) (by simp) (by simpa using here) (by simp)
      have entered : ({ w with stack := [], path := [] }.enter G root).Shows s := by
        refine Shows.enter ⟨?_, shows.done, shows.cycles⟩ known
        simpa [off] using shows.active
      obtain ⟨w₁, leads, stack₁, path₁, shows₁⟩ := alone _ s [] rfl rfl entered
      obtain ⟨w', covers, shows'⟩ := ih others stack₁ path₁ shows₁
      exact ⟨w', .explore (by simp [Table.contains, found]) leads (by simp [next?, stack₁]) covers,
        shows'⟩

end Walk

def Finds (G : CallGraph) (cycles : List (List String)) : Prop :=
  ∃ w, Walk.Covers G (Sorted.ofList G.keys) {} w ∧ w.cycles = cycles

theorem finds_iff {G : CallGraph} (closed : G.Closed) (cycles : List (List String)) :
    G.Finds cycles ↔ cycles = G.cycles := by
  have listed : Sorted.ofList G.keys ⊆ G.keys := fun x member => by simpa using member
  obtain ⟨w, covers, shows⟩ := Walk.exists_covers closed listed rfl rfl
    (w := {}) (s := {}) ⟨by simp, by simp, rfl⟩
  constructor
  · rintro ⟨w', covers', rfl⟩
    rw [Walk.covers_unique covers' covers]
    exact shows.cycles
  · rintro rfl
    exact ⟨w, covers, shows.cycles⟩

end CallGraph

end ThreatModel
