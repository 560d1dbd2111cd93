import Mathlib
import ThreatModel.Proofs.Graph.Basic

set_option autoImplicit false

namespace ThreatModel

def Action.branches : Action → Bool
  | .choice | .callSite _ => true
  | _ => false

namespace Graph

def Branches (g : Graph) (i : Nat) : Prop :=
  ∃ node, g.node? i = some node ∧ node.action.branches = true

def Open (g : Graph) (i : Nat) : Prop :=
  ∃ node, g.node? i = some node ∧ node.successors = [] ∧ node.action.branches = false

theorem Open.inside {g : Graph} {i : Nat} (free : g.Open i) : i < g.size := by
  obtain ⟨node, found, -⟩ := free
  exact lt_size_of_node? found

theorem Branches.inside {g : Graph} {i : Nat} (branches : g.Branches i) : i < g.size := by
  obtain ⟨node, found, -⟩ := branches
  exact lt_size_of_node? found

theorem Branches.not_open {g : Graph} {i : Nat} (branches : g.Branches i) : ¬ g.Open i := by
  rintro ⟨node, found, -, straight⟩
  obtain ⟨node', found', several⟩ := branches
  obtain rfl := Option.some.inj (found.symm.trans found')
  simp [straight] at several

structure Grows (g : Graph) (ends : List Nat) (g' : Graph) : Prop where
  larger : g.size ≤ g'.size
  kept : ∀ i node, g.node? i = some node → ∃ more,
    g'.node? i = some { node with successors := node.successors ++ more } ∧
      (∀ j ∈ more, g.size ≤ j) ∧ (i ∉ ends → more = [])
  led : ∀ i node, g.size ≤ i → g'.node? i = some node → ∀ j ∈ node.successors, g.size ≤ j

namespace Grows

variable {g g' g'' : Graph} {ends ends' : List Nat}

theorem refl (g : Graph) (ends : List Nat) : g.Grows ends g where
  larger := le_rfl
  kept := fun i node found => ⟨[], by simpa using found, by simp, fun _ => rfl⟩
  led := fun i node new found => absurd (lt_size_of_node? found) (by omega)

theorem trans (one : g.Grows ends g') (two : g'.Grows ends' g'')
    (origin : ∀ e ∈ ends', e ∈ ends ∨ g.size ≤ e) : g.Grows ends g'' where
  larger := one.larger.trans two.larger
  kept := by
    intro i node found
    obtain ⟨more, here, fresh, only⟩ := one.kept i node found
    obtain ⟨more', there, fresh', only'⟩ := two.kept i _ here
    refine ⟨more ++ more', by simpa using there, ?_, ?_⟩
    · intro j member
      rcases List.mem_append.mp member with old | new
      · exact fresh j old
      · exact one.larger.trans (fresh' j new)
    · intro apart
      -- An old node that is not among the first ends is not among the second ones either.
      have apart' : i ∉ ends' := by
        intro member
        have small := lt_size_of_node? found
        rcases origin i member with first | new
        · exact apart first
        · omega
      rw [only apart, only' apart', List.append_nil]
  led := by
    intro i node new found j next
    rcases Nat.lt_or_ge i g'.size with old | newer
    · obtain ⟨before, here⟩ := exists_node? old
      obtain ⟨more, there, fresh, -⟩ := two.kept i before here
      obtain rfl := Option.some.inj (there.symm.trans found)
      rcases List.mem_append.mp next with was | added
      · exact one.led i before new here j was
      · exact one.larger.trans (fresh j added)
    · exact one.larger.trans (two.led i node newer found j next)

theorem cases (grows : g.Grows ends g') {i : Nat} {node : Node} (found : g'.node? i = some node) :
    g.size ≤ i ∨ ∃ old, g.node? i = some old ∧ node.action = old.action ∧
      ∀ j ∈ node.successors, j ∈ old.successors ∨ (i ∈ ends ∧ g.size ≤ j) := by
  rcases Nat.lt_or_ge i g.size with small | new
  · obtain ⟨old, here⟩ := exists_node? small
    obtain ⟨more, there, fresh, only⟩ := grows.kept i old here
    obtain rfl := Option.some.inj (there.symm.trans found)
    refine .inr ⟨old, here, rfl, fun j next => ?_⟩
    rcases List.mem_append.mp next with was | added
    · exact .inl was
    · by_cases among : i ∈ ends
      · exact .inr ⟨among, fresh j added⟩
      · simp [only among] at added
  · exact .inl new

theorem action (grows : g.Grows ends g') {i : Nat} {node : Node} (found : g.node? i = some node) :
    ∃ node', g'.node? i = some node' ∧ node'.action = node.action := by
  obtain ⟨more, there, -⟩ := grows.kept i node found
  exact ⟨_, there, rfl⟩

theorem isOpen (grows : g.Grows ends g') {i : Nat} (free : g.Open i) (apart : i ∉ ends) :
    g'.Open i := by
  obtain ⟨node, found, none, straight⟩ := free
  obtain ⟨more, there, -, only⟩ := grows.kept i node found
  exact ⟨_, there, by simp [none, only apart], straight⟩

theorem branches (grows : g.Grows ends g') {i : Nat} (branches : g.Branches i) : g'.Branches i := by
  obtain ⟨node, found, several⟩ := branches
  obtain ⟨node', there, action⟩ := grows.action found
  exact ⟨node', there, by rw [action, several]⟩

theorem append (node : Node) (bare : node.successors = []) (inside : ∀ e ∈ ends, e < g.size) :
    g.Grows ends (g.append node ends) where
  larger := by simp
  kept := by
    intro i old found
    have other : i ≠ g.size := (lt_size_of_node? found).ne
    refine ⟨List.replicate (ends.count i) g.size, ?_, ?_, ?_⟩
    · rw [node?_append node ends inside, if_neg other, found, Option.map_some]
    · intro j member
      exact (List.eq_of_mem_replicate member).ge
    · intro apart
      rw [List.count_eq_zero_of_not_mem apart, List.replicate_zero]
  led := by
    intro i found new here j next
    rcases append_cases inside here with ⟨-, rfl⟩ | ⟨old, there, -⟩
    · simp [bare] at next
    · exact absurd (lt_size_of_node? there) (by omega)

theorem connect (grows : g.Grows ends g') {source target : Nat} (new : g.size ≤ source)
    (newer : g.size ≤ target) : g.Grows ends (g'.connect source target) where
  larger := by simpa using grows.larger
  kept := by
    intro i node found
    have other : source ≠ i := by
      have := lt_size_of_node? found
      omega
    simpa [node?_connect, other] using grows.kept i node found
  led := by
    intro i node fresh found j next
    rw [node?_connect] at found
    split at found
    next =>
      obtain ⟨old, there, rfl⟩ := Option.map_eq_some_iff.mp found
      rcases List.mem_append.mp next with was | added
      · exact grows.led i old fresh there j was
      · obtain rfl := List.mem_singleton.mp added
        exact newer
    next => exact grows.led i node fresh found j next

end Grows

structure Threads (g : Graph) (ends : List Nat) (g' : Graph) (ends' : List Nat) : Prop
    extends g.Grows ends g' where
  free : ∀ e ∈ ends', g'.Open e
  origin : ∀ e ∈ ends', e ∈ ends ∨ g.size ≤ e
  closed : ∀ i, g'.Open i → i ∈ ends' ∨ (g.Open i ∧ i ∉ ends)

theorem closed_append {g : Graph} {ends : List Nat} (node : Node)
    (inside : ∀ e ∈ ends, e < g.size) {i : Nat} (free : (g.append node ends).Open i) :
    (i = g.size ∧ node.action.branches = false) ∨ (g.Open i ∧ i ∉ ends) := by
  obtain ⟨node', found, none, straight⟩ := free
  rw [node?_append node ends inside] at found
  split at found
  next last =>
    obtain rfl := Option.some.inj found
    exact .inl ⟨last, straight⟩
  next =>
    obtain ⟨old, here, rfl⟩ := Option.map_eq_some_iff.mp found
    -- An end would have an edge to the new node.
    obtain ⟨was, more⟩ := List.append_eq_nil_iff.mp none
    exact .inr ⟨⟨old, here, was, straight⟩, List.count_eq_zero.mp (by simpa using more)⟩

namespace Threads

variable {g g' g'' : Graph} {ends ends' ends'' : List Nat}

theorem refl (free : ∀ e ∈ ends, g.Open e) : g.Threads ends g ends :=
  ⟨.refl g ends, free, fun _ => .inl, fun i isOpen => by by_cases i ∈ ends <;> simp_all⟩

theorem trans (one : g.Threads ends g' ends') (two : g'.Threads ends' g'' ends'') :
    g.Threads ends g'' ends'' where
  toGrows := one.toGrows.trans two.toGrows one.origin
  free := two.free
  origin := by
    intro e member
    rcases two.origin e member with old | new
    · exact one.origin e old
    · exact .inr (one.larger.trans new)
  closed := by
    intro i isOpen
    rcases two.closed i isOpen with last | ⟨before, apart⟩
    · exact .inl last
    · exact .inr ((one.closed i before).resolve_left apart)

theorem append (node : Node) (bare : node.successors = []) (straight : node.action.branches = false)
    (inside : ∀ e ∈ ends, e < g.size) : g.Threads ends (g.append node ends) [g.size] where
  toGrows := .append node bare inside
  free := by
    intro e member
    obtain rfl := List.mem_singleton.mp member
    exact ⟨_, node?_append_self node ends inside, bare, straight⟩
  origin := by
    intro e member
    exact .inr (List.mem_singleton.mp member).ge
  closed := by
    intro i isOpen
    exact (closed_append node inside isOpen).imp_left fun last => by simp [last.1]

theorem branch (node : Node) (bare : node.successors = []) (several : node.action.branches = true)
    (inside : ∀ e ∈ ends, e < g.size) : g.Threads ends (g.append node ends) [] where
  toGrows := .append node bare inside
  free := by simp
  origin := by simp
  closed := by
    intro i isOpen
    exact (closed_append node inside isOpen).imp_left fun last => by simp [several] at last

theorem beside (one : g.Threads ends g' ends') {others later : List Nat}
    (two : g'.Threads others g'' later) (origin : ∀ e ∈ others, e ∈ ends ∨ g.size ≤ e)
    (apart : ∀ e ∈ ends', e ∉ others) : g.Threads ends g'' (ends' ++ later) where
  toGrows := one.toGrows.trans two.toGrows origin
  free := by
    intro e member
    rcases List.mem_append.mp member with old | new
    · exact two.isOpen (one.free e old) (apart e old)
    · exact two.free e new
  origin := by
    intro e member
    rcases List.mem_append.mp member with old | new
    · exact one.origin e old
    · rcases two.origin e new with among | newer
      · exact origin e among
      · exact .inr (one.larger.trans newer)
  closed := by
    intro i isOpen
    rcases two.closed i isOpen with last | ⟨before, -⟩
    · exact .inl (List.mem_append_right _ last)
    · exact (one.closed i before).imp_left (List.mem_append_left _)

theorem pass {rest later : List Nat} (one : g.Threads ends g' (ends' ++ rest))
    (two : g'.Threads ends' g'' later) (apart : ∀ e ∈ rest, e ∉ ends') :
    g.Threads ends g'' (rest ++ later) where
  toGrows := one.toGrows.trans two.toGrows fun e member => one.origin e (by simp [member])
  free := by
    intro e member
    rcases List.mem_append.mp member with old | new
    · exact two.isOpen (one.free e (by simp [old])) (apart e old)
    · exact two.free e new
  origin := by
    intro e member
    rcases List.mem_append.mp member with old | new
    · exact one.origin e (by simp [old])
    · rcases two.origin e new with among | newer
      · exact one.origin e (by simp [among])
      · exact .inr (one.larger.trans newer)
  closed := by
    intro i isOpen
    rcases two.closed i isOpen with last | ⟨before, other⟩
    · exact .inl (List.mem_append_right _ last)
    · refine (one.closed i before).imp_left fun member => ?_
      exact List.mem_append_left _ ((List.mem_append.mp member).resolve_left other)

theorem connect (source target : Nat) (threads : g.Threads ends g' (ends' ++ [source]))
    (new : g.size ≤ source) (newer : g.size ≤ target) (apart : source ∉ ends') :
    g.Threads ends (g'.connect source target) ends' where
  toGrows := threads.toGrows.connect new newer
  free := by
    intro e member
    obtain ⟨node, found, none, straight⟩ := threads.free e (by simp [member])
    have other : source ≠ e := fun same => apart (same ▸ member)
    exact ⟨node, by rw [node?_connect, if_neg other, found], none, straight⟩
  origin := fun e member => threads.origin e (by simp [member])
  closed := by
    rintro i ⟨node, found, none, straight⟩
    rw [node?_connect] at found
    split at found
    next =>
      obtain ⟨old, -, rfl⟩ := Option.map_eq_some_iff.mp found
      simp at none
    next other =>
      rcases threads.closed i ⟨node, found, none, straight⟩ with member | before
      · exact .inl ((List.mem_append.mp member).resolve_right fun last =>
          other (List.mem_singleton.mp last).symm)
      · exact .inr before

theorem reorder (threads : g.Threads ends g' ends') (same : ∀ e, e ∈ ends'' ↔ e ∈ ends') :
    g.Threads ends g' ends'' :=
  { threads with
    free := fun e member => threads.free e ((same e).mp member)
    origin := fun e member => threads.origin e ((same e).mp member)
    closed := fun i isOpen => (threads.closed i isOpen).imp_left (same i).mpr }

end Threads

end Graph

end ThreatModel
