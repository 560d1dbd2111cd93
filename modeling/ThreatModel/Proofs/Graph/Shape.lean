import Mathlib
import ThreatModel.Proofs.Graph.Growth

set_option autoImplicit false

namespace ThreatModel

namespace Action

def isGuard : Action → Bool
  | .guard .. => true
  | _ => false

def isAlternative : Action → Bool
  | .alternative _ => true
  | _ => false

def isEmit : Action → Bool
  | .emit .. => true
  | _ => false

def admits : Action → Action → Bool
  | .choice, next => next.isGuard
  | .callSite _, next => next.isAlternative
  | _, _ => true

theorem admits_of_straight {action next : Action} (straight : action.branches = false) :
    action.admits next = true := by
  cases action <;> simp_all [branches, admits]

end Action

namespace Graph

structure Shaped (g : Graph) : Prop where
  leads : ∀ i node, g.node? i = some node → ∀ j ∈ node.successors,
    ∃ next, g.node? j = some next ∧ node.action.admits next.action = true
  single : ∀ i node, g.node? i = some node → node.action.branches = false →
    node.successors.length ≤ 1

def Awaits (g : Graph) (action : Action) (i : Nat) : Prop :=
  ∃ node, g.node? i = some node ∧ node.action.admits action = true ∧
    (node.action.branches = false → node.successors = [])

theorem Open.awaits {g : Graph} {i : Nat} (free : g.Open i) (action : Action) :
    g.Awaits action i := by
  obtain ⟨node, found, none, straight⟩ := free
  exact ⟨node, found, Action.admits_of_straight straight, fun _ => none⟩

namespace Shaped

variable {g : Graph}

theorem append (shaped : g.Shaped) {node : Node} {ends : List Nat} (bare : node.successors = [])
    (awaits : ∀ e ∈ ends, g.Awaits node.action e) (apart : ends.Nodup) :
    (g.append node ends).Shaped := by
  have inside : ∀ e ∈ ends, e < g.size := by
    intro e member
    obtain ⟨old, found, -⟩ := awaits e member
    exact lt_size_of_node? found
  constructor
  · intro i found here j next
    rcases append_cases inside here with ⟨-, rfl⟩ | ⟨old, there, same, drawn⟩
    · simp [bare] at next
    · rcases drawn j next with kept | ⟨member, rfl⟩
      · obtain ⟨target, at_j, admitted⟩ := shaped.leads i old there j kept
        obtain ⟨target', now, same'⟩ := (Grows.append node bare inside).action at_j
        exact ⟨target', now, by rw [same, same', admitted]⟩
      · obtain ⟨old', there', admitted, -⟩ := awaits i member
        obtain rfl := Option.some.inj (there.symm.trans there')
        exact ⟨_, node?_append_self node ends inside, by rw [same, admitted]⟩
  · intro i found here straight
    rw [node?_append node ends inside] at here
    split at here
    next =>
      obtain rfl := Option.some.inj here
      simp [bare]
    next =>
      obtain ⟨old, there, rfl⟩ := Option.map_eq_some_iff.mp here
      by_cases member : i ∈ ends
      · -- An end has no edge yet, and it is led on from once.
        obtain ⟨old', there', -, none⟩ := awaits i member
        obtain rfl := Option.some.inj (there.symm.trans there')
        simp [none straight, List.count_eq_one_of_mem apart member]
      · simpa [List.count_eq_zero_of_not_mem member] using shaped.single i old there straight

theorem connect (shaped : g.Shaped) {source target : Nat} (free : g.Open source)
    (inside : target < g.size) : (g.connect source target).Shaped := by
  have action {i : Nat} {node : Node} (found : g.node? i = some node) :
      ∃ node', (g.connect source target).node? i = some node' ∧ node'.action = node.action := by
    rw [node?_connect]
    split <;> simp [found]
  constructor
  · intro i found here j next
    rw [node?_connect] at here
    split at here
    next same =>
      obtain ⟨old, there, rfl⟩ := Option.map_eq_some_iff.mp here
      obtain ⟨old', there', none, straight⟩ := free
      obtain rfl := Option.some.inj (there'.symm.trans (same ▸ there))
      obtain rfl : j = target := by simpa [none] using next
      obtain ⟨node, at_j⟩ := exists_node? inside
      obtain ⟨node', now, -⟩ := action at_j
      exact ⟨node', now, Action.admits_of_straight straight⟩
    next =>
      obtain ⟨node, at_j, admitted⟩ := shaped.leads i found here j next
      obtain ⟨node', now, same⟩ := action at_j
      exact ⟨node', now, by rw [same, admitted]⟩
  · intro i found here straight
    rw [node?_connect] at here
    split at here
    next same =>
      obtain ⟨old, there, rfl⟩ := Option.map_eq_some_iff.mp here
      obtain ⟨old', there', none, -⟩ := free
      obtain rfl := Option.some.inj (there'.symm.trans (same ▸ there))
      simp [none]
    next => exact shaped.single i found here straight

end Shaped

def actions (g : Graph) : List Action := g.nodes.toList.map (·.action)

@[simp] theorem length_actions (g : Graph) : g.actions.length = g.size := by simp [actions, size]

theorem getElem?_actions (g : Graph) (i : Nat) : g.actions[i]? = (g.node? i).map (·.action) := by
  simp [actions, node?]

theorem acts_iff {g : Graph} {i : Nat} {action : Action} :
    g.actions[i]? = some action ↔ ∃ node, g.node? i = some node ∧ node.action = action := by
  rw [getElem?_actions, Option.map_eq_some_iff]

@[simp] theorem actions_connect (g : Graph) (source target : Nat) :
    (g.connect source target).actions = g.actions := by
  refine List.ext_getElem? fun i => ?_
  rw [getElem?_actions, getElem?_actions, node?_connect]
  split <;> simp [Function.comp_def]

@[simp] theorem actions_append (g : Graph) (node : Node) (ends : List Nat) :
    (g.append node ends).actions = g.actions ++ [node.action] := by
  have drawn (target : Nat) (h : Graph) :
      (ends.foldl (fun g' source => g'.connect source target) h).actions = h.actions := by
    induction ends generalizing h with
    | nil => rfl
    | cons source rest ih => simp [ih]
  rw [append, drawn]
  simp [actions, add]

theorem zipIdx_nodes (g : Graph) :
    g.nodes.toList.zipIdx = g.nodes.toList.map fun node => (node, node.index) := by
  refine List.ext_getElem? fun i => ?_
  rw [List.getElem?_zipIdx, List.getElem?_map, Array.getElem?_toList]
  cases found : g.nodes[i]? with
  | none => rfl
  | some node => simp [g.placed i node found]

theorem placesOf_eq (g : Graph) (select : Action → Bool) :
    g.placesOf select = (g.actions.zipIdx.filter fun p => select p.1).map (·.2) := by
  simp [placesOf, actions, List.zipIdx_map, zipIdx_nodes, List.filter_map, Function.comp_def]

theorem placesOf_append (g : Graph) (node : Node) (ends : List Nat) (select : Action → Bool) :
    (g.append node ends).placesOf select =
      g.placesOf select ++ if select node.action then [g.size] else [] := by
  rw [placesOf_eq, placesOf_eq, actions_append, List.zipIdx_append]
  by_cases selected : select node.action = true <;> simp [selected]

end Graph

end ThreatModel
