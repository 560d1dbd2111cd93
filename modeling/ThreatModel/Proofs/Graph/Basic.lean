import Mathlib
import ThreatModel.Graph.Reachable

set_option autoImplicit false

namespace ThreatModel

namespace Condition

def terms (c : Condition) : List Term := [c.left, c.right]

end Condition

namespace Action

def terms : Action → List Term
  | .assign _ t | .insert _ t | .remove _ t | .emit t _ => [t]
  | .consume _ pattern _ | .read _ pattern _ => [pattern]
  | .guard conditions excluded => (conditions ++ excluded.flatten).flatMap Condition.terms
  | _ => []

def introduces : Action → List String
  | .consume _ _ binds | .read _ _ binds => binds
  | _ => []

def defines : Action → List String
  | .fresh x _ | .assign x _ => [x]
  | action => action.introduces

def Uses (action : Action) (x : String) : Prop :=
  (∃ t ∈ action.terms, x ∈ t.vars) ∧ x ∉ action.introduces

def store? : Action → Option String
  | .insert store _ | .remove store _ | .consume store _ _ | .read store _ _ => some store
  | _ => none

end Action

namespace Graph

def Leads (g : Graph) (i j : Nat) : Prop := ∃ node ∈ g.node? i, j ∈ node.successors

instance (g : Graph) (i j : Nat) : Decidable (g.Leads i j) :=
  inferInstanceAs (Decidable (∃ node ∈ g.node? i, j ∈ node.successors))

variable {g : Graph} {i : Nat}

theorem node?_eq_none_iff : g.node? i = none ↔ g.size ≤ i := by
  simp [node?, size]

theorem exists_node? (inside : i < g.size) : ∃ node, g.node? i = some node := by
  cases found : g.node? i with
  | some node => exact ⟨node, rfl⟩
  | none => exact absurd (node?_eq_none_iff.mp found) (by omega)

theorem node?_append (node : Node) (ends : List Nat) (inside : ∀ e ∈ ends, e < g.size) :
    (g.append node ends).node? i =
      if i = g.size then some { node with index := g.size }
      else (g.node? i).map fun old =>
        { old with successors := old.successors ++ List.replicate (ends.count i) g.size } := by
  have drawn (h : Graph) : (ends.foldl (fun g' source => g'.connect source g.size) h).node? i =
      (h.node? i).map fun old =>
        { old with successors := old.successors ++ List.replicate (ends.count i) g.size } := by
    clear inside
    induction ends generalizing h with
    | nil => simp
    | cons source rest ih =>
      rw [List.foldl_cons, ih, node?_connect]
      by_cases here : source = i
      · subst here
        simp [List.replicate_succ, Function.comp_def]
      · simp [here]
  rw [append, drawn, node?_add]
  by_cases new : i = g.size
  · have apart : i ∉ ends := fun drawn => absurd (inside i drawn) (by omega)
    simp [new, List.count_eq_zero_of_not_mem (new ▸ apart)]
  · simp [new]

theorem node?_append_self (node : Node) (ends : List Nat) (inside : ∀ e ∈ ends, e < g.size) :
    (g.append node ends).node? g.size = some { node with index := g.size } := by
  rw [node?_append node ends inside, if_pos rfl]

theorem append_cases {node found : Node} {ends : List Nat} (inside : ∀ e ∈ ends, e < g.size)
    (here : (g.append node ends).node? i = some found) :
    (i = g.size ∧ found = { node with index := g.size }) ∨
      ∃ old, g.node? i = some old ∧ found.action = old.action ∧
        ∀ j ∈ found.successors, j ∈ old.successors ∨ (i ∈ ends ∧ j = g.size) := by
  rw [node?_append node ends inside] at here
  split at here
  next new => exact .inl ⟨new, (Option.some.inj here).symm⟩
  next =>
    obtain ⟨old, there, rfl⟩ := Option.map_eq_some_iff.mp here
    refine .inr ⟨old, there, rfl, fun j next => ?_⟩
    rcases List.mem_append.mp next with kept | drawn
    · exact .inl kept
    · obtain ⟨several, rfl⟩ := List.mem_replicate.mp drawn
      exact .inr ⟨List.count_pos_iff.mp (by omega), rfl⟩

def Bare (g : Graph) (i : Nat) : Prop :=
  ∃ node callee, g.node? i = some node ∧ node.action = .callSite callee ∧ node.successors = []

theorem bare_append {node : Node} {ends : List Nat} (inside : ∀ e ∈ ends, e < g.size)
    (bare : (g.append node ends).Bare i) :
    (i = g.size ∧ ∃ callee, node.action = .callSite callee) ∨ (g.Bare i ∧ i ∉ ends) := by
  obtain ⟨found, callee, here, site, none⟩ := bare
  rw [node?_append node ends inside] at here
  split at here
  next new =>
    obtain rfl := Option.some.inj here
    exact .inl ⟨new, callee, site⟩
  next old =>
    obtain ⟨before, there, rfl⟩ := Option.map_eq_some_iff.mp here
    obtain ⟨unled, undrawn⟩ := List.append_eq_nil_iff.mp none
    refine .inr ⟨⟨before, callee, there, site, unled⟩, ?_⟩
    rw [List.replicate_eq_nil_iff] at undrawn
    exact List.count_eq_zero.mp undrawn

theorem bare_connect {source target : Nat} (bare : (g.connect source target).Bare i) : g.Bare i := by
  obtain ⟨found, callee, here, site, none⟩ := bare
  rw [node?_connect] at here
  split at here
  next =>
    obtain ⟨before, there, rfl⟩ := Option.map_eq_some_iff.mp here
    simp at none
  next => exact ⟨found, callee, here, site, none⟩

end Graph

end ThreatModel
