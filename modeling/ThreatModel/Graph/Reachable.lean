import ThreatModel.Graph.Basic

set_option autoImplicit false

namespace ThreatModel.Graph

def unseen (g : Graph) (seen : List Nat) : Nat :=
  ((List.range g.size).filter fun i => !seen.contains i).length

theorem unseen_cons_lt (g : Graph) (seen : List Nat) (i : Nat) (inside : i < g.size)
    (new : i ∉ seen) : g.unseen (i :: seen) < g.unseen seen := by
  have split : (List.range g.size).filter (fun j => !(i :: seen).contains j)
      = ((List.range g.size).filter fun j => !seen.contains j).filter fun j => !decide (j = i) := by
    rw [List.filter_filter]; congr 1; funext j; simp
  rw [unseen, unseen, split]
  exact List.length_filter_lt_length_iff_exists.mpr ⟨i, by simp [inside, new], by simp⟩

theorem lt_size_of_node? {g : Graph} {i : Nat} {node : Node} (found : g.node? i = some node) :
    i < g.size := by
  simp only [node?] at found
  exact (Array.getElem?_eq_some_iff.mp found).1

def visit (g : Graph) : (stack seen : List Nat) → Result (List Nat)
  | [], seen => .ok seen.reverse
  | i :: stack, seen =>
      if _known : i ∈ seen then g.visit stack seen
      else
        match _found : g.node? i with
        | none => .error .outOfRange
        | some node => g.visit (node.successors ++ stack) (i :: seen)
termination_by stack seen => (g.unseen seen, stack.length)
decreasing_by
  · exact Prod.Lex.right _ (by simp)
  · exact Prod.Lex.left _ _ (unseen_cons_lt g seen i (lt_size_of_node? _found) _known)

def reachable (g : Graph) (start : Nat := 0) : Result (List Nat) := g.visit [start] []

def connectAll (g : Graph) : List (Nat × Nat) → Result Graph
  | [] => .ok g
  | (source, target) :: rest =>
      if source < g.size then (g.connect source target).connectAll rest else .error .outOfRange

end ThreatModel.Graph
