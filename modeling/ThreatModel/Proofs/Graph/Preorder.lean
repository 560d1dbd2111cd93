import Mathlib
import ThreatModel.Proofs.Graph.Basic

set_option autoImplicit false

namespace ThreatModel.Graph

theorem unseen_append_le (g : Graph) (more seen : List Nat) :
    g.unseen (more ++ seen) ≤ g.unseen seen := by
  refine (List.monotone_filter_right _ fun i free => ?_).length_le
  simp only [List.contains_append, Bool.not_or, Bool.and_eq_true] at free
  exact free.2

/-- The nodes met from a list of nodes, from left to right: each that was not seen before, followed
by those met from its successors, before the next one is looked at. -/
def preorder (g : Graph) : (targets seen : List Nat) → List Nat
  | [], _ => []
  | i :: rest, seen =>
    if _known : i ∈ seen then g.preorder rest seen
    else
      match _found : g.node? i with
      | none => g.preorder rest seen
      | some node =>
        let below := g.preorder node.successors (i :: seen)
        i :: below ++ g.preorder rest (below.reverse ++ i :: seen)
termination_by targets seen => (g.unseen seen, targets.length)
decreasing_by
  · exact Prod.Lex.right _ (by simp)
  · exact Prod.Lex.right _ (by simp)
  · exact Prod.Lex.left _ _ (unseen_cons_lt g seen i (lt_size_of_node? _found) _known)
  · exact Prod.Lex.left _ _ (lt_of_le_of_lt (g.unseen_append_le _ _)
      (unseen_cons_lt g seen i (lt_size_of_node? _found) _known))

theorem nodup_preorder (g : Graph) (targets seen : List Nat) :
    (g.preorder targets seen).Nodup ∧ ∀ i ∈ g.preorder targets seen, i ∉ seen := by
  fun_induction preorder g targets seen with
  | case1 => simp
  | case2 _ _ _ _ ih | case3 _ _ _ _ _ ih => exact ih
  | case4 i rest seen new node found below ihBelow ihRest =>
    obtain ⟨once, fresh⟩ := ihBelow
    obtain ⟨once', fresh'⟩ := ihRest
    simp only [List.mem_append, List.mem_reverse, List.mem_cons, not_or] at fresh fresh'
    constructor
    · rw [List.nodup_append']
      refine ⟨List.nodup_cons.mpr ⟨fun inside => (fresh i inside).1 rfl, once⟩, once', ?_⟩
      intro k early late
      rcases List.mem_cons.mp early with rfl | inside
      · exact (fresh' k late).2.1 rfl
      · exact (fresh' k late).1 inside
    · intro k member
      rcases List.mem_append.mp member with early | late
      · rcases List.mem_cons.mp early with rfl | inside
        · exact new
        · exact (fresh k inside).2
      · exact (fresh' k late).2.2

theorem leads_of_mem_preorder (g : Graph) (targets seen : List Nat) :
    ∀ i ∈ g.preorder targets seen, ∃ t ∈ targets, Relation.ReflTransGen g.Leads t i := by
  fun_induction preorder g targets seen with
  | case1 => simp
  | case2 _ _ _ _ ih | case3 _ _ _ _ _ ih =>
    intro k member
    obtain ⟨t, among, path⟩ := ih k member
    exact ⟨t, List.mem_cons_of_mem _ among, path⟩
  | case4 i rest seen new node found below ihBelow ihRest =>
    intro k member
    rcases List.mem_append.mp member with early | late
    · refine ⟨i, List.mem_cons_self, ?_⟩
      rcases List.mem_cons.mp early with rfl | inside
      · exact .refl
      · obtain ⟨t, next, path⟩ := ihBelow k inside
        exact .head ⟨node, found, next⟩ path
    · obtain ⟨t, among, path⟩ := ihRest k late
      exact ⟨t, List.mem_cons_of_mem _ among, path⟩

variable {g : Graph} {targets : List Nat}

theorem preorder_complete (closed : ∀ i j, g.Leads i j → j < g.size)
    (inside : ∀ t ∈ targets, t < g.size) (seen : List Nat) :
    (∀ t ∈ targets, t ∈ g.preorder targets seen ++ seen) ∧
      ∀ i ∈ g.preorder targets seen, ∀ j, g.Leads i j → j ∈ g.preorder targets seen ++ seen := by
  fun_induction preorder g targets seen with
  | case1 => simp
  | case2 i rest seen known ih =>
    obtain ⟨met, followed⟩ := ih fun t member => inside t (List.mem_cons_of_mem _ member)
    exact ⟨List.forall_mem_cons.mpr ⟨List.mem_append_right _ known, met⟩, followed⟩
  | case3 i rest seen new none ih =>
    exact absurd (inside i List.mem_cons_self) (node?_eq_none_iff.mp none).not_gt
  | case4 i rest seen new node found below ihBelow ihRest =>
    obtain ⟨met, followed⟩ := ihBelow fun j next => closed i j ⟨node, found, next⟩
    obtain ⟨met', followed'⟩ := ihRest fun t member => inside t (List.mem_cons_of_mem _ member)
    -- What was seen before the rest is looked at is the node, what is below it and what was seen.
    simp only [List.mem_append, List.mem_reverse, List.mem_cons] at met followed met' followed' ⊢
    constructor
    · rintro t (rfl | among)
      · exact .inl (.inl (.inl rfl))
      · grind
    · rintro k ((rfl | early) | late) j leads
      · obtain ⟨node', found', next⟩ := leads
        obtain rfl := Option.some.inj (found.symm.trans found')
        grind
      · grind
      · grind

theorem visit_append (closed : ∀ i j, g.Leads i j → j < g.size)
    (inside : ∀ t ∈ targets, t < g.size) (stack seen : List Nat) :
    g.visit (targets ++ stack) seen = g.visit stack ((g.preorder targets seen).reverse ++ seen) := by
  fun_induction preorder g targets seen generalizing stack with
  | case1 => simp
  | case2 i rest seen known ih =>
    rw [List.cons_append, visit, dif_pos known]
    exact ih (fun t member => inside t (List.mem_cons_of_mem _ member)) stack
  | case3 i rest seen new none ih =>
    exact absurd (inside i List.mem_cons_self) (node?_eq_none_iff.mp none).not_gt
  | case4 i rest seen new node found below ihBelow ihRest =>
    have first : g.visit (i :: rest ++ stack) seen =
        g.visit (node.successors ++ (rest ++ stack)) (i :: seen) := by
      rw [List.cons_append, visit, dif_neg new]
      split
      next none => simp [found] at none
      next node' found' => rw [Option.some.inj (found.symm.trans found')]
    calc g.visit (i :: rest ++ stack) seen
      _ = g.visit (node.successors ++ (rest ++ stack)) (i :: seen) := first
      _ = g.visit (rest ++ stack) (below.reverse ++ i :: seen) :=
        ihBelow (fun j next => closed i j ⟨node, found, next⟩) (rest ++ stack)
      _ = g.visit stack ((g.preorder rest (below.reverse ++ i :: seen)).reverse ++
          (below.reverse ++ i :: seen)) :=
        ihRest (fun t member => inside t (List.mem_cons_of_mem _ member)) stack
      _ = g.visit stack ((i :: below ++ g.preorder rest (below.reverse ++ i :: seen)).reverse ++
          seen) := by simp

/-- In a graph whose edges stay inside it, the nodes that a node leads to are listed in depth-first
preorder: each once, and all of them. -/
theorem reachable_eq_preorder (closed : ∀ i j, g.Leads i j → j < g.size) {start : Nat}
    (inside : start < g.size) :
    ∃ order, g.reachable start = .ok order ∧ order = g.preorder [start] [] ∧ order.Nodup ∧
      ∀ i, i ∈ order ↔ Relation.ReflTransGen g.Leads start i := by
  have only : ∀ t ∈ [start], t < g.size := by simpa using inside
  refine ⟨g.preorder [start] [], ?_, rfl, (g.nodup_preorder _ _).1, fun i => ⟨fun member => ?_, ?_⟩⟩
  · have visited := visit_append closed only [] []
    simpa [reachable, visit] using visited
  · obtain ⟨t, among, path⟩ := g.leads_of_mem_preorder _ _ i member
    rwa [List.mem_singleton.mp among] at path
  · obtain ⟨met, followed⟩ := preorder_complete closed only []
    rw [List.append_nil] at met followed
    intro path
    induction path with
    | refl => exact met start (List.mem_singleton_self _)
    | tail _ leads ih => exact followed _ ih _ leads

def tangled : Graph :=
  [{ action := .choice, successors := [1, 2, 1] }, { action := .choice, successors := [3, 0] },
    { action := .choice, successors := [4, 1] }, { action := .choice, successors := [3, 2] },
    { action := .finish }, { action := .join, successors := [0] }].foldl add empty

theorem reachable_tangled : tangled.reachable 0 = .ok [0, 1, 3, 2, 4] ∧
    tangled.preorder [0] [] = [0, 1, 3, 2, 4] ∧
    ¬ Relation.ReflTransGen tangled.Leads 0 5 := by
  have closed (i j : Nat) : tangled.Leads i j → j < tangled.size := by
    rintro ⟨node, found, next⟩
    have edges : ∀ node ∈ tangled.nodes.toList, ∀ j ∈ node.successors, j < tangled.size := by decide
    exact edges node (Array.mem_toList_iff.mpr (Array.mem_of_getElem? found)) j next
  have listed : tangled.reachable 0 = .ok [0, 1, 3, 2, 4] := by
    simp [reachable, visit, tangled, node?, add, empty]
  obtain ⟨order, done, same, -, exactly⟩ :=
    reachable_eq_preorder closed (by decide : 0 < tangled.size)
  obtain rfl := Except.ok.inj (listed.symm.trans done)
  refine ⟨listed, same.symm, fun path => ?_⟩
  exact absurd ((exactly 5).mpr path) (by decide)

end ThreatModel.Graph
