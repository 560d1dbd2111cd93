import Mathlib
import ThreatModel.Proofs.Formula.Ordering

set_option autoImplicit false

namespace ThreatModel

namespace Ordering

variable {pairs : List (String × String)}

theorem exists_rank_of_acyclic
    (acyclic : ∀ x, ¬ Relation.TransGen (fun x y => (x, y) ∈ pairs) x x) :
    ∃ rank : String → Nat, ∀ pair ∈ pairs, rank pair.1 < rank pair.2 := by
  classical
  -- A name stands by the number of names that lead to it.
  let below (x : String) : Finset String := (pairs.map Prod.fst).toFinset.filter fun y =>
    Relation.TransGen (fun x y => (x, y) ∈ pairs) y x
  refine ⟨fun x => (below x).card, fun pair member => Finset.card_lt_card ?_⟩
  have edge : (pair.1, pair.2) ∈ pairs := member
  refine (Finset.ssubset_iff_of_subset fun y lower => ?_).mpr ⟨pair.1, ?_, fun own => ?_⟩
  · obtain ⟨named, path⟩ := Finset.mem_filter.mp lower
    exact Finset.mem_filter.mpr ⟨named, path.tail edge⟩
  · have named : pair.1 ∈ (pairs.map Prod.fst).toFinset :=
      List.mem_toFinset.mpr (List.mem_map_of_mem member)
    exact Finset.mem_filter.mpr ⟨named, .single edge⟩
  · exact acyclic pair.1 (Finset.mem_filter.mp own).2

end Ordering

namespace Formula

inductive Demands : Formula → String → String → Prop
  | precedes {i j : String} : Demands (.precedes i j) i j
  | and {f : Formula} {fs : List Formula} {i j : String} (member : f ∈ fs) (part : f.Demands i j) :
      Demands (.and fs) i j
  | quant {q : Quantifier} {xs : List String} {f : Formula} {i j : String}
      (body : f.Demands i j) : Demands (.quant q xs f) i j
  | implies {p c : Formula} {i j : String} (conclusion : c.Demands i j) :
      Demands (.implies p c) i j

mutual

theorem demands_of_mem {i j : String} : ∀ {f : Formula}, (i, j) ∈ f.orderings → f.Demands i j
  | .precedes _ _, member => by
    obtain ⟨rfl, rfl⟩ : i = _ ∧ j = _ := by simpa [orderings] using member
    exact .precedes
  | .and _, member => by
    obtain ⟨f, among, part⟩ := exists_demands_of_mem member
    exact .and among part
  | .quant _ _ _, member => .quant (demands_of_mem member)
  | .implies _ _, member => .implies (demands_of_mem member)
  | .eventAt .., member | .equal .., member | .truth, member | .not _, member | .or _, member
  | .unsupported, member => by simp [orderings] at member

theorem exists_demands_of_mem {i j : String} : ∀ {fs : List Formula}, (i, j) ∈ orderingsAll fs →
    ∃ f ∈ fs, f.Demands i j
  | f :: fs, member => by
    rcases List.mem_append.mp member with here | later
    · exact ⟨f, List.mem_cons_self, demands_of_mem here⟩
    · obtain ⟨f', among, part⟩ := exists_demands_of_mem later
      exact ⟨f', List.mem_cons_of_mem _ among, part⟩

end

theorem mem_orderings_iff {f : Formula} {i j : String} : (i, j) ∈ f.orderings ↔ f.Demands i j := by
  refine ⟨demands_of_mem, fun demands => ?_⟩
  induction demands with
  | precedes => simp [orderings]
  | and member _ ih => exact mem_orderingsAll.mpr ⟨_, member, ih⟩
  | quant _ ih | implies _ ih => exact ih

/-- The orderings of a formula can all be kept just if they have no cycle, and just if integers can
be assigned to the names that go up along them. -/
theorem orderable_iff_acyclic (f : Formula) :
    (f.orderable = true ↔ ∀ x, ¬ Relation.TransGen f.Demands x x) ∧
    (f.orderable = true ↔ ∃ place : String → Int, ∀ i j, f.Demands i j → place i < place j) := by
  have placed (ordered : f.orderable = true) :
      ∃ place : String → Int, ∀ i j, f.Demands i j → place i < place j := by
    obtain ⟨place, rises⟩ := Ordering.satisfiable_iff.mp ordered
    exact ⟨place, fun i j demands => rises (i, j) (mem_orderings_iff.mpr demands)⟩
  have acyclic (place : String → Int) (rises : ∀ i j, f.Demands i j → place i < place j)
      (x : String) (cycle : Relation.TransGen f.Demands x x) : False := by
    have up := cycle.lift place rises
    rw [Relation.transGen_eq_self] at up
    exact up.false
  have ordered (acyclic : ∀ x, ¬ Relation.TransGen f.Demands x x) : f.orderable = true := by
    have same : f.Demands = fun x y => (x, y) ∈ f.orderings := by
      funext x y
      exact propext mem_orderings_iff.symm
    rw [same] at acyclic
    obtain ⟨rank, rises⟩ := Ordering.exists_rank_of_acyclic acyclic
    exact Ordering.satisfiable_of_ranked rises
  refine ⟨⟨fun able => ?_, ordered⟩, placed, fun able => ?_⟩
  · obtain ⟨place, rises⟩ := placed able
    exact acyclic place rises
  · obtain ⟨place, rises⟩ := able
    exact ordered (acyclic place rises)

end Formula

end ThreatModel
