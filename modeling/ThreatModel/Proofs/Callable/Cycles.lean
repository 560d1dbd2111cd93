import Mathlib
import ThreatModel.Proofs.Callable.Colours

set_option autoImplicit false

namespace ThreatModel

open Relation

namespace CallGraph

variable {G : CallGraph} {s : CallGraph.Search} {path chain : List String} {name next : String}

/-- A walk along calls back to where it began, on which no other name comes twice. -/
def IsCycle (G : CallGraph) (chain : List String) : Prop :=
  ∃ first rest, chain = first :: rest ++ [first] ∧ (first :: rest).Nodup ∧ chain.IsChain G.Calls

def SameNames (chain chain' : List String) : Prop := ∀ x, x ∈ chain ↔ x ∈ chain'

theorem IsCycle.transGen (cycle : G.IsCycle chain) : ∃ f, TransGen G.Calls f f := by
  obtain ⟨first, rest, rfl, -, walk⟩ := cycle
  exact ⟨first, transGen_of_isChain walk List.mem_cons_self⟩

theorem isCycle_of_mem_path (distinct : path.Nodup) (walk : path.IsChain G.Calls)
    (last : path.getLast? = some name) (calls : G.Calls name next) (again : next ∈ path) :
    G.IsCycle (path.dropWhile (· ≠ next) ++ [next]) := by
  obtain ⟨before, after, rfl⟩ := List.append_of_mem again
  have apart : ∀ x ∈ before, decide (x ≠ next) = true := by
    intro x member
    have other := (List.nodup_append.mp distinct).2.2 x member next List.mem_cons_self
    simpa using other
  have around : (before ++ next :: after).dropWhile (· ≠ next) = next :: after := by
    rw [List.dropWhile_append_of_pos apart]
    simp
  have suffix : next :: after <:+ before ++ next :: after := List.suffix_append _ _
  rw [around]
  refine ⟨next, after, rfl, distinct.sublist suffix.sublist, ?_⟩
  refine isChain_concat (walk.suffix suffix) fun x ends => ?_
  obtain rfl : x = name := by simpa [List.getLast?_append, Option.mem_def.mp ends] using last
  exact calls

namespace Search

structure Sound (G : CallGraph) (s : Search) : Prop where
  cycles : ∀ chain ∈ s.cycles, G.IsCycle chain
  distinct : s.cycles.Pairwise fun chain chain' => ¬ SameNames chain chain'

theorem Sound.report (sound : s.Sound G) (cycle : G.IsCycle chain) : (s.report chain).Sound G := by
  unfold Search.report
  split
  next => exact sound
  next new =>
    refine ⟨?_, List.pairwise_append.mpr ⟨sound.distinct, List.pairwise_singleton _ _, ?_⟩⟩
    · intro known member
      rcases List.mem_append.mp member with old | added
      · exact sound.cycles known old
      · exact List.mem_singleton.mp added ▸ cycle
    · intro known member added here same
      obtain rfl := List.mem_singleton.mp here
      -- The same names would have been recognised.
      refine new (List.any_eq_true.mpr ⟨known, member, ?_⟩)
      simp only [Bool.and_eq_true, List.all_eq_true, List.contains_iff_mem]
      exact ⟨fun x => (same x).mp, fun x => (same x).mpr⟩

end Search

theorem sound_visit (depth : Nat) (path : List String) (name : String) (s : Search)
    (distinct : path.Nodup) (walk : path.IsChain G.Calls) (last : path.getLast? = some name)
    (sound : s.Sound G) : (visit G depth path name s).Sound G := by
  -- The path grows by a call of its last name each time.
  induction depth generalizing path name s with
  | zero => exact sound
  | succ depth ih =>
    have followed (s : Search) (sound : s.Sound G) (next : String) (calls : G.Calls name next) :
        (G.follow depth path s next).Sound G := by
      unfold follow
      split
      next again => exact sound.report (isCycle_of_mem_path distinct walk last calls again)
      next new =>
        split
        next => exact sound
        next =>
          refine ih (path ++ [next]) next s ?_ ?_ (by simp) sound
          · exact List.concat_eq_append ▸ distinct.concat new
          · refine isChain_concat walk fun x ends => ?_
            obtain rfl : name = x := by simpa [last] using ends
            exact calls
    have all : (((G.find? name).getD []).foldl (G.follow depth path) s).Sound G :=
      List.foldlRecOn _ _ sound followed
    rw [visit_succ]
    exact ⟨all.cycles, all.distinct⟩

theorem sound_cycles (G : CallGraph) : Search.Sound G { cycles := G.cycles } := by
  have searched : ((Sorted.ofList G.keys).foldl (fun s root =>
      if root ∈ s.done then s else visit G G.size [root] root s) {}).Sound G := by
    refine List.foldlRecOn _ _ ⟨by simp, .nil⟩ fun s sound root _ => ?_
    split
    next => exact sound
    next => exact sound_visit _ _ _ s (by simp) (by simp) (by simp) sound
  exact ⟨searched.cycles, searched.distinct⟩

end CallGraph

/-- The search comes to its end by itself, and reports cycles exactly if calls come back. Each is
placed at the definition where it was entered, and no two go through the same definitions. -/
theorem Callables.checkRecursion_exact (C : Callables) :
    (∀ cycles, C.callGraph.Finds cycles ↔ cycles = C.callGraph.cycles) ∧
    (C.checkRecursion = [] ↔ ∀ f, ¬ TransGen C.callGraph.Calls f f) ∧
    (∀ d ∈ C.checkRecursion, ∃ chain, d.cause = .recursiveCalls chain ∧
      C.callGraph.IsCycle chain ∧ d.declaration = chain.head?) ∧
    C.checkRecursion.Pairwise fun d d' => ∀ chain chain', d.cause = .recursiveCalls chain →
      d'.cause = .recursiveCalls chain' → ¬ CallGraph.SameNames chain chain' := by
  have sound := CallGraph.sound_cycles C.callGraph
  refine ⟨CallGraph.finds_iff (closed_callGraph C), ⟨fun none => ?_, fun acyclic => ?_⟩,
    fun d member => ?_, ?_⟩
  · exact CallGraph.acyclic_of_cycles_eq_nil (closed_callGraph C) (List.map_eq_nil_iff.mp none)
  · refine List.map_eq_nil_iff.mpr (List.eq_nil_iff_forall_not_mem.mpr fun chain member => ?_)
    obtain ⟨f, around⟩ := (sound.cycles chain member).transGen
    exact acyclic f around
  · obtain ⟨chain, reported, rfl⟩ := List.mem_map.mp member
    have cycle := sound.cycles chain reported
    refine ⟨chain, rfl, cycle, ?_⟩
    obtain ⟨first, rest, rfl, -⟩ := cycle
    exact congrArg some (List.getLastD_concat (l := first :: rest))
  · refine List.pairwise_map.mpr (sound.distinct.imp fun apart => ?_)
    rintro _ _ ⟨⟩ ⟨⟩
    exact apart

end ThreatModel
