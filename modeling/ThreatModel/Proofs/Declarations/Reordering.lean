import Mathlib
import ThreatModel.Proofs.Callable.Reordering

set_option autoImplicit false

namespace ThreatModel

open Result

namespace Declarations

variable {C C' : Callables}

theorem grantFlaws_of_perm {M : Model} {attacks : List AttackDecl} (alike : C.Alike C')
    (perm : attacks.Perm M.attacks) : grantFlaws C' { M with attacks } = grantFlaws C M := by
  have attempted (name : String) :
      (attacks.map (·.name)).contains name = (M.attacks.map (·.name)).contains name := by
    rw [Bool.eq_iff_iff, List.contains_iff_mem, List.contains_iff_mem]
    exact (perm.map _).mem_iff
  simp only [grantFlaws, alike.find?, attempted]

section Stages

variable {budget : Int} {M : Model}

theorem mem_names_of_syscalls {S : Callables}
    (syscalls : M.syscalls.foldlM Callables.declareSyscall {} = .ok S) {f : String} :
    S.find? f = none ↔ f ∉ Definition.builtins.map (·.name) ∧ f ∉ M.syscalls.map (·.name) := by
  have holds := definitions_of_stages (M := { M with attacks := [] }) syscalls rfl
  rw [Callables.find?, Table.find?_eq_none_iff, holds.keys_eq]
  simp [Model.definitions, SyscallDecl.definition, not_or]

theorem alike_of_stages {S : Callables} {attacks : List AttackDecl}
    (perm : attacks.Perm M.attacks)
    (syscalls : M.syscalls.foldlM Callables.declareSyscall {} = .ok S)
    (done : M.attacks.foldlM Callables.declareAttack S = .ok C)
    (done' : attacks.foldlM Callables.declareAttack S = .ok C') : C.Alike C' := by
  obtain ⟨entries, distinct⟩ := definitions_of_stages syscalls done
  obtain ⟨entries', -⟩ := definitions_of_stages (M := { M with attacks }) syscalls done'
  refine Callables.alike_of_perm distinct ?_
  rw [entries, entries']
  exact ((perm.map _).append_left _).map _

theorem exists_ofModel_of_perm {D : Declarations} (made : ofModel budget M = .ok D)
    {attacks : List AttackDecl} (perm : attacks.Perm M.attacks)
    (spared : attacks.Pairwise fun earlier later => ¬ later.Invokes earlier.name) :
    ∃ D', ofModel budget { M with attacks } = .ok D' := by
  obtain ⟨E, P, S, C, L, first, granted, syscalls, declared, last, -, named, ordered, freeSyscalls,
    freeAttacks, system⟩ := exists_stages made
  obtain ⟨admits, distinct⟩ := Callables.exists_foldlM_declareAttack_iff.mp ⟨C, declared⟩
  -- Different names are different in either order.
  have names : attacks.Pairwise fun b a => b.name ≠ a.name :=
    (perm.pairwise_iff fun different => Ne.symm different).mpr (distinct.imp And.left)
  obtain ⟨C', declared'⟩ := Callables.exists_foldlM_declareAttack_iff.mpr
    ⟨fun a member => admits a (perm.mem_iff.mp member), names.and spared⟩
  have alike : C.Alike C' := by
    rw [(initial_of_early first).callables] at syscalls
    exact alike_of_stages perm syscalls declared declared'
  refine ⟨_, ofModel_of_stages (M := { M with attacks }) first granted syscalls declared'
    (late_under ⟨rfl, alike.contains⟩ last) ?_ ?_ freeSyscalls ?_ ?_⟩
  · rw [grantFlaws_of_perm alike perm, named]
  · rw [alike.checkRecursion, ordered]
  · exact fun a member => freeAttacks a (perm.mem_iff.mp member)
  · exact (systemFlaws_congr L (L.under P C') rfl rfl _).trans system

theorem not_invokes_self {D : Declarations} (made : ofModel budget M = .ok D) {a : AttackDecl}
    (member : a ∈ M.attacks) : ¬ a.Invokes a.name := by
  rintro ⟨-, args, location, inside⟩
  obtain ⟨entries, distinct⟩ := (lists_of_ofModel made).definitions
  have listed : a.definition ∈ M.definitions :=
    List.mem_append_right _ (List.mem_map_of_mem member)
  have found : D.callables.find? a.name = some a.definition :=
    Table.find?_of_mem_entries distinct (entries ▸ List.mem_map_of_mem listed)
  refine Callables.acyclic_of_ofModel made a.name (.single (Callables.calls_iff.mpr
    ⟨a.definition, found, List.mem_filterMap.mpr ⟨_, inside, rfl⟩, ?_⟩))
  exact Table.contains_iff.mpr (Table.exists_find?_iff.mp ⟨_, found⟩)

/-- A model without a flaw has one in another order of its attacks exactly if a passive attack then
comes after one that it applies. -/
theorem exists_ofModel_perm_iff {D : Declarations} (made : ofModel budget M = .ok D) :
    (∀ attacks : List AttackDecl, attacks.Perm M.attacks →
      ((∃ D', ofModel budget { M with attacks } = .ok D') ↔
        attacks.Pairwise fun earlier later => ¬ later.Invokes earlier.name)) ∧
    ∀ before a after f, M.attacks = before ++ a :: after → a.Invokes f →
      f ∉ Definition.builtins.map (·.name) ∧ f ∉ M.syscalls.map (·.name) ∧
        f ∉ before.map (·.name) ∧ f ≠ a.name := by
  constructor
  · intro attacks perm
    refine ⟨?_, exists_ofModel_of_perm made perm⟩
    rintro ⟨D', made'⟩
    obtain ⟨E, P, S, C, L, -, -, -, declared, -⟩ := exists_stages made'
    exact (Callables.exists_foldlM_declareAttack_iff.mp ⟨C, declared⟩).2.imp And.right
  · intro before a after f split invokes
    obtain ⟨E, P, S, C, L, first, -, syscalls, declared, -⟩ := exists_stages made
    rw [(initial_of_early first).callables] at syscalls
    obtain ⟨admits, ordered⟩ := Callables.exists_foldlM_declareAttack_iff.mp ⟨C, declared⟩
    have member : a ∈ M.attacks := by simp [split]
    have new := (admits a member).unknown f invokes
    obtain ⟨builtin, syscall⟩ := (mem_names_of_syscalls syscalls).mp new
    refine ⟨builtin, syscall, fun earlier => ?_, fun same => ?_⟩
    · obtain ⟨b, among, rfl⟩ := List.mem_map.mp earlier
      rw [split] at ordered
      exact ((List.pairwise_append.mp ordered).2.2 b among a (by simp)).2 invokes
    · exact not_invokes_self made member (same ▸ invokes)

end Stages

end Declarations

def Model.relayedLeak : Model :=
  { types := [{ name := "host_t", kind := .process }]
    attacks :=
      [{ name := "leak", params := ["v"], target := none
         body := .store .insert attackerStore (.apply "spy" [.ident "v" none] none) none },
       { name := "spy", params := ["v"], target := none
         body := .store .insert attackerStore (.ident "v" none) none }]
    processes := [{ name := "P", type := "host_t" }]
    system := some
      { instances := [{ template := "P", name := some "p" }]
        lemmas :=
          [{ name := "r", kind := .reachable, events := [{ tag := "Done", args := [] }] }] } }

theorem Declarations.relayedLeak_reversed :
    (∃ D, ofModel 64 Model.relayedLeak = .ok D) ∧
      ¬ ∃ D, ofModel 64
        { Model.relayedLeak with attacks := Model.relayedLeak.attacks.reverse } = .ok D := by
  have ran : (do let D ← ofModel 64 Model.relayedLeak; return D.constants.size : Result Nat) =
      .ok 0 := by decide +kernel
  simp only [bind_eq_ok_iff, pure_eq_ok_iff] at ran
  obtain ⟨D, made, -⟩ := ran
  refine ⟨⟨D, made⟩, fun reversed => ?_⟩
  have spared := ((exists_ofModel_perm_iff made).1 _ (List.reverse_perm _)).mp reversed
  -- The body is the insertion, then the application, then the variable.
  exact (List.pairwise_cons.mp spared).1 _ (List.mem_singleton.mpr rfl)
    ⟨rfl, [.ident "v" none], none, List.mem_cons_of_mem _ List.mem_cons_self⟩

end ThreatModel
