import Mathlib
import ThreatModel.Proofs.Declarations.Namespace

set_option autoImplicit false

namespace ThreatModel

open Result

namespace Sorted

theorem pairwise_insert {x : String} {xs : List String} (sorted : xs.Pairwise (· < ·)) :
    (insert x xs).Pairwise (· < ·) := by
  induction xs with
  | nil => simp [insert]
  | cons y ys ih =>
    obtain ⟨first, rest⟩ := List.pairwise_cons.mp sorted
    rw [insert]
    split
    next => exact sorted
    next other =>
      split
      next less =>
        refine List.pairwise_cons.mpr ⟨List.forall_mem_cons.mpr ⟨less, ?_⟩, sorted⟩
        exact fun z member => less.trans (first z member)
      next more =>
        have less : y < x := lt_of_le_of_ne (not_lt.mp more) (Ne.symm other)
        refine List.pairwise_cons.mpr ⟨fun z member => ?_, ih rest⟩
        rcases (mem_insert z x ys).mp member with rfl | old
        · exact less
        · exact first z old

theorem pairwise_ofList (xs : List String) : (ofList xs).Pairwise (· < ·) := by
  induction xs with
  | nil => exact .nil
  | cons x xs ih => exact pairwise_insert ih

theorem ofList_congr {xs ys : List String} (same : ∀ x, x ∈ xs ↔ x ∈ ys) :
    ofList xs = ofList ys :=
  (pairwise_ofList xs).eq_of_mem_iff (pairwise_ofList ys) (by simpa using same)

end Sorted

namespace Table

theorem find?_of_perm {κ α : Type} [DecidableEq κ] {t t' : Table κ α} (distinct : t.keys.Nodup)
    (perm : t'.entries.Perm t.entries) (key : κ) : t'.find? key = t.find? key := by
  have distinct' : t'.keys.Nodup := (perm.map Prod.fst).nodup_iff.mpr distinct
  apply Option.ext
  intro value
  constructor
  · exact fun found => find?_of_mem_entries distinct (perm.mem_iff.mp (mem_entries_of_find? found))
  · exact fun found => find?_of_mem_entries distinct' (perm.mem_iff.mpr (mem_entries_of_find? found))

end Table

namespace CallGraph

variable {G G' : CallGraph}

theorem visit_congr (same : ∀ name, G'.find? name = G.find? name) (depth : Nat)
    (path : List String) (name : String) (s : Search) :
    visit G' depth path name s = visit G depth path name s := by
  induction depth generalizing path name s with
  | zero => rfl
  | succ depth ih =>
    have followed : G'.follow depth path = G.follow depth path := by
      funext s next
      simp only [follow, ih]
    rw [visit_succ, visit_succ, same, followed]

theorem cycles_congr (same : ∀ name, G'.find? name = G.find? name) (keys : G'.keys.Perm G.keys) :
    G'.cycles = G.cycles := by
  have sorted : Sorted.ofList G'.keys = Sorted.ofList G.keys :=
    Sorted.ofList_congr fun _ => keys.mem_iff
  have size : G'.size = G.size := by simpa [Table.keys, Table.size] using keys.length_eq
  simp only [cycles, sorted, size, visit_congr same]

end CallGraph

def AttackDecl.Invokes (a : AttackDecl) (f : String) : Prop :=
  a.target = none ∧ ∃ args location, Part.expr (.apply f args location) ∈ a.body.parts

def Part.Leaks : Part → Prop
  | .command (.store action target _ _) => action = .insert ∧ target = attackerStore
  | .command (.call ..) => False
  | _ => True

namespace Callables

variable {C C' : Callables} {a b : AttackDecl}

structure Admits (C : Callables) (a : AttackDecl) : Prop where
  new : C.find? a.name = none
  params : firstRepeated? [] a.params = none
  target : ∀ f, a.target = some f →
    ∃ d, C.find? f = some d ∧ d.role.isAttack = false ∧ d.params.length = a.params.length
  leaks : a.target = none → ∀ part ∈ a.body.parts, part.Leaks
  unknown : ∀ f, a.Invokes f → C.find? f = none

theorem violation?_eq_none_iff {attack : String} {part : Part} :
    C.violation? attack part = none ↔
      part.Leaks ∧ ∀ f args location, part = .expr (.apply f args location) → C.find? f = none := by
  cases part with
  | command c => cases c <;> simp [violation?, Part.Leaks]
  | expr e =>
    cases e with
    | apply f args location =>
      cases known : C.definitions.find? f <;>
        simp [violation?, Part.Leaks, contains, Table.contains, find?, known]
    | _ => simp [violation?, Part.Leaks]
  | _ => simp [violation?, Part.Leaks]

theorem checkPassive_eq_ok_iff {attack : String} {body : Command} {done : Unit} :
    C.checkPassive attack body = .ok done ↔
      (∀ part ∈ body.parts, part.Leaks) ∧
        ∀ f args location, Part.expr (.apply f args location) ∈ body.parts → C.find? f = none := by
  have passed : C.checkPassive attack body = .ok done ↔
      ∀ part ∈ body.parts, C.violation? attack part = none := by
    rw [checkPassive, ← List.findSome?_eq_none_iff]
    cases body.parts.findSome? (C.violation? attack) <;> simp
  simp only [passed, violation?_eq_none_iff]
  constructor
  · intro each
    exact ⟨fun part member => (each part member).1,
      fun f args location member => (each _ member).2 f args location rfl⟩
  · rintro ⟨leaks, unknown⟩ part member
    exact ⟨leaks part member, fun f args location same => unknown f args location (same ▸ member)⟩

theorem checkTarget_eq_ok_iff {f : String} {done : Unit} :
    C.checkTarget a f = .ok done ↔
      ∃ d, C.find? f = some d ∧ d.role.isAttack = false ∧ d.params.length = a.params.length := by
  rw [checkTarget]
  cases C.find? f with
  | none => simp
  | some d =>
    simp only [Option.some.injEq, exists_eq_left']
    split
    next attack => simp [attack]
    next plain =>
      split
      next other => simp [other]
      next same => simp [plain, not_not.mp same]

theorem checkParams_eq_ok_iff {name : String} {params : List String} {location : Option Location}
    {done : Unit} : checkParams name params location = .ok done ↔ firstRepeated? [] params = none := by
  rw [checkParams]
  cases firstRepeated? [] params <;> simp

theorem exists_declareAttack_iff : (∃ C', C.declareAttack a = .ok C') ↔ C.Admits a := by
  obtain ⟨name, params, body, target, location⟩ := a
  cases target with
  | some f =>
    simp only [declareAttack, bind_eq_ok_iff, pure_eq_ok_iff, checkName_eq_ok_iff,
      checkParams_eq_ok_iff, checkTarget_eq_ok_iff]
    constructor
    · rintro ⟨-, -, new, -, distinct, -, there, -⟩
      exact ⟨new, distinct, by simpa using there, by simp, by simp [AttackDecl.Invokes]⟩
    · intro admits
      exact ⟨_, (), admits.new, (), admits.params, (), admits.target f rfl, rfl⟩
  | none =>
    simp only [declareAttack, bind_eq_ok_iff, pure_eq_ok_iff, checkName_eq_ok_iff,
      checkParams_eq_ok_iff]
    constructor
    · rintro ⟨-, -, new, -, distinct, _, passive, -⟩
      obtain ⟨leaks, unknown⟩ := checkPassive_eq_ok_iff.mp passive
      refine ⟨new, distinct, by simp, fun _ => leaks, ?_⟩
      rintro f ⟨-, args, loc, member⟩
      exact unknown f args loc member
    · intro admits
      refine ⟨_, (), admits.new, (), admits.params, (), ?_, rfl⟩
      exact checkPassive_eq_ok_iff.mpr ⟨admits.leaks rfl,
        fun f args loc member => admits.unknown f ⟨rfl, args, loc, member⟩⟩

theorem isAttack_definition (a : AttackDecl) : a.definition.role.isAttack = true := by
  cases target : a.target <;> simp [AttackDecl.definition, target, Role.isAttack]

theorem admits_after_iff (done : C.declareAttack b = .ok C') :
    C'.Admits a ↔ C.Admits a ∧ b.name ≠ a.name ∧ ¬ a.Invokes b.name := by
  obtain ⟨new, definitions⟩ := exists_of_declareAttack done
  have grown (f : String) : C'.find? f = if b.name = f then some b.definition else C.find? f := by
    rw [find?, definitions, Table.find?_insert, find?]
  have absent (f : String) : C'.find? f = none ↔ b.name ≠ f ∧ C.find? f = none := by
    rw [grown]
    split <;> simp_all
  -- A target is no attack, so no attack comes between it and what it was.
  have targets (f : String) (d : Definition) (plain : d.role.isAttack = false) :
      C'.find? f = some d ↔ C.find? f = some d := by
    rw [grown]
    split
    next same =>
      constructor
      · intro found
        rw [← Option.some.inj found, isAttack_definition] at plain
        cases plain
      · intro found
        rw [← same, new] at found
        cases found
    next => rfl
  constructor
  · intro admits
    obtain ⟨other, unnamed⟩ := (absent a.name).mp admits.new
    refine ⟨⟨unnamed, admits.params, fun f active => ?_, admits.leaks, fun f invokes => ?_⟩, other,
      fun invokes => ((absent b.name).mp (admits.unknown _ invokes)).1 rfl⟩
    · obtain ⟨d, found, plain, arity⟩ := admits.target f active
      exact ⟨d, (targets f d plain).mp found, plain, arity⟩
    · exact ((absent f).mp (admits.unknown f invokes)).2
  · rintro ⟨admits, other, spared⟩
    refine ⟨(absent a.name).mpr ⟨other, admits.new⟩, admits.params, fun f active => ?_,
      admits.leaks, fun f invokes => (absent f).mpr ⟨?_, admits.unknown f invokes⟩⟩
    · obtain ⟨d, found, plain, arity⟩ := admits.target f active
      exact ⟨d, (targets f d plain).mpr found, plain, arity⟩
    · rintro rfl
      exact spared invokes

theorem exists_foldlM_declareAttack_iff {attacks : List AttackDecl} :
    (∃ C', attacks.foldlM declareAttack C = .ok C') ↔
      (∀ a ∈ attacks, C.Admits a) ∧
        attacks.Pairwise fun b a => b.name ≠ a.name ∧ ¬ a.Invokes b.name := by
  induction attacks generalizing C with
  | nil => simp
  | cons b rest ih =>
    simp only [List.foldlM_cons, bind_eq_ok_iff, List.forall_mem_cons, List.pairwise_cons]
    constructor
    · rintro ⟨C', C₁, first, later⟩
      obtain ⟨admits, ordered⟩ := ih.mp ⟨C', later⟩
      refine ⟨⟨exists_declareAttack_iff.mp ⟨C₁, first⟩, fun a member => ?_⟩, fun a member => ?_,
        ordered⟩
      · exact ((admits_after_iff first).mp (admits a member)).1
      · exact ((admits_after_iff first).mp (admits a member)).2
    · rintro ⟨⟨here, admits⟩, spared, ordered⟩
      obtain ⟨C₁, first⟩ := exists_declareAttack_iff.mpr here
      obtain ⟨C', later⟩ := ih.mpr ⟨fun a member =>
        (admits_after_iff first).mpr ⟨admits a member, spared a member⟩, ordered⟩
      exact ⟨C', C₁, first, later⟩

structure Alike (C C' : Callables) : Prop where
  find? : ∀ name, C'.find? name = C.find? name
  keys : C'.definitions.keys.Perm C.definitions.keys

theorem alike_of_perm (distinct : C.definitions.keys.Nodup)
    (perm : C'.definitions.entries.Perm C.definitions.entries) : C.Alike C' :=
  ⟨Table.find?_of_perm distinct perm, perm.map Prod.fst⟩

namespace Alike

theorem contains (alike : C.Alike C') (name : String) : C'.contains name = C.contains name := by
  have same : C'.definitions.find? name = C.definitions.find? name := alike.find? name
  simp only [Callables.contains, Table.contains, same]

theorem checkRecursion (alike : C.Alike C') : C'.checkRecursion = C.checkRecursion := by
  have contains : C'.contains = C.contains := funext alike.contains
  have found (name : String) : C'.definitions.find? name = C.definitions.find? name :=
    alike.find? name
  have cycles : C'.callGraph.cycles = C.callGraph.cycles := by
    refine CallGraph.cycles_congr (fun name => ?_) (by simpa [callGraph] using alike.keys)
    simp only [callGraph, Table.find?_map, found, contains]
  simp only [Callables.checkRecursion, cycles, alike.find?]

end Alike

end Callables

end ThreatModel
