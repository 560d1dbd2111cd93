import Mathlib
import ThreatModel.Proofs.Callable.Reordering
import ThreatModel.Proofs.Requests

set_option autoImplicit false

namespace ThreatModel.Callables

open Result

variable {C C' : Callables} {ds : List Definition} {d : Definition}

inductive Request where
  | syscall (decl : SyscallDecl)
  | attack (decl : AttackDecl)

namespace Request

def definition : Request → Definition
  | .syscall decl => decl.definition
  | .attack decl => decl.definition

def answer : Request → Callables → Except Diagnostic Callables
  | .syscall decl, C => C.declareSyscall decl
  | .attack decl, C => C.declareAttack decl

/-- The request as it is served in place: an active attack is listed for its target before it has
its name. -/
def perform : Request → Edit Diagnostic Callables Unit
  | .syscall decl => do
      Edit.check fun C => C.checkName decl.name decl.loc
      Edit.check fun _ => checkParams decl.name decl.params decl.loc
      modify fun C => C.add decl.definition
  | .attack decl => do
      Edit.check fun C => C.checkName decl.name decl.loc
      Edit.check fun _ => checkParams decl.name decl.params decl.loc
      match decl.target with
      | some target => do
          Edit.check fun C => C.checkTarget decl target
          modify fun C => { C with
            overrides := C.overrides.insert target (C.overridesOf target ++ [decl.definition]) }
          modify fun C => C.add decl.definition
      | none => do
          Edit.check fun C => C.checkPassive decl.name decl.body
          modify fun C => C.add decl.definition

theorem serves (request : Request) : request.perform.Serves request.answer := by
  cases request with
  | syscall decl => exact ((Edit.serves_modify _).check _).check _
  | attack decl =>
    obtain ⟨name, params, body, target, location⟩ := decl
    cases target with
    | some target => exact (((Edit.serves_modify_twice _ _).check _).check _).check _
    | none => exact (((Edit.serves_modify _).check _).check _).check _

def accepted (requests : List Request) : List Request := Edit.accepted perform {} requests

end Request

def after (requests : List Request) : Callables := requests.foldl (Edit.serve Request.perform) {}

structure Indexed (C : Callables) (ds : List Definition) : Prop where
  definitions : C.definitions.Holds (ds.map fun d => (d.name, d))
  overrides : ∀ f, C.overridesOf f = ds.filter fun d => d.role = .active f
  targets : ∀ d ∈ ds, ∀ f, d.role = .active f →
    ∃ callee, C.find? f = some callee ∧ callee.role.isAttack = false ∧
      callee.params.length = d.params.length

theorem indexed_builtins : ({} : Callables).Indexed Definition.builtins where
  definitions := ⟨rfl, Table.nodup_keys_ofList _⟩
  overrides f := by
    symm
    refine List.filter_eq_nil_iff.mpr fun d member => ?_
    simp [role_of_mem_builtins member]
  targets d member f active := by
    simp [role_of_mem_builtins member] at active

theorem Indexed.extend (indexed : C.Indexed ds) (new : C.find? d.name = none)
    (grown : C'.definitions = C.definitions.insert d.name d)
    (listed : ∀ f, C'.overridesOf f = C.overridesOf f ++ if d.role = .active f then [d] else [])
    (target : ∀ f, d.role = .active f → ∃ callee, C.find? f = some callee ∧
      callee.role.isAttack = false ∧ callee.params.length = d.params.length) :
    C'.Indexed (ds ++ [d]) := by
  -- What was there before is found as it was, since the name is new.
  have kept (f : String) (callee : Definition) (found : C.find? f = some callee) :
      C'.find? f = some callee := by
    have other : d.name ≠ f := by
      rintro rfl
      simp [new] at found
    rw [find?, grown, Table.find?_insert_of_ne _ _ other]
    exact found
  constructor
  · rw [grown, List.map_append]
    exact indexed.definitions.insert (Table.find?_eq_none_iff.mp new)
  · intro f
    rw [listed, indexed.overrides, List.filter_append]
    by_cases active : d.role = .active f <;> simp [active]
  · intro a member f active
    have before : ∃ callee, C.find? f = some callee ∧ callee.role.isAttack = false ∧
        callee.params.length = a.params.length := by
      rcases List.mem_append.mp member with old | new
      · exact indexed.targets a old f active
      · obtain rfl := List.mem_singleton.mp new
        exact target f active
    obtain ⟨callee, found, rest⟩ := before
    exact ⟨callee, kept f callee found, rest⟩

theorem role_eq_active_iff {a : AttackDecl} {f : String} :
    a.definition.role = .active f ↔ a.target = some f := by
  cases target : a.target <;> simp [AttackDecl.definition, target]

theorem overridesOf_of_declareAttack {a : AttackDecl} (done : C.declareAttack a = .ok C')
    (f : String) :
    C'.overridesOf f = C.overridesOf f ++ if a.target = some f then [a.definition] else [] := by
  obtain ⟨name, params, body, target, location⟩ := a
  simp only [declareAttack, bind_eq_ok_iff] at done
  obtain ⟨-, -, -, -, done⟩ := done
  cases target with
  | some target =>
    simp only [bind_eq_ok_iff, pure_eq_ok_iff] at done
    obtain ⟨-, -, rfl⟩ := done
    simp only [overridesOf, Table.find?_insert, Option.some.injEq]
    by_cases same : target = f
    · simp [same, AttackDecl.definition]
    · simp [same]
  | none =>
    simp only [bind_eq_ok_iff, pure_eq_ok_iff] at done
    obtain ⟨-, -, rfl⟩ := done
    simp [overridesOf, add]

theorem Indexed.answer {request : Request} (indexed : C.Indexed ds)
    (answered : request.answer C = .ok C') : C'.Indexed (ds ++ [request.definition]) := by
  cases request with
  | syscall decl =>
    simp only [Request.answer, declareSyscall, bind_eq_ok_iff, pure_eq_ok_iff,
      checkName_eq_ok_iff] at answered
    obtain ⟨-, new, -, -, rfl⟩ := answered
    refine indexed.extend (d := decl.definition) new rfl (fun f => ?_) ?_
    · simp [SyscallDecl.definition, overridesOf, add]
    · simp [SyscallDecl.definition]
  | attack decl =>
    obtain ⟨new, grown⟩ := exists_of_declareAttack answered
    have admits := exists_declareAttack_iff.mp ⟨C', answered⟩
    refine indexed.extend new grown (fun f => ?_) fun f active => ?_
    · simpa only [Request.definition, role_eq_active_iff] using
        overridesOf_of_declareAttack answered f
    · exact admits.target f (role_eq_active_iff.mp active)

theorem Indexed.answers {requests : List Request} (indexed : C.Indexed ds)
    (answered : requests.foldlM (fun C request => request.answer C) C = .ok C') :
    C'.Indexed (ds ++ requests.map Request.definition) := by
  induction requests generalizing C ds with
  | nil =>
    obtain rfl : C = C' := by simpa using answered
    simpa using indexed
  | cons request rest ih =>
    simp only [List.foldlM_cons, bind_eq_ok_iff] at answered
    obtain ⟨C₁, first, later⟩ := answered
    simpa using ih (indexed.answer first) later

theorem indexed_after (requests : List Request) :
    (after requests).Indexed
      (Definition.builtins ++ (Request.accepted requests).map Request.definition) :=
  indexed_builtins.answers (Edit.foldlM_accepted Request.serves {} requests)

theorem Indexed.find?_of_mem (indexed : C.Indexed ds) (member : d ∈ ds) :
    C.find? d.name = some d := by
  refine Table.find?_of_mem_entries indexed.definitions.2 ?_
  rw [indexed.definitions.1]
  exact List.mem_map.mpr ⟨d, member, rfl⟩

theorem Indexed.registered (indexed : C.Indexed ds) : C.Registered where
  named name d found := by
    have entry := Table.mem_entries_of_find? found
    rw [indexed.definitions.1] at entry
    obtain ⟨d', -, same⟩ := List.mem_map.mp entry
    obtain ⟨rfl, rfl⟩ := Prod.mk.inj same
    rfl
  overrides f a member := by
    rw [indexed.overrides] at member
    simpa using (List.mem_filter.mp member).2
  listed f a member := by
    rw [indexed.overrides] at member
    exact indexed.find?_of_mem (List.mem_filter.mp member).1

end ThreatModel.Callables
