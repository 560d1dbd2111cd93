import Mathlib
import ThreatModel.Proofs.Declarations.Stages

set_option autoImplicit false

namespace ThreatModel

open Result

def Part.Harmless (C : Callables) : Part → Prop
  | .command (.store action target _ _) => action = .insert ∧ target = attackerStore
  | .command (.call ..) => False
  | .expr (.apply callee _ _) => ∀ d, C.find? callee = some d → d.role.isAttack = true
  | _ => True

namespace Callables

variable {d : Definition} {C' C : Callables}

structure Sound (C : Callables) : Prop where
  named : ∀ name d, C.find? name = some d → d.name = name
  builtin : ∀ name d, C.find? name = some d → d.role = .builtin → d ∈ Definition.builtins
  overrides : ∀ f, ∀ a ∈ C.overridesOf f, a.role = .active f
  passive : ∀ name d, C.find? name = some d → d.role = .passive →
    ∀ part ∈ d.body.parts, part.Harmless C

theorem find?_add (C : Callables) (d : Definition) (name : String) :
    (C.add d).find? name = if d.name = name then some d else C.find? name := by
  simp only [find?, add, Table.find?_insert]

theorem role_of_mem_builtins (member : d ∈ Definition.builtins) : d.role = .builtin := by
  simp only [Definition.builtins, List.mem_cons, List.not_mem_nil, or_false] at member
  rcases member with rfl | rfl | rfl | rfl <;> rfl

theorem mem_builtins_of_find? {name : String} (found : ({} : Callables).find? name = some d) :
    d ∈ Definition.builtins ∧ d.name = name := by
  have listed := Table.find?_ofList found
  obtain ⟨d', member, same⟩ := List.mem_map.mp listed
  obtain ⟨rfl, rfl⟩ := Prod.mk.inj same
  exact ⟨member, rfl⟩

structure Plain (C : Callables) : Prop where
  sound : C.Sound
  plain : ∀ name d, C.find? name = some d → d.role.isAttack = false

theorem plain_builtins : ({} : Callables).Plain where
  sound :=
    { named := fun name d found => (mem_builtins_of_find? found).2
      builtin := fun name d found _ => (mem_builtins_of_find? found).1
      overrides := by simp [overridesOf]
      passive := by
        intro name d found passive
        simp [role_of_mem_builtins (mem_builtins_of_find? found).1] at passive }
  plain := by
    intro name d found
    rw [role_of_mem_builtins (mem_builtins_of_find? found).1]
    rfl

theorem Sound.extend (sound : C.Sound)
    (grown : ∀ name, C'.find? name = if d.name = name then some d else C.find? name)
    (declared : d.role ≠ .builtin)
    (overrides : ∀ f, ∀ a ∈ C'.overridesOf f, a ∈ C.overridesOf f ∨ a.role = .active f)
    (late : (∃ name d', C.find? name = some d' ∧ d'.role = .passive) → d.role.isAttack = true)
    (harmless : d.role = .passive → ∀ part ∈ d.body.parts, part.Harmless C') : C'.Sound := by
  have cases (name : String) (d' : Definition) (found : C'.find? name = some d') :
      (d' = d ∧ d.name = name) ∨ C.find? name = some d' := by
    rw [grown] at found
    split at found
    next same => exact .inl ⟨(Option.some.inj found).symm, same⟩
    next => exact .inr found
  constructor
  · intro name d' found
    rcases cases name d' found with ⟨rfl, same⟩ | old
    · exact same
    · exact sound.named name d' old
  · intro name d' found isBuiltin
    rcases cases name d' found with ⟨rfl, -⟩ | old
    · exact absurd isBuiltin declared
    · exact sound.builtin name d' old isBuiltin
  · intro f a member
    rcases overrides f a member with old | new
    · exact sound.overrides f a old
    · exact new
  · intro name d' found passive part member
    rcases cases name d' found with ⟨rfl, -⟩ | old
    · exact harmless passive part member
    · -- What an older body may call is an attack, and so is what is declared now.
      have held := sound.passive name d' old passive part member
      unfold Part.Harmless at held ⊢
      split at held
      next => exact held
      next => exact held
      next callee _ _ =>
        intro called there
        rcases cases callee called there with ⟨rfl, -⟩ | before
        · exact late ⟨name, d', old, passive⟩
        · exact held called before
      next => trivial

theorem Plain.declareSyscall (plain : C.Plain) {decl : SyscallDecl}
    (done : C.declareSyscall decl = .ok C') : C'.Plain := by
  simp only [Callables.declareSyscall, bind_eq_ok_iff, pure_eq_ok_iff] at done
  obtain ⟨-, -, -, -, rfl⟩ := done
  constructor
  · refine plain.sound.extend (find?_add C _) (by simp) (fun f a => .inl) ?_ (by simp)
    rintro ⟨name, d, found, passive⟩
    have attacks := plain.plain name d found
    simp [passive, Role.isAttack] at attacks
  · intro name d found
    rw [find?_add] at found
    split at found
    next =>
      obtain rfl := Option.some.inj found
      rfl
    next => exact plain.plain name d found

theorem harmless_of_checkPassive {attack : String} {body : Command}
    (checked : C.checkPassive attack body = .ok ())
    (later : ∀ f d, C.find? f = none → C'.find? f = some d → d.role.isAttack = true) {part : Part}
    (member : part ∈ body.parts) : part.Harmless C' := by
  simp only [checkPassive] at checked
  split at checked
  next none =>
    have clear := List.findSome?_eq_none_iff.mp none part member
    cases part with
    | command c =>
      cases c with
      | store action target e loc =>
        simp only [violation?] at clear
        split at clear
        next leaks => exact leaks
        next => simp at clear
      | call f args loc => simp [violation?] at clear
      | _ => trivial
    | expr e =>
      cases e with
      | apply f args loc =>
        intro d found
        refine later f d ?_ found
        by_contra known
        obtain ⟨d', there⟩ := Option.ne_none_iff_exists'.mp known
        have there : C.definitions.find? f = some d' := there
        simp [violation?, contains, Table.contains, there] at clear
      | _ => trivial
    | _ => trivial
  next => simp at checked

theorem mem_overridesOf_insert {target f : String} {a : Definition}
    (grown : C'.overrides = C.overrides.insert target (C.overridesOf target ++ [d]))
    (member : a ∈ C'.overridesOf f) : a ∈ C.overridesOf f ∨ (a = d ∧ f = target) := by
  simp only [overridesOf, grown, Table.find?_insert] at member
  split at member
  next same =>
    rw [Option.getD_some] at member
    rcases List.mem_append.mp member with old | new
    · exact .inl (same ▸ old)
    · exact .inr ⟨List.mem_singleton.mp new, same.symm⟩
  next => exact .inl member

theorem Sound.declareAttack (sound : C.Sound) {decl : AttackDecl}
    (done : C.declareAttack decl = .ok C') : C'.Sound := by
  simp only [Callables.declareAttack, bind_eq_ok_iff] at done
  obtain ⟨-, -, -, -, done⟩ := done
  split at done
  next target _ =>
    simp only [bind_eq_ok_iff, pure_eq_ok_iff] at done
    obtain ⟨-, -, rfl⟩ := done
    refine sound.extend (find?_add C _) (by simp) ?_ (fun _ => rfl) (by simp)
    intro f a member
    rcases mem_overridesOf_insert rfl member with old | ⟨rfl, rfl⟩
    · exact .inl old
    · exact .inr rfl
  next =>
    simp only [bind_eq_ok_iff, pure_eq_ok_iff] at done
    obtain ⟨⟨⟩, checked, rfl⟩ := done
    refine sound.extend (find?_add C _) (by simp) (fun f a => .inl) (fun _ => rfl) ?_
    intro _ part member
    refine harmless_of_checkPassive checked ?_ member
    intro f d unknown found
    rw [find?_add] at found
    split at found
    next =>
      obtain rfl := Option.some.inj found
      rfl
    next => simp [unknown] at found

theorem sound_of_ofModel {budget : Int} {M : Model} {D : Declarations}
    (made : Declarations.ofModel budget M = .ok D) : D.callables.Sound := by
  obtain ⟨E, P, S, C, L, early, -, syscalls, attacks, late, rfl, -⟩ :=
    Declarations.exists_stages made
  have plain : S.Plain := by
    refine foldlM_keeps ?_ (fun C s C' _ plain => plain.declareSyscall) syscalls
    rw [(Declarations.initial_of_early early).callables]
    exact plain_builtins
  have sound : C.Sound := foldlM_keeps plain.sound
    (fun C a C' _ sound => sound.declareAttack) attacks
  show L.callables.Sound
  rw [Declarations.callables_of_late late]
  exact sound

end Callables

end ThreatModel
