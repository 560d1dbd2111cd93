import Mathlib
import ThreatModel.Proofs.Declarations.Diagnosed
import ThreatModel.Proofs.Elaboration.Recursion

set_option autoImplicit false

namespace ThreatModel

open Result

/-- The definitions being inlined here are distinct, and calls may be nested as much deeper as there
are others. Calls are intercepted as long as no attack is among them. -/
structure Context.Nested (D : Declarations) (depth : Nat) (ctx : Context) : Prop where
  decls : ctx.decls = D
  distinct : ctx.frame.calls.Nodup
  known : ∀ f ∈ ctx.frame.calls, f ∈ D.callables.definitions.keys
  room : D.callables.definitions.size ≤ depth + ctx.frame.calls.length
  intercepts : ctx.frame.intercept = true ↔
    ∀ f ∈ ctx.frame.calls, ∀ d, D.callables.find? f = some d → d.role.isAttack = false

namespace Context

variable {D : Declarations} {ctx : Context} {depth : Nat} {f : String} {d : Definition}

theorem nested_outermost {template : Template} {name : String} :
    (template.context D name).Nested D D.callables.definitions.size :=
  ⟨rfl, List.nodup_nil, by simp [Template.context], by simp, by simp [Template.context]⟩

theorem Nested.of_frame {ctx' : Context} (nested : ctx.Nested D depth)
    (decls : ctx'.decls = ctx.decls) (frame : ctx'.frame = ctx.frame) : ctx'.Nested D depth := by
  obtain ⟨known, distinct, declared, room, intercepts⟩ := nested
  constructor
  · exact decls.trans known
  all_goals rwa [frame]

theorem Nested.succ (nested : ctx.Nested D depth) : ctx.Nested D (depth + 1) :=
  { nested with room := nested.room.trans (by omega) }

theorem Nested.fresh (registered : D.callables.Registered)
    (nested : ctx.Nested D depth) (runs : ctx.MayRun f d) :
    D.callables.find? d.name = some d ∧ d.name ∉ ctx.frame.calls := by
  obtain ⟨rfl, -, -, -, intercepts⟩ := nested
  obtain ⟨absent, callee, subjects, found, -, a, among, rfl⟩ := runs
  have named : callee.name = f := registered.named f callee found
  rcases Callables.of_mem_plan among with same | ⟨intercepted, overrides, -⟩
  · rw [same, named]
    exact ⟨found, absent⟩
  · -- An attack comes in while calls are intercepted, so no attack is there before it.
    have known := registered.listed _ _ overrides
    refine ⟨known, fun again => ?_⟩
    have harmless := intercepts.mp intercepted _ again _ known
    simp [registered.overrides _ _ overrides, Role.isAttack] at harmless

theorem Nested.inside (registered : D.callables.Registered)
    (nested : ctx.Nested D (depth + 1)) (runs : ctx.MayRun f d) (result : Option String) :
    (ctx.inside d result).Nested D depth := by
  obtain ⟨known, absent⟩ := nested.fresh registered runs
  have member : d.name ∈ D.callables.definitions.keys := Table.exists_find?_iff.mp ⟨d, known⟩
  constructor
  · exact nested.decls
  · show (ctx.frame.calls ++ [d.name]).Nodup
    rw [← List.concat_eq_append]
    exact nested.distinct.concat absent
  · intro g inlined
    rcases List.mem_append.mp inlined with old | new
    · exact nested.known g old
    · exact List.mem_singleton.mp new ▸ member
  · show _ ≤ depth + (ctx.frame.calls ++ [d.name]).length
    have room := nested.room
    simp only [List.length_append, List.length_singleton]
    omega
  · have here : (ctx.inside d result).frame.intercept = true ↔
        ctx.frame.intercept = true ∧ d.role.isAttack = false := by simp [Context.inside]
    have calls : (ctx.inside d result).frame.calls = ctx.frame.calls ++ [d.name] := rfl
    rw [here, nested.intercepts, calls]
    simp [or_imp, forall_and, known]

theorem Nested.not_mayRun (registered : D.callables.Registered)
    (nested : ctx.Nested D 0) : ¬ ctx.MayRun f d := by
  intro runs
  obtain ⟨known, absent⟩ := nested.fresh registered runs
  have member : d.name ∈ D.callables.definitions.keys := Table.exists_find?_iff.mp ⟨d, known⟩
  have more : (d.name :: ctx.frame.calls).Nodup := List.nodup_cons.mpr ⟨absent, nested.distinct⟩
  have inside : d.name :: ctx.frame.calls ⊆ D.callables.definitions.keys :=
    List.cons_subset.mpr ⟨member, nested.known⟩
  have fits := (more.subperm inside).length_le
  have size : D.callables.definitions.keys.length = D.callables.definitions.size :=
    List.length_map ..
  have room := nested.room
  simp only [List.length_cons] at fits
  omega

end Context

theorem Context.sustains_nested {D : Declarations} (registered : D.callables.Registered)
    (filled : ∀ name d, D.callables.find? name = some d → Part.Filled d.body.parts) :
    Context.Sustains Fault.IsFlaw fun depth ctx part =>
      ctx.Nested D depth ∧ part ≠ .expr (.tuple []) where
  reasons _ :=
    { flaws := fun d _ => ⟨d, rfl⟩
      empty := fun ctx here => absurd rfl here.2
      again := fun _ _ _ d _ _ _ _ _ => ⟨d, rfl⟩
      enter := fun ctx part segment here =>
        ⟨here.1.of_frame rfl rfl, here.2⟩ }
  deep _ _ _ _ here _ runs := absurd runs (here.1.not_mayRun registered)
  inside depth ctx part f d result here _ runs part' member := by
    refine ⟨here.1.inside registered runs result, ?_⟩
    rintro rfl
    exact filled d.name d (here.1.fresh registered runs).1 member

theorem diagnosed_elaborate {D : Declarations} (sound : D.callables.Sound)
    (listed : D.callables.Listed)
    (filled : ∀ name d, D.callables.find? name = some d → Part.Filled d.body.parts)
    {template : Template} {channels : Table String String}
    (given : ∀ param ∈ template.params, param.name ∈ channels.keys)
    (code : Part.Filled template.parts) (name : String) (first : Nat) :
    (elaborate D template name channels first).Diagnosed := by
  have sustains := Context.sustains_nested (sound.registered listed) filled
  have outermost (part : Part) (member : part ∈ template.parts) :
      (template.context D name).Nested D D.callables.definitions.size ∧
        part ≠ .expr (.tuple []) := by
    constructor
    · exact Context.nested_outermost
    · rintro rfl
      exact code member
  have steps : (template.build D name channels).Stepwise Fault.IsFlaw := by
    refine (Template.alike_build sustains D.system ?_ ?_ ?_).1
    · intro param member unknown
      exact absurd (given param member) (Table.find?_eq_none_iff.mp unknown)
    · intro v member part inside
      refine outermost part (List.mem_append_left _ (List.mem_append_right _ ?_))
      exact List.mem_flatMap.mpr ⟨v, member, List.mem_cons_of_mem _ inside⟩
    · exact fun part inside => outermost part (List.mem_append_right _ inside)
  exact fun fault failed => elaborate_allowed steps failed

end ThreatModel
