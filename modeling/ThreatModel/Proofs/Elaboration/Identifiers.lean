import Mathlib
import ThreatModel.Proofs.Declarations.Namespace
import ThreatModel.Proofs.Elaboration.Variables

set_option autoImplicit false

namespace ThreatModel

def Part.identifier? : Part → Option String
  | .expr (.ident x _) | .command (.bind x _) | .command (.new x) => some x
  | .expr (.apply f _ _) | .command (.call f _ _) => some f
  | .command (.store _ target _ _) => some target
  | _ => none

def identifiersOf (parts : List Part) : List String := parts.filterMap Part.identifier?

def Definition.identifiers (d : Definition) : List String := d.params ++ identifiersOf d.body.parts

def Template.identifiers (p : Template) : List String :=
  p.params.map (·.name) ++ p.vars.map (·.name) ++ identifiersOf p.parts

def Model.identifiers (M : Model) : List String :=
  M.syscalls.flatMap (fun s => s.params ++ identifiersOf s.body.parts) ++
    M.attacks.flatMap (fun a => a.params ++ identifiersOf a.body.parts) ++
      M.processes.flatMap Template.identifiers

theorem forall_mem_identifiersOf_append {good : String → Prop} {parts others : List Part} :
    (∀ x ∈ identifiersOf (parts ++ others), good x) ↔
      (∀ x ∈ identifiersOf parts, good x) ∧ ∀ x ∈ identifiersOf others, good x := by
  rw [identifiersOf, List.filterMap_append, List.forall_mem_append]
  rfl

theorem Template.mem_identifiers_of_vars {template : Template} {x : String}
    (member : x ∈ identifiersOf
      (Command.partsAll (template.vars.map fun v => .bind v.name v.init))) :
    x ∈ template.identifiers := by
  suffices both : ∀ vars : List VarDecl,
      x ∈ identifiersOf (Command.partsAll (vars.map fun v => .bind v.name v.init)) →
      x ∈ vars.map (·.name) ∨
        x ∈ identifiersOf (vars.flatMap fun v => .declaration .var :: v.init.parts) by
    simp only [identifiers, parts, identifiersOf, List.filterMap_append, List.mem_append]
    rcases both _ member with named | used
    · exact .inl (.inr named)
    · exact .inr (.inl (.inr used))
  intro vars
  induction vars with
  | nil => exact fun none => absurd none List.not_mem_nil
  | cons v vars ih =>
    simp only [List.map_cons, List.flatMap_cons, Command.partsAll, Command.parts, identifiersOf,
      List.filterMap_append, List.cons_append, List.filterMap_cons, Part.identifier?,
      List.mem_cons, List.mem_append] at ih ⊢
    tauto

namespace Build

def TakesFor (good : String → Prop) (b b' : Build) : Prop :=
  ∀ name, b.taken name < b'.taken name → good name

namespace TakesFor

variable {good : String → Prop} {b b₁ b' : Build}

theorem refl (b : Build) : TakesFor good b b := fun _ taken => absurd taken (lt_irrefl _)

theorem trans (one : TakesFor good b b₁) (two : TakesFor good b₁ b') : TakesFor good b b' := by
  intro name taken
  rcases Nat.lt_or_ge (b.taken name) (b₁.taken name) with early | late
  · exact one name early
  · exact two name (lt_of_le_of_lt late taken)

theorem takeVar {name : String} (fine : good name) (rest : TakesFor good (b.takeVar name) b') :
    TakesFor good b b' := by
  refine trans (fun x taken => ?_) rest
  rw [taken_takeVar] at taken
  split at taken
  next same => exact same ▸ fine
  next => exact absurd taken (lt_irrefl _)

theorem of_binds {binds binds' : Table String String} {xs : List String}
    (bound : b.Binds binds xs b' binds') (fine : ∀ x ∈ xs, good x) : TakesFor good b b' := by
  induction bound with
  | refl => exact .refl _
  | head _ _ ih =>
    rw [List.forall_mem_cons] at fine
    exact .takeVar fine.1 (ih fine.2)

end TakesFor

end Build

namespace Judgement

def identifiers : Judgement → List String
  | .command c _ _ _ _ _ => identifiersOf c.parts
  | .sequence cs _ _ _ _ _ _ => identifiersOf (Command.partsAll cs)
  | .arms as _ _ _ _ _ _ _ _ => identifiersOf (Arm.partsAll as)
  | .bind x value _ _ _ _ _ => x :: identifiersOf value.parts
  | .term e _ _ _ _ _ _ _ => identifiersOf e.parts
  | .terms es _ _ _ _ _ _ _ | .arguments es _ _ _ _ _ _ _ | .call _ es _ _ _ _ _ _ _ =>
    identifiersOf (Expr.partsAll es)
  | .invoke d _ _ _ _ _ _ _ | .inlined d _ _ _ _ _ _ _ => d.identifiers
  | .alternatives plan _ _ _ _ _ _ _ => plan.flatMap (·.definition.identifiers)
  | .params pairs _ _ _ _ _ _ _ => pairs.map Prod.fst

def Takes (D : Declarations) (good : String → Prop) (J : Judgement) : Prop :=
  J.context.decls = D → (∀ x ∈ J.identifiers, good x) → J.before.TakesFor good J.after

end Judgement

open Judgement in
theorem Elaborates.takes {D : Declarations} {good : String → Prop}
    (results : ∀ f, good f → good s!"{f}$ret")
    (defined : ∀ d, D.callables.Has d → ∀ x ∈ d.identifiers, good x) {J : Judgement}
    (derived : Elaborates J) : J.Takes D good := by
  induction derived with
  | skip | last | noArm | str | ident | noTerm | noArgument | noAlternative | noParam =>
    exact fun _ _ => .refl _
  | seq _ ih | bind _ ih | branch _ ih | retValue _ _ _ ih | retNothing _ _ _ ih | tuple _ _ ih
  | direct _ _ _ _ ih => exact ih
  | call _ ih | emit _ ih | put _ _ _ _ ih | symbol _ _ ih | storeParam _ _ ih =>
    exact fun decls fine => ih decls (List.forall_mem_cons.mp fine).2
  | new _ => exact fun _ fine => .takeVar (List.forall_mem_cons.mp fine).1 (.refl _)
  | loop _ _ ih ih' =>
    intro decls fine
    obtain ⟨inBody, inArms⟩ := forall_mem_identifiersOf_append.mp fine
    exact .trans (ih decls inBody) (ih' decls inArms)
  | take _ _ _ read _ =>
    intro decls fine
    obtain ⟨xs, bound, -, named⟩ := (Context.reading_of_plain read).binds
    refine (Build.TakesFor.of_binds bound fun x member => ?_ : Build.TakesFor good _ _)
    obtain ⟨loc, inside⟩ := named x member
    rw [Expr.partsAll, Expr.partsAll, List.append_nil] at inside
    exact (List.forall_mem_cons.mp fine).2 x (List.mem_filterMap.mpr ⟨_, inside, rfl⟩)
  | next _ _ ih ih' | someTerms _ _ ih ih' | valueArgument _ _ _ ih ih' =>
    intro decls fine
    obtain ⟨here, later⟩ := forall_mem_identifiersOf_append.mp fine
    exact .trans (ih decls here) (ih' decls later)
  | dropArm never _ ih =>
    obtain rfl := Context.leaves_conditions never
    exact fun decls fine => ih decls (forall_mem_identifiersOf_append.mp fine).2
  | takeArm guarded _ _ ih ih' =>
    obtain rfl := Context.leaves_conditions guarded
    intro decls fine
    obtain ⟨here, later⟩ := forall_mem_identifiersOf_append.mp fine
    exact .trans (ih decls (forall_mem_identifiersOf_append.mp here).2) (ih' decls later)
  | bindCall _ _ _ _ ih =>
    intro decls fine
    obtain ⟨name, value⟩ := List.forall_mem_cons.mp fine
    exact .takeVar name (ih decls (List.forall_mem_cons.mp value).2)
  | bindTerm _ _ _ _ ih =>
    intro decls fine
    obtain ⟨name, value⟩ := List.forall_mem_cons.mp fine
    exact .trans (ih decls value) (.takeVar name (.refl _))
  | callTerm _ _ _ ih =>
    intro decls fine
    obtain ⟨name, args⟩ := List.forall_mem_cons.mp fine
    exact .takeVar (results _ name) (ih decls args)
  | storeArgument _ _ ih =>
    exact fun decls fine => ih decls (forall_mem_identifiersOf_append.mp fine).2
  | callee found _ _ ih ih' =>
    intro decls fine
    have has := (Context.callee_eq_ok found).1
    exact .trans (ih decls fine) (ih' decls (defined _ (.inl ⟨_, decls ▸ has⟩)))
  | site _ _ _ _ _ ih | deadSite _ _ _ _ ih =>
    intro decls fine
    refine ih decls fun x member => ?_
    obtain ⟨a, planned, inside⟩ := List.mem_flatMap.mp member
    rcases Callables.has_of_plan planned with same | has
    · exact fine x (same ▸ inside)
    · exact defined _ (decls ▸ has) x inside
  | someAlternatives _ _ ih ih' =>
    intro decls fine
    obtain ⟨here, later⟩ := List.forall_mem_append.mp fine
    exact .trans (ih decls here) (ih' decls later)
  | inline _ _ _ ih ih' =>
    intro decls fine
    obtain ⟨params, body⟩ := List.forall_mem_append.mp fine
    refine .trans (ih decls fun x member => params x ?_) (ih' decls body)
    obtain ⟨pair, among, rfl⟩ := List.mem_map.mp member
    exact (List.of_mem_zip among).1
  | valueParam _ _ ih =>
    intro decls fine
    obtain ⟨name, others⟩ := List.forall_mem_cons.mp fine
    exact .takeVar name (ih decls others)

theorem Callables.exists_find?_of_has {budget : Int} {M : Model} {D : Declarations}
    (made : Declarations.ofModel budget M = .ok D) {d : Definition} (has : D.callables.Has d) :
    ∃ name, D.callables.find? name = some d := by
  rcases has with here | ⟨f, overrides⟩
  · exact here
  · exact ⟨d.name, listed_of_ofModel made f d overrides⟩

theorem Callables.mem_of_has {budget : Int} {M : Model} {D : Declarations}
    (made : Declarations.ofModel budget M = .ok D) {d : Definition} (has : D.callables.Has d) :
    d ∈ M.definitions := by
  obtain ⟨name, found⟩ := exists_find?_of_has made has
  have member := Table.mem_entries_of_find? found
  rw [(Declarations.lists_of_ofModel made).definitions.1] at member
  obtain ⟨d', among, same⟩ := List.mem_map.mp member
  exact (Prod.mk.inj same).2 ▸ among

theorem Model.plain_of_definitions {M : Model}
    (plain : ∀ x ∈ M.identifiers, x.toList.head? ≠ some '~') {d : Definition}
    (member : d ∈ M.definitions) : ∀ x ∈ d.identifiers, x.toList.head? ≠ some '~' := by
  intro x inside
  simp only [definitions, List.mem_append, List.mem_map] at member
  rcases member with (builtin | ⟨s, declared, rfl⟩) | ⟨a, declared, rfl⟩
  · have all : ∀ d ∈ Definition.builtins, ∀ x ∈ d.identifiers, x.toList.head? ≠ some '~' := by
      decide
    exact all d builtin x inside
  · refine plain x (List.mem_append_left _ (List.mem_append_left _ ?_))
    exact List.mem_flatMap.mpr ⟨s, declared, inside⟩
  · refine plain x (List.mem_append_left _ (List.mem_append_right _ ?_))
    exact List.mem_flatMap.mpr ⟨a, declared, inside⟩

end ThreatModel
