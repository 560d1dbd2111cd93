import Mathlib
import ThreatModel.Proofs.Policy.Rights
import ThreatModel.Proofs.Declarations.Stages
import ThreatModel.Proofs.Elaboration.Regranting
import ThreatModel.Proofs.System.Compiled

set_option autoImplicit false

namespace ThreatModel

open Result

def Model.Grants (M : Model) (subject : String) (object : Option String) (operation : String) :
    Prop :=
  ∃ g ∈ M.grants, g.subject = subject ∧ g.object = object ∧ operation ∈ g.operations

def GrantDecl.NamesTypesOf (g : GrantDecl) (M : Model) : Prop :=
  ∀ name ∈ g.subject :: g.object.toList, ∃ t ∈ M.types, t.name = name

def GrantDecl.grant (g : GrantDecl) : Grant := ⟨g.subject, g.object, g.operations⟩

namespace Policy

variable {P P' : Policy} {grants : List GrantDecl}

def addAll (P : Policy) (grants : List GrantDecl) : Policy :=
  grants.foldl (fun P g => P.add g.grant) P

def Knows (P : Policy) (g : GrantDecl) : Prop :=
  ∀ name ∈ g.subject :: g.object.toList, P.types.contains name = true

theorem declareGrant_eq_ok_iff {g : GrantDecl} :
    P.declareGrant g.grant g.loc = .ok P' ↔ P.Knows g ∧ P.add g.grant = P' := by
  have required (name : String) :
      P.requireType name g.loc = .ok () ↔ P.types.contains name = true := by
    simp only [requireType]
    split <;> simp_all
  obtain ⟨subject, object, operations, location⟩ := g
  cases object with
  | none =>
    simp only [declareGrant, GrantDecl.grant, bind_eq_ok_iff, pure_eq_ok_iff, required, Knows,
      add]
    simp
  | some object =>
    simp only [declareGrant, GrantDecl.grant, bind_eq_ok_iff, pure_eq_ok_iff, required, Knows,
      add]
    simp [and_assoc]

theorem foldlM_declareGrant_iff :
    grants.foldlM (fun P g => P.declareGrant g.grant g.loc) P = .ok P' ↔
      (∀ g ∈ grants, P.Knows g) ∧ P.addAll grants = P' := by
  induction grants generalizing P with
  | nil => simp [addAll]
  | cons g rest ih =>
    have kept : (P.add g.grant).Knows = P.Knows := rfl
    simp only [List.foldlM_cons, bind_eq_ok_iff, declareGrant_eq_ok_iff, List.forall_mem_cons]
    constructor
    · rintro ⟨P₁, ⟨known, rfl⟩, later⟩
      obtain ⟨others, same⟩ := ih.mp later
      exact ⟨⟨known, others⟩, same⟩
    · rintro ⟨⟨known, others⟩, same⟩
      exact ⟨_, ⟨known, rfl⟩, ih.mpr ⟨others, same⟩⟩

theorem allows_addAll {subject : String} {object : Option String} {operation : String} :
    (P.addAll grants).allows subject object operation = true ↔
      P.allows subject object operation = true ∨
        ∃ g ∈ grants, g.subject = subject ∧ g.object = object ∧ operation ∈ g.operations := by
  induction grants generalizing P with
  | nil => simp [addAll]
  | cons g rest ih =>
    rw [addAll, List.foldl_cons, ← addAll, ih, allows_add, or_assoc]
    simp [GrantDecl.grant]

theorem regrant_addAll {Q : Policy} : (P.addAll grants).regrant Q = P.regrant Q := by
  induction grants generalizing P with
  | nil => rfl
  | cons g rest ih =>
    rw [addAll, List.foldl_cons, ← addAll, ih]
    rfl

theorem addAll_regrant_addAll {grants' : List GrantDecl} :
    (P.addAll grants).regrant (P.addAll grants') = P.addAll grants' :=
  calc (P.addAll grants).regrant (P.addAll grants')
    _ = P.regrant (P.addAll grants') := regrant_addAll
    _ = (P.addAll grants').regrant (P.addAll grants') := regrant_addAll.symm
    _ = P.addAll grants' := rfl

theorem contains_declareTypes {types : List TypeDecl}
    (done : types.foldlM (fun P t => P.declareType t.name t.kind t.loc) P = .ok P') :
    P'.rights = P.rights ∧ ∀ name, P'.types.contains name = true ↔
      P.types.contains name = true ∨ ∃ t ∈ types, t.name = name := by
  induction types generalizing P with
  | nil =>
    obtain rfl : P = P' := by simpa using done
    simp
  | cons t rest ih =>
    simp only [List.foldlM_cons, bind_eq_ok_iff] at done
    obtain ⟨P₁, first, later⟩ := done
    simp only [declareType] at first
    split at first
    next => simp at first
    next =>
      obtain rfl := Except.ok.inj first
      obtain ⟨kept, known⟩ := ih later
      refine ⟨kept, fun name => ?_⟩
      rw [known]
      simp only [Table.contains_iff, Table.mem_keys_insert, List.exists_mem_cons_iff]
      tauto

end Policy

namespace Declarations

variable {D E : Declarations} {Q : Policy}

theorem exists_of_early {budget : Int} {M : Model} (made : early budget M = .ok E) :
    ∃ P : Policy, P.rights = .empty ∧ (∀ g, P.Knows g ↔ g.NamesTypesOf M) ∧
      (∀ g ∈ M.grants, P.Knows g) ∧ E.policy = P.addAll M.grants ∧
      ∀ grants, (∀ g ∈ grants, P.Knows g) →
        early budget { M with grants } = .ok { E with policy := P.addAll grants } := by
  simp only [early, bind_eq_ok_iff] at made ⊢
  obtain ⟨T, start, D₁, functions, D₂, equations, D₃, types, granted⟩ := made
  have first : D₁.policy = {} := by
    refine foldlM_keeps (P := fun D : Declarations => D.policy = {}) rfl ?_ functions
    intro D f D' _ kept done
    simp only [bind_eq_ok_iff, pure_eq_ok_iff] at done
    obtain ⟨_, -, rfl⟩ := done
    exact kept
  have second : D₂.policy = {} := by
    refine foldlM_keeps (P := fun D : Declarations => D.policy = {}) first ?_ equations
    intro D e D' _ kept done
    simp only [addEquation, bind_eq_ok_iff, pure_eq_ok_iff] at done
    obtain ⟨_, -, _, -, _, -, rfl⟩ := done
    exact kept
  obtain ⟨P, typing, rfl⟩ :=
    (foldlM_policy fun P (t : TypeDecl) => P.declareType t.name t.kind t.loc).mp types
  obtain ⟨rights, known⟩ := Policy.contains_declareTypes typing
  rw [second] at rights known
  obtain ⟨P', granting, rfl⟩ :=
    (foldlM_policy fun P (g : GrantDecl) => P.declareGrant g.grant g.loc).mp granted
  obtain ⟨knows, rfl⟩ := Policy.foldlM_declareGrant_iff.mp granting
  refine ⟨P, rights, fun g => ?_, knows, rfl, fun grants knows' => ?_⟩
  · simp only [Policy.Knows, GrantDecl.NamesTypesOf, known]
    simp [Table.contains]
  · refine ⟨T, start, _, functions, _, equations, _, types, ?_⟩
    exact (foldlM_policy fun P (g : GrantDecl) => P.declareGrant g.grant g.loc).mpr
      ⟨_, Policy.foldlM_declareGrant_iff.mpr ⟨knows', rfl⟩, rfl⟩

theorem exists_ofModel_regrant {budget : Int} {M : Model} (grants : List GrantDecl)
    (made : ofModel budget M = .ok D) (named : ∀ g ∈ grants, g ∉ M.grants → g.NamesTypesOf M) :
    ∃ P : Policy, P.rights = .empty ∧ D.policy.rights = (P.addAll M.grants).rights ∧
      ofModel budget { M with grants } = .ok (D.regrant (P.addAll grants)) ∧
      ∀ g ∈ M.grants, g.NamesTypesOf M := by
  obtain ⟨E, P', S, C, L, first, granted, syscalls, attacks, last, rfl, given, ordered,
    freeSyscalls, freeAttacks, system⟩ := exists_stages made
  obtain ⟨P, rights, names, knows, policy, others⟩ := exists_of_early first
  have knows' : ∀ g ∈ grants, P.Knows g := by
    intro g member
    by_cases old : g ∈ M.grants
    · exact knows g old
    · exact (names g).mpr (named g member old)
  -- The other grants take the place of the model's own, and nobody asks for them after that.
  obtain ⟨-, granted'⟩ := foldlM_transfer (P := fun _ => True)
    (g := fun P' : Policy => P'.regrant (P.addAll grants)) trivial (fun P₁ g P₂ _ done => by
      simp only [Policy.declareAttackerGrant, bind_eq_ok_iff, pure_eq_ok_iff] at done ⊢
      obtain ⟨_, known, rfl⟩ := done
      exact ⟨trivial, _, known, rfl⟩) granted
  rw [policy, Policy.addAll_regrant_addAll] at granted'
  have last' := late_under (P := P'.regrant (P.addAll grants)) ⟨rfl, fun _ => rfl⟩ last
  have made' := ofModel_of_stages (M := { M with grants }) (others grants knows') granted' syscalls
    attacks last' given ordered freeSyscalls freeAttacks
    ((systemFlaws_congr L (L.under _ C) rfl rfl _).trans system)
  refine ⟨P, rights, ?_, ?_, fun g member => (names g).mp (knows g member)⟩
  · show L.policy.rights = _
    rw [policy_of_late last, ← policy]
    exact (Policy.kept_of_attackerGrants granted).2
  · rw [made', regrant, policy_of_late last, under, ← callables_of_late last]

theorem elaborate_regrant {template : Template} {name : String} {channels : Table String String}
    {first : Nat} {e : Elaborated} (within : D.policy.Within Q)
    (done : elaborate D template name channels first = .ok e) :
    elaborate (D.regrant Q) template name channels first = .ok e := by
  simp only [elaborate, bind_eq_ok_iff] at done ⊢
  obtain ⟨⟨inst, b⟩, ran, same⟩ := done
  exact ⟨(inst, b), template.refines_elaborate within name channels _ _ ran, same⟩

theorem addInstances_regrant {insts : List InstanceDecl} {i : Nat} {c c' : Composition}
    (within : D.policy.Within Q) (adds : Composition.Adds D insts i c c') :
    (D.regrant Q).addInstances insts i c = .ok c' := by
  induction adds with
  | nil => rfl
  | @cons inst rest i c c' template e found elaborated _ ih =>
    have found' : (D.regrant Q).templates.find? inst.template = some template := found
    simp only [addInstances, addInstance, found', elaborate_regrant within elaborated]
    exact ih

end Declarations

theorem compile_regrant {config : CompilerConfig} {M : Model} {S : System}
    {grants : List GrantDecl} (done : compile config M = .ok S)
    (more : ∀ subject object operation, M.Grants subject object operation →
      ({ M with grants } : Model).Grants subject object operation)
    (named : ∀ g ∈ grants, g ∉ M.grants → g.NamesTypesOf M) :
    compile config { M with grants } = .ok S := by
  simp only [compile, bind_eq_ok_iff, lift_eq_ok_iff] at done ⊢
  obtain ⟨D, made, c, composed, hopeless, removals, ⟨lemmas, flaws⟩, stated, packed⟩ := done
  obtain ⟨P, empty, rights, made', -⟩ := Declarations.exists_ofModel_regrant grants made named
  -- The rights come from the grants alone, since there are none before.
  have within : D.policy.Within (P.addAll grants) := by
    intro subject object operation allowed
    have unasked : P.allows subject object operation = false := by simp [Policy.allows, empty]
    have allowed : (P.addAll M.grants).allows subject object operation = true := by
      rwa [Policy.allows, ← rights]
    rw [Policy.allows_addAll, unasked] at allowed ⊢
    rcases allowed with allowed | granted
    · simp at allowed
    · exact .inr (more subject object operation granted)
  have clean : c.flaws = [] := by
    split at packed
    next clean =>
      simp only [List.isEmpty_iff, List.append_eq_nil_iff] at clean
      exact clean.1.1
    next => simp at packed
  obtain ⟨-, adds⟩ := Composition.adds_of_addInstances composed clean
  exact ⟨_, made', c, Declarations.addInstances_regrant within adds, hopeless, removals,
    (lemmas, flaws), stated, packed⟩

theorem namesTypesOf_of_compile {config : CompilerConfig} {M : Model} {S : System}
    (done : compile config M = .ok S) {g : GrantDecl} (member : g ∈ M.grants) :
    g.NamesTypesOf M := by
  simp only [compile, bind_eq_ok_iff, lift_eq_ok_iff] at done
  obtain ⟨D, made, -⟩ := done
  obtain ⟨-, -, -, -, named⟩ := Declarations.exists_ofModel_regrant [] made (by simp)
  exact named g member

/-- Of two models that differ in their grants only, both compile to one system if both compile, and
the second compiles if the first does, all that the first grants is granted by the second and
what the second adds is on declared types. -/
theorem grants_only_gate {config : CompilerConfig} {M M' : Model}
    (same : M' = { M with grants := M'.grants }) :
    (∀ S S', compile config M = .ok S → compile config M' = .ok S' → S = S') ∧
    ∀ S, compile config M = .ok S →
      (∀ subject object operation, M.Grants subject object operation →
        M'.Grants subject object operation) →
      (∀ g ∈ M'.grants, g ∉ M.grants → g.NamesTypesOf M) → compile config M' = .ok S := by
  generalize M'.grants = grants at same
  subst same
  refine ⟨fun S S' done done' => ?_, fun S done more named => compile_regrant done more named⟩
  -- Both are also the system of the model that has the grants of the two.
  have first : compile config { M with grants := M.grants ++ grants } = .ok S := by
    refine compile_regrant done ?_ ?_
    · rintro subject object operation ⟨g, member, granted⟩
      exact ⟨g, List.mem_append_left _ member, granted⟩
    · intro g member other
      exact namesTypesOf_of_compile done' ((List.mem_append.mp member).resolve_left other)
  have second : compile config { M with grants := M.grants ++ grants } = .ok S' := by
    refine compile_regrant (M := { M with grants }) done' ?_ ?_
    · rintro subject object operation ⟨g, member, granted⟩
      exact ⟨g, List.mem_append_right _ member, granted⟩
    · intro g member other
      exact namesTypesOf_of_compile done ((List.mem_append.mp member).resolve_right other)
  exact Except.ok.inj (first.symm.trans second)

def Model.courierUnder (operations : List (List String)) : Model :=
  { Model.courier with grants := operations.map (⟨"host_t", some "net_t", ·, none⟩) }

theorem courier_grants_only_gate : ∃ S,
    compile {} Model.courier = .ok S ∧ compile {} (.courierUnder [["recv"], ["send"]]) = .ok S ∧
      compile {} (.courierUnder [["read", "recv", "send"]]) = .ok S := by
  have ran : (do
      let _ ← compile {} Model.courier
      let _ ← compile {} (.courierUnder [["recv"], ["send"]])
      return () : Result Unit) = .ok () := by
    decide +kernel
  simp only [bind_eq_ok_iff, and_true, pure_eq_ok_iff] at ran
  obtain ⟨S, done, S', done'⟩ := ran
  refine ⟨S, done, ?_, (grants_only_gate rfl).2 S done ?_ ?_⟩
  · rw [done', (grants_only_gate rfl).1 S S' done done']
  · rintro subject object operation ⟨g, member, rfl, rfl, granted⟩
    obtain rfl := List.mem_singleton.mp member
    have wider : ["send", "recv"] ⊆ ["read", "recv", "send"] := by decide
    exact ⟨_, List.mem_singleton_self _, rfl, rfl, wider granted⟩
  · simp [Model.courierUnder, Model.courier, GrantDecl.NamesTypesOf]

end ThreatModel
