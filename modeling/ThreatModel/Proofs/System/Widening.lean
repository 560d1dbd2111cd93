import Mathlib
import ThreatModel.Proofs.Policy.Rights
import ThreatModel.Proofs.Declarations.Stages
import ThreatModel.Proofs.System.Compiled
import ThreatModel.Proofs.Elaboration.Lockstep
import ThreatModel.Proofs.Elaboration.Shape

set_option autoImplicit false

namespace ThreatModel

open Result

variable {nonces : List (Nat × Nat)} {D : Declarations} {channels : Table String String}
  {b' b : Build} {inst' inst : ProcessInstance}

structure Model.Widens (M M' : Model) : Prop where
  same : M' = { M with attackerGrants := M'.attackerGrants }
  grants : M.attackerGrants ⊆ M'.attackerGrants

namespace Policy

variable {P P' : Policy}

theorem allowsAttack_foldlM {grants : List AttackerGrantDecl}
    (done : grants.foldlM (fun P g => P.declareAttackerGrant ⟨g.subject, g.attacks⟩ g.loc) P = .ok P')
    (subject attack : String) :
    P'.allowsAttack subject attack = true ↔
      P.allowsAttack subject attack = true ∨
        ∃ g ∈ grants, g.subject = subject ∧ attack ∈ g.attacks := by
  induction grants generalizing P with
  | nil =>
    obtain rfl : P = P' := by simpa using done
    simp
  | cons g rest ih =>
    simp only [List.foldlM_cons, bind_eq_ok_iff] at done
    obtain ⟨P₁, first, later⟩ := done
    rw [ih later, allowsAttack_declareAttackerGrant first]
    simp [or_assoc]

end Policy

namespace Declarations

variable {D D' : Declarations}

theorem widens_of_ofModel {budget : Int} {M M' : Model} (widens : M.Widens M')
    (made : ofModel budget M = .ok D) (made' : ofModel budget M' = .ok D') : D.Widens D' := by
  obtain ⟨E, P, S, C, L, first, granted, syscalls, attacks, last, rfl, -⟩ := exists_stages made
  obtain ⟨E', P', S', C', L', first', granted', syscalls', attacks', last', rfl, -⟩ :=
    exists_stages made'
  -- All but the attacker's grants is declared alike.
  have same := widens.same
  obtain rfl : E = E' := by
    rw [same] at first'
    exact Except.ok.inj (first.symm.trans first')
  obtain rfl : S = S' := by
    rw [same] at syscalls'
    exact Except.ok.inj (syscalls.symm.trans syscalls')
  obtain rfl : C = C' := by
    rw [same] at attacks'
    exact Except.ok.inj (attacks.symm.trans attacks')
  have last' : late { E with policy := P', callables := C } M = .ok L' := by
    rw [same] at last'
    exact last'
  have types : P'.types = P.types :=
    (Policy.kept_of_attackerGrants granted').1.trans (Policy.kept_of_attackerGrants granted).1.symm
  obtain rfl : L.under P' C = L' :=
    Except.ok.inj ((late_under ⟨types, fun _ => rfl⟩ last).symm.trans last')
  constructor
  · have system : M'.system = M.system := by rw [same]
    rw [system, under, ← callables_of_late last]
  · intro subject attack allowed
    change L.policy.allowsAttack subject attack = true at allowed
    show P'.allowsAttack subject attack = true
    rw [policy_of_late last, Policy.allowsAttack_foldlM granted] at allowed
    rw [Policy.allowsAttack_foldlM granted']
    refine allowed.imp_right ?_
    rintro ⟨g, member, named⟩
    exact ⟨g, widens.grants member, named⟩

theorem mem_shared (distinct : D.constants.keys.Nodup) {g : GlobalFresh} (member : g ∈ D.globals) :
    g.var ∈ D.shared := by
  obtain ⟨i, inside, rfl⟩ := List.mem_mapIdx.mp member
  obtain ⟨⟨c, fresh⟩, listed, same⟩ := List.mem_map.mp (List.getElem_mem inside)
  obtain ⟨entry, rfl⟩ : (c, fresh) ∈ D.constants.entries ∧ fresh = true := by simpa using listed
  exact ⟨c, Table.find?_of_mem_entries distinct entry, by rw [← same]⟩

end Declarations

structure Matched (nonces : List (Nat × Nat)) (next next' : Nat) : Prop where
  below : ∀ p ∈ nonces, p.1 < next ∧ p.2 < next'
  distinct : ∀ p ∈ nonces, ∀ q ∈ nonces, p.1 = q.1 ↔ p.2 = q.2

def Pairing.initial (D : Declarations) (nonces : List (Nat × Nat)) : Pairing :=
  { places := [], vars := D.globals.map fun g => (g.var, g.var), nonces }

theorem Paired.initial (distinct : D.constants.keys.Nodup) {next next' : Nat}
    (matched : Matched nonces next next') :
    Paired D.shared (.initial D nonces) { nextNonce := next } { nextNonce := next' } where
  laid := by constructor <;> simp [Pairing.initial]
  held := by
    intro x member
    obtain ⟨g, among, rfl⟩ := D.exists_global member
    exact List.mem_map.mpr ⟨g, among, rfl⟩
  origin := by
    intro p member
    obtain ⟨g, among, rfl⟩ := List.mem_map.mp member
    exact .inl ⟨rfl, D.mem_shared distinct among⟩
  vars := by
    intro p member q member'
    obtain ⟨g, -, rfl⟩ := List.mem_map.mp member
    obtain ⟨g', -, rfl⟩ := List.mem_map.mp member'
    rfl
  drawn := matched.below
  nonces := matched.distinct

theorem Context.Widens.bindChannels {P : Pairing} {ctx ctx' : Context} {params : List Param}
    {scope scope' scope₁ scope₁' : Scope} (widens : ctx.Widens D P ctx')
    (scopes : P.Scopes scope scope')
    (done : ctx.bindChannels channels params scope b = .ok (scope₁, b))
    (done' : ctx'.bindChannels channels params scope' b' = .ok (scope₁', b')) :
    P.Scopes scope₁ scope₁' := by
  induction params generalizing scope scope' with
  | nil =>
    obtain rfl : scope = scope₁ := by simpa [Context.bindChannels] using done
    obtain rfl : scope' = scope₁' := by simpa [Context.bindChannels] using done'
    exact scopes
  | cons param rest ih =>
    cases given : channels.find? param.name with
    | none => simp [Context.bindChannels, given] at done
    | some name =>
      simp only [Context.bindChannels, given, Builder.bind_eq_ok_iff, check_eq_ok_iff,
        ite_flaw_eq_ok_iff, declare_eq_ok_iff] at done done'
      obtain ⟨store, b₁, ⟨got, rfl⟩, -, scope₂, b₂, ⟨declared, rfl⟩, others⟩ := done
      obtain ⟨store', b₁', ⟨got', rfl⟩, -, scope₂', b₂', ⟨declared', rfl⟩, others'⟩ := done'
      rw [widens.wider.stores, ← widens.decls] at got'
      obtain rfl := Except.ok.inj (got.symm.trans got')
      have bound : P.Bindings (.store store.name) (.store store.name) := rfl
      exact ih (scopes.declare bound declared declared') others others'

theorem Meets.close {common : Set String} {P : Pairing} {ends ends' : Ends}
    (meets : Meets common P b ends b' ends') (ctx ctx' : Context) :
    ∃ Q, P.Onward b' Q (b'.close ctx' ends') ∧
      Paired common Q (b.close ctx ends) (b'.close ctx' ends') := by
  have same : P.Alike .finish .finish := fun _ _ _ => rfl
  have finishing := b'.threads_append ctx' .finish rfl meets.free'
  cases ends with
  | nil =>
    cases ends' with
    | nil => exact ⟨P, .refl P _, meets.toPaired⟩
    | cons e rest =>
      exact ⟨P, .alone P finishing.toGrows.appends,
        meets.toPaired.widen (finishing.extends meets.free') (.refl _)⟩
  | cons e rest =>
    cases ends' with
    | nil => exact absurd rfl (meets.pool.ne_nil (by simp))
    | cons e' rest' => exact ⟨_, meets.onward ctx' .finish, .branch meets ctx ctx' same⟩

structure ProcessInstance.Embeds (D : Declarations) (nonces : List (Nat × Nat))
    (inst inst' : ProcessInstance) : Prop where
  name : inst'.name = inst.name
  paired : ∃ P b b', inst.graph = b.graph ∧ inst'.graph = b'.graph ∧ Paired D.shared P b b' ∧
    P.nonces ⊆ nonces ∧ P.places[0]? = some 0
  ended : ∀ i node, inst.graph.Open i → inst.graph.node? i = some node → node.action = .finish

theorem Template.embeds {template : Template} {D' : Declarations} {name : String} {next next' : Nat}
    (apart : Untaken D.shared) (wider : D.Widens D') (distinct : D.constants.keys.Nodup)
    (matched : Matched nonces next next')
    (done : template.elaborate D name channels { nextNonce := next } = .ok (inst, b))
    (done' : template.elaborate D' name channels { nextNonce := next' } = .ok (inst', b')) :
    ∃ later, nonces ⊆ later ∧ Matched later b.nextNonce b'.nextNonce ∧
      inst.Embeds D later inst' := by
  have ended : ∀ i node, inst.graph.Open i → inst.graph.node? i = some node →
      node.action = .finish := fun _ _ => Template.ended rfl rfl done
  obtain ⟨scope, flow, flow₁, b₁, b₂, channelled, vars, main, rfl, rfl⟩ := template.derives done
  obtain ⟨scope', flow', flow₁', b₁', b₂', channelled', vars', main', rfl, rfl⟩ :=
    template.derives done'
  have paired := Paired.initial distinct matched
  have widens : (template.context D name).Widens D (.initial D nonces)
      (template.context D' name) := ⟨rfl, wider, rfl, rfl, rfl, .none⟩
  have same : (Pairing.initial D nonces).Alike .start .start := fun _ _ _ => rfl
  have before : Meets D.shared (.initial D nonces) { nextNonce := next } []
      { nextNonce := next' } [] := ⟨paired, .nil, by simp, by simp⟩
  have starting := before.onward (template.context D' name) .start
  have started := before.append (template.context D name) (template.context D' name) rfl rfl same
  have scopes := widens.bindChannels Pairing.scopes_empty channelled channelled'
  have widens := widens.onward starting
  obtain ⟨P, binding, flows⟩ := vars.widened apart _ _ _ _ _ _ (widens.enter "vars" "vars")
    (started.flows .nil (starting.scopes scopes)) vars'
  obtain ⟨Q, running, flows⟩ := main.widened apart _ _ _ _ _ _
    ((widens.onward binding).enter "main" "main") flows main'
  obtain ⟨R, closing, paired⟩ := flows.toMeets.close (template.context D name)
    (template.context D' name)
  have onward := (binding.trans running).trans closing
  refine ⟨R.nonces, (starting.trans onward).nonces, ⟨paired.drawn, paired.nonces⟩, rfl, ?_, ended⟩
  exact ⟨R, _, _, rfl, rfl, paired, List.Subset.refl _, onward.at_place rfl⟩

theorem ProcessInstance.Embeds.mono {later : List (Nat × Nat)} (embeds : inst.Embeds D nonces inst')
    (more : nonces ⊆ later) : inst.Embeds D later inst' := by
  obtain ⟨P, b, b', graph, graph', paired, among, first⟩ := embeds.paired
  exact { embeds with
    paired := ⟨P, b, b', graph, graph', paired, List.Subset.trans among more, first⟩ }

namespace Composition

variable {D D' : Declarations} {c c₁ c' c₁' : Composition}

structure Embeds (D : Declarations) (nonces : List (Nat × Nat)) (c c' : Composition) : Prop where
  matched : Matched nonces c.nextNonce c'.nextNonce
  each : List.Forall₂ (ProcessInstance.Embeds D nonces) c.instances c'.instances

theorem Embeds.add {nonces : List (Nat × Nat)} (embeds : c.Embeds D nonces c')
    (apart : Untaken D.shared) (wider : D.Widens D') (distinct : D.constants.keys.Nodup)
    {template : Template} {name : String} {channels : Table String String} {e e' : Elaborated}
    (elaborated : elaborate D template name channels c.nextNonce = .ok e)
    (elaborated' : elaborate D' template name channels c'.nextNonce = .ok e') :
    ∃ later, nonces ⊆ later ∧ (c.add e).Embeds D later (c'.add e') := by
  obtain ⟨b, made, count⟩ := exists_build_of_elaborate elaborated
  obtain ⟨b', made', count'⟩ := exists_build_of_elaborate elaborated'
  obtain ⟨later, more, matched, embedded⟩ :=
    Template.embeds apart wider distinct embeds.matched made made'
  refine ⟨later, more, by rwa [Composition.add, Composition.add, count, count'], ?_⟩
  exact List.rel_append (embeds.each.imp fun _ _ old => old.mono more) (.cons embedded .nil)

theorem Embeds.adds {nonces : List (Nat × Nat)} (embeds : c.Embeds D nonces c')
    (apart : Untaken D.shared) (wider : D.Widens D') (distinct : D.constants.keys.Nodup)
    {insts : List InstanceDecl} {i : Nat} (adds : Adds D insts i c c₁)
    (adds' : Adds D' insts i c' c₁') : ∃ later, nonces ⊆ later ∧ c₁.Embeds D later c₁' := by
  induction adds generalizing nonces c' with
  | nil =>
    cases adds'
    exact ⟨nonces, List.Subset.refl _, embeds⟩
  | cons found elaborated _ ih =>
    cases adds' with
    | cons found' elaborated' others' =>
      rw [wider.same] at found'
      obtain rfl := Option.some.inj (found.symm.trans found')
      obtain ⟨later, more, embeds⟩ := embeds.add apart wider distinct elaborated elaborated'
      obtain ⟨last, more', embeds⟩ := ih embeds others'
      exact ⟨last, List.Subset.trans more more', embeds⟩

end Composition

theorem System.exists_embeds {config : CompilerConfig} {M M' : Model} {S S' : System}
    (widens : M.Widens M') (apart : ∀ g ∈ S.globals, ∀ (x : String) (n : Nat), g.var ≠ s!"{x}.{n}")
    (done : compile config M = .ok S) (done' : compile config M' = .ok S') :
    ∃ D D' nonces next next', S.Compiled D ∧ S'.Compiled D' ∧ D.Widens D' ∧
      Matched nonces next next' ∧ (∀ g ∈ S.globals, (g.nonce, g.nonce) ∈ nonces) ∧
      (∀ g ∈ S.globals, g.var ∈ D.shared) ∧
      List.Forall₂ (ProcessInstance.Embeds D nonces) S.instances S'.instances := by
  obtain ⟨D, c, declared, composed, clean, instances, compiled⟩ := exists_composed done
  obtain ⟨D', c', declared', composed', clean', instances', compiled'⟩ := exists_composed done'
  have wider := Declarations.widens_of_ofModel widens declared declared'
  have distinct := Declarations.nodup_constants_of_ofModel declared
  have untaken : Untaken D.shared := by
    intro y member
    obtain ⟨g, among, rfl⟩ := D.exists_global member
    exact apart g (compiled.globals ▸ among)
  have globals : D'.globals = D.globals := by rw [wider.same]; rfl
  have matched : Matched (D.globals.map fun g => (g.nonce, g.nonce)) D.globals.length
      D.globals.length := by
    constructor
    · intro p member
      obtain ⟨g, among, rfl⟩ := List.mem_map.mp member
      obtain ⟨i, inside, rfl⟩ := List.mem_mapIdx.mp among
      simpa [Declarations.globals] using inside
    · intro p member q member'
      obtain ⟨g, -, rfl⟩ := List.mem_map.mp member
      obtain ⟨g', -, rfl⟩ := List.mem_map.mp member'
      rfl
  have start : Composition.Embeds D (D.globals.map fun g => (g.nonce, g.nonce))
      { nextNonce := D.globals.length } { nextNonce := D.globals.length } := ⟨matched, .nil⟩
  have system : D'.system = D.system := by rw [wider.same]
  simp only [Declarations.compose, system, globals] at composed composed'
  obtain ⟨nonces, more, embeds⟩ :=
    start.adds untaken wider distinct (Composition.adds_of_addInstances composed clean).2
      (Composition.adds_of_addInstances composed' clean').2
  refine ⟨D, D', nonces, _, _, compiled, compiled', wider, embeds.matched, ?_, ?_,
    by rw [instances, instances']; exact embeds.each⟩
  · intro g member
    exact more (List.mem_map.mpr ⟨g, compiled.globals ▸ member, rfl⟩)
  · intro g member
    exact D.mem_shared distinct (compiled.globals ▸ member)

end ThreatModel
