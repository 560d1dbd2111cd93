import Mathlib
import ThreatModel.System.Compile
import ThreatModel.Proofs.Declarations.Stages
import ThreatModel.Proofs.Elaboration.Sound

set_option autoImplicit false

namespace ThreatModel

open Result

variable {D : Declarations} {channels : Table String String} {b : Build} {template : Template}
  {name : String} {config : CompilerConfig} {S : System} {M : Model}

theorem Declarations.exists_global {x : String} (shared : x ∈ D.shared) :
    ∃ g ∈ D.globals, g.var = x := by
  obtain ⟨c, declared, rfl⟩ := shared
  have listed : c ∈ (D.constants.entries.filter (·.2)).map (·.1) :=
    List.mem_map.mpr ⟨(c, true), by simpa using Table.mem_entries_of_find? declared, rfl⟩
  obtain ⟨i, inside, here⟩ := List.mem_iff_getElem.mp listed
  refine ⟨⟨c, freshConstantVar c, i⟩, ?_, rfl⟩
  exact List.mem_mapIdx.mpr ⟨i, inside, by rw [here]⟩

namespace Graph

def Draws (g : Graph) (id : Nat) : Prop :=
  ∃ i node x, g.node? i = some node ∧ node.action = .fresh x id

theorem Sound.draws {D : Declarations} {first next id : Nat} {A : DefiniteAssignment} {g : Graph}
    (sound : g.Sound D first next A) (drawn : g.Draws id) : first ≤ id ∧ id < next := by
  obtain ⟨i, node, x, found, action⟩ := drawn
  exact sound.nonce i node x id found action

theorem sound_empty {D : Declarations} {first next : Nat} {A : DefiniteAssignment} :
    Graph.empty.Sound D first next A := by
  constructor <;> simp

end Graph

structure ProcessInstance.Sound (D : Declarations) (first next : Nat) (inst : ProcessInstance) :
    Prop where
  assigned : ∃ A : DefiniteAssignment, inst.graph.Sound D first next A ∧ A.before 0 ⊆ D.shared
  sites : ∀ i, ¬ inst.graph.Bare i
  started : 0 < inst.graph.size
  ordered : first ≤ next

theorem Context.sound_of_bindChannels {ctx : Context} {known : Set String} {params : List Param}
    {scope scope' : Scope} {b' : Build} (decls : ctx.decls.Sound)
    (sound : scope.Sound ctx.decls known)
    (done : ctx.bindChannels channels params scope b = .ok (scope', b')) :
    scope'.Sound ctx.decls known := by
  induction params generalizing scope b with
  | nil =>
    obtain ⟨rfl, -⟩ : scope = scope' ∧ b = b' := by simpa [bindChannels] using done
    exact sound
  | cons param rest ih =>
    cases given : channels.find? param.name with
    | none => simp [bindChannels, given] at done
    | some name =>
      simp only [bindChannels, given, Builder.bind_eq_ok_iff, check_eq_ok_iff,
        ite_flaw_eq_ok_iff, declare_eq_ok_iff] at done
      obtain ⟨store, b₁, ⟨got, rfl⟩, -, scope₁, b₂, ⟨declared, rfl⟩, others⟩ := done
      have contained := decls.contains_name (Registry.find?_of_get got)
      exact ih (sound.declare_store contained declared) others

theorem Ready.start (decls : D.Sound) (ctx : Context) (empty : b.graph = .empty) :
    ∃ A, Ready D b.nextNonce A (b.append ctx .start []) [b.graph.size] ∧
      A.before b.graph.size = D.shared := by
  let A : DefiniteAssignment := ⟨fun _ => ∅, fun _ => ∅⟩
  have sound : b.graph.Sound D b.nextNonce b.nextNonce A := by
    rw [empty]
    exact Graph.sound_empty
  have inside : ∀ e ∈ ([] : Ends), e < b.graph.size := by simp
  have fits : D.shared ⊆ A.available [] := by simp [DefiniteAssignment.available]
  have started : (b.append ctx .start []).graph.Sound D b.nextNonce b.nextNonce
      (A.extend b.graph.size D.shared {x | x ∈ Action.start.defines}) :=
    sound.append { action := .start, position := ctx.position } inside rfl fits subset_rfl
      (Action.sound_of_plain rfl rfl) (by simp)
  exact ⟨_, ⟨decls, started, le_rfl, by simp⟩, DefiniteAssignment.before_extend⟩

theorem Template.sound {b' : Build} {inst : ProcessInstance} (decls : D.Sound)
    (empty : b.graph = .empty) (done : template.elaborate D name channels b = .ok (inst, b')) :
    inst.Sound D b.nextNonce b'.nextNonce ∧ inst.name = name := by
  obtain ⟨scope, flow, flow', b₁, b₂, channelled, vars, main, rfl, rfl⟩ := template.derives done
  obtain ⟨A, started, first⟩ := Ready.start decls (template.context D name) empty
  have named : scope.Sound D (A.after b.graph.size) :=
    Context.sound_of_bindChannels decls Scope.sound_empty channelled
  obtain ⟨A₁, bound, flows⟩ := vars.sound A ∅ started
    ⟨by rw [DefiniteAssignment.available_singleton]; exact named, by simp, by simp⟩
  obtain ⟨A₂, ran, flows'⟩ := main.sound A₁ ∅ bound.ready flows
  obtain ⟨A₃, closed, ended⟩ : ∃ A₃ last, Reaches D b.nextNonce A₂ b₂ flow'.ends A₃
      (b₂.close (template.context D name) flow'.ends) last := by
    unfold Build.close
    split
    next => exact ⟨A₂, _, ran.ready.refl⟩
    next =>
      obtain ⟨A₃, finished, -⟩ :=
        ran.ready.mark (template.context D name) .finish rfl rfl rfl (by simp)
      exact ⟨A₃, _, finished⟩
  have gone := (bound.trans ran).trans ended
  refine ⟨⟨⟨A₃, gone.ready.graph, ?_⟩, ?_, ?_, gone.ready.nonces⟩, rfl⟩
  · have here : b.graph.size < (b.append (template.context D name) .start []).graph.size := by simp
    have zero : b.graph.size = 0 := by simp [empty]
    rw [← zero, (gone.agrees _ here).1, first]
  · intro i bare
    rcases Graph.bare_append (by simp) (gone.sites i bare) with ⟨-, callee, site⟩ | ⟨bare, -⟩
    · simp at site
    · obtain ⟨node, callee, found, -⟩ := bare
      simp [empty] at found
  · have larger := gone.larger
    simp only [Build.size_append] at larger
    show 0 < (b₂.close _ flow'.ends).graph.size
    omega

theorem exists_build_of_elaborate {first : Nat} {e : Elaborated}
    (done : elaborate D template name channels first = .ok e) :
    ∃ b, template.elaborate D name channels { nextNonce := first } = .ok (e.inst, b) ∧
      e.nextNonce = b.nextNonce := by
  simp only [elaborate, bind_eq_ok_iff, pure_eq_ok_iff] at done
  obtain ⟨⟨inst, b⟩, ran, rfl⟩ := done
  exact ⟨b, ran, rfl⟩

theorem sound_of_elaborate {first : Nat} {e : Elaborated} (decls : D.Sound)
    (done : elaborate D template name channels first = .ok e) :
    e.inst.Sound D first e.nextNonce ∧ e.inst.name = name := by
  obtain ⟨b, ran, same⟩ := exists_build_of_elaborate done
  rw [same]
  exact Template.sound decls rfl ran

def ProcessInstance.Elaborated (D : Declarations) (inst : ProcessInstance) : Prop :=
  ∃ template name channels first e,
    elaborate D template name channels first = .ok e ∧ e.inst = inst

structure Composition.Sound (D : Declarations) (c : Composition) : Prop where
  elaborated : ∀ inst ∈ c.instances, inst.Elaborated D
  later : D.globals.length ≤ c.nextNonce
  each : ∀ inst ∈ c.instances, ∃ first next, D.globals.length ≤ first ∧ next ≤ c.nextNonce ∧
    inst.Sound D first next
  apart : c.instances.Pairwise fun inst other =>
    ∀ id, inst.graph.Draws id → ¬ other.graph.Draws id

namespace Composition.Sound

variable {D : Declarations} {c c' : Composition}

theorem add (sound : c.Sound D) {inst : ProcessInstance} {next : Nat}
    (made : inst.Elaborated D) (new : inst.Sound D c.nextNonce next)
    (added : c'.instances = c.instances ++ [inst]) (moved : c'.nextNonce = next) : c'.Sound D := by
  obtain ⟨A, graph, -⟩ := new.assigned
  constructor
  · rw [added]
    intro other member
    rcases List.mem_append.mp member with old | here
    · exact sound.elaborated other old
    · exact List.mem_singleton.mp here ▸ made
  · rw [moved]
    exact sound.later.trans new.ordered
  · rw [added, moved]
    intro other member
    rcases List.mem_append.mp member with old | here
    · obtain ⟨first, last, low, high, kept⟩ := sound.each other old
      exact ⟨first, last, low, high.trans new.ordered, kept⟩
    · obtain rfl := List.mem_singleton.mp here
      exact ⟨c.nextNonce, next, sound.later, le_rfl, new⟩
  · rw [added, List.pairwise_append]
    refine ⟨sound.apart, by simp, ?_⟩
    intro other member inst' here id drawn drawn'
    obtain rfl := List.mem_singleton.mp here
    obtain ⟨first, last, -, high, ⟨⟨B, graph', -⟩, -⟩⟩ := sound.each other member
    -- The new instance's ids start where those of the others end.
    have := (graph'.draws drawn).2
    have := (graph.draws drawn').1
    omega

theorem addInstance (decls : D.Sound) (sound : c.Sound D) {inst : InstanceDecl} {name : String}
    (done : D.addInstance inst name c = .ok c') : c'.Sound D := by
  simp only [Declarations.addInstance] at done
  split at done
  next => simp at done
  next template found =>
    split at done
    next e elaborated =>
      obtain rfl := Except.ok.inj done
      exact sound.add ⟨_, _, _, _, e, elaborated, rfl⟩ (sound_of_elaborate decls elaborated).1 rfl
        rfl
    next d failed =>
      obtain rfl := Except.ok.inj done
      exact ⟨sound.elaborated, sound.later, sound.each, sound.apart⟩
    next => simp at done

theorem addInstances (decls : D.Sound) (sound : c.Sound D) {insts : List InstanceDecl} {i : Nat}
    (done : D.addInstances insts i c = .ok c') : c'.Sound D := by
  induction insts generalizing i c with
  | nil =>
    obtain rfl : c = c' := by simpa [Declarations.addInstances] using done
    exact sound
  | cons inst rest ih =>
    simp only [Declarations.addInstances, bind_eq_ok_iff] at done
    obtain ⟨c₁, added, others⟩ := done
    exact ih (sound.addInstance decls added) others

theorem of_compose (decls : D.Sound) (done : D.compose = .ok c) : c.Sound D :=
  addInstances decls ⟨by simp, le_rfl, by simp, by simp⟩ done

end Composition.Sound

namespace Composition

variable {D : Declarations} {c c' : Composition}

def add (c : Composition) (e : Elaborated) : Composition :=
  { c with
    instances := c.instances ++ [e.inst]
    nextNonce := e.nextNonce
    notes := c.notes ++ e.notes }

inductive Adds (D : Declarations) :
    List InstanceDecl → Nat → Composition → Composition → Prop
  | nil {i : Nat} {c : Composition} : Adds D [] i c c
  | cons {inst : InstanceDecl} {insts : List InstanceDecl} {i : Nat} {c c' : Composition}
      {template : Template} {e : Elaborated}
      (found : D.templates.find? inst.template = some template)
      (elaborated : elaborate D template (inst.label i)
        (.ofList ((template.params.map (·.name)).zip inst.args)) c.nextNonce = .ok e)
      (rest : Adds D insts (i + 1) (c.add e) c') : Adds D (inst :: insts) i c c'

theorem adds_of_addInstances {insts : List InstanceDecl} {i : Nat}
    (done : D.addInstances insts i c = .ok c') (clean : c'.flaws = []) :
    c.flaws = [] ∧ Adds D insts i c c' := by
  induction insts generalizing i c with
  | nil =>
    obtain rfl : c = c' := by simpa [Declarations.addInstances] using done
    exact ⟨clean, .nil⟩
  | cons inst rest ih =>
    simp only [Declarations.addInstances, Declarations.addInstance, bind_eq_ok_iff] at done
    obtain ⟨c₁, added, others⟩ := done
    obtain ⟨clean₁, adds⟩ := ih others
    split at added
    next => simp at added
    next template found =>
      split at added
      next e elaborated =>
        obtain rfl := Except.ok.inj added
        exact ⟨clean₁, .cons found elaborated adds⟩
      next =>
        obtain rfl := Except.ok.inj added
        simp at clean₁
      next => simp at added

theorem Adds.names {insts : List InstanceDecl} {i : Nat} (decls : D.Sound)
    (adds : Adds D insts i c c') :
    c'.instances.map (·.name) = c.instances.map (·.name) ++ InstanceDecl.labels i insts := by
  induction adds with
  | nil => simp [InstanceDecl.labels]
  | cons _ elaborated _ ih =>
    rw [ih, add, List.map_append, InstanceDecl.labels]
    simp [(sound_of_elaborate decls elaborated).2]

end Composition

/-- What a compiled system keeps of the declarations it was made from. -/
structure System.Compiled (D : Declarations) (S : System) : Prop where
  decls : D.Sound
  theory : S.theory = D.theory
  stores : S.stores = D.stores.stores
  globals : S.globals = D.globals
  edges : edgesAmong D.theory D.stores S.instances = .ok S.causalEdges
  each : ∀ inst ∈ S.instances, ∃ first next, D.globals.length ≤ first ∧ inst.Sound D first next
  apart : S.instances.Pairwise fun inst other =>
    ∀ id, inst.graph.Draws id → ¬ other.graph.Draws id

theorem System.exists_composed (done : compile config M = .ok S) :
    ∃ D c, Declarations.ofModel config.rewriteBudget M = .ok D ∧ D.compose = .ok c ∧
      c.flaws = [] ∧ S.instances = c.instances ∧ S.Compiled D := by
  simp only [compile, bind_eq_ok_iff, lift_eq_ok_iff] at done
  obtain ⟨D, declared, c, composed, hopeless, removals, ⟨lemmas, flaws⟩, stated, done⟩ := done
  have decls := Declarations.sound_of_ofModel declared
  have sound := Composition.Sound.of_compose decls composed
  split at done
  next clean =>
    simp only [lift_eq_ok_iff, package, bind_eq_ok_iff, pure_eq_ok_iff] at done
    obtain ⟨edges, drawn, rfl⟩ := done
    have clean : c.flaws = [] := by
      simp only [List.isEmpty_iff, List.append_eq_nil_iff] at clean
      exact clean.1.1
    refine ⟨D, c, declared, composed, clean, rfl, ⟨decls, rfl, rfl, rfl, drawn, ?_, sound.apart⟩⟩
    intro inst member
    obtain ⟨first, next, low, -, made⟩ := sound.each inst member
    exact ⟨first, next, low, made⟩
  next => simp at done

theorem System.nodup_names (done : compile config M = .ok S) :
    (S.instances.map (·.name)).Nodup := by
  obtain ⟨D, c, declared, composed, clean, same, compiled⟩ := exists_composed done
  rw [same, (Composition.adds_of_addInstances composed clean).2.names compiled.decls]
  simpa using Declarations.nodup_labels_of_ofModel declared

theorem System.exists_declared (done : compile config M = .ok S) :
    ∃ D, Declarations.ofModel config.rewriteBudget M = .ok D ∧ S.Compiled D ∧
      ∀ inst ∈ S.instances, inst.Elaborated D := by
  obtain ⟨D, c, declared, composed, -, same, compiled⟩ := exists_composed done
  rw [same]
  exact ⟨D, declared, compiled, (Composition.Sound.of_compose compiled.decls composed).elaborated⟩

theorem System.compiled_of_compile (done : compile config M = .ok S) : ∃ D, S.Compiled D := by
  obtain ⟨D, -, compiled, -⟩ := exists_declared done
  exact ⟨D, compiled⟩

namespace System.Compiled

variable {D : Declarations} {S : System}

theorem mem_of_get {name : String} {inst : ProcessInstance} (got : S.get name = .ok inst) :
    inst ∈ S.instances ∧ inst.name = name := by
  simp only [get] at got
  split at got
  next found here =>
    obtain rfl := Except.ok.inj got
    exact ⟨List.mem_of_find?_eq_some here, by simpa using List.find?_some here⟩
  next => simp at got

theorem draws_apart (compiled : S.Compiled D) {name other : String} {inst inst' : ProcessInstance}
    (got : S.get name = .ok inst) (got' : S.get other = .ok inst') (distinct : name ≠ other)
    {id : Nat} (drawn : inst.graph.Draws id) : ¬ inst'.graph.Draws id := by
  obtain ⟨member, rfl⟩ := mem_of_get got
  obtain ⟨member', rfl⟩ := mem_of_get got'
  have symmetric : Std.Symm fun inst other : ProcessInstance =>
      ∀ id, inst.graph.Draws id → ¬ other.graph.Draws id :=
    ⟨fun inst other apart id drawn drawn' => apart id drawn' drawn⟩
  exact compiled.apart.forall member member' (fun same => distinct (by rw [same])) id drawn

end System.Compiled

def Model.courier : Model where
  types := [{ name := "host_t", kind := .process }, { name := "net_t", kind := .channel }]
  grants := [{ subject := "host_t", object := some "net_t", operations := ["send", "recv"] }]
  constants := [{ name := "seal", fresh := true }]
  channels := [{ name := "net", type := "net_t" }]
  processes :=
    [{ name := "Sender", type := "host_t", params := [{ name := "c", type := "net_t" }]
       main := .seq [.new "n", .call "send" [.ident "c" none,
         .tuple [.ident "n" none, .ident "seal" none]] none] },
     { name := "Receiver", type := "host_t", params := [{ name := "c", type := "net_t" }]
       main := .seq [.bind "x" (.apply "recv" [.ident "c" none] none),
         .emit { tag := "Got", args := [.ident "x" none] }] }]
  system := some
    { instances := [{ template := "Sender", args := ["net"], name := some "a" },
        { template := "Receiver", args := ["net"], name := some "b" }]
      lemmas := [{ name := "arrives", kind := .reachable,
                   events := [{ tag := "Got", args := [.ident "y" none] }] }] }

end ThreatModel
