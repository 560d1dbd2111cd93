import Mathlib
import ThreatModel.Proofs.Elaboration.Growth
import ThreatModel.Proofs.System.Compiled

set_option autoImplicit false

namespace ThreatModel

namespace Graph

def Walk (g : Graph) : List Nat → Nat → Prop
  | [], i => i = 0
  | k :: past, i => g.Leads k i ∧ g.Walk past k

instance decidableWalk (g : Graph) : ∀ past i, Decidable (g.Walk past i)
  | [], i => inferInstanceAs (Decidable (i = 0))
  | k :: past, i =>
    have := g.decidableWalk past k
    inferInstanceAs (Decidable (g.Leads k i ∧ g.Walk past k))

namespace Sound

variable {D : Declarations} {first next : Nat} {A : DefiniteAssignment} {g : Graph}

theorem inside_of_walk (sound : g.Sound D first next A) (started : 0 < g.size) {past : List Nat}
    {i : Nat} (walk : g.Walk past i) : i < g.size := by
  cases past with
  | nil =>
    obtain rfl : i = 0 := walk
    exact started
  | cons k past =>
    obtain ⟨⟨node, found, leads⟩, -⟩ := walk
    exact (sound.edge k node found i leads).1

theorem defined_on_walk (sound : g.Sound D first next A) {past : List Nat} {i : Nat}
    (walk : g.Walk past i) {x : String} (known : x ∈ A.before i) :
    x ∈ A.before 0 ∨ ∃ k ∈ past, ∃ node, g.node? k = some node ∧ x ∈ node.action.defines := by
  -- What is known before a node is known after the one control came from: defined there, or known
  -- before that one too.
  induction past generalizing i with
  | nil =>
    obtain rfl : i = 0 := walk
    exact .inl known
  | cons k past ih =>
    obtain ⟨⟨node, found, leads⟩, before⟩ := walk
    have after : x ∈ A.after k := (sound.edge k node found i leads).2 known
    rcases sound.defined k node found x after with known' | defined
    · rcases ih before known' with given | ⟨k', member, earlier⟩
      · exact .inl given
      · exact .inr ⟨k', List.mem_cons_of_mem _ member, earlier⟩
    · exact .inr ⟨k, List.mem_cons_self, node, found, defined⟩

end Sound

end Graph

theorem Template.grows {template : Template} {D : Declarations} {name : String}
    {channels : Table String String} {b b' : Build} {inst : ProcessInstance}
    (done : template.elaborate D name channels b = .ok (inst, b')) :
    (b.append (template.context D name) .start []).graph.Grows [b.graph.size] inst.graph := by
  obtain ⟨scope, flow, flow', b₁, b₂, -, vars, main, rfl, rfl⟩ := template.derives done
  have started : b.graph.Threads [] (b.append (template.context D name) .start []).graph
      [b.graph.size] := b.threads_append _ _ rfl (by simp)
  obtain ⟨early, -, bound, -⟩ := vars.threads started.free
  have left : ∀ e ∈ flow.ends, b₁.graph.Open e := fun e member => bound.free e (by simp [member])
  obtain ⟨late, -, ran, -⟩ := main.threads left
  have gone := bound.toGrows.trans ran.toGrows fun e member => bound.origin e (by simp [member])
  have origin : ∀ e ∈ flow'.ends, e ∈ [b.graph.size] ∨
      (b.append (template.context D name) .start []).graph.size ≤ e := by
    intro e member
    rcases ran.origin e (by simp [member]) with old | new
    · exact bound.origin e (by simp [old])
    · exact .inr (bound.larger.trans new)
  change Graph.Grows _ _ (b₂.close _ _).graph
  unfold Build.close
  split
  next => exact gone
  next =>
    have last : ∀ e ∈ flow'.ends, b₂.graph.Open e := fun e member => ran.free e (by simp [member])
    exact gone.trans (b₂.threads_append (template.context D name) .finish rfl last).toGrows origin

theorem Template.starts {template : Template} {D : Declarations} {name : String}
    {channels : Table String String} {b b' : Build} {inst : ProcessInstance}
    (empty : b.graph = .empty) (done : template.elaborate D name channels b = .ok (inst, b')) :
    ∃ node, inst.graph.node? 0 = some node ∧ node.action = .start := by
  have zero : b.graph.size = 0 := by simp [empty]
  have here : (b.append (template.context D name) .start []).graph.node? 0 =
      some { action := .start, position := (template.context D name).position } := by
    simp [Build.append, Graph.append, Graph.node?_add, zero]
  exact (template.grows done).action here

def Template.gate : Template where
  name := "Gate"
  type := "host_t"
  params := [{ name := "c", type := "net_t" }, { name := "f", type := "disk_t" }]
  main := .seq
    [.loop (.bind "x" (.apply "recv" [.ident "c" none] none))
      [.guarded [{ left := .ident "x" none, right := .str "noise", negated := true }]
        (.seq [.call "write" [.ident "f" none, .tuple [.ident "x" none, .ident "seal" none]] none,
          .call "leak" [.ident "x" none] none])],
     .emit { tag := "Logged", args := [.ident "seal" none] }]

def Model.gateway : Model where
  types := [{ name := "host_t", kind := .process }, { name := "net_t", kind := .channel },
    { name := "disk_t", kind := .filesys }]
  grants := [{ subject := "host_t", object := some "net_t", operations := ["recv"] },
    { subject := "host_t", object := some "disk_t", operations := ["write"] }]
  attackerGrants := [{ subject := "net_t", attacks := ["forge"] },
    { subject := "host_t", attacks := ["leak"] }]
  attacks := [{ name := "forge", params := ["c"], target := some "recv",
                body := .seq [.new "n", .ret (.ident "n" none) none] },
    { name := "leak", params := ["v"], target := none,
      body := .store .insert attackerStore (.ident "v" none) none }]
  constants := [{ name := "seal", fresh := true }]
  channels := [{ name := "net", type := "net_t" }]
  files := [{ name := "log", type := "disk_t", content := .str "empty" }]
  processes := [.gate]
  system := some
    { instances := [{ template := "Gate", args := ["net", "log"], name := some "g" }]
      lemmas := [{ name := "logs", kind := .reachable,
                   events := [{ tag := "Logged", args := [.ident "y" none] }] }] }

-- Noise comes first, and control goes round; the second time the forged message is let through.
def Graph.gatePath : List Nat := [11, 10, 9, 8, 7, 6, 2, 1, 17, 10, 9, 5, 4, 3, 2, 1, 0]

theorem Model.exists_gate : ∃ D e, Declarations.ofModel 64 gateway = .ok D ∧
    elaborate D .gate "g" (.ofList [("c", "net"), ("f", "log")]) 1 = .ok e ∧
    e.inst.graph.Walk Graph.gatePath 12 ∧
    ∃ node, e.inst.graph.node? 12 = some node ∧ node.action.Uses "x.0" := by
  have computed : (do
      let D ← Declarations.ofModel 64 gateway
      let e ← elaborate D .gate "g" (.ofList [("c", "net"), ("f", "log")]) 1
      return (decide (e.inst.graph.Walk Graph.gatePath 12),
        (e.inst.graph.node? 12).map (·.action)) : Result (Bool × Option Action)) =
      .ok (true, some (.assign "m.0" (.app "pair" [.var "x.0", .var "~seal"]))) := by
    decide +kernel
  simp only [Result.bind_eq_ok_iff, Result.pure_eq_ok_iff, Prod.mk.injEq, decide_eq_true_eq,
    Option.map_eq_some_iff] at computed
  obtain ⟨D, declared, e, done, walk, node, found, same⟩ := computed
  refine ⟨D, e, declared, done, walk, node, found, ?_⟩
  rw [same]
  exact ⟨⟨_, List.mem_singleton_self _, by simp⟩, by simp [Action.introduces]⟩

/-- A variable used is the variable of a fresh constant, or has been defined on the way. -/
theorem elaborate_assigns_before_use {budget : Int} {M : Model} {D : Declarations}
    {template : Template} {name : String} {channels : Table String String} {first : Nat}
    {e : Elaborated} (declared : Declarations.ofModel budget M = .ok D)
    (done : elaborate D template name channels first = .ok e) :
    (∃ node, e.inst.graph.node? 0 = some node ∧ node.action = .start) ∧
    ∀ past i, e.inst.graph.Walk past i → ∃ node, e.inst.graph.node? i = some node ∧
      ∀ x, node.action.Uses x →
        (∃ constant, D.constants.find? constant = some true ∧ x = freshConstantVar constant) ∨
        ∃ k ∈ past, ∃ earlier, e.inst.graph.node? k = some earlier ∧
          x ∈ earlier.action.defines := by
  obtain ⟨b, ran, -⟩ := exists_build_of_elaborate done
  have decls := Declarations.sound_of_ofModel declared
  obtain ⟨⟨A, sound, given⟩, -, started, -⟩ := (sound_of_elaborate decls done).1
  refine ⟨template.starts rfl ran, fun past i walk => ?_⟩
  obtain ⟨node, found⟩ := Graph.exists_node? (sound.inside_of_walk started walk)
  refine ⟨node, found, fun x used => ?_⟩
  have known : x ∈ A.before i := (sound.action i node found).uses x used
  rcases sound.defined_on_walk walk known with atStart | earlier
  · exact .inl (given atStart)
  · exact .inr earlier

theorem gateway_assigns_before_use : ∃ D e,
    Declarations.ofModel 64 .gateway = .ok D ∧
    elaborate D .gate "g" (.ofList [("c", "net"), ("f", "log")]) 1 = .ok e ∧
    e.inst.graph.Walk Graph.gatePath 12 ∧
    ∃ node, e.inst.graph.node? 12 = some node ∧ node.action.Uses "x.0" ∧
      ∃ k ∈ Graph.gatePath, ∃ earlier, e.inst.graph.node? k = some earlier ∧
        "x.0" ∈ earlier.action.defines := by
  obtain ⟨D, e, declared, done, walk, node, found, used⟩ := Model.exists_gate
  obtain ⟨-, assigned⟩ := elaborate_assigns_before_use declared done
  obtain ⟨node', found', defined⟩ := assigned _ _ walk
  obtain rfl := Option.some.inj (found.symm.trans found')
  refine ⟨D, e, declared, done, walk, node, found, used, ?_⟩
  rcases defined "x.0" used with ⟨constant, -, named⟩ | earlier
  · exact absurd (congrArg String.toList named) (by simp [freshConstantVar])
  · exact earlier

end ThreatModel
