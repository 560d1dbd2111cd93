import Mathlib
import ThreatModel.Proofs.Elaboration.Stepwise

set_option autoImplicit false

namespace ThreatModel

def Action.shift (n : Nat) : Action → Action
  | .fresh x id => .fresh x (id + n)
  | action => action

theorem Action.shift_of_plain {action : Action} (n : Nat) (plain : action.isFresh = false) :
    action.shift n = action := by
  cases action with
  | fresh => simp [isFresh] at plain
  | _ => rfl

def Node.shift (n : Nat) (node : Node) : Node := { node with action := node.action.shift n }

namespace Graph

def shift (n : Nat) (g : Graph) : Graph where
  nodes := g.nodes.map (·.shift n)
  placed i found here := by
    rw [Array.getElem?_map] at here
    obtain ⟨node, there, rfl⟩ := Option.map_eq_some_iff.mp here
    exact g.placed i node there

variable {n : Nat} {g : Graph}

@[simp] theorem size_shift : (g.shift n).size = g.size := by simp [size, shift]

theorem add_shift (node : Node) : (g.add node).shift n = (g.shift n).add (node.shift n) := by
  simp only [add, shift, Graph.mk.injEq, Array.map_push, size, Array.size_map]
  rfl

theorem connect_shift (source target : Nat) :
    (g.connect source target).shift n = (g.shift n).connect source target := by
  simp only [connect, shift, Graph.mk.injEq]
  refine Array.ext (by simp) fun i _ _ => ?_
  simp only [Array.getElem_map, Array.getElem_modify]
  split <;> rfl

theorem append_shift (node : Node) (ends : List Nat) :
    (g.append node ends).shift n = (g.shift n).append (node.shift n) ends := by
  have drawn (target : Nat) (h : Graph) :
      (ends.foldl (fun h source => h.connect source target) h).shift n =
        ends.foldl (fun h source => h.connect source target) (h.shift n) := by
    induction ends generalizing h with
    | nil => rfl
    | cons source rest ih => rw [List.foldl_cons, List.foldl_cons, ih, connect_shift]
  rw [append, drawn, add_shift, append, size_shift]

end Graph

def Build.shift (n : Nat) (b : Build) : Build :=
  { b with graph := b.graph.shift n, nextNonce := b.nextNonce + n }

theorem Build.append_shift {n : Nat} (b : Build) (ctx : Context) (action : Action) (ends : Ends) :
    (b.append ctx action ends).shift n = (b.shift n).append ctx (action.shift n) ends := by
  simp only [append, shift, Graph.append_shift]
  rfl

namespace Builder

variable {α : Type} {P : Fault → Prop}

def Shifts (n : Nat) (m : Builder α) : Prop :=
  ∀ b : Build, m (b.shift n) = (m b).map fun r => (r.1, r.2.shift n)

theorem Stepwise.shifts {m : Builder α} (steps : m.Stepwise P) (n : Nat) : m.Shifts n := by
  induction steps with
  | pure a | fail | freshVar name | note ctx text => exact fun b => rfl
  | @bind α β m f _ _ first later =>
    -- The first part returns the same for both counts, so they go on alike.
    intro b
    change (Except.bind (m (b.shift n)) fun p => f p.1 p.2) =
      Except.map _ (Except.bind (m b) fun p => f p.1 p.2)
    rw [first b]
    cases ran : m b with
    | error fault => rfl
    | ok p => exact later p.1 ⟨b, p.2, ran⟩ p.2
  | append ctx ends plain =>
    intro b
    simp only [Context.append_apply, Except.map, Build.append_shift,
      Action.shift_of_plain n plain]
    simp [Build.shift]
  | draw ctx x ends =>
    intro b
    have taken : (b.shift n).takeNonce = b.takeNonce.shift n := by
      simp [Build.takeNonce, Build.shift, Nat.add_right_comm]
    simp only [Context.draw_apply, Except.map, Build.append_shift, taken]
    simp [Build.shift, Action.shift]
  | log ctx tag args ends =>
    intro b
    have listed (b : Build) (site : EventSite) :
        (b.addEvent site).shift n = (b.shift n).addEvent site := rfl
    simp only [Context.log_apply, Except.map, listed, Build.append_shift]
    simp [Build.shift, Action.shift]
  | connect source target =>
    intro b
    simp only [connect_apply, Except.map]
    simp [Build.connect, Build.shift, Graph.connect_shift]

end Builder

def ProcessInstance.shift (n : Nat) (inst : ProcessInstance) : ProcessInstance :=
  { inst with graph := inst.graph.shift n }

def Elaborated.shift (n : Nat) (e : Elaborated) : Elaborated :=
  { e with inst := e.inst.shift n, nextNonce := e.nextNonce + n }

section Elaborate

variable (template : Template) (D : Declarations) (name : String) (channels : Table String String)

theorem Context.sustains_all : Context.Sustains (fun _ => True) fun _ _ _ => True where
  reasons _ := ⟨fun _ _ => trivial, fun _ _ => trivial, fun _ _ _ _ _ _ _ _ _ => trivial,
    fun _ _ _ _ => trivial⟩
  deep _ _ _ _ _ _ _ := trivial
  inside _ _ _ _ _ _ _ _ _ _ _ := trivial

theorem Template.alike_build_within (s : SystemDecl) :
    (template.build D name channels).Alike (fun _ => True)
      (template.build (D.within s) name channels) :=
  alike_build Context.sustains_all s (fun _ _ _ => trivial) (fun _ _ _ _ => trivial)
    fun _ _ => trivial

theorem elaborate_eq_map (first : Nat) : elaborate D template name channels first =
    (template.build D name channels { nextNonce := first }).map fun r =>
      { inst := { name, template := template.name, type := template.type, channels,
                  graph := r.2.graph, events := r.2.events }
        nextNonce := r.2.nextNonce
        notes := r.2.notes } := by
  have ran : (template.elaborate D name channels).run { nextNonce := first } =
      (template.build D name channels { nextNonce := first }).map fun r =>
        ({ name, template := template.name, type := template.type, channels, graph := r.2.graph,
           events := r.2.events }, r.2) := by
    rw [Template.elaborate_eq_build]
    change Except.bind (template.build D name channels { nextNonce := first }) _ = _
    cases template.build D name channels { nextNonce := first } <;> rfl
  rw [elaborate, ran]
  cases template.build D name channels { nextNonce := first } <;> rfl

variable {template D name channels} in
theorem elaborate_allowed {P : Fault → Prop} {first : Nat} {fault : Fault}
    (steps : (template.build D name channels).Stepwise P)
    (failed : elaborate D template name channels first = .error fault) : P fault := by
  rw [elaborate_eq_map] at failed
  cases ran : template.build D name channels { nextNonce := first } with
  | ok r => simp [ran, Except.map] at failed
  | error earlier =>
    rw [ran] at failed
    exact Except.error.inj failed ▸ steps.allowed ran

theorem elaborate_within (s : SystemDecl) (first : Nat) :
    elaborate (D.within s) template name channels first =
      elaborate D template name channels first := by
  rw [elaborate_eq_map, elaborate_eq_map,
    (Template.alike_build_within template D name channels s).2]

theorem elaborate_shift (first : Nat) : elaborate D template name channels first =
    (elaborate D template name channels 0).map (·.shift first) := by
  have start : ({ nextNonce := first } : Build) = ({ nextNonce := 0 } : Build).shift first := by
    simp [Build.shift, Graph.shift, Graph.empty]
  have shifts := (Template.alike_build_within template D name channels D.system).1.shifts first
    { nextNonce := 0 }
  rw [elaborate_eq_map, elaborate_eq_map, start, shifts]
  cases template.build D name channels { nextNonce := 0 } <;> rfl

end Elaborate

end ThreatModel
