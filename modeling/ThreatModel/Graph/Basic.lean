import ThreatModel.Model.Kind
import ThreatModel.Term.Basic
import ThreatModel.Diagnostic.Fault

set_option autoImplicit false

namespace ThreatModel

structure Condition where
  left : Term
  right : Term
  equal : Bool
  deriving DecidableEq, Repr

inductive Action where
  | start
  | finish
  | fresh (x : String) (nonce : Nat)
  | assign (x : String) (term : Term)
  | guard (conditions : List Condition) (excluded : List (List Condition))
  | choice
  | loopHead
  | callSite (callee : String)
  | alternative (tag : String)
  | join
  | insert (store : String) (term : Term)
  | remove (store : String) (term : Term)
  | consume (store : String) (pattern : Term) (binds : List String)
  | read (store : String) (pattern : Term) (binds : List String)
  | emit (term : Term) (index : Nat)
  deriving DecidableEq, Repr

namespace Action

def label : Action → String
  | .start => "Start"
  | .finish => "End"
  | .fresh .. => "Fresh"
  | .assign .. => "Assign"
  | .guard .. => "Guard"
  | .choice => "Choice"
  | .loopHead => "LoopHead"
  | .callSite _ => "CallSite"
  | .alternative _ => "Alternative"
  | .join => "Join"
  | .insert .. => "Insert"
  | .remove .. => "Remove"
  | .consume .. => "Consume"
  | .read .. => "Read"
  | .emit .. => "Emit"

def isSilent : Action → Bool
  | .start | .fresh .. | .assign .. | .guard .. | .choice | .loopHead | .callSite _
  | .alternative _ | .join => true
  | _ => false

end Action

structure Node where
  -- Where the node stands, once it is in a graph.
  index : Nat := 0
  action : Action
  successors : List Nat := []
  position : String := ""
  deriving DecidableEq, Repr

structure Graph where
  nodes : Array Node
  placed : ∀ (i : Nat) (node : Node), nodes[i]? = some node → node.index = i
  deriving DecidableEq, Repr

namespace Graph

def empty : Graph where
  nodes := #[]
  placed _ node here := absurd (here.symm.trans Array.getElem?_empty) (Option.some_ne_none node)

def size (g : Graph) : Nat := g.nodes.size

def node? (g : Graph) (i : Nat) : Option Node := g.nodes[i]?

-- The new node's place is the size of the graph before.
def add (g : Graph) (node : Node) : Graph where
  nodes := g.nodes.push { node with index := g.size }
  placed i found here := by
    rw [Array.getElem?_push] at here
    split at here
    next last => rw [← Option.some.inj here, last, size]
    next => exact g.placed i found here

def connect (g : Graph) (source target : Nat) : Graph where
  nodes := g.nodes.modify source fun node =>
    { node with successors := node.successors ++ [target] }
  placed i found here := by
    rw [Array.getElem?_modify] at here
    split at here
    next =>
      obtain ⟨node, there, rfl⟩ := Option.map_eq_some_iff.mp here
      exact g.placed i node there
    next => exact g.placed i found here

def append (g : Graph) (node : Node) (ends : List Nat) : Graph :=
  ends.foldl (fun g' source => g'.connect source g.size) (g.add node)

def placesOf (g : Graph) (select : Action → Bool) : List Nat :=
  (g.nodes.toList.filter fun node => select node.action).map (·.index)

def summary (g : Graph) : String := s!"TransitionGraph({g.size} nodes)"

@[simp] theorem size_empty : empty.size = 0 := rfl

@[simp] theorem node?_empty (i : Nat) : empty.node? i = none := Array.getElem?_empty

@[simp] theorem size_add (g : Graph) (node : Node) : (g.add node).size = g.size + 1 := by
  simp [size, add]

@[simp] theorem size_connect (g : Graph) (source target : Nat) :
    (g.connect source target).size = g.size := by
  simp [size, connect]

@[simp] theorem size_append (g : Graph) (node : Node) (ends : List Nat) :
    (g.append node ends).size = g.size + 1 := by
  have drawn (target : Nat) (h : Graph) :
      (ends.foldl (fun g' source => g'.connect source target) h).size = h.size := by
    induction ends generalizing h with
    | nil => rfl
    | cons source rest ih => simp [ih]
  simp [append, drawn]

theorem node?_add (g : Graph) (node : Node) (i : Nat) :
    (g.add node).node? i =
      if i = g.size then some { node with index := g.size } else g.node? i := by
  rw [node?, add, Array.getElem?_push]; rfl

theorem index_of_node? {g : Graph} {i : Nat} {node : Node} (found : g.node? i = some node) :
    node.index = i :=
  g.placed i node found

theorem node?_connect (g : Graph) (source target i : Nat) :
    (g.connect source target).node? i =
      if source = i then
        (g.node? i).map fun node => { node with successors := node.successors ++ [target] }
      else g.node? i := by
  simp [node?, connect, Array.getElem?_modify]

end Graph

end ThreatModel
