import ThreatModel.Declarations.Basic
import ThreatModel.Elaboration.Scope
import ThreatModel.System.Instance

set_option autoImplicit false

namespace ThreatModel

/-- Nodes whose next successor is the next node to be appended. -/
abbrev Ends := List Nat

structure Build where
  graph : Graph := .empty
  events : List EventSite := []
  counters : Table String Nat := .empty
  nextNonce : Nat
  notes : List String := []
  deriving DecidableEq, Repr

abbrev Builder := StateT Build Result

structure Frame where
  definition : Option Definition := none
  result : Option String := none
  calls : List String := []
  intercept : Bool := true

structure Context where
  decls : Declarations
  owner : String
  type : String
  frame : Frame := {}
  path : List String := []

namespace Context

def enter (ctx : Context) (segment : String) : Context := { ctx with path := ctx.path ++ [segment] }

def position (ctx : Context) : String := ctx.owner ++ "/" ++ ".".intercalate ctx.path

/-- A check made here: its diagnostic is about this instance and this place, if it does not say
more itself. -/
def check {α : Type} (ctx : Context) : Except Diagnostic α → Builder α
  | .ok a => pure a
  | .error d => throw (.flaw (d.within (some ctx.owner) none (some ctx.position)))

def flaw {α : Type} (ctx : Context) (cause : Cause) (location : Option Location := none) :
    Builder α :=
  ctx.check (.error { cause, location })

def declare (ctx : Context) (scope : Scope) (x : String) (b : Binding) : Builder Scope :=
  match scope.declare x b with
  | .ok scope' => pure scope'
  | .error cause => ctx.flaw cause

def append (ctx : Context) (action : Action) (ends : Ends) : Builder Nat := do
  let place := (← get).graph.size
  modify fun b => { b with graph := b.graph.append { action, position := ctx.position } ends }
  return place

def note (ctx : Context) (text : String) : Builder Unit :=
  modify fun b => { b with notes := b.notes ++ [s!"{ctx.position}: {text}"] }

end Context

namespace Builder

def freshVar (name : String) : Builder String := do
  let n := ((← get).counters.find? name).getD 0
  modify fun b => { b with counters := b.counters.insert name (n + 1) }
  return s!"{name}.{n}"

def nonce : Builder Nat := do
  let n := (← get).nextNonce
  modify fun b => { b with nextNonce := n + 1 }
  return n

def connect (source target : Nat) : Builder Unit :=
  modify fun b => { b with graph := b.graph.connect source target }

end Builder

def freshConstantVar (name : String) : String := "~" ++ name

end ThreatModel
