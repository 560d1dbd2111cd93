import ThreatModel.Diagnostic.Cause

set_option autoImplicit false

namespace ThreatModel

inductive Binding where
  | value (x : String)
  | store (name : String)
  deriving DecidableEq, Repr

structure Scope where
  own : Table String Binding := .empty
  outer : List (Table String Binding) := []
  deriving DecidableEq, Repr

namespace Scope

def child (s : Scope) : Scope := { outer := s.own :: s.outer }

def find? (s : Scope) (x : String) : Option Binding :=
  (s.own :: s.outer).findSome? (·.find? x)

def declare (s : Scope) (x : String) (b : Binding) : Except Cause Scope :=
  if s.own.contains x then .error (.boundTwice x)
  else .ok { s with own := s.own.insert x b }

end Scope

end ThreatModel
