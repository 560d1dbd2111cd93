import ThreatModel.Graph.Basic

set_option autoImplicit false

namespace ThreatModel

structure EventSite where
  owner : String
  index : Nat
  node : Nat
  tag : String
  arity : Nat
  term : Term
  deriving DecidableEq, Repr

structure ProcessInstance where
  name : String
  template : String
  type : String
  channels : Table String String
  graph : Graph
  events : List EventSite := []
  deriving DecidableEq, Repr

end ThreatModel
