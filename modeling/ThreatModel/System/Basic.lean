import ThreatModel.Formula.Basic
import ThreatModel.Store.Registry
import ThreatModel.System.Instance

set_option autoImplicit false

namespace ThreatModel

structure GlobalFresh where
  name : String
  var : String
  nonce : Nat
  deriving DecidableEq, Repr

inductive Producer where
  | site (owner : String) (node : Nat)
  | initial
  | attacker
  deriving DecidableEq, Repr

structure CausalEdge where
  store : String
  producer : Producer
  consumer : String × Nat
  deriving DecidableEq, Repr

structure System where
  theory : Theory
  instances : List ProcessInstance
  lemmas : List Lemma
  stores : Table String StoreDecl
  constants : List String
  globals : List GlobalFresh
  causalEdges : List CausalEdge
  notes : List String
  deriving Repr

namespace System

def instance? (S : System) (name : String) : Option ProcessInstance :=
  S.instances.find? (·.name == name)

def get (S : System) (name : String) : Result ProcessInstance :=
  match S.instance? name with
  | some inst => .ok inst
  | none => .error (.missing name)

def eventTags (S : System) : List (String × Nat) :=
  S.instances.flatMap fun inst => inst.events.map fun e => (e.tag, e.arity)

def noncesOf (g : Graph) : List Nat :=
  g.nodes.toList.filterMap fun node =>
    match node.action with
    | .fresh _ nonce => some nonce
    | _ => none

def nonceIds (S : System) : List Nat :=
  S.globals.map (·.nonce) ++ S.instances.flatMap fun inst => noncesOf inst.graph

def summary (S : System) : String :=
  s!"CompiledSystem({S.instances.length} instances, {S.lemmas.length} lemmas)"

end System

def ProcessInstance.inserts (inst : ProcessInstance) : List StoreSite :=
  inst.graph.nodes.toList.filterMap fun node =>
    match node.action with
    | .insert store term => some { owner := inst.name, node := node.index, store, term }
    | _ => none

def ProcessInstance.removals (inst : ProcessInstance) : List StoreSite :=
  inst.graph.nodes.toList.filterMap fun node =>
    match node.action with
    | .remove store term => some { owner := inst.name, node := node.index, store, term }
    | _ => none

def ProcessInstance.consumers (inst : ProcessInstance) : List StoreSite :=
  inst.graph.nodes.toList.filterMap fun node =>
    match node.action with
    | .consume store pattern _ | .read store pattern _ =>
        some { owner := inst.name, node := node.index, store, term := pattern }
    | _ => none

/-- The edges into one consumer: from the inserts whose term can meet its pattern, from the
initial facts that can, and from the attacker to every consumer of the attacker's store. -/
def edgesInto (T : Theory) (R : Registry) (inserts : List StoreSite) (consumer : StoreSite) :
    Except Diagnostic (List CausalEdge) := do
  let target := (← T.normalize consumer.term).rename "c$"
  let edge (producer : Producer) : CausalEdge :=
    { store := consumer.store, producer, consumer := (consumer.owner, consumer.node) }
  let producers ← (inserts.filter (·.store == consumer.store)).filterM fun site =>
    return target.unifiable ((← T.normalize site.term).rename "p$")
  let initial := ((R.stores.find? consumer.store).map (·.initial)).getD []
  return producers.map (fun site => edge (.site site.owner site.node))
    ++ (if initial.any target.unifiable then [edge .initial] else [])
    ++ (if consumer.store = attackerStore then [edge .attacker] else [])

def edgesAmong (T : Theory) (R : Registry) (instances : List ProcessInstance) :
    Except Diagnostic (List CausalEdge) := do
  let inserts := instances.flatMap ProcessInstance.inserts
  let edges ← (instances.flatMap ProcessInstance.consumers).mapM (edgesInto T R inserts)
  return edges.flatten

end ThreatModel
