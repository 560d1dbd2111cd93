import ThreatModel.Run.State

set_option autoImplicit false

namespace ThreatModel

inductive Move where
  | finish
  | stop
  | enter (node : Nat)
  | pass
  | draw (x : String) (nonce : Nat)
  | assign (x : String) (value : Term)
  | insert (store : String) (fact : Term)
  | remove (store : String) (fact : Term)
  | consume (store : String) (fact : Term) (found : Subst)
  | read (store : String) (found : Subst)
  | emit (index : Nat) (value : Term)
  deriving DecidableEq, Repr

namespace State

def afterConsume (config : RunConfig) (store : Store) (fact : Term) : Store :=
  if store.name = attackerStore && config.keepAttackerFacts then store else store.erase fact

def perform (s : State) (T : Theory) (config : RunConfig) (name : String) (next : List Nat) :
    Move → Result State
  | .finish => .ok (s.halt name)
  | .stop => .ok { s.halt name with dead := s.dead ++ [name] }
  | .enter node => .ok (s.advance name [node])
  | .pass => .ok (s.advance name next)
  | .draw x nonce => .ok
      { (s.advance name next).bindValue name x (nonceName nonce (s.drawn.count nonce)) with
        drawn := s.drawn.bump nonce }
  | .assign x value => .ok ((s.advance name next).bindValue name x value)
  | .insert store fact => do
      return (s.advance name next).setStore (← (← s.store store).insert T fact)
  | .remove store fact => do
      return (s.advance name next).setStore (← (← s.store store).remove T fact)
  | .consume store fact found => do
      return ((s.advance name next).setStore (afterConsume config (← s.store store) fact)).bindAll
        name found
  | .read _ found => .ok ((s.advance name next).bindAll name found)
  | .emit index value => .ok
      { s.advance name next with events := s.events ++ [{ owner := name, index, term := value }] }

end State

end ThreatModel
