set_option autoImplicit false

namespace ThreatModel

structure Location where
  line : Int
  column : Int
  deriving DecidableEq, Repr

inductive TypeKind where
  | process
  | channel
  | filesys
  deriving DecidableEq, Repr

def TypeKind.word : TypeKind → String
  | .process => "process"
  | .channel => "channel"
  | .filesys => "filesys"

inductive StoreAction where
  | insert
  | remove
  | consume
  | read
  deriving DecidableEq, Repr

def StoreAction.word : StoreAction → String
  | .insert => "insert"
  | .remove => "remove"
  | .consume => "consume"
  | .read => "read"

inductive LemmaKind where
  | existsTrace
  | allTraces
  | reachable
  | corresponds
  deriving DecidableEq, Repr

def LemmaKind.word : LemmaKind → String
  | .existsTrace => "exists-trace"
  | .allTraces => "all-traces"
  | .reachable => "reachable"
  | .corresponds => "corresponds"

def attackerStore : String := "attacker"

end ThreatModel
