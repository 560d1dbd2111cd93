import ThreatModel.Term.Unification
import ThreatModel.Store.Basic

set_option autoImplicit false

namespace ThreatModel

structure StoreDecl where
  name : String
  type : Option String
  kind : TypeKind
  initial : List Term := []
  deriving DecidableEq, Repr

structure StoreSite where
  owner : String
  node : Nat
  store : String
  term : Term
  deriving DecidableEq, Repr

structure Registry where
  stores : Table String StoreDecl :=
    .single attackerStore { name := attackerStore, type := none, kind := .channel }
  deriving DecidableEq, Repr

namespace Registry

def declare (T : Theory) (R : Registry) (name : String) (type : Option String) (kind : TypeKind)
    (initial : List Term) : Except Diagnostic Registry := do
  let initial ← T.normalizeAll initial
  return { stores := R.stores.insert name { name, type, kind, initial } }

def contains (R : Registry) (name : String) : Bool := R.stores.contains name

def get (R : Registry) (name : String) : Except Diagnostic StoreDecl :=
  match R.stores.find? name with
  | some decl => .ok decl
  | none => .error { cause := .unknownStore name, declaration := some name }

def instantiate (T : Theory) (stores : Table String StoreDecl) :
    Except Diagnostic (Table String Store) := do
  let opened ← stores.entries.mapM fun (name, decl) => do
    return (name, ← Store.create T name decl.kind decl.initial)
  return ⟨opened⟩

def canSucceed (T : Theory) (R : Registry) (inserts : List StoreSite) (removal : StoreSite) :
    Except Diagnostic Bool := do
  let target := (← T.normalize removal.term).rename "r$"
  let inserted ← (inserts.filter (·.store == removal.store)).mapM fun site => do
    return (← T.normalize site.term).rename "i$"
  let initial := ((R.stores.find? removal.store).map (·.initial)).getD []
  return (inserted ++ initial).any target.unifiable

def checkRemovals (T : Theory) (R : Registry) (inserts removals : List StoreSite) :
    Except Diagnostic (List Diagnostic) := do
  let hopeless ← removals.filterM fun removal => return !(← R.canSucceed T inserts removal)
  return hopeless.map fun removal =>
    { cause := .removalNeverSucceeds removal.term removal.store
      declaration := some removal.owner
      position := some s!"{removal.owner}/node {removal.node}" }

end Registry

end ThreatModel
