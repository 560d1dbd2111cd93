import ThreatModel.Diagnostic.Fault

set_option autoImplicit false

namespace ThreatModel

structure Grant where
  subject : String
  object : Option String
  operations : List String
  deriving DecidableEq, Repr

structure AttackerGrant where
  subject : String
  attacks : List String
  deriving DecidableEq, Repr

structure Policy where
  types : Table String TypeKind := .empty
  grants : List Grant := []
  attackerGrants : List AttackerGrant := []
  rights : Table (String × Option String) (List String) := .empty
  attackerRights : Table String (List String) := .empty
  deriving DecidableEq, Repr

namespace Policy

def declareType (P : Policy) (name : String) (kind : TypeKind)
    (location : Option Location := none) : Except Diagnostic Policy :=
  match P.types.find? name with
  | some known => .error { cause := .typeTwice name known, declaration := some name, location }
  | none => .ok { P with types := P.types.insert name kind }

def requireType (P : Policy) (name : String) (location : Option Location) :
    Except Diagnostic Unit :=
  if P.types.contains name then .ok ()
  else .error { cause := .unknownType name, declaration := some name, location }

def addRights {κ : Type} [DecidableEq κ] (rights : Table κ (List String)) (key : κ)
    (added : List String) : Table κ (List String) :=
  rights.insert key (((rights.find? key).getD [] ++ added).eraseDups)

def declareGrant (P : Policy) (grant : Grant) (location : Option Location := none) :
    Except Diagnostic Policy := do
  P.requireType grant.subject location
  match grant.object with
  | some object => P.requireType object location
  | none => pure ()
  return { P with
    grants := P.grants ++ [grant]
    rights := addRights P.rights (grant.subject, grant.object) grant.operations }

def declareAttackerGrant (P : Policy) (grant : AttackerGrant)
    (location : Option Location := none) : Except Diagnostic Policy := do
  P.requireType grant.subject location
  return { P with
    attackerGrants := P.attackerGrants ++ [grant]
    attackerRights := addRights P.attackerRights grant.subject grant.attacks }

def kindOf? (P : Policy) (name : String) : Option TypeKind := P.types.find? name

def allows (P : Policy) (subject : String) (object : Option String) (operation : String) : Bool :=
  ((P.rights.find? (subject, object)).getD []).contains operation

def allowsAttack (P : Policy) (subject attack : String) : Bool :=
  ((P.attackerRights.find? subject).getD []).contains attack

def require (P : Policy) (subject : String) (object : Option String) (operation : String)
    (position declaration : Option String) : Except Diagnostic Unit :=
  if P.allows subject object operation then .ok ()
  else .error { cause := .notAllowed subject object operation, declaration, position }

def requireAttack (P : Policy) (subjects : List String) (attack : String)
    (position declaration : Option String) : Except Diagnostic Unit :=
  if subjects.any fun subject => P.allowsAttack subject attack then .ok ()
  else .error { cause := .noAttackerGrant attack subjects, declaration, position }

def summary (P : Policy) : String :=
  s!"AccessPolicy({P.types.size} types, {P.grants.length} grants, "
    ++ s!"{P.attackerGrants.length} attacker grants)"

end Policy

end ThreatModel
