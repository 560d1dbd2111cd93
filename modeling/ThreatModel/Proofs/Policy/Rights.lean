import Mathlib
import ThreatModel.Policy
import ThreatModel.Proofs.Table
import ThreatModel.Proofs.Requests

set_option autoImplicit false

namespace ThreatModel.Policy

open Result

variable {P P' : Policy} {location : Option Location}

def add (P : Policy) (grant : Grant) : Policy :=
  { P with
    grants := P.grants ++ [grant]
    rights := addRights P.rights (grant.subject, grant.object) grant.operations }

theorem allows_add {grant : Grant} {subject : String} {object : Option String}
    {operation : String} :
    (P.add grant).allows subject object operation = true ↔
      P.allows subject object operation = true ∨
        grant.subject = subject ∧ grant.object = object ∧ operation ∈ grant.operations := by
  simp only [allows, add, addRights, Table.find?_insert]
  by_cases same : (grant.subject, grant.object) = (subject, object)
  · obtain ⟨rfl, rfl⟩ := Prod.mk.inj same
    simp
  · rw [if_neg same]
    have apart : ¬ (grant.subject = subject ∧ grant.object = object) := by simpa using same
    tauto

def requireObject (P : Policy) (object : Option String) (location : Option Location) :
    Except Diagnostic Unit :=
  match object with
  | some object => P.requireType object location
  | none => .ok ()

theorem declareGrant_eq (P : Policy) (grant : Grant) (location : Option Location) :
    P.declareGrant grant location = (do
      P.requireType grant.subject location
      P.requireObject grant.object location
      return P.add grant) := by
  obtain ⟨subject, object, operations⟩ := grant
  cases object <;> rfl

theorem eq_add_of_declareGrant {grant : Grant} (done : P.declareGrant grant location = .ok P') :
    P' = P.add grant := by
  simp only [declareGrant_eq, bind_eq_ok_iff, pure_eq_ok_iff] at done
  obtain ⟨-, -, -, -, rfl⟩ := done
  rfl

theorem allowsAttack_declareAttackerGrant {grant : AttackerGrant}
    (done : P.declareAttackerGrant grant location = .ok P') (subject attack : String) :
    P'.allowsAttack subject attack = true ↔
      P.allowsAttack subject attack = true ∨ (grant.subject = subject ∧ attack ∈ grant.attacks) := by
  simp only [declareAttackerGrant, bind_eq_ok_iff, pure_eq_ok_iff] at done
  obtain ⟨-, -, rfl⟩ := done
  simp only [allowsAttack, addRights, Table.find?_insert]
  by_cases same : grant.subject = subject
  · simp [same]
  · simp [same]

def requireUnused (P : Policy) (name : String) (location : Option Location) :
    Except Diagnostic Unit :=
  match P.types.find? name with
  | some known => .error { cause := .typeTwice name known, declaration := some name, location }
  | none => .ok ()

theorem declareType_eq (P : Policy) (name : String) (kind : TypeKind)
    (location : Option Location) :
    P.declareType name kind location = (do
      P.requireUnused name location
      return { P with types := P.types.insert name kind }) := by
  rw [declareType, requireUnused]
  cases P.types.find? name <;> rfl

inductive Request where
  | type (name : String) (kind : TypeKind) (location : Option Location)
  | grant (g : Grant) (location : Option Location)
  | attackerGrant (g : AttackerGrant) (location : Option Location)
  deriving DecidableEq, Repr

namespace Request

def grant? : Request → Option Grant
  | .grant g _ => some g
  | _ => none

def attackerGrant? : Request → Option AttackerGrant
  | .attackerGrant g _ => some g
  | _ => none

def answer : Request → Policy → Except Diagnostic Policy
  | .type name kind location, P => P.declareType name kind location
  | .grant g location, P => P.declareGrant g location
  | .attackerGrant g location, P => P.declareAttackerGrant g location

def perform : Request → Edit Diagnostic Policy Unit
  | .type name kind location => do
      Edit.check fun P => P.requireUnused name location
      modify fun P => { P with types := P.types.insert name kind }
  | .grant g location => do
      Edit.check fun P => P.requireType g.subject location
      Edit.check fun P => P.requireObject g.object location
      modify fun P => { P with grants := P.grants ++ [g] }
      modify fun P => { P with rights := addRights P.rights (g.subject, g.object) g.operations }
  | .attackerGrant g location => do
      Edit.check fun P => P.requireType g.subject location
      modify fun P => { P with attackerGrants := P.attackerGrants ++ [g] }
      modify fun P => { P with attackerRights := addRights P.attackerRights g.subject g.attacks }

theorem serves (request : Request) : request.perform.Serves request.answer := by
  cases request with
  | type name kind location =>
    rw [show (type name kind location).answer = _ from
      funext fun P => declareType_eq P name kind location]
    exact (Edit.serves_modify _).check _
  | grant g location =>
    rw [show (grant g location).answer = _ from funext fun P => declareGrant_eq P g location]
    exact ((Edit.serves_modify_twice _ _).check _).check _
  | attackerGrant g location => exact (Edit.serves_modify_twice _ _).check _

def accepted (requests : List Request) : List Request := Edit.accepted perform {} requests

end Request

def after (requests : List Request) : Policy := requests.foldl (Edit.serve Request.perform) {}

structure Exact (P : Policy) : Prop where
  rights : ∀ subject object operation, P.allows subject object operation = true ↔
    ∃ g ∈ P.grants, g.subject = subject ∧ g.object = object ∧ operation ∈ g.operations
  attackerRights : ∀ subject attack, P.allowsAttack subject attack = true ↔
    ∃ g ∈ P.attackerGrants, g.subject = subject ∧ attack ∈ g.attacks

theorem exact_empty : ({} : Policy).Exact where
  rights := by simp [allows]
  attackerRights := by simp [allowsAttack]

theorem Exact.answer {request : Request} (exact : P.Exact) (answered : request.answer P = .ok P') :
    P'.grants = P.grants ++ request.grant?.toList ∧
      P'.attackerGrants = P.attackerGrants ++ request.attackerGrant?.toList ∧ P'.Exact := by
  cases request with
  | type name kind location =>
    simp only [Request.answer, declareType_eq, bind_eq_ok_iff, pure_eq_ok_iff] at answered
    obtain ⟨-, -, rfl⟩ := answered
    exact ⟨by simp [Request.grant?], by simp [Request.attackerGrant?],
      exact.rights, exact.attackerRights⟩
  | grant g location =>
    obtain rfl := eq_add_of_declareGrant answered
    refine ⟨rfl, by simp [Request.attackerGrant?, add], fun subject object operation => ?_,
      exact.attackerRights⟩
    rw [allows_add, exact.rights]
    simp [add, or_and_right, exists_or]
  | attackerGrant g location =>
    have allowed := allowsAttack_declareAttackerGrant answered
    simp only [Request.answer, declareAttackerGrant, bind_eq_ok_iff, pure_eq_ok_iff] at answered
    obtain ⟨-, -, rfl⟩ := answered
    refine ⟨by simp [Request.grant?], rfl, exact.rights, fun subject attack => ?_⟩
    rw [allowed, exact.attackerRights]
    simp [or_and_right, exists_or]

theorem Exact.answers {requests : List Request} (exact : P.Exact)
    (answered : requests.foldlM (fun P request => request.answer P) P = .ok P') :
    P'.grants = P.grants ++ requests.filterMap Request.grant? ∧
      P'.attackerGrants = P.attackerGrants ++ requests.filterMap Request.attackerGrant? ∧
        P'.Exact := by
  induction requests generalizing P with
  | nil =>
    obtain rfl : P = P' := by simpa using answered
    simpa using exact
  | cons request rest ih =>
    simp only [List.foldlM_cons, bind_eq_ok_iff] at answered
    obtain ⟨P₁, first, later⟩ := answered
    obtain ⟨grants, attackerGrants, exact⟩ := exact.answer first
    obtain ⟨grants', attackerGrants', exact⟩ := ih exact later
    refine ⟨?_, ?_, exact⟩
    · rw [grants', grants, List.filterMap_cons]
      cases request.grant? <;> simp
    · rw [attackerGrants', attackerGrants, List.filterMap_cons]
      cases request.attackerGrant? <;> simp

theorem Exact.allows_of_perm (exact : P.Exact) (exact' : P'.Exact)
    (perm : P'.grants.Perm P.grants) : P'.allows = P.allows := by
  funext subject object operation
  apply Bool.eq_iff_iff.mpr
  rw [exact'.rights, exact.rights]
  simp only [perm.mem_iff]

theorem Exact.allowsAttack_of_perm (exact : P.Exact) (exact' : P'.Exact)
    (perm : P'.attackerGrants.Perm P.attackerGrants) : P'.allowsAttack = P.allowsAttack := by
  funext subject attack
  apply Bool.eq_iff_iff.mpr
  rw [exact'.attackerRights, exact.attackerRights]
  simp only [perm.mem_iff]

theorem exact_after (requests : List Request) :
    (after requests).grants = (Request.accepted requests).filterMap Request.grant? ∧
      (after requests).attackerGrants =
        (Request.accepted requests).filterMap Request.attackerGrant? ∧ (after requests).Exact := by
  have answered := Edit.foldlM_accepted Request.serves {} requests
  exact exact_empty.answers answered

/-- Whatever was asked of a policy, in vain or not, something is allowed exactly if one of the
grants that were accepted says so. -/
theorem rights_exact (requests : List Request) :
    (after requests).grants = (Request.accepted requests).filterMap Request.grant? ∧
    (after requests).attackerGrants =
      (Request.accepted requests).filterMap Request.attackerGrant? ∧
    (∀ subject object operation, (after requests).allows subject object operation = true ↔
      ∃ g ∈ (after requests).grants,
        g.subject = subject ∧ g.object = object ∧ operation ∈ g.operations) ∧
    (∀ subject attack, (after requests).allowsAttack subject attack = true ↔
      ∃ g ∈ (after requests).attackerGrants, g.subject = subject ∧ attack ∈ g.attacks) ∧
    (∀ request : Request,
      (∃ P, request.answer (after requests) = .ok P ∧
        request.perform.outcome (after requests) = (.ok (), P)) ∨
      ∃ d, request.answer (after requests) = .error d ∧
        request.perform.outcome (after requests) = (.error d, after requests)) ∧
    ∀ requests', ((after requests').grants.Perm (after requests).grants →
        (after requests').allows = (after requests).allows) ∧
      ((after requests').attackerGrants.Perm (after requests).attackerGrants →
        (after requests').allowsAttack = (after requests).allowsAttack) := by
  obtain ⟨grants, attackerGrants, exact⟩ := exact_after requests
  refine ⟨grants, attackerGrants, exact.rights, exact.attackerRights,
    fun request => request.serves _, fun requests' => ?_⟩
  obtain ⟨-, -, exact'⟩ := exact_after requests'
  exact ⟨exact.allows_of_perm exact', exact.allowsAttack_of_perm exact'⟩

end ThreatModel.Policy
