import ThreatModel.Diagnostic.Basic

set_option autoImplicit false

namespace ThreatModel

inductive Unsupported where
  | form (name : String)
  | freeIndex (name : String)
  | freeVariable (name : String)
  | quantifier (word : String)
  deriving DecidableEq, Repr

def Unsupported.message : Unsupported → String
  | .form name => s!"Unsupported trace formula: {name}"
  | .freeIndex name => s!"Trace index '{name}' is free."
  | .freeVariable name => s!"Variable '{name}' is free."
  | .quantifier word => s!"Unknown quantifier kind '{word}'"

inductive Fault where
  | flaw (d : Diagnostic)
  | rejected (ds : List Diagnostic)
  | emptyTuple
  | outOfRange
  | theoryClosed
  | openFact (store : String) (fact : Term)
  | unresolved (term value : Term)
  | missing (name : String)
  | unsupported (reason : Unsupported)
  | tooDeep
  | tooLong
  deriving DecidableEq, Repr

def Fault.message : Fault → String
  | .flaw d => d.render
  | .rejected ds => Diagnostic.summary ds
  | .emptyTuple | .outOfRange => "list index out of range"
  | .theoryClosed =>
      "Theory is closed; declarations are only allowed during the declaration phase."
  | .openFact store fact => s!"Only ground facts can be stored in '{store}', got {fact.text}."
  | .unresolved term value => s!"Term {term.text} is not ground at runtime: {value.text}"
  | .missing name => name
  | .unsupported reason => reason.message
  | .tooDeep => "calls are nested deeper than there are definitions"
  | .tooLong => "the run is longer than its bound"

abbrev Result := Except Fault

def Result.ofFlaw {α : Type} : Except Diagnostic α → Result α
  | .ok a => .ok a
  | .error d => .error (.flaw d)

instance : MonadLift (Except Diagnostic) Result := ⟨Result.ofFlaw⟩

@[simp] theorem Result.ofFlaw_eq_ok_iff {α : Type} (r : Except Diagnostic α) (a : α) :
    Result.ofFlaw r = .ok a ↔ r = .ok a := by
  cases r <;> simp [Result.ofFlaw]

end ThreatModel
