import ThreatModel.Diagnostic.Cause

set_option autoImplicit false

namespace ThreatModel

structure Diagnostic where
  cause : Cause
  declaration : Option String := none
  location : Option Location := none
  position : Option String := none
  deriving DecidableEq, Repr

namespace Diagnostic

def kind (d : Diagnostic) : FlawKind := d.cause.kind

def category (d : Diagnostic) : Category := d.kind.category

def message (d : Diagnostic) : String := d.cause.message

def within (d : Diagnostic) (declaration : Option String) (location : Option Location)
    (position : Option String) : Diagnostic :=
  { d with
    declaration := d.declaration <|> declaration
    location := d.location <|> location
    position := d.position <|> position }

def shown : Option String → Option String
  | some "" => none
  | text => text

def render (d : Diagnostic) : String :=
  (match d.location with
    | some loc => s!"Line {loc.line}, Col {loc.column}: "
    | none => "")
  ++ s!"[{d.kind.word}] {d.message}"
  ++ (match shown d.position with
    | some position => s!" (at {position})"
    | none => "")

def summary (ds : List Diagnostic) : String :=
  s!"{ds.length} compile error(s)"
    ++ String.join (match ds with
      | [] => []
      | _ => [":\n  ", "\n  ".intercalate (ds.map render)])

end Diagnostic

end ThreatModel
