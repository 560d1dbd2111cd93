import ThreatModel.Declarations.Basic
import ThreatModel.Formula.Basic
import ThreatModel.Sorted

set_option autoImplicit false

namespace ThreatModel

abbrev Vocabulary := List (String × Nat)

namespace Vocabulary

def arities (V : Vocabulary) (tag : String) : List Nat :=
  Sorted.ofList ((V.filter (·.1 == tag)).map (·.2))

end Vocabulary

structure Lexicon where
  theory : Theory
  constants : Table String Bool
  vocabulary : Vocabulary

namespace Lexicon

def flaw {α : Type} (cause : Cause) : Result α := .error (.flaw { cause })

def public? (L : Lexicon) (x : String) : Option Term :=
  Declarations.publicName? L.constants L.theory x

mutual

def term (L : Lexicon) (bound : List String) : Expr → Result Term
  | .str s => .ok (.lit s)
  | .ident x _ =>
      if x ∈ bound then
        if isIndex x then flaw (.indexAsTerm x) else .ok (.var x)
      else
        match L.public? x with
        | some t => .ok t
        | none => flaw (.freeVariable x)
  | .tuple items => do Term.tuple (← terms L bound items)
  | .apply f args _ => do
      let t := Term.app f (← terms L bound args)
      L.theory.checkTerm t none none
      return t
  | .unsupported _ => flaw (.unsupportedLemmaTerm Expr.unsupportedForm)

def terms (L : Lexicon) (bound : List String) : List Expr → Result (List Term)
  | [] => .ok []
  | e :: es => return (← term L bound e) :: (← terms L bound es)

end

def event (L : Lexicon) (bound : List String) (e : EventExpr) : Result Term := do
  let arities := L.vocabulary.arities e.tag
  if arities.isEmpty then flaw (.unknownTag e.tag)
  if e.args.length ∉ arities then flaw (.tagArity e.tag arities e.args.length)
  return .app e.tag (← L.terms bound e.args)

def events (L : Lexicon) (bound : List String) : List EventExpr → Result (List Term)
  | [] => .ok []
  | e :: es => return (← event L bound e) :: (← events L bound es)

def requireIndex (bound : List String) (i : String) : Result Unit :=
  if !isIndex i then flaw (.notAnIndex i)
  else if i ∈ bound then .ok ()
  else flaw (.freeIndex i)

mutual

def formula (L : Lexicon) : Assertion → (bound : List String) → Result Formula
  | .event e i, bound => do
      requireIndex bound i
      return .eventAt (← L.event bound e) i
  | .before i j, bound => do
      requireIndex bound i
      requireIndex bound j
      return .precedes i j
  | .equal l r, bound => return .equal (← L.term bound l) (← L.term bound r)
  | .not a, bound => return .not (← formula L a bound)
  | .and [], _ => .ok .truth
  | .and as, bound => return .and (← formulas L as bound)
  | .or [], _ => .ok (.not .truth)
  | .or as, bound => return .or (← formulas L as bound)
  | .implies p c, bound => do
      let p ← formula L p bound
      let c ← formula L c bound
      return .implies p c
  | .all xs a, bound => return .quant .all xs (← formula L a (xs ++ bound))
  | .some xs a, bound => return .quant .some xs (← formula L a (xs ++ bound))
  | .unsupported location, _ =>
      .error (.flaw { cause := .unsupportedFormula Assertion.unsupportedForm, location })

def formulas (L : Lexicon) : List Assertion → (bound : List String) → Result (List Formula)
  | [], _ => .ok []
  | a :: as, bound => return (← formula L a bound) :: (← formulas L as bound)

end

mutual

def implicit (L : Lexicon) (bound : List String) : Expr → List String → List String
  | .ident x _, names =>
      if x ∈ bound || x ∈ names || (L.public? x).isSome then names else names ++ [x]
  | .apply _ args _, names => implicitAll L bound args names
  | .tuple items, names => implicitAll L bound items names
  | .str _, names | .unsupported _, names => names

def implicitAll (L : Lexicon) (bound : List String) : List Expr → List String → List String
  | [], names => names
  | e :: es, names => implicitAll L bound es (implicit L bound e names)

end

def implicitOf (L : Lexicon) (bound : List String) (events : List EventExpr) : List String :=
  L.implicitAll bound (events.flatMap (·.args)) []

def reachability (L : Lexicon) (events : List EventExpr) : Result Formula := do
  let names := L.implicitOf [] events
  let indices := (List.range events.length).map fun k => s!"#e{k + 1}"
  let terms ← L.events names events
  let atoms := (terms.zip indices).map fun (t, i) => Formula.eventAt t i
  let order := (indices.zip indices.tail).map fun (i, j) => Formula.precedes i j
  let body := match atoms ++ order with
    | [only] => only
    | parts => .and parts
  return .quant .some (names ++ indices) body

def correspondence (L : Lexicon) (premise conclusion : EventExpr) : Result Formula := do
  let outer := L.implicitOf [] [premise]
  let inner := L.implicitOf outer [conclusion]
  let given ← L.event outer premise
  let found ← L.event (inner ++ outer) conclusion
  return .quant .all (outer ++ ["#i"])
    (.implies (.eventAt given "#i")
      (.quant .some (inner ++ ["#j"]) (.and [.eventAt found "#j", .precedes "#j" "#i"])))

def statement (L : Lexicon) (l : LemmaDecl) : Result (Formula × LemmaKind) := do
  match l.kind with
  | .existsTrace | .allTraces =>
      match l.formula with
      | none => flaw (.noFormula l.name)
      | some a => return (← L.formula a [], l.kind)
  | .reachable =>
      if l.events.isEmpty then flaw (.noEvents l.name)
      return (← L.reachability l.events, .existsTrace)
  | .corresponds =>
      match l.premise, l.conclusion with
      | some premise, some conclusion =>
          return (← L.correspondence premise conclusion, .allTraces)
      | _, _ => flaw (.missingEvent l.name)

def translate (L : Lexicon) (l : LemmaDecl) : Result Lemma :=
  match L.statement l with
  | .ok (formula, kind) => .ok { name := l.name, kind, sourceKind := l.kind, formula, loc := l.loc }
  | .error (.flaw d) => .error (.flaw (d.within (some l.name) l.loc none))
  | .error fault => .error fault

end Lexicon

end ThreatModel
