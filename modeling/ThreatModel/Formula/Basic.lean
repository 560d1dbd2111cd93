import ThreatModel.Model.Kind
import ThreatModel.Term.Basic

set_option autoImplicit false

namespace ThreatModel

def isIndex (name : String) : Bool := name.toList.head? == some '#'

inductive Quantifier where
  | all
  | some
  | unknown (word : String)
  deriving DecidableEq, Repr

def Quantifier.word : Quantifier → String
  | .all => "forall"
  | .some => "exists"
  | .unknown word => word

def Quantifier.mark : Quantifier → String
  | .all => "All"
  | _ => "Ex"

inductive Formula where
  | eventAt (event : Term) (index : String)
  | precedes (earlier later : String)
  | equal (left right : Term)
  | truth
  | not (operand : Formula)
  | and (operands : List Formula)
  | or (operands : List Formula)
  | implies (premise conclusion : Formula)
  | quant (quantifier : Quantifier) (names : List String) (body : Formula)
  | unsupported
  deriving Repr, Inhabited

namespace Formula

def unsupportedForm : String := "Formula"

mutual

def text : Formula → String
  | .eventAt e i => s!"{e.text} @ {i}"
  | .precedes i j => s!"{i} < {j}"
  | .equal l r => s!"{l.text} = {r.text}"
  | .truth => "T"
  | .not f => "not(" ++ text f ++ ")"
  | .and fs => "(" ++ " & ".intercalate (texts fs) ++ ")"
  | .or fs => "(" ++ " | ".intercalate (texts fs) ++ ")"
  | .implies p c => "(" ++ text p ++ " ==> " ++ text c ++ ")"
  | .quant q xs f => q.mark ++ " " ++ " ".intercalate xs ++ ". " ++ text f
  | .unsupported => unsupportedForm

def texts : List Formula → List String
  | [] => []
  | f :: fs => text f :: texts fs

end

mutual

def terms : Formula → List Term
  | .eventAt e _ => [e]
  | .equal l r => [l, r]
  | .not f => terms f
  | .and fs | .or fs => termsAll fs
  | .implies p c => terms p ++ terms c
  | .quant _ _ f => terms f
  | .precedes .. | .truth | .unsupported => []

def termsAll : List Formula → List Term
  | [] => []
  | f :: fs => terms f ++ termsAll fs

end

mutual

/-- The orderings that a formula asks for outright: under conjunctions and quantifiers and in
conclusions, whatever binds their names. -/
def orderings : Formula → List (String × String)
  | .precedes i j => [(i, j)]
  | .and fs => orderingsAll fs
  | .quant _ _ f => orderings f
  | .implies _ c => orderings c
  | .eventAt .. | .equal .. | .truth | .not _ | .or _ | .unsupported => []

def orderingsAll : List Formula → List (String × String)
  | [] => []
  | f :: fs => orderings f ++ orderingsAll fs

end

end Formula

structure Lemma where
  name : String
  kind : LemmaKind
  sourceKind : LemmaKind
  formula : Formula
  loc : Option Location := none
  deriving Repr

def Lemma.text (l : Lemma) : String := s!"lemma {l.name}: {l.kind.word} {l.formula.text}"

end ThreatModel
