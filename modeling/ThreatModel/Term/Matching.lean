import ThreatModel.Term.Basic

set_option autoImplicit false

namespace ThreatModel.Term

mutual

def extend? : Term → Term → Subst → Option Subst
  | .var x, t, σ =>
      match σ.find? x with
      | none => some (σ.insert x t)
      | some u => if u = t then some σ else none
  | .app f ps, .app g ts, σ => if f = g then extendAll? ps ts σ else none
  | .app _ _, _, _ => none
  | p, t, σ => if p = t then some σ else none

def extendAll? : List Term → List Term → Subst → Option Subst
  | [], [], σ => some σ
  | p :: ps, t :: ts, σ =>
      match extend? p t σ with
      | none => none
      | some σ' => extendAll? ps ts σ'
  | _, _, _ => none

end

def match? (pattern t : Term) (σ : Subst := .empty) : Option Subst := extend? pattern t σ

end ThreatModel.Term
