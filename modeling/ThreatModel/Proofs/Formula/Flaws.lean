import Mathlib
import ThreatModel.Formula.OfLemma
import ThreatModel.Proofs.Declarations.Diagnosed

set_option autoImplicit false

namespace ThreatModel.Lexicon

open Result

variable (L : Lexicon)

theorem reads_term (bound : List String) : Expr.Reads (L.term bound) (L.terms bound) where
  nil := rfl
  cons _ _ := rfl
  tuple _ := rfl
  str _ := .ok _
  ident x location := by
    unfold term
    refine .ite (fun _ => .ite (fun _ => .flaw _) fun _ => .ok _) fun _ => ?_
    split
    next => exact .ok _
    next => exact .flaw _
  apply _ _ _ inner := .bind inner fun _ _ => .bind (.lift _) fun _ _ => .pure _
  unsupported _ := .flaw _

theorem diagnosed_event (bound : List String) {e : EventExpr} (filled : Part.Filled e.parts) :
    (L.event bound e).Diagnosed := by
  refine .ite (fun _ => .flaw _) fun _ => .ite (fun _ => .flaw _) fun _ => ?_
  refine .bind ((L.reads_term bound).diagnosed_all e.args (filled.mono ?_)) fun _ _ => .pure _
  intro part member
  simp [EventExpr.parts, member]

theorem diagnosed_events (bound : List String) {es : List EventExpr}
    (filled : ∀ e ∈ es, Part.Filled e.parts) : (L.events bound es).Diagnosed := by
  induction es with
  | nil => exact .ok []
  | cons e es ih =>
    refine .bind (L.diagnosed_event bound (filled e (by simp))) fun t _ => ?_
    exact .bind (ih fun e member => filled e (by simp [member])) fun ts _ => .pure _

theorem diagnosed_requireIndex (bound : List String) (i : String) :
    (requireIndex bound i).Diagnosed :=
  .ite (fun _ => .flaw _) fun _ => .ite (fun _ => .ok _) fun _ => .flaw _

mutual

theorem diagnosed_formula : ∀ (a : Assertion) (bound : List String), Part.Filled a.parts →
    (L.formula a bound).Diagnosed
  | .event e i, bound, filled => by
    refine .bind (diagnosed_requireIndex bound i) fun _ _ => ?_
    refine .bind (L.diagnosed_event bound (filled.mono fun part member => ?_)) fun _ _ => .pure _
    simp [Assertion.parts, member]
  | .before i j, bound, _ =>
    .bind (diagnosed_requireIndex bound i) fun _ _ =>
      .bind (diagnosed_requireIndex bound j) fun _ _ => .pure _
  | .equal l r, bound, filled => by
    refine .bind ((L.reads_term bound).diagnosed l (filled.mono fun part member => ?_))
      fun _ _ => .bind ((L.reads_term bound).diagnosed r (filled.mono fun part member => ?_))
        fun _ _ => .pure _
    all_goals simp [Assertion.parts, member]
  | .not a, bound, filled => by
    refine .bind (diagnosed_formula a bound (filled.mono fun part member => ?_))
      fun _ _ => .pure _
    simp [Assertion.parts, member]
  | .and [], _, _ => .ok _
  | .and (a :: as), bound, filled => by
    refine .bind (diagnosed_formulas (a :: as) bound (filled.mono fun part member => ?_))
      fun _ _ => .pure _
    simp [Assertion.parts, member]
  | .or [], _, _ => .ok _
  | .or (a :: as), bound, filled => by
    refine .bind (diagnosed_formulas (a :: as) bound (filled.mono fun part member => ?_))
      fun _ _ => .pure _
    simp [Assertion.parts, member]
  | .implies p c, bound, filled => by
    refine .bind (diagnosed_formula p bound (filled.mono fun part member => ?_)) fun _ _ =>
      .bind (diagnosed_formula c bound (filled.mono fun part member => ?_)) fun _ _ => .pure _
    all_goals simp [Assertion.parts, member]
  | .all xs a, bound, filled => by
    refine .bind (diagnosed_formula a (xs ++ bound) (filled.mono fun part member => ?_))
      fun _ _ => .pure _
    simp [Assertion.parts, member]
  | .some xs a, bound, filled => by
    refine .bind (diagnosed_formula a (xs ++ bound) (filled.mono fun part member => ?_))
      fun _ _ => .pure _
    simp [Assertion.parts, member]
  | .unsupported _, _, _ => .flaw _

theorem diagnosed_formulas : ∀ (as : List Assertion) (bound : List String),
    Part.Filled (Assertion.partsAll as) → (L.formulas as bound).Diagnosed
  | [], _, _ => .ok []
  | a :: as, bound, filled => by
    refine .bind (diagnosed_formula a bound (filled.mono fun part member => ?_)) fun _ _ =>
      .bind (diagnosed_formulas as bound (filled.mono fun part member => ?_)) fun _ _ => .pure _
    all_goals simp [Assertion.partsAll, member]

end

theorem diagnosed_statement {l : LemmaDecl} (filled : Part.Filled l.parts) :
    (L.statement l).Diagnosed := by
  have stated (a : Assertion) (given : l.formula = some a) : Part.Filled a.parts :=
    filled.mono fun part member => by simp [LemmaDecl.parts, given, member]
  have named (e : EventExpr) (given : e ∈ l.events ++ l.premise.toList ++ l.conclusion.toList) :
      Part.Filled e.parts := by
    refine filled.mono fun part member => List.mem_append_right _ ?_
    exact List.mem_flatMap.mpr ⟨e, given, member⟩
  unfold statement
  split
  case h_1 | h_2 =>
    split
    next => exact .flaw _
    next a given => exact .bind (L.diagnosed_formula a [] (stated a given)) fun _ _ => .pure _
  case h_3 =>
    refine .ite (fun _ => .flaw _) fun _ => .bind (.bind ?_ fun _ _ => .pure _) fun _ _ => .pure _
    exact L.diagnosed_events _ fun e member => named e (by simp [member])
  case h_4 =>
    split
    next premise conclusion given found =>
      have first := L.diagnosed_event (L.implicitOf [] [premise]) (named premise (by simp [given]))
      refine .bind (.bind first fun _ _ => .bind ?_ fun _ _ => .pure _) fun _ _ => .pure _
      exact L.diagnosed_event _ (named conclusion (by simp [found]))
    next => exact .flaw _

theorem diagnosed_translate {l : LemmaDecl} (filled : Part.Filled l.parts) :
    (L.translate l).Diagnosed := by
  unfold translate
  split
  next => exact .ok _
  next => exact .flaw _
  next fault other failed =>
    obtain ⟨d, rfl⟩ := L.diagnosed_statement filled fault failed
    exact absurd rfl (other d)

end ThreatModel.Lexicon
