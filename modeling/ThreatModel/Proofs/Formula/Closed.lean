import Mathlib
import ThreatModel.Proofs.Formula.Lexicon

set_option autoImplicit false

namespace ThreatModel

open Result

def IndexIn (bound : List String) (i : String) : Prop := isIndex i = true ∧ i ∈ bound

def Term.Within (t : Term) (bound : List String) : Prop :=
  ∀ x ∈ t.vars, x ∈ bound ∧ isIndex x = false

inductive Formula.Closed (V : Vocabulary) : List String → Formula → Prop
  | eventAt {bound : List String} {tag i : String} {args : List Term} (index : IndexIn bound i)
      (within : (Term.app tag args).Within bound) (emitted : (tag, args.length) ∈ V) :
      Closed V bound (.eventAt (.app tag args) i)
  | precedes {bound : List String} {i j : String} (first : IndexIn bound i)
      (second : IndexIn bound j) : Closed V bound (.precedes i j)
  | equal {bound : List String} {l r : Term} (left : l.Within bound) (right : r.Within bound) :
      Closed V bound (.equal l r)
  | truth {bound : List String} : Closed V bound .truth
  | not {bound : List String} {f : Formula} (operand : Closed V bound f) : Closed V bound (.not f)
  | and {bound : List String} {fs : List Formula} (each : ∀ f ∈ fs, Closed V bound f) :
      Closed V bound (.and fs)
  | or {bound : List String} {fs : List Formula} (each : ∀ f ∈ fs, Closed V bound f) :
      Closed V bound (.or fs)
  | implies {bound : List String} {p c : Formula} (premise : Closed V bound p)
      (conclusion : Closed V bound c) : Closed V bound (.implies p c)
  | all {bound xs : List String} {f : Formula} (body : Closed V (xs ++ bound) f) :
      Closed V bound (.quant .all xs f)
  | some {bound xs : List String} {f : Formula} (body : Closed V (xs ++ bound) f) :
      Closed V bound (.quant .some xs f)

theorem Vocabulary.mem_arities {V : Vocabulary} {tag : String} {n : Nat} :
    n ∈ V.arities tag ↔ (tag, n) ∈ V := by
  simp only [arities, Sorted.mem_ofList, List.mem_map, List.mem_filter, beq_iff_eq]
  constructor
  · rintro ⟨⟨tag', n'⟩, ⟨member, rfl⟩, rfl⟩
    exact member
  · exact fun member => ⟨_, ⟨member, rfl⟩, rfl⟩

namespace Lexicon

variable {L : Lexicon} {bound : List String}

theorem length_of_terms {es : List Expr} {ts : List Term} (made : L.terms bound es = .ok ts) :
    ts.length = es.length := by
  induction es generalizing ts with
  | nil =>
    obtain rfl : [] = ts := by simpa [terms] using made
    rfl
  | cons e es ih =>
    simp only [terms, bind_eq_ok_iff, pure_eq_ok_iff] at made
    obtain ⟨t, -, ts', tail, rfl⟩ := made
    simp [ih tail]

theorem mem_vocabulary_of_event {e : EventExpr} {t : Term} (made : L.event bound e = .ok t) :
    (e.tag, e.args.length) ∈ L.vocabulary := by
  have stop (cause : Cause) : (flaw cause : Result Unit) = throw (.flaw { cause }) := rfl
  simp only [event, stop, throw_bind, ite_throw_eq_ok_iff] at made
  exact Vocabulary.mem_arities.mp (not_not.mp made.2.1)

theorem closed_of_event {e : EventExpr} {t : Term} {i : String} {wider : List String}
    (made : L.event bound e = .ok t) (index : IndexIn wider i) (kept : ∀ x ∈ bound, x ∈ wider) :
    (Formula.eventAt t i).Closed L.vocabulary wider := by
  have within := vars_of_event made
  have emitted := mem_vocabulary_of_event made
  obtain ⟨ts, inner, rfl⟩ := event_eq_ok made
  rw [← length_of_terms inner] at emitted
  exact .eventAt index (fun x occurs => ⟨kept x (within x occurs).1, (within x occurs).2⟩) emitted

theorem indexIn_of_requireIndex {i : String} (checked : requireIndex bound i = .ok ()) :
    IndexIn bound i := by
  simp only [requireIndex] at checked
  split at checked
  next => simp [flaw] at checked
  next index =>
    split at checked
    next member => exact ⟨by simpa using index, member⟩
    next => simp [flaw] at checked

mutual

theorem closed_of_formula : ∀ {a : Assertion} {bound : List String} {f : Formula},
    L.formula a bound = .ok f → f.Closed L.vocabulary bound
  | .event e i, bound, f, made => by
    simp only [formula, bind_eq_ok_iff, pure_eq_ok_iff] at made
    obtain ⟨⟨⟩, checked, t, read, rfl⟩ := made
    exact closed_of_event read (indexIn_of_requireIndex checked) fun _ member => member
  | .before i j, bound, f, made => by
    simp only [formula, bind_eq_ok_iff, pure_eq_ok_iff] at made
    obtain ⟨⟨⟩, first, ⟨⟩, second, rfl⟩ := made
    exact .precedes (indexIn_of_requireIndex first) (indexIn_of_requireIndex second)
  | .equal l r, bound, f, made => by
    simp only [formula, bind_eq_ok_iff, pure_eq_ok_iff] at made
    obtain ⟨left, readLeft, right, readRight, rfl⟩ := made
    exact .equal (vars_of_term readLeft) (vars_of_term readRight)
  | .not a, bound, f, made => by
    simp only [formula, bind_eq_ok_iff, pure_eq_ok_iff] at made
    obtain ⟨g, inner, rfl⟩ := made
    exact .not (closed_of_formula inner)
  | .and [], bound, f, made => by
    obtain rfl : Formula.truth = f := by simpa [formula] using made
    exact .truth
  | .and (a :: as), bound, f, made => by
    simp only [formula, bind_eq_ok_iff, pure_eq_ok_iff] at made
    obtain ⟨gs, inner, rfl⟩ := made
    exact .and (closed_of_formulas inner)
  | .or [], bound, f, made => by
    obtain rfl : Formula.not .truth = f := by simpa [formula] using made
    exact .not .truth
  | .or (a :: as), bound, f, made => by
    simp only [formula, bind_eq_ok_iff, pure_eq_ok_iff] at made
    obtain ⟨gs, inner, rfl⟩ := made
    exact .or (closed_of_formulas inner)
  | .implies p c, bound, f, made => by
    simp only [formula, bind_eq_ok_iff, pure_eq_ok_iff] at made
    obtain ⟨premise, first, conclusion, second, rfl⟩ := made
    exact .implies (closed_of_formula first) (closed_of_formula second)
  | .all xs a, bound, f, made => by
    simp only [formula, bind_eq_ok_iff, pure_eq_ok_iff] at made
    obtain ⟨g, inner, rfl⟩ := made
    exact .all (closed_of_formula inner)
  | .some xs a, bound, f, made => by
    simp only [formula, bind_eq_ok_iff, pure_eq_ok_iff] at made
    obtain ⟨g, inner, rfl⟩ := made
    exact .some (closed_of_formula inner)
  | .unsupported loc, bound, f, made => by simp [formula] at made

theorem closed_of_formulas : ∀ {as : List Assertion} {bound : List String} {fs : List Formula},
    L.formulas as bound = .ok fs → ∀ f ∈ fs, f.Closed L.vocabulary bound
  | [], bound, fs, made => by
    obtain rfl : [] = fs := by simpa [formulas] using made
    simp
  | a :: as, bound, fs, made => by
    simp only [formulas, bind_eq_ok_iff, pure_eq_ok_iff] at made
    obtain ⟨f, head, fs', tail, rfl⟩ := made
    exact List.forall_mem_cons.mpr ⟨closed_of_formula head, closed_of_formulas tail⟩

end

theorem closed_of_correspondence {premise conclusion : EventExpr} {f : Formula}
    (made : L.correspondence premise conclusion = .ok f) : f.Closed L.vocabulary [] := by
  simp only [correspondence, bind_eq_ok_iff, pure_eq_ok_iff] at made
  obtain ⟨given, read, found, read', rfl⟩ := made
  refine .all (.implies (closed_of_event read ⟨by decide, by simp⟩ ?_)
    (.some (.and (List.forall_mem_cons.mpr ⟨closed_of_event read' ⟨by decide, by simp⟩ ?_, ?_⟩))))
  · exact fun x member => by simp [member]
  · intro x member
    rcases List.mem_append.mp member with inner | outer
    · simp [inner]
    · simp [outer]
  · rw [List.forall_mem_singleton]
    exact .precedes ⟨by decide, by simp⟩ ⟨by decide, by simp⟩

end Lexicon

end ThreatModel
