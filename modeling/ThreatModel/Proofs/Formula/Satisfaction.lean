import Mathlib
import ThreatModel.Proofs.Theory.Declared
import ThreatModel.Proofs.Formula.Solver
import ThreatModel.Proofs.Formula.Closed

set_option autoImplicit false

namespace ThreatModel

open Result

theorem Formula.mem_termsAll {t : Term} {fs : List Formula} :
    t ∈ termsAll fs ↔ ∃ f ∈ fs, t ∈ f.terms := by
  induction fs with
  | nil => simp [termsAll]
  | cons f fs ih => simp [termsAll, ih]

theorem Term.Within.normalize {T : Theory} {bound : List String} {t s : Term}
    (within : t.Within bound) (theory : T.Declared) (done : T.normalize t = .ok s) :
    s.Within bound :=
  fun x occurs => within x (theory.vars_normalize done x occurs)

namespace Domain

variable {D : Domain} {T : Theory} {V : Vocabulary} {bound xs : List String} {g : Valuation}
  {f : Formula} {fs : List Formula} {l r s t : Term}

def Ranges (D : Domain) (xs : List String) (g : Valuation) : Prop := ∀ x ∈ xs, g x < D.bound x

mutual

def Satisfies (D : Domain) (T : Theory) : Formula → Valuation → Prop
  | .eventAt e i, g => ∃ t, T.normalize e = .ok t ∧ D.events[g i]? = some (t.under (D.member g))
  | .precedes i j, g => g i < g j
  | .equal l r, g => ∃ s t, T.normalize l = .ok s ∧ T.normalize r = .ok t ∧
      s.under (D.member g) = t.under (D.member g) ∧ s.under (D.member g) ∈ D.members
  | .truth, _ => True
  | .not f, g => ¬ Satisfies D T f g
  | .and fs, g => SatisfiesAll D T fs g
  | .or fs, g => SatisfiesOne D T fs g
  | .implies p c, g => Satisfies D T p g → Satisfies D T c g
  | .quant .all xs f, g => ∀ h, D.Ranges xs h → (∀ x ∉ xs, h x = g x) → Satisfies D T f h
  | .quant .some xs f, g => ∃ h, D.Ranges xs h ∧ (∀ x ∉ xs, h x = g x) ∧ Satisfies D T f h
  | .quant (.unknown _) _ _, _ | .unsupported, _ => False

def SatisfiesAll (D : Domain) (T : Theory) : List Formula → Valuation → Prop
  | [], _ => True
  | f :: fs, g => Satisfies D T f g ∧ SatisfiesAll D T fs g

def SatisfiesOne (D : Domain) (T : Theory) : List Formula → Valuation → Prop
  | [], _ => False
  | f :: fs, g => Satisfies D T f g ∨ SatisfiesOne D T fs g

end

theorem satisfiesAll_iff : D.SatisfiesAll T fs g ↔ ∀ f ∈ fs, D.Satisfies T f g := by
  induction fs with
  | nil => simp [SatisfiesAll]
  | cons f fs ih => simp [SatisfiesAll, ih]

theorem Ranges.below (ranges : D.Ranges bound g) (within : t.Within bound) :
    ∀ x ∈ t.vars, g x < D.members.length := by
  intro x occurs
  obtain ⟨member, plain⟩ := within x occurs
  have below := ranges x member
  rwa [Domain.bound, plain] at below

theorem Ranges.append {h : Valuation} (outside : D.Ranges bound g) (inside : D.Ranges xs h)
    (kept : ∀ x ∉ xs, h x = g x) : D.Ranges (xs ++ bound) h := by
  intro x member
  by_cases here : x ∈ xs
  · exact inside x here
  · rw [kept x here]
    exact outside x ((List.mem_append.mp member).resolve_left here)

section Equality

theorem Sound.equalOptions_iff (sound : D.Sound) (left : ∀ x ∈ l.vars, g x < D.members.length)
    (right : ∀ x ∈ r.vars, g x < D.members.length) {values : List Term}
    (inside : ∀ v ∈ values, v ∈ D.members) {options : List (List (String × Nat))}
    (done : D.equalOptions bound l r values = .ok options) :
    Constraint.Meets options g ↔
      ∃ v ∈ values, l.under (D.member g) = v ∧ r.under (D.member g) = v := by
  induction values generalizing options with
  | nil =>
    obtain rfl : [] = options := by simpa [equalOptions] using done
    simp [Constraint.Meets]
  | cons v rest ih =>
    simp only [equalOptions, bind_eq_ok_iff] at done
    obtain ⟨first, denoted, second, denoted', done⟩ := done
    have here := sound.denotes_iff (inside v (by simp)) left denoted
    have there := sound.denotes_iff (inside v (by simp)) right denoted'
    have others := fun u member => inside u (List.mem_cons_of_mem v member)
    rw [List.exists_mem_cons_iff, ← here, ← there]
    -- Both sides must denote the value for it to be an option.
    cases first with
    | none => simpa using ih others done
    | some pins =>
      cases second with
      | none => simpa using ih others done
      | some pins' =>
        simp only [bind_eq_ok_iff, pure_eq_ok_iff] at done
        obtain ⟨later, rest', rfl⟩ := done
        rw [← ih others rest']
        simp only [Constraint.Meets, List.exists_mem_cons_iff, List.forall_mem_append,
          Option.mem_some, exists_eq_left']

theorem exists_equalOptions (left : ∀ x ∈ l.vars, x ∈ bound) (right : ∀ x ∈ r.vars, x ∈ bound)
    (values : List Term) : ∃ options, D.equalOptions bound l r values = .ok options := by
  induction values with
  | nil => exact ⟨[], rfl⟩
  | cons v rest ih =>
    obtain ⟨first, denoted⟩ := exists_denotes (D := D) left v
    obtain ⟨second, denoted'⟩ := exists_denotes (D := D) right v
    obtain ⟨options, later⟩ := ih
    cases first with
    | none => exact ⟨options, by simp [equalOptions, denoted, denoted', later]⟩
    | some pins =>
      cases second with
      | none => exact ⟨options, by simp [equalOptions, denoted, denoted', later]⟩
      | some pins' =>
        exact ⟨(pins ++ pins') :: options, by simp [equalOptions, denoted, denoted', later]⟩

theorem Sound.member_inj (sound : D.Sound) {x y : String} (first : g x < D.members.length)
    (second : g y < D.members.length) : D.member g x = D.member g y ↔ g x = g y := by
  rw [← Option.some_inj, ← getElem?_members first, ← getElem?_members second,
    List.getElem?_eq_getElem first, List.getElem?_eq_getElem second, Option.some_inj]
  exact sound.distinct.getElem_inj_iff

theorem exists_constrain_equal (left : T.normalize l = .ok s) (right : T.normalize r = .ok t)
    (first : ∀ x ∈ s.vars, x ∈ bound) (second : ∀ x ∈ t.vars, x ∈ bound) :
    ∃ c, D.constrain T (.equal l r) bound = .ok c ∧
      (s.vars = [] ∧ t.vars = [] ∧ c = .const (s = t) ∨
        (∃ x y, s = .var x ∧ t = .var y ∧ c = .same x y) ∨
        ∃ options, D.equalOptions bound s t D.members = .ok options ∧ c = .oneOf options) := by
  have lifted (u : Term) : (liftM (.ok u : Except Diagnostic Term) : Result Term) = .ok u := rfl
  simp only [constrain, equality, left, right, lifted, ok_bind]
  by_cases ground : s.isGround && t.isGround
  · rw [if_pos ground]
    simp only [Bool.and_eq_true, Term.isGround_iff] at ground
    exact ⟨_, rfl, .inl ⟨ground.1, ground.2, rfl⟩⟩
  · rw [if_neg ground]
    clear lifted
    split
    next x y =>
      have known := first x (by simp)
      have known' := second y (by simp)
      exact ⟨.same x y, by simp [requireVariable, known, known'], .inr (.inl ⟨x, y, rfl, rfl, rfl⟩)⟩
    next =>
      obtain ⟨options, done⟩ := exists_equalOptions (D := D) first second D.members
      exact ⟨.oneOf options, by simp [done], .inr (.inr ⟨options, done, rfl⟩)⟩

theorem Sound.exists_equality (sound : D.Sound) (left : T.normalize l = .ok s)
    (right : T.normalize r = .ok t) (first : s.Within bound) (second : t.Within bound)
    (covered : s.vars = [] → s ∈ D.members) :
    ∃ c, D.constrain T (.equal l r) bound = .ok c ∧ ∀ g, D.Ranges bound g →
      (c.Holds g ↔ s.under (D.member g) = t.under (D.member g) ∧
        s.under (D.member g) ∈ D.members) := by
  obtain ⟨c, done, put⟩ := exists_constrain_equal (D := D) left right
    (fun x occurs => (first x occurs).1) (fun x occurs => (second x occurs).1)
  refine ⟨c, done, fun g ranges => ?_⟩
  rcases put with ⟨ground, ground', rfl⟩ | ⟨x, y, rfl, rfl, rfl⟩ | ⟨options, found, rfl⟩
  · simp [Constraint.Holds, Term.under_of_ground, ground, ground', covered ground]
  · have below := ranges.below first x (by simp)
    have below' := ranges.below second y (by simp)
    have inside := List.mem_of_getElem? (getElem?_members below)
    simp [Constraint.Holds, sound.member_inj below below', inside]
  · rw [Constraint.Holds, sound.equalOptions_iff (ranges.below first) (ranges.below second)
      (fun _ member => member) found]
    constructor
    · rintro ⟨v, member, here, there⟩
      exact ⟨here.trans there.symm, here ▸ member⟩
    · rintro ⟨same, member⟩
      exact ⟨_, member, rfl, same.symm⟩

end Equality

def Covers (D : Domain) (T : Theory) (f : Formula) : Prop :=
  ∀ t ∈ f.terms, ∃ s, T.normalize t = .ok s ∧ (s.vars = [] → s ∈ D.members)

theorem covers_of_create {trace : List Term} (done : create T trace f = .ok D) : D.Covers T f := by
  simp only [create, bind_eq_ok_iff, pure_eq_ok_iff] at done
  obtain ⟨events, -, mentioned, normal, rfl⟩ := done
  intro t member
  obtain ⟨s, among, normalized⟩ := exists_of_mapM_eq_ok normal member
  refine ⟨s, normalized, fun ground => ?_⟩
  simp only [List.mem_eraseDups, List.mem_append, List.mem_flatMap, List.mem_filter,
    Term.isGround_iff]
  exact .inr ⟨⟨s, among, s.subterms_self⟩, ground⟩

theorem Covers.of_mem {g : Formula} (covers : D.Covers T f) (part : g.terms ⊆ f.terms) :
    D.Covers T g := fun t member => covers t (part member)

/-- A constraint says the same as the formula, of values that the bound names can have. -/
def Expresses (D : Domain) (T : Theory) (bound : List String) (c : Constraint) (f : Formula) :
    Prop :=
  ∀ g, D.Ranges bound g → (c.Holds g ↔ D.Satisfies T f g)

theorem exists_constrainAll
    (each : ∀ f ∈ fs, ∃ c, D.constrain T f bound = .ok c ∧ D.Expresses T bound c f) :
    ∃ cs, D.constrainAll T fs bound = .ok cs ∧ ∀ g, D.Ranges bound g →
      (Constraint.AllHold cs g ↔ D.SatisfiesAll T fs g) ∧
      (Constraint.OneHolds cs g ↔ D.SatisfiesOne T fs g) := by
  induction fs with
  | nil => exact ⟨[], rfl, fun g _ => by simp [Constraint.AllHold, Constraint.OneHolds,
      SatisfiesAll, SatisfiesOne]⟩
  | cons f fs ih =>
    obtain ⟨c, here, means⟩ := each f (by simp)
    obtain ⟨cs, there, mean⟩ := ih fun f member => each f (by simp [member])
    refine ⟨c :: cs, by simp [constrainAll, here, there], fun g ranges => ?_⟩
    simp only [Constraint.AllHold, Constraint.OneHolds, SatisfiesAll, SatisfiesOne,
      means g ranges, mean g ranges, and_self]

theorem exists_quant {q : Quantifier} (fixed : q = .all ∨ q = .some)
    (body : ∃ c, D.constrain T f (xs ++ bound) = .ok c ∧ D.Expresses T (xs ++ bound) c f) :
    ∃ c, D.constrain T (.quant q xs f) bound = .ok c ∧ D.Expresses T bound c (.quant q xs f) := by
  obtain ⟨c, done, means⟩ := body
  by_cases none : xs = []
  · -- A quantifier that binds nothing leaves its body as it is.
    subst none
    have same (g h : Valuation) : (∀ x ∉ ([] : List String), h x = g x) ↔ h = g := by
      simp [funext_iff]
    have free (h : Valuation) : D.Ranges [] h := by simp [Ranges]
    refine ⟨c, ?_, fun g ranges => ?_⟩
    · simpa [constrain] using done
    · have holds := means g ranges
      rcases fixed with rfl | rfl
      · simp only [holds, Satisfies, same, free, forall_const, forall_eq]
      · simp only [holds, Satisfies, same, free, true_and, exists_eq_left]
  · rcases fixed with rfl | rfl
    · refine ⟨.all (xs.map fun x => (x, D.bound x)) c, ?_, fun g ranges => ?_⟩
      · rw [constrain_all f none, done]
        rfl
      · simp only [Constraint.Holds, Satisfies, varies_iff, and_imp]
        exact forall₃_congr fun h inside kept => means h (ranges.append inside kept)
    · refine ⟨.some (xs.map fun x => (x, D.bound x)) c, ?_, fun g ranges => ?_⟩
      · rw [constrain_some f none, done]
        rfl
      · simp only [Constraint.Holds, Satisfies, varies_iff, and_assoc]
        exact exists_congr fun h => and_congr_right fun inside => and_congr_right fun kept =>
          means h (ranges.append inside kept)

theorem Sound.exists_constraint (sound : D.Sound) (theory : T.Declared) (closed : f.Closed V bound)
    (covers : D.Covers T f) :
    ∃ c, D.constrain T f bound = .ok c ∧ D.Expresses T bound c f := by
  induction closed with
  | @eventAt bound tag i args index within _ =>
    obtain ⟨t, normal, -⟩ := covers (.app tag args) (by simp [Formula.terms])
    have inner := within.normalize theory normal
    obtain ⟨options, done, means⟩ :=
      sound.exists_event normal (fun x occurs => (inner x occurs).1) index.2
    refine ⟨.oneOf options, done, fun g ranges => ?_⟩
    simp only [Constraint.Holds, means g (ranges.below inner), Satisfies, normal,
      Except.ok.injEq, exists_eq_left']
  | @precedes bound i j first second =>
    refine ⟨.less i j, by simp [constrain, requireIndex, first.2, second.2], fun g _ => ?_⟩
    simp [Constraint.Holds, Satisfies]
  | @equal bound l r left right =>
    obtain ⟨s, normal, covered⟩ := covers l (by simp [Formula.terms])
    obtain ⟨t, normal', -⟩ := covers r (by simp [Formula.terms])
    obtain ⟨c, done, means⟩ := sound.exists_equality normal normal'
      (left.normalize theory normal) (right.normalize theory normal') covered
    refine ⟨c, done, fun g ranges => ?_⟩
    simp only [means g ranges, Satisfies, normal, normal', Except.ok.injEq, exists_and_left,
      exists_eq_left']
  | truth => exact ⟨.const true, rfl, fun g _ => by simp [Constraint.Holds, Satisfies]⟩
  | not _ ih =>
    obtain ⟨c, done, means⟩ := ih covers
    refine ⟨.not c, by simp [constrain, done], fun g ranges => ?_⟩
    simp [Constraint.Holds, Satisfies, means g ranges]
  | and _ ih =>
    obtain ⟨cs, done, means⟩ := exists_constrainAll fun f member => ih f member
      (covers.of_mem fun t inside => Formula.mem_termsAll.mpr ⟨f, member, inside⟩)
    refine ⟨.and cs, by simp [constrain, done], fun g ranges => ?_⟩
    simp [Constraint.Holds, Satisfies, means g ranges]
  | or _ ih =>
    obtain ⟨cs, done, means⟩ := exists_constrainAll fun f member => ih f member
      (covers.of_mem fun t inside => Formula.mem_termsAll.mpr ⟨f, member, inside⟩)
    refine ⟨.or cs, by simp [constrain, done], fun g ranges => ?_⟩
    simp [Constraint.Holds, Satisfies, means g ranges]
  | implies _ _ ih ih' =>
    obtain ⟨p, premise, means⟩ := ih (covers.of_mem (by simp [Formula.terms]))
    obtain ⟨c, conclusion, means'⟩ := ih' (covers.of_mem (by simp [Formula.terms]))
    refine ⟨.implies p c, by simp [constrain, premise, conclusion], fun g ranges => ?_⟩
    simp [Constraint.Holds, Satisfies, means g ranges, means' g ranges]
  | all _ ih => exact exists_quant (.inl rfl) (ih covers)
  | some _ ih => exact exists_quant (.inr rfl) (ih covers)

end Domain

namespace Formula.Closed

variable {T : Theory} {V : Vocabulary} {f : Formula} {trace : List Term} {verdict : Bool}

theorem exists_check {D : Domain} (closed : f.Closed V []) (theory : T.Declared)
    (created : Domain.create T trace f = .ok D) :
    ∃ verdict, f.check T trace = .ok verdict ∧ (verdict = true ↔ D.Satisfies T f fun _ => 0) := by
  obtain ⟨c, done, means⟩ := (Domain.sound_of_create created).exists_constraint theory closed
    (Domain.covers_of_create created)
  exact ⟨_, check_of_constrain created done,
    (Constraint.holds_iff c []).trans (means _ (by simp [Domain.Ranges]))⟩

theorem check_eq_ok_iff (closed : f.Closed V []) (theory : T.Declared) :
    f.check T trace = .ok verdict ↔
      ∃ D, Domain.create T trace f = .ok D ∧ (verdict = true ↔ D.Satisfies T f fun _ => 0) := by
  constructor
  · intro judged
    obtain ⟨D, created, -⟩ := bind_eq_ok_iff.mp judged
    rw [lift_eq_ok_iff] at created
    obtain ⟨verdict', judged', means⟩ := closed.exists_check theory created
    obtain rfl := Except.ok.inj (judged.symm.trans judged')
    exact ⟨D, created, means⟩
  · rintro ⟨D, created, means⟩
    obtain ⟨verdict', judged, means'⟩ := closed.exists_check theory created
    rw [judged, Bool.eq_iff_iff.mpr (means'.trans means.symm)]

theorem judged_or_diverges (closed : f.Closed V []) (theory : T.Declared) (trace : List Term)
    (solver : Solver) :
    (∃ verdict, f.check T trace solver = .ok verdict) ∨
      ∃ fault, f.check T trace solver = .error fault ∧ fault.Diverges := by
  cases created : Domain.create T trace f with
  | ok D =>
    obtain ⟨c, done, -⟩ := (Domain.sound_of_create created).exists_constraint theory closed
      (Domain.covers_of_create created)
    exact .inl ⟨_, check_of_constrain created done⟩
  | error d =>
    exact .inr ⟨.flaw d, check_of_create_eq_error created, Domain.diverges_of_create created⟩

end Formula.Closed

end ThreatModel
