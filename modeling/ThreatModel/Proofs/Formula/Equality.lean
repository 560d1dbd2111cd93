import Mathlib
import ThreatModel.Proofs.Formula.Satisfaction
import ThreatModel.Proofs.Theory.Confluence

set_option autoImplicit false

namespace ThreatModel

open Result Rewriting

namespace Theory

variable {T : Theory} {l s a : Term} {σ : Subst}

theorem Oriented.normal_of_subterm (oriented : T.Oriented) (normal : T.Normal l)
    (inside : s ∈ l.subterms) : T.Normal s :=
  oriented.normal_iff.mpr fun u piece =>
    oriented.normal_iff.mp normal u (Term.subterms_trans piece inside)

theorem convertible_instance (normalized : T.normalize l = .ok s) (σ : Subst) :
    Convertible T.equations (l.subst σ) (s.subst σ) :=
  ((rewritesTo_of_normalize normalized).subst σ).convertible

theorem Oriented.normalize_instance (oriented : T.Oriented) (confluent : Confluent T.equations)
    (normalized : T.normalize l = .ok s) (settled : T.Normal (s.subst σ))
    (done : T.normalize (l.subst σ) = .ok a) : a = s.subst σ :=
  oriented.eq_of_convertible confluent (normal_of_normalize done) settled
    (.trans _ _ _ (.symm _ _ (convertible_of_normalize done)) (convertible_instance normalized σ))

end Theory

namespace Domain

variable {D : Domain} {T : Theory} {trace : List Term} {f : Formula} {xs : List String}
  {l r s t : Term} {σ : Subst} {h : Valuation}

theorem normal_of_create (theory : T.Declared) (created : create T trace f = .ok D) :
    ∀ u ∈ D.members, T.Normal u := by
  simp only [create, bind_eq_ok_iff, pure_eq_ok_iff] at created
  obtain ⟨events, normal, mentioned, normal', rfl⟩ := created
  have pieces {ts us : List Term} (done : T.normalizeAll ts = .ok us) :
      ∀ u ∈ us.flatMap Term.subterms, T.Normal u := by
    intro u member
    obtain ⟨e, among, piece⟩ := List.mem_flatMap.mp member
    obtain ⟨e', -, normalized⟩ := mem_of_mapM_eq_ok done among
    exact theory.oriented.normal_of_subterm
      (Theory.normal_of_normalize normalized) piece
  intro u member
  rw [List.mem_eraseDups, List.mem_append] at member
  rcases member with event | ground
  · exact pieces normal u event
  · exact pieces normal' u (List.mem_of_mem_filter ground)

def Assigns (D : Domain) (xs : List String) (σ : Subst) : Prop := ∀ x ∈ xs, σ.value x ∈ D.members

instance (D : Domain) (xs : List String) (σ : Subst) : Decidable (D.Assigns xs σ) :=
  inferInstanceAs (Decidable (∀ x ∈ xs, σ.value x ∈ D.members))

theorem Ranges.exists_assigns (ranges : D.Ranges xs h) (plain : ∀ x ∈ xs, isIndex x = false) :
    ∃ σ : Subst, D.Assigns xs σ ∧ ∀ x ∈ xs, σ.value x = D.member h x := by
  obtain ⟨σ, same⟩ := Subst.exists_value xs (D.member h)
  refine ⟨σ, fun x member => ?_, same⟩
  have below := ranges x member
  rw [Domain.bound, plain x member] at below
  rw [same x member]
  exact List.mem_of_getElem? (getElem?_members below)

theorem Assigns.exists_ranges (assigns : D.Assigns xs σ) (plain : ∀ x ∈ xs, isIndex x = false) :
    ∃ h : Valuation, D.Ranges xs h ∧ (∀ x ∉ xs, h x = 0) ∧
      ∀ x ∈ xs, D.member h x = σ.value x := by
  obtain ⟨h, varies, same, -⟩ := exists_varies D xs (fun _ => 0) σ.value (fun _ => 0)
    (fun x member _ => assigns x member)
    (fun x member index => by simp [plain x member] at index)
  obtain ⟨ranges, kept⟩ := varies_iff.mp varies
  exact ⟨h, ranges, kept, fun x member => same x member (plain x member)⟩

theorem satisfies_equation_iff (plain : ∀ x ∈ xs, isIndex x = false)
    (left : T.normalize l = .ok s) (right : T.normalize r = .ok t)
    (first : ∀ x ∈ s.vars, x ∈ xs) (second : ∀ x ∈ t.vars, x ∈ xs) :
    D.Satisfies T (.quant .all xs (.equal l r)) (fun _ => 0) ↔
      ∀ σ, D.Assigns xs σ → s.subst σ = t.subst σ ∧ s.subst σ ∈ D.members := by
  simp only [Satisfies, left, right, Except.ok.injEq, exists_and_left, exists_eq_left']
  have instances {u : Term} {g : String → Term} {σ : Subst} (known : ∀ x ∈ u.vars, x ∈ xs)
      (same : ∀ x ∈ xs, g x = σ.value x) : u.under g = u.subst σ := by
    rw [Term.subst_eq_under]
    exact Term.under_congr fun x occurs => same x (known x occurs)
  -- Members for the variables are places for them, and conversely.
  constructor
  · intro holds σ assigns
    obtain ⟨h, ranges, kept, same⟩ := assigns.exists_ranges plain
    have judged := holds h ranges kept
    rwa [instances first same, instances second same] at judged
  · intro holds h ranges _
    obtain ⟨σ, assigns, same⟩ := ranges.exists_assigns plain
    have same' := fun x member => (same x member).symm
    rw [instances first same', instances second same']
    exact holds σ assigns

theorem same_member_iff (theory : T.Declared) (confluent : Confluent T.equations)
    (settled : ∀ u ∈ D.members, T.Normal u) (left : T.normalize l = .ok s)
    (right : T.normalize r = .ok t) {same : Bool}
    (judged : T.equal (l.subst σ) (r.subst σ) = .ok same) :
    s.subst σ = t.subst σ ∧ s.subst σ ∈ D.members ↔
      same = true ∧ s.subst σ ∈ D.members ∧ t.subst σ ∈ D.members := by
  obtain ⟨a, b, normal, normal', alike⟩ := Theory.exists_of_equal judged
  have first (member : s.subst σ ∈ D.members) : a = s.subst σ :=
    theory.oriented.normalize_instance confluent left (settled _ member) normal
  have second (member : t.subst σ ∈ D.members) : b = t.subst σ :=
    theory.oriented.normalize_instance confluent right (settled _ member) normal'
  constructor
  · rintro ⟨equal, member⟩
    have member' : t.subst σ ∈ D.members := equal ▸ member
    exact ⟨alike.mpr (by rw [first member, second member', equal]), member, member'⟩
  · rintro ⟨found, member, member'⟩
    exact ⟨by rw [← first member, ← second member', alike.mp found], member⟩

end Domain

namespace Formula

/-- An equation holds if and only if, whatever members its variables stand for, the normal forms of
its sides come to one and the same member. -/
theorem check_equation {T : Theory} {xs : List String} {l r : Term} {solver : Solver}
    (theory : T.Declared) (correct : solver.Correct) (plain : ∀ x ∈ xs, isIndex x = false)
    (left : ∀ x ∈ l.vars, x ∈ xs) (right : ∀ x ∈ r.vars, x ∈ xs) (trace : List Term) :
    (∃ u ∈ trace ++ [l, r], ∃ d, T.normalize u = .error d ∧
      (quant .all xs (.equal l r)).check T trace solver = .error (.flaw d)) ∨
    ∃ D s t verdict, Domain.create T trace (.quant .all xs (.equal l r)) = .ok D ∧
      T.normalize l = .ok s ∧ T.normalize r = .ok t ∧
      (quant .all xs (.equal l r)).check T trace solver = .ok verdict ∧
      (verdict = true ↔
        ∀ σ, D.Assigns xs σ → s.subst σ = t.subst σ ∧ s.subst σ ∈ D.members) ∧
      (verdict = true →
        ∀ σ, D.Assigns xs σ → Convertible T.equations (l.subst σ) (r.subst σ)) ∧
      (Confluent T.equations →
        (∀ σ, D.Assigns xs σ → ∃ same, T.equal (l.subst σ) (r.subst σ) = .ok same) →
        (verdict = true ↔
          (∀ σ, D.Assigns xs σ → T.equal (l.subst σ) (r.subst σ) = .ok true) ∧
          ∀ σ, D.Assigns xs σ → s.subst σ ∈ D.members ∧ t.subst σ ∈ D.members)) := by
  simp only [correct.check_eq]
  cases created : Domain.create T trace (.quant .all xs (.equal l r)) with
  | error d =>
      obtain ⟨u, member, diverged⟩ := Domain.exists_of_create_eq_error created
      exact .inl ⟨u, member, d, diverged, check_of_create_eq_error created⟩
  | ok D =>
      have within {u : Term} (known : ∀ x ∈ u.vars, x ∈ xs) : u.Within (xs ++ []) :=
        fun x occurs => ⟨by simp [known x occurs], plain x (known x occurs)⟩
      have closed : (quant .all xs (.equal l r)).Closed [] [] :=
        .all (.equal (within left) (within right))
      obtain ⟨verdict, judged, means⟩ := closed.exists_check theory created
      have covers := Domain.covers_of_create created
      obtain ⟨s, normal, -⟩ := covers l (by simp [terms])
      obtain ⟨t, normal', -⟩ := covers r (by simp [terms])
      rw [Domain.satisfies_equation_iff plain normal normal'
        (fun x occurs => left x (theory.vars_normalize normal x occurs))
        (fun x occurs => right x (theory.vars_normalize normal' x occurs))] at means
      refine .inr ⟨D, s, t, verdict, rfl, normal, normal', judged, means, ?_, ?_⟩
      · intro holds σ assigns
        obtain ⟨same, -⟩ := means.mp holds σ assigns
        have first := Theory.convertible_instance normal σ
        rw [same] at first
        exact .trans _ _ _ first (.symm _ _ (Theory.convertible_instance normal' σ))
      · intro confluent judges
        rw [means, ← forall₂_and]
        refine forall₂_congr fun σ assigns => ?_
        obtain ⟨same, found⟩ := judges σ assigns
        rw [Domain.same_member_iff theory confluent (Domain.normal_of_create theory created)
          normal normal' found, found, Except.ok.injEq]

-- A message, encrypted and decrypted again.
def recovered (t : Term) : Term := .app "dec" [.app "enc" [t, .const "k"], .const "k"]

-- Every pair of a member with itself is recovered, but none is a member.
theorem check_equation_recovered :
    let sent := [Term.app "Sent" [.lit "a"]]
    let twice := Term.pair (.var "x") (.var "x")
    Theory.ciphers.Declared ∧ Confluent Theory.ciphers.equations ∧
      (quant .all ["x"] (.equal (recovered twice) twice)).check Theory.ciphers sent = .ok false ∧
      ∀ u ∈ [Term.app "Sent" [.lit "a"], .lit "a"],
        Theory.ciphers.equal (recovered (.pair u u)) (.pair u u) = .ok true := by
  intro sent twice
  have theory := Theory.declared_ciphers
  have confluent := Theory.destructs_ciphers.confluent theory.oriented
  have equal : ∀ u ∈ [Term.app "Sent" [.lit "a"], .lit "a"],
      Theory.ciphers.equal (recovered (.pair u u)) (.pair u u) = .ok true := by
    decide +kernel
  refine ⟨theory, confluent, ?_, equal⟩
  have plain : ∀ x ∈ ["x"], isIndex x = false := by decide
  rcases check_equation (l := recovered twice) (r := twice) theory Solver.correct_exhaustive plain
    (by decide) (by decide) sent with ⟨u, member, d, diverged, -⟩ |
      ⟨D, s, t, verdict, created, -, normal, judged, -, -, modulo⟩
  · have ends : ∀ u ∈ sent ++ [recovered twice, twice], (Theory.ciphers.normalize u).isOk = true :=
      by decide +kernel
    have normalizes := ends u member
    rw [diverged] at normalizes
    cases normalizes
  · let whole : Domain := ⟨sent, [.app "Sent" [.lit "a"], .lit "a"]⟩
    obtain rfl : D = whole := Except.ok.inj (created.symm.trans (by decide +kernel))
    obtain rfl : t = twice := Except.ok.inj (normal.symm.trans (by decide +kernel))
    have instances (σ : Subst) (assigns : whole.Assigns ["x"] σ) :
        Theory.ciphers.equal ((recovered twice).subst σ) (twice.subst σ) = .ok true := by
      simpa [Term.subst_eq_under, recovered, twice, Term.pair] using
        equal (σ.value "x") (assigns "x" (by simp))
    have members := modulo confluent fun σ assigns => ⟨true, instances σ assigns⟩
    have outside : verdict = false := by
      rw [← Bool.not_eq_true, members]
      rintro ⟨-, inside⟩
      have wrong := (inside (.single "x" (.lit "a")) (by decide)).2
      revert wrong
      decide
    rw [judged, outside]

end Formula

end ThreatModel
