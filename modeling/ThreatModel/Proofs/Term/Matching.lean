import Mathlib
import ThreatModel.Term.Matching
import ThreatModel.Proofs.Term.Substitution

set_option autoImplicit false

namespace ThreatModel.Term

theorem subterms_self (t : Term) : t ∈ t.subterms := by
  cases t <;> simp [subterms]

theorem subtermsAll_eq_flatMap (ts : List Term) : subtermsAll ts = ts.flatMap subterms := by
  induction ts with
  | nil => rfl
  | cons t ts ih => simp [subtermsAll, ih]

@[simp] theorem subterms_app (f : String) (args : List Term) :
    (Term.app f args).subterms = .app f args :: args.flatMap subterms := by
  simp [subterms, subtermsAll_eq_flatMap]

theorem subterms_of_arg {f : String} {args : List Term} {s t : Term} (member : t ∈ args)
    (inside : s ∈ t.subterms) : s ∈ (Term.app f args).subterms := by
  rw [subterms_app, List.mem_cons, List.mem_flatMap]
  exact .inr ⟨t, member, inside⟩

theorem of_subterm {P : Term → Prop} {s t : Term} (inside : s ∈ t.subterms) (here : P s)
    (up : ∀ f args, ∀ t ∈ args, P t → P (.app f args)) : P t := by
  induction t using Term.induct with
  | var | const | lit | name =>
    obtain rfl : s = _ := by simpa [subterms] using inside
    exact here
  | app f args ih =>
    simp only [subterms_app, List.mem_cons, List.mem_flatMap] at inside
    rcases inside with rfl | ⟨t, member, deeper⟩
    · exact here
    · exact up f args t member (ih t member deeper)

theorem subterms_trans {s t u : Term} (inner : s ∈ t.subterms) (outer : t ∈ u.subterms) :
    s ∈ u.subterms := by
  refine of_subterm (P := (s ∈ subterms ·)) outer inner fun f args u member deeper => ?_
  exact subterms_of_arg member deeper

structure Found (vars : List String) (pieces : List Term) (σ σ' : Subst) : Prop where
  keeps : ∀ x u, σ.find? x = some u → σ'.find? x = some u
  covers : ∀ x ∈ vars, ∃ u, σ'.find? x = some u
  entries : ∀ x u, (x, u) ∈ σ'.entries → (x, u) ∈ σ.entries ∨ (x ∈ vars ∧ u ∈ pieces)

theorem Found.refl (pieces : List Term) (σ : Subst) : Found [] pieces σ σ :=
  ⟨fun _ _ h => h, by simp, fun _ _ h => Or.inl h⟩

theorem Found.append {vars vars' : List String} {pieces pieces' : List Term} {σ σ' σ'' : Subst}
    (first : Found vars pieces σ σ') (second : Found vars' pieces' σ' σ'') :
    Found (vars ++ vars') (pieces ++ pieces') σ σ'' where
  keeps := fun x u h => second.keeps x u (first.keeps x u h)
  covers := by
    intro x member
    rcases List.mem_append.mp member with early | late
    · obtain ⟨u, h⟩ := first.covers x early
      exact ⟨u, second.keeps x u h⟩
    · exact second.covers x late
  entries := by
    intro x u member
    rcases second.entries x u member with before | ⟨hx, hu⟩
    · rcases first.entries x u before with old | ⟨hx, hu⟩
      · exact Or.inl old
      · exact Or.inr ⟨by simp [hx], by simp [hu]⟩
    · exact Or.inr ⟨by simp [hx], by simp [hu]⟩

theorem Found.of_empty {vars : List String} {pieces : List Term} {σ : Subst}
    (found : Found vars pieces .empty σ) {x : String} {u : Term} (entry : (x, u) ∈ σ.entries) :
    x ∈ vars ∧ u ∈ pieces :=
  (found.entries x u entry).resolve_left (by simp [Table.empty])

theorem Found.subst_eq {vars : List String} {pieces : List Term} {σ σ' : Subst} {p : Term}
    (found : Found vars pieces σ σ') (covered : ∀ x ∈ p.vars, ∃ u, σ.find? x = some u) :
    p.subst σ' = p.subst σ := by
  rw [subst_eq_under, subst_eq_under]
  apply under_congr
  intro x inside
  obtain ⟨u, h⟩ := covered x inside
  rw [Subst.value_of_find? h, Subst.value_of_find? (found.keeps x u h)]

theorem extend?_var {x : String} {t : Term} {σ σ' : Subst}
    (met : extend? (.var x) t σ = some σ') :
    Found [x] t.subterms σ σ' ∧ σ'.find? x = some t := by
  simp only [extend?] at met
  split at met
  next absent =>
    obtain rfl : σ.insert x t = σ' := by simpa using met
    refine ⟨⟨?_, ?_, ?_⟩, by simp⟩
    · intro y u h
      rw [Table.find?_insert, if_neg]
      · exact h
      · rintro rfl
        simp [absent] at h
    · simp
    · intro y u member
      rcases Table.mem_write member with new | old
      · obtain ⟨rfl, rfl⟩ := Prod.mk.inj new
        exact Or.inr ⟨by simp, subterms_self _⟩
      · exact Or.inl old
  next u present =>
    split at met
    next same =>
      obtain rfl : σ = σ' := by simpa using met
      subst same
      exact ⟨⟨fun _ _ h => h, by simp [present], fun _ _ h => Or.inl h⟩, present⟩
    next => simp at met

mutual

theorem extend?_sound : ∀ {p t : Term} {σ σ' : Subst}, extend? p t σ = some σ' →
    Found p.vars t.subterms σ σ' ∧ p.subst σ' = t
  | .var x, t, σ, σ', met => by
    obtain ⟨found, bound⟩ := extend?_var met
    exact ⟨by simpa using found, by simp [subst, bound]⟩
  | .app f ps, .app g ts, σ, σ', met => by
    simp only [extend?, Option.ite_none_right_eq_some] at met
    obtain ⟨rfl, met⟩ := met
    obtain ⟨found, same⟩ := extendAll?_sound met
    refine ⟨⟨found.keeps, by simpa [varsAll_eq_flatMap] using found.covers, ?_⟩, ?_⟩
    · intro x u member
      rw [vars_app, subterms_app, ← varsAll_eq_flatMap, ← subtermsAll_eq_flatMap]
      exact (found.entries x u member).imp_right fun ⟨hx, hu⟩ => ⟨hx, by simp [hu]⟩
    · simp [subst, same]
  | .app _ _, .var _, _, _, met | .app _ _, .const _, _, _, met | .app _ _, .lit _, _, _, met
  | .app _ _, .name _, _, _, met => by simp [extend?] at met
  | .const c, t, σ, σ', met | .lit c, t, σ, σ', met | .name c, t, σ, σ', met => by
    simp only [extend?, Option.ite_none_right_eq_some] at met
    obtain ⟨rfl, met⟩ := met
    obtain rfl : σ = σ' := by simpa using met
    exact ⟨by simpa using Found.refl _ σ, by simp [subst]⟩

theorem extendAll?_sound : ∀ {ps ts : List Term} {σ σ' : Subst}, extendAll? ps ts σ = some σ' →
    Found (varsAll ps) (subtermsAll ts) σ σ' ∧ substAll σ' ps = ts
  | [], [], σ, σ', met => by
    obtain rfl : σ = σ' := by simpa [extendAll?] using met
    exact ⟨Found.refl _ σ, rfl⟩
  | p :: ps, t :: ts, σ, σ', met => by
    simp only [extendAll?] at met
    split at met
    next => simp at met
    next σ₁ here =>
      obtain ⟨first, same⟩ := extend?_sound here
      obtain ⟨rest, others⟩ := extendAll?_sound met
      refine ⟨first.append rest, ?_⟩
      rw [substAll, others, rest.subst_eq first.covers, same]
  | [], _ :: _, _, _, met | _ :: _, [], _, _, met => by simp [extendAll?] at met

end

mutual

theorem nodup_keys_extend? : ∀ {p t : Term} {σ σ' : Subst}, extend? p t σ = some σ' →
    σ.keys.Nodup → σ'.keys.Nodup
  | .var x, t, σ, σ', met, distinct => by
    simp only [extend?] at met
    split at met
    next =>
      obtain rfl : σ.insert x t = σ' := by simpa using met
      exact Table.nodup_keys_insert x t distinct
    next =>
      obtain ⟨-, rfl⟩ : _ ∧ σ = σ' := by simpa using met
      exact distinct
  | .app f ps, .app g ts, σ, σ', met, distinct => by
    simp only [extend?, Option.ite_none_right_eq_some] at met
    exact nodup_keys_extendAll? met.2 distinct
  | .app _ _, .var _, _, _, met, _ | .app _ _, .const _, _, _, met, _
  | .app _ _, .lit _, _, _, met, _ | .app _ _, .name _, _, _, met, _ => by simp [extend?] at met
  | .const c, t, σ, σ', met, distinct | .lit c, t, σ, σ', met, distinct
  | .name c, t, σ, σ', met, distinct => by
    obtain ⟨-, rfl⟩ : _ ∧ σ = σ' := by simpa [extend?] using met
    exact distinct

theorem nodup_keys_extendAll? : ∀ {ps ts : List Term} {σ σ' : Subst},
    extendAll? ps ts σ = some σ' → σ.keys.Nodup → σ'.keys.Nodup
  | [], [], σ, σ', met, distinct => by
    obtain rfl : σ = σ' := by simpa [extendAll?] using met
    exact distinct
  | p :: ps, t :: ts, σ, σ', met, distinct => by
    simp only [extendAll?] at met
    split at met
    next => simp at met
    next σ₁ here => exact nodup_keys_extendAll? met (nodup_keys_extend? here distinct)
  | [], _ :: _, _, _, met, _ | _ :: _, [], _, _, met, _ => by simp [extendAll?] at met

end

mutual

theorem exists_extend? : ∀ (p : Term) {g : String → Term} {known : Subst},
    (∀ x u, known.find? x = some u → g x = u) →
    ∃ found, extend? p (p.under g) known = some found ∧
      ∀ x u, found.find? x = some u → g x = u
  | .var x, g, known, agrees => by
    simp only [under_var, extend?]
    cases bound : known.find? x with
    | some u => exact ⟨known, if_pos (agrees x u bound).symm, agrees⟩
    | none =>
      refine ⟨_, rfl, fun y u found => ?_⟩
      rw [Table.find?_insert] at found
      split at found
      next same => exact same ▸ Option.some.inj found
      next => exact agrees y u found
  | .app f ps, g, known, agrees => by
    simp only [under, extend?, if_true]
    exact exists_extendAll? ps agrees
  | .const c, g, known, agrees | .lit c, g, known, agrees | .name c, g, known, agrees =>
    ⟨known, by simp [extend?], agrees⟩

theorem exists_extendAll? : ∀ (ps : List Term) {g : String → Term} {known : Subst},
    (∀ x u, known.find? x = some u → g x = u) →
    ∃ found, extendAll? ps (underAll g ps) known = some found ∧
      ∀ x u, found.find? x = some u → g x = u
  | [], g, known, agrees => ⟨known, rfl, agrees⟩
  | p :: ps, g, known, agrees => by
    obtain ⟨found, here, agrees⟩ := exists_extend? p agrees
    obtain ⟨found', later, agrees⟩ := exists_extendAll? ps agrees
    exact ⟨found', by simp [extendAll?, underAll, here, later], agrees⟩

end

theorem match?_eq_none_iff {p t : Term} : p.match? t = none ↔ ∀ σ : Subst, t ≠ p.subst σ := by
  constructor
  · rintro unmet σ rfl
    have unknown (x : String) (u : Term) (found : Table.empty.find? x = some u) : σ.value x = u := by
      simp at found
    obtain ⟨found, met, -⟩ := exists_extend? p unknown
    rw [subst_eq_under, match?, met] at unmet
    cases unmet
  · intro other
    cases met : p.match? t with
    | none => rfl
    | some σ => exact absurd (extend?_sound met).2.symm (other σ)

structure Matches (known : Subst) (p t : Term) (σ : Subst) : Prop where
  keeps : ∀ x u, known.find? x = some u → σ.find? x = some u
  covers : ∀ x ∈ p.vars, ∃ u, σ.find? x = some u
  equal : p.subst σ = t

section Least

variable {p t : Term} {known σ found : Subst}

theorem matches_of_match? (met : p.match? t known = some found) : Matches known p t found := by
  obtain ⟨fits, same⟩ := extend?_sound met
  exact ⟨fits.keeps, fits.covers, same⟩

theorem contains_match?_iff (met : p.match? t known = some found) {x : String} :
    found.contains x = true ↔ known.contains x = true ∨ x ∈ p.vars := by
  have fits := (extend?_sound met).1
  simp only [Table.contains_iff, ← Table.exists_find?_iff]
  constructor
  · rintro ⟨u, bound⟩
    rcases fits.entries x u (Table.mem_entries_of_find? bound) with old | ⟨new, -⟩
    · exact .inl (Table.exists_find?_iff.mpr (List.mem_map_of_mem old))
    · exact .inr new
  · rintro (⟨u, old⟩ | new)
    · exact ⟨u, fits.keeps x u old⟩
    · exact fits.covers x new

theorem Matches.exists_match? (fits : Matches known p t σ) :
    ∃ found, p.match? t known = some found ∧
      ∀ x u, found.find? x = some u → σ.find? x = some u := by
  have agrees (x : String) (u : Term) (bound : known.find? x = some u) : σ.value x = u :=
    Subst.value_of_find? (fits.keeps x u bound)
  obtain ⟨found, met, within⟩ := exists_extend? p agrees
  rw [← subst_eq_under, fits.equal] at met
  refine ⟨found, met, fun x u bound => ?_⟩
  -- A variable with a value is known or one of the pattern, so the other one gives it a value too.
  have given : ∃ v, σ.find? x = some v := by
    have listed : found.contains x = true :=
      Table.contains_iff.mpr (Table.exists_find?_iff.mp ⟨u, bound⟩)
    rcases (contains_match?_iff met).mp listed with old | new
    · obtain ⟨v, old⟩ := Table.exists_find?_iff.mpr (Table.contains_iff.mp old)
      exact ⟨v, fits.keeps x v old⟩
    · exact fits.covers x new
  obtain ⟨v, other⟩ := given
  rw [other, ← within x u bound, Subst.value_of_find? other]

end Least

/-- A match is found just if there is one, and it is the least: it has a value for what is known and
for the variables of the pattern, and none that any other match does not have. -/
theorem match?_least (p t : Term) (known : Subst) :
    ((∃ found, p.match? t known = some found) ↔ ∃ σ, Matches known p t σ) ∧
    ∀ found, p.match? t known = some found → Matches known p t found ∧
      (∀ x, found.contains x = true ↔ known.contains x = true ∨ x ∈ p.vars) ∧
      ∀ σ, Matches known p t σ → ∀ x u, found.find? x = some u → σ.find? x = some u := by
  refine ⟨⟨?_, ?_⟩, fun found met => ⟨matches_of_match? met, fun x => contains_match?_iff met, ?_⟩⟩
  · rintro ⟨found, met⟩
    exact ⟨found, matches_of_match? met⟩
  · rintro ⟨σ, fits⟩
    obtain ⟨found, met, -⟩ := fits.exists_match?
    exact ⟨found, met⟩
  · intro σ fits
    obtain ⟨found', met', within⟩ := fits.exists_match?
    obtain rfl := Option.some.inj (met.symm.trans met')
    exact within

theorem match?_least_pair :
    let p := Term.app "f" [.var "x", .pair (.var "y") (.var "x"), .var "y"]
    let t := Term.app "f" [.var "y", .pair (.app "g" [.var "x"]) (.var "y"), .app "g" [.var "x"]]
    let found : Subst := ⟨[("x", .var "y"), ("z", .lit "a"), ("y", .app "g" [.var "x"])]⟩
    p.match? t ⟨[("x", .var "y"), ("z", .lit "a")]⟩ = some found ∧
      Matches ⟨[("x", .var "y"), ("z", .lit "a")]⟩ p t found ∧
      ¬ ∃ σ, Matches (.single "y" (.var "y")) p t σ := by
  intro p t found
  have met : p.match? t ⟨[("x", .var "y"), ("z", .lit "a")]⟩ = some found := by decide +kernel
  have unmet : p.match? t (.single "y" (.var "y")) = none := by decide +kernel
  refine ⟨met, ((match?_least p t _).2 found met).1, fun other => ?_⟩
  obtain ⟨found, met⟩ := (match?_least p t _).1.mpr other
  rw [unmet] at met
  cases met

end ThreatModel.Term
