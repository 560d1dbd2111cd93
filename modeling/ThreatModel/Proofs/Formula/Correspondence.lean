import Mathlib
import ThreatModel.Proofs.Theory.Declared
import ThreatModel.Proofs.Formula.Solver
import ThreatModel.Proofs.Formula.Lexicon

set_option autoImplicit false

namespace ThreatModel

open Result

/-- Every event that the first pattern matches comes after one that the second pattern matches with
the values of the first. -/
def Term.Preceded (given found : Term) (events : List Term) : Prop :=
  ∀ (i : Nat) e s, events[i]? = some e → given.match? e = some s →
    ∃ j < i, ∃ e' s', events[j]? = some e' ∧ found.match? e' s = some s'

def Formula.correspondence (outer inner : List String) (premise conclusion : Term) : Formula :=
  .quant .all (outer ++ ["#i"]) (.implies (.eventAt premise "#i")
    (.quant .some (inner ++ ["#j"]) (.and [.eventAt conclusion "#j", .precedes "#j" "#i"])))

namespace Domain

variable {D : Domain} {T : Theory} {g : Valuation} {outer inner : List String}
  {given found : Term}

structure Nested (outer inner : List String) (given found : Term) : Prop where
  given : ∀ x, x ∈ given.vars ↔ x ∈ outer
  found : ∀ x ∈ found.vars, x ∈ inner ∨ x ∈ outer
  apart : ∀ x ∈ inner, x ∉ outer
  plain : ∀ x ∈ inner ++ outer, isIndex x = false

theorem Nested.not_mem_inner (nested : Nested outer inner given found) {x i j : String}
    (outside : x ∈ outer ++ [i]) (first : isIndex i = true) (second : isIndex j = true)
    (distinct : i ≠ j) : x ∉ inner ++ [j] := by
  intro inside
  simp only [List.mem_append, List.mem_singleton] at outside inside
  rcases outside with name | rfl <;> rcases inside with name' | rfl
  · exact nested.apart x name' name
  · simp [nested.plain x (by simp [name])] at second
  · simp [nested.plain x (by simp [name'])] at first
  · exact distinct rfl

namespace Nested

variable (nested : Nested outer inner given found) {h k : Valuation}
  (varies : Valuation.Varies ((outer ++ ["#i"]).map fun x => (x, D.bound x)) g h)
  (varies' : Valuation.Varies ((inner ++ ["#j"]).map fun x => (x, D.bound x)) h k)

include nested

include varies' in
theorem kept {x : String} (outside : x ∈ outer ++ ["#i"]) : k x = h x :=
  (varies_iff.mp varies').2 x (nested.not_mem_inner outside (by decide) (by decide) (by decide))

include varies in
theorem below (x : String) (occurs : x ∈ given.vars) : h x < D.members.length := by
  have member := (nested.given x).mp occurs
  exact below_of_varies varies (by simp [member]) (nested.plain x (by simp [member]))

include varies varies' in
theorem below' (x : String) (occurs : x ∈ found.vars) : k x < D.members.length := by
  rcases nested.found x occurs with inside | outside
  · exact below_of_varies varies' (by simp [inside]) (nested.plain x (by simp [inside]))
  · rw [nested.kept varies' (by simp [outside])]
    exact below_of_varies varies (by simp [outside]) (nested.plain x (by simp [outside]))

end Nested

theorem preceded_of_forall (sound : D.Sound) (nested : Nested outer inner given found)
    (holds : ∀ h, Valuation.Varies ((outer ++ ["#i"]).map fun x => (x, D.bound x)) g h →
      D.events[h "#i"]? = some (given.under (D.member h)) →
      ∃ k, Valuation.Varies ((inner ++ ["#j"]).map fun x => (x, D.bound x)) h k ∧
        D.events[k "#j"]? = some (found.under (D.member k)) ∧ k "#j" < k "#i") :
    given.Preceded found D.events := by
  intro i e s here met
  obtain ⟨covered, same⟩ := Term.extend?_sound met
  have valued (x : String) (member : x ∈ outer) : s.value x ∈ D.members := by
    obtain ⟨u, bound⟩ := covered.covers x ((nested.given x).mpr member)
    rw [Subst.value_of_find? bound]
    exact sound.closed e (sound.events e (List.mem_of_getElem? here)) u
      (covered.of_empty (Table.mem_entries_of_find? bound)).2
  -- The values of the match are members, so the formula is about them too.
  obtain ⟨h, varies, values, positions⟩ := D.exists_varies (outer ++ ["#i"]) g s.value (fun _ => i)
    (by
      intro x member plain
      rcases List.mem_append.mp member with name | index
      · exact valued x name
      · rw [List.mem_singleton.mp index] at plain
        exact absurd plain (by decide))
    fun _ _ _ => (List.getElem?_eq_some_iff.mp here).1
  have position : h "#i" = i := positions "#i" (by simp) (by decide)
  have value (x : String) (member : x ∈ outer) : D.member h x = s.value x :=
    values x (by simp [member]) (nested.plain x (by simp [member]))
  have instance_ : given.under (D.member h) = e := by
    rw [← same, Term.subst_eq_under]
    exact Term.under_congr fun x occurs => value x ((nested.given x).mp occurs)
  obtain ⟨k, varies', event, before⟩ := holds h varies (by rw [position, instance_, here])
  rw [nested.kept varies' (x := "#i") (by simp), position] at before
  have known (x : String) (u : Term) (bound : s.find? x = some u) : D.member k x = u := by
    have member : x ∈ outer :=
      (nested.given x).mp (covered.of_empty (Table.mem_entries_of_find? bound)).1
    rw [Domain.member, nested.kept varies' (by simp [member]), ← Domain.member, value x member,
      Subst.value_of_find? bound]
  obtain ⟨s', met', -⟩ := Term.exists_extend? found known
  exact ⟨k "#j", before, _, s', event, met'⟩

theorem exists_of_preceded (sound : D.Sound) (nested : Nested outer inner given found)
    (preceded : given.Preceded found D.events) {h : Valuation}
    (event : D.events[h "#i"]? = some (given.under (D.member h))) :
    ∃ k, Valuation.Varies ((inner ++ ["#j"]).map fun x => (x, D.bound x)) h k ∧
      D.events[k "#j"]? = some (found.under (D.member k)) ∧ k "#j" < k "#i" := by
  have unknown (x : String) (u : Term) (bound : Table.empty.find? x = some u) :
      D.member h x = u := by
    simp at bound
  obtain ⟨s, met, agrees⟩ := Term.exists_extend? given unknown
  obtain ⟨j, before, e', s', there, met'⟩ := preceded _ _ s event met
  obtain ⟨covered, -⟩ := Term.extend?_sound met
  obtain ⟨covered', same⟩ := Term.extend?_sound met'
  have member' := sound.events e' (List.mem_of_getElem? there)
  have valued (x : String) (occurs : x ∈ found.vars) : s'.value x ∈ D.members := by
    obtain ⟨u, bound⟩ := covered'.covers x occurs
    rw [Subst.value_of_find? bound]
    rcases covered'.entries x u (Table.mem_entries_of_find? bound) with old | ⟨-, piece⟩
    · exact sound.closed _ (sound.events _ (List.mem_of_getElem? event)) u (covered.of_empty old).2
    · exact sound.closed e' member' u piece
  -- A variable that the conclusion lost in its normal form may stand for anything.
  obtain ⟨k, varies, values, positions⟩ := D.exists_varies (inner ++ ["#j"]) h
    (fun x => if x ∈ found.vars then s'.value x else e') (fun _ => j)
    (by
      intro x _ _
      by_cases occurs : x ∈ found.vars
      · simpa [occurs] using valued x occurs
      · simpa [occurs] using member')
    fun _ _ _ => (List.getElem?_eq_some_iff.mp there).1
  have position : k "#j" = j := positions "#j" (by simp) (by decide)
  have instance_ : found.under (D.member k) = e' := by
    rw [← same, Term.subst_eq_under]
    refine Term.under_congr fun x occurs => ?_
    by_cases name : x ∈ inner
    · rw [values x (by simp [name]) (nested.plain x (by simp [name])), if_pos occurs]
    · have member : x ∈ outer := (nested.found x occurs).resolve_left name
      obtain ⟨u, bound⟩ := covered.covers x ((nested.given x).mpr member)
      rw [Subst.value_of_find? (covered'.keeps x u bound), ← agrees x u bound, Domain.member,
        Domain.member, nested.kept varies (by simp [member])]
  refine ⟨k, varies, by rw [position, instance_, there], ?_⟩
  rwa [position, nested.kept varies (by simp)]

theorem preceded_iff (sound : D.Sound) (nested : Nested outer inner given found) (g : Valuation) :
    (∀ h, Valuation.Varies ((outer ++ ["#i"]).map fun x => (x, D.bound x)) g h →
      D.events[h "#i"]? = some (given.under (D.member h)) →
      ∃ k, Valuation.Varies ((inner ++ ["#j"]).map fun x => (x, D.bound x)) h k ∧
        D.events[k "#j"]? = some (found.under (D.member k)) ∧ k "#j" < k "#i") ↔
    given.Preceded found D.events :=
  ⟨preceded_of_forall sound nested, fun preceded _ _ => exists_of_preceded sound nested preceded⟩

theorem Sound.exists_correspondence (sound : D.Sound) {premise conclusion : Term}
    (first : T.normalize premise = .ok given) (second : T.normalize conclusion = .ok found)
    (nested : Nested outer inner given found) :
    ∃ c, D.constrain T (.correspondence outer inner premise conclusion) [] = .ok c ∧
      (c.Holds g ↔ given.Preceded found D.events) := by
  have known : ∀ x ∈ given.vars, x ∈ outer ++ ["#i"] ++ [] := fun x occurs => by
    simp [(nested.given x).mp occurs]
  have known' : ∀ x ∈ found.vars, x ∈ inner ++ ["#j"] ++ (outer ++ ["#i"] ++ []) := fun x occurs => by
    rcases nested.found x occurs with member | member <;> simp [member]
  obtain ⟨options, done, means⟩ := sound.exists_event first known (i := "#i") (by simp)
  obtain ⟨options', done', means'⟩ := sound.exists_event second known' (i := "#j") (by simp)
  refine ⟨.all ((outer ++ ["#i"]).map fun x => (x, D.bound x)) (.implies (.oneOf options)
    (.some ((inner ++ ["#j"]).map fun x => (x, D.bound x))
      (.and [.oneOf options', .less "#j" "#i"]))), ?_, ?_⟩
  · have order : D.constrain T (.precedes "#j" "#i") (inner ++ ["#j"] ++ (outer ++ ["#i"] ++ [])) =
        .ok (.less "#j" "#i") := by
      simp [constrain, requireIndex]
    rw [Formula.correspondence, constrain_all _ (by simp)]
    unfold constrain
    rw [done, constrain_some _ (by simp)]
    unfold constrain constrainAll
    simp only [constrainAll, done', order, ok_bind]
    rfl
  · simp only [Constraint.Holds, Constraint.AllHold, and_true]
    rw [← preceded_iff sound nested g]
    refine forall₂_congr fun h varies => imp_congr (means h (nested.below varies)) ?_
    exact exists_congr fun k => and_congr_right fun varies' =>
      and_congr_left' (means' k (nested.below' varies varies'))

end Domain

section Check

variable {T : Theory} {outer inner : List String} {premise conclusion given found : Term}
  {trace events : List Term} {verdict : Bool}

theorem Domain.Nested.normal (nested : Nested outer inner premise conclusion)
    (theory : T.Declared) (first : T.normalize premise = .ok given)
    (second : T.normalize conclusion = .ok found) (keeps : premise.vars ⊆ given.vars) :
    Nested outer inner given found where
  given x := ⟨fun occurs => (nested.given x).mp (theory.vars_normalize first x occurs),
    fun member => keeps ((nested.given x).mpr member)⟩
  found x occurs := nested.found x (theory.vars_normalize second x occurs)
  apart := nested.apart
  plain := nested.plain

theorem terms_correspondence :
    (Formula.correspondence outer inner premise conclusion).terms = [premise, conclusion] := by
  simp [Formula.correspondence, Formula.terms, Formula.termsAll]

theorem normal_of_check
    (judged : (Formula.correspondence outer inner premise conclusion).check T trace = .ok verdict) :
    ∃ given found events, T.normalize premise = .ok given ∧ T.normalize conclusion = .ok found ∧
      T.normalizeAll trace = .ok events := by
  simp only [Formula.check, bind_eq_ok_iff, lift_eq_ok_iff, Domain.create, terms_correspondence]
    at judged
  obtain ⟨D, ⟨events, third, mentioned, normal, -⟩, -⟩ := judged
  simp only [Theory.normalizeAll, List.mapM_cons, bind_eq_ok_iff] at normal
  obtain ⟨given, first, _, ⟨found, second, -⟩, -⟩ := normal
  exact ⟨given, found, events, first, second, third⟩

theorem exists_check (first : T.normalize premise = .ok given)
    (second : T.normalize conclusion = .ok found) (third : T.normalizeAll trace = .ok events)
    (nested : Domain.Nested outer inner given found) :
    ∃ verdict, (Formula.correspondence outer inner premise conclusion).check T trace = .ok verdict ∧
      (verdict = true ↔ given.Preceded found events) := by
  have mentioned : T.normalizeAll [premise, conclusion] = .ok [given, found] := by
    simp [Theory.normalizeAll, first, second]
  obtain ⟨D, created, rfl⟩ : ∃ D,
      Domain.create T trace (.correspondence outer inner premise conclusion) = .ok D ∧
        D.events = events := by
    simp [Domain.create, terms_correspondence, third, mentioned]
  obtain ⟨c, constrained, means⟩ := (Domain.sound_of_create created).exists_correspondence first
    second nested (g := Constraint.valueOf [])
  exact ⟨_, Formula.check_of_constrain created constrained,
    (Constraint.holds_iff c []).trans means⟩

end Check

namespace Lexicon

variable {L : Lexicon} {l : LemmaDecl} {stated : Lemma} {given found : Term}

def Relates (L : Lexicon) (l : LemmaDecl) (given found : Term) : Prop :=
  ∃ premise conclusion, l.premise = some premise ∧ l.conclusion = some conclusion ∧
    L.event (L.implicitOf [] [premise]) premise = .ok given ∧
    L.event (L.implicitOf (L.implicitOf [] [premise]) [conclusion] ++ L.implicitOf [] [premise])
      conclusion = .ok found

theorem correspondence_of_translate (accepted : L.translate l = .ok stated)
    (kind : l.kind = .corresponds) :
    ∃ outer inner given found, L.Relates l given found ∧
      stated.formula = .correspondence outer inner given found ∧
      Domain.Nested outer inner given found := by
  obtain ⟨_, made⟩ := statement_of_translate accepted
  simp only [statement, kind] at made
  split at made
  next premise conclusion first second =>
    simp only [correspondence, bind_eq_ok_iff, pure_eq_ok_iff, Prod.mk.injEq] at made
    obtain ⟨_, ⟨given, read, found, read', rfl⟩, same, -⟩ := made
    refine ⟨_, _, given, found, ⟨premise, conclusion, first, second, read, read'⟩, same.symm, ?_⟩
    have bound := vars_of_event read
    have bound' := vars_of_event read'
    have used {x : String} (member : x ∈ L.implicitOf [] [premise]) : x ∈ given.vars :=
      (mem_vars_of_implicitOf read member member).2
    have used' {x : String} (member : x ∈ L.implicitOf (L.implicitOf [] [premise]) [conclusion]) :=
      mem_vars_of_implicitOf read' (List.mem_append_left _ member) member
    refine ⟨fun x => ⟨fun occurs => (bound x occurs).1, used⟩,
      fun x occurs => List.mem_append.mp (bound' x occurs).1, fun x member => (used' member).1, ?_⟩
    intro x member
    rcases List.mem_append.mp member with inside | outside
    · exact (bound' x (used' inside).2).2
    · exact (bound x (used outside)).2
  next => simp [flaw] at made

/-- A correspondence is judged on a trace where its events and those of the trace have normal forms,
and holds where every match of the premise has an earlier match of the conclusion. The normal form
of the premise must keep the variables of the premise: one it lost is tied to nothing. -/
theorem check_correspondence {solver : Solver} (theory : L.theory.Declared)
    (correct : solver.Correct) (accepted : L.translate l = .ok stated)
    (kind : l.kind = .corresponds) :
    ∃ premise conclusion, L.Relates l premise conclusion ∧
      ((∀ given, L.theory.normalize premise = .ok given → premise.vars ⊆ given.vars) →
        ∀ (trace : List Term) (verdict : Bool),
          stated.formula.check L.theory trace solver = .ok verdict ↔
            ∃ given found events, L.theory.normalize premise = .ok given ∧
              L.theory.normalize conclusion = .ok found ∧
              L.theory.normalizeAll trace = .ok events ∧
              (verdict = true ↔ given.Preceded found events)) := by
  obtain ⟨outer, inner, premise, conclusion, relates, formula, nested⟩ :=
    correspondence_of_translate accepted kind
  refine ⟨premise, conclusion, relates, fun keeps trace verdict => ?_⟩
  rw [formula, correct.check_eq]
  constructor
  · intro judged
    obtain ⟨given, found, events, first, second, third⟩ := normal_of_check judged
    obtain ⟨verdict', judged', means⟩ := exists_check first second third
      (nested.normal theory first second (keeps given first))
    obtain rfl := Except.ok.inj (judged.symm.trans judged')
    exact ⟨given, found, events, first, second, third, means⟩
  · rintro ⟨given, found, events, first, second, third, means⟩
    obtain ⟨verdict', judged, means'⟩ := exists_check first second third
      (nested.normal theory first second (keeps given first))
    rw [judged, Bool.eq_iff_iff.mpr (means'.trans means.symm)]

def agreement : LemmaDecl where
  name := "agreement"
  kind := .corresponds
  premise := some { tag := "Commit", args := [.ident "x" none,
    .apply "fst" [.tuple [.ident "y" none, .ident "x" none]] none] }
  conclusion := some { tag := "Running", args := [.ident "y" none, .ident "z" none] }

theorem check_agreement : ∃ T stated premise conclusion given found,
    let L : Lexicon := { theory := T, constants := .empty,
                         vocabulary := [("Commit", 2), ("Running", 2)] }
    let commit := Term.app "Commit" [.lit "a", .app "fst" [.pair (.lit "b") (.lit "c")]]
    let running := Term.app "Running" [.lit "b", .lit "n"]
    Theory.ofBudget 64 = .ok T ∧ L.translate agreement = .ok stated ∧
      L.Relates agreement premise conclusion ∧ T.normalize premise = .ok given ∧
      premise.vars ⊆ given.vars ∧ T.normalize conclusion = .ok found ∧
      given.Preceded found [running, .app "Commit" [.lit "a", .lit "b"]] ∧
      ¬ given.Preceded found [.app "Commit" [.lit "a", .lit "b"], running] ∧
      stated.formula.check T [running, commit] = .ok true ∧
      stated.formula.check T [commit, running] = .ok false := by
  let commit := Term.app "Commit" [.lit "a", .app "fst" [.pair (.lit "b") (.lit "c")]]
  let commit' := Term.app "Commit" [.lit "a", .lit "b"]
  let running := Term.app "Running" [.lit "b", .lit "n"]
  let premise := Term.app "Commit" [.var "x", .app "fst" [.pair (.var "y") (.var "x")]]
  let given := Term.app "Commit" [.var "x", .var "y"]
  have ran : (do
      let T ← Theory.ofBudget 64
      let L : Lexicon := ⟨T, .empty, [("Commit", 2), ("Running", 2)]⟩
      let stated ← L.translate agreement
      let event ← agreement.premise.elim (throw (.missing "premise")) fun e =>
        L.event (L.implicitOf [] [e]) e
      let normal ← T.normalize premise
      let events ← T.normalizeAll [running, commit]
      let events' ← T.normalizeAll [commit, running]
      let verdict ← stated.formula.check T [running, commit]
      let verdict' ← stated.formula.check T [commit, running]
      return (event, normal, events, events', verdict, verdict') :
        Result (Term × Term × List Term × List Term × Bool × Bool)) =
      .ok (premise, given, [running, commit'], [commit', running], true, false) := by
    decide +kernel
  simp only [bind_eq_ok_iff, pure_eq_ok_iff, lift_eq_ok_iff, Prod.mk.injEq] at ran
  obtain ⟨T, built, stated, accepted, event, read, normal, normalized, events, third, events',
    third', verdict, judged, verdict', judged', rfl, rfl, rfl, rfl, rfl, rfl⟩ := ran
  obtain ⟨premise', conclusion, relates, means⟩ :=
    check_correspondence (L := ⟨T, .empty, [("Commit", 2), ("Running", 2)]⟩) (.start built)
      Solver.correct_exhaustive accepted rfl
  obtain ⟨first, _, same, -, made, -⟩ := id relates
  obtain rfl := Option.some.inj same
  obtain rfl : premise' = premise := Except.ok.inj (made.symm.trans read)
  have keeps : premise.vars ⊆ given.vars := by decide
  have judges := means fun normal done => Except.ok.inj (normalized.symm.trans done) ▸ keeps
  obtain ⟨given', found, _, first', second, whole, holds⟩ := (judges _ _).mp judged
  obtain ⟨given'', found', _, first'', second', whole', fails⟩ := (judges _ _).mp judged'
  obtain rfl := Except.ok.inj (normalized.symm.trans first')
  obtain rfl := Except.ok.inj (normalized.symm.trans first'')
  obtain rfl := Except.ok.inj (second.symm.trans second')
  obtain rfl := Except.ok.inj (third.symm.trans whole)
  obtain rfl := Except.ok.inj (third'.symm.trans whole')
  exact ⟨T, stated, premise, conclusion, given, found, built, accepted, relates, normalized, keeps,
    second, holds.mp rfl, fun preceded => by simpa using fails.mpr preceded, judged, judged'⟩

end Lexicon

end ThreatModel
