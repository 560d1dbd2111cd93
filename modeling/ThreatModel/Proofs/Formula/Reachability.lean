import Mathlib
import ThreatModel.Proofs.Formula.Satisfaction

set_option autoImplicit false

namespace ThreatModel

open Result

structure Subst.Grounds (s : Subst) (names : List String) : Prop where
  names : ∀ x, x ∈ s.keys ↔ x ∈ names
  ground : ∀ x t, s.find? x = some t → t.vars = []

/-- The patterns are met at ascending positions, all with the same values for the names. -/
def Term.InOrder (names : List String) (patterns events : List Term) : Prop :=
  ∃ (s : Subst) (positions : List Nat), s.Grounds names ∧ positions.Pairwise (· < ·) ∧
    List.Forall₂ (fun p i => events[i]? = some (p.subst s)) patterns positions

theorem Subst.exists_grounds (names : List String) (values : String → Term)
    (ground : ∀ x ∈ names, (values x).vars = []) :
    ∃ s : Subst, s.Grounds names ∧ ∀ x ∈ names, s.value x = values x := by
  let s : Subst := Table.ofList (names.map fun x => (x, values x))
  have listed (x : String) : x ∈ s.keys ↔ x ∈ names := by simp [s, Table.mem_keys_ofList]
  have entry {x : String} {t : Term} (found : s.find? x = some t) : x ∈ names ∧ values x = t := by
    simpa [and_comm, eq_comm] using Table.find?_ofList found
  refine ⟨s, ⟨listed, fun x t found => ?_⟩, fun x member => ?_⟩
  · obtain ⟨member, rfl⟩ := entry found
    exact ground x member
  · obtain ⟨t, found⟩ := Table.exists_find?_iff.mpr ((listed x).mpr member)
    rw [value_of_find? found, (entry found).2]

theorem Term.subterms_under {g : String → Term} {t : Term} {x : String} (occurs : x ∈ t.vars) :
    g x ∈ (t.under g).subterms := by
  induction t using Term.induct with
  | var y =>
    obtain rfl : x = y := by simpa using occurs
    exact subterms_self _
  | const | lit | name => simp at occurs
  | app f args ih =>
    obtain ⟨t, member, inside⟩ := List.mem_flatMap.mp (vars_app f args ▸ occurs)
    rw [under_app, subterms_app, List.mem_cons, List.mem_flatMap]
    exact .inr ⟨t.under g, List.mem_map_of_mem member, ih t member inside⟩

namespace Formula

variable {V : Vocabulary} {bound : List String} {fs : List Formula} {terms : List Term}

def conj : List Formula → Formula
  | [only] => only
  | parts => .and parts

def indices (n : Nat) : List String := (List.range n).map fun k => s!"#e{k + 1}"

def occurrences (terms : List Term) : List Formula :=
  (terms.zip (indices terms.length)).map (fun p => .eventAt p.1 p.2) ++
    ((indices terms.length).zip (indices terms.length).tail).map fun p => .precedes p.1 p.2

def reachability (names : List String) (terms : List Term) : Formula :=
  .quant .some (names ++ indices terms.length) (conj (occurrences terms))

theorem closed_conj (each : ∀ f ∈ fs, f.Closed V bound) : (conj fs).Closed V bound := by
  unfold conj
  split
  next only => exact each only (by simp)
  next => exact .and each

theorem terms_conj : (conj fs).terms = termsAll fs := by
  unfold conj
  split
  next only => simp [termsAll]
  next => rfl

theorem isIndex_of_mem_indices {n : Nat} {i : String} (member : i ∈ indices n) :
    isIndex i = true := by
  obtain ⟨k, -, rfl⟩ := List.mem_map.mp member
  simp [isIndex, toString]

@[simp] theorem length_indices (n : Nat) : (indices n).length = n := by simp [indices]

theorem nodup_indices (n : Nat) : (indices n).Nodup := by
  refine List.nodup_range.map fun j k same => ?_
  have digits : "#e" ++ (j + 1).repr = "#e" ++ (k + 1).repr := by simpa [toString] using same
  have number := Nat.repr_inj.mp (String.append_right_inj _ |>.mp digits)
  omega

theorem termsAll_append (fs gs : List Formula) :
    termsAll (fs ++ gs) = termsAll fs ++ termsAll gs := by
  induction fs with
  | nil => simp [termsAll]
  | cons f fs ih => simp [termsAll, ih]

theorem termsAll_eventAt {is : List String} (same : terms.length = is.length) :
    termsAll ((terms.zip is).map fun p => .eventAt p.1 p.2) = terms := by
  induction terms generalizing is with
  | nil => simp [termsAll]
  | cons t terms ih =>
    cases is with
    | nil => simp at same
    | cons i is =>
      simp only [List.zip_cons_cons, List.map_cons, termsAll, Formula.terms]
      rw [ih (by simpa using same)]
      rfl

theorem terms_reachability (names : List String) : (reachability names terms).terms = terms := by
  have order (pairs : List (String × String)) :
      termsAll (pairs.map fun p => .precedes p.1 p.2) = [] := by
    induction pairs with
    | nil => simp [termsAll]
    | cons p pairs ih => simp [termsAll, Formula.terms, ih]
  rw [reachability, Formula.terms, terms_conj, occurrences, termsAll_append, order,
    termsAll_eventAt (by simp), List.append_nil]

end Formula

namespace Domain

open Formula (indices)

variable {D : Domain} {T : Theory} {g : Valuation} {names : List String}
  {terms patterns trace : List Term} {f : Formula} {fs : List Formula}

theorem satisfies_conj : D.Satisfies T (.conj fs) g ↔ ∀ f ∈ fs, D.Satisfies T f g := by
  unfold Formula.conj
  split
  next only => simp
  next => rw [Satisfies, satisfiesAll_iff]

theorem ascending_iff {xs : List String} :
    (∀ p ∈ xs.zip xs.tail, g p.1 < g p.2) ↔ (xs.map g).Pairwise (· < ·) := by
  rw [← List.isChain_iff_pairwise]
  induction xs with
  | nil => simp
  | cons x rest ih =>
    cases rest with
    | nil => simp
    | cons y rest =>
      simp only [List.tail_cons, List.zip_cons_cons, List.forall_mem_cons, List.map_cons,
        List.isChain_cons_cons] at ih ⊢
      rw [ih]

theorem met_iff {xs : List String} (normal : T.normalizeAll terms = .ok patterns)
    (same : xs.length = terms.length) :
    (∀ p ∈ terms.zip xs, D.Satisfies T (.eventAt p.1 p.2) g) ↔
      List.Forall₂ (fun p i => D.events[i]? = some (p.under (D.member g))) patterns (xs.map g) := by
  have each := mapM_eq_ok_iff.mp normal
  clear normal
  induction each generalizing xs with
  | nil =>
    obtain rfl := List.length_eq_zero_iff.mp same
    simp
  | cons normal _ ih =>
    cases xs with
    | nil => simp at same
    | cons x xs =>
      rw [List.zip_cons_cons, List.forall_mem_cons, List.map_cons, List.forall₂_cons]
      refine and_congr ?_ (ih (by simpa using same))
      simp only [Satisfies, normal, Except.ok.injEq, exists_eq_left']

theorem satisfies_occurrences_iff (normal : T.normalizeAll terms = .ok patterns) :
    (∀ f ∈ Formula.occurrences terms, D.Satisfies T f g) ↔
      ((indices terms.length).map g).Pairwise (· < ·) ∧
        List.Forall₂ (fun p i => D.events[i]? = some (p.under (D.member g))) patterns
          ((indices terms.length).map g) := by
  rw [Formula.occurrences, List.forall_mem_append, List.forall_mem_map, List.forall_mem_map,
    met_iff normal (by simp), and_comm, ← ascending_iff]
  rfl

theorem ground_of_create (theory : T.Declared) (ground : ∀ t ∈ trace, t.vars = [])
    (done : create T trace f = .ok D) : ∀ t ∈ D.members, t.vars = [] := by
  simp only [create, bind_eq_ok_iff, pure_eq_ok_iff] at done
  obtain ⟨events, normal, mentioned, -, rfl⟩ := done
  intro t member
  simp only [List.mem_eraseDups, List.mem_append, List.mem_flatMap, List.mem_filter,
    Term.isGround_iff] at member
  rcases member with ⟨e, among, piece⟩ | ⟨-, ground⟩
  · obtain ⟨e', member, rewritten⟩ := mem_of_mapM_eq_ok normal among
    refine List.eq_nil_iff_forall_not_mem.mpr fun x occurs => ?_
    have inside := theory.vars_normalize rewritten x (Term.mem_vars_of_subterm piece occurs)
    simp [ground e' member] at inside
  · exact ground

theorem map_indices_eq {h : Valuation} {positions : List Nat}
    (values : ∀ i ∈ indices positions.length,
      h i = positions.getD ((indices positions.length).idxOf i) 0) :
    (indices positions.length).map h = positions := by
  refine List.ext_getElem (by simp) fun k first second => ?_
  have inside : k < (indices positions.length).length := by simpa using second
  rw [List.getElem_map, values _ (List.getElem_mem inside),
    (Formula.nodup_indices _).idxOf_getElem k inside, List.getD_eq_getElem _ _ second]

section InOrder

variable (within : ∀ p ∈ patterns, p.Within names) (plain : ∀ x ∈ names, isIndex x = false)

include within plain

theorem inOrder_of_ranges (closed : ∀ t ∈ D.members, t.vars = []) {positions : List Nat}
    (ranges : D.Ranges names g) (ascending : positions.Pairwise (· < ·))
    (met : List.Forall₂ (fun p i => D.events[i]? = some (p.under (D.member g))) patterns
      positions) :
    Term.InOrder names patterns D.events := by
  have valued (x : String) (member : x ∈ names) : D.member g x ∈ D.members := by
    have below := ranges x member
    rw [Domain.bound, plain x member] at below
    exact List.mem_of_getElem? (getElem?_members below)
  obtain ⟨s, grounds, values⟩ := Subst.exists_grounds names (D.member g) fun x member =>
    closed _ (valued x member)
  refine ⟨s, positions, grounds, ascending, ?_⟩
  rw [List.forall₂_iff_get] at met ⊢
  refine ⟨met.1, fun k first second => (met.2 k first second).trans ?_⟩
  rw [Term.subst_eq_under]
  exact congrArg some (Term.under_congr fun x occurs =>
    (values x (within _ (List.get_mem patterns _) x occurs).1).symm)

theorem exists_ranges_of_inOrder (sound : D.Sound) (some_ : patterns ≠ [])
    (ordered : Term.InOrder names patterns D.events) :
    ∃ h, D.Ranges (names ++ indices patterns.length) h ∧
      (∀ x ∉ names ++ indices patterns.length, h x = g x) ∧
      ((indices patterns.length).map h).Pairwise (· < ·) ∧
      List.Forall₂ (fun p i => D.events[i]? = some (p.under (D.member h))) patterns
        ((indices patterns.length).map h) := by
  obtain ⟨s, positions, grounds, ascending, met⟩ := ordered
  rw [met.length_eq]
  have event (p : Term) (member : p ∈ patterns) : p.subst s ∈ D.members := by
    obtain ⟨i, -, here⟩ := exists_of_forall₂ met member
    exact sound.events _ (List.mem_of_getElem? here)
  have position (i : Nat) (member : i ∈ positions) : i < D.events.length := by
    obtain ⟨p, -, here⟩ := exists_of_forall₂ met.flip member
    exact (List.getElem?_eq_some_iff.mp here).1
  obtain ⟨p₀, first⟩ := List.exists_mem_of_ne_nil patterns some_
  let used (x : String) : Prop := ∃ p ∈ patterns, x ∈ p.vars
  -- A variable that no pattern has in its normal form may stand for anything.
  obtain ⟨h, varies, values, numbers⟩ := D.exists_varies (names ++ indices positions.length) g
    (fun x => open Classical in if used x then s.value x else p₀.subst s)
    (fun i => positions.getD ((indices positions.length).idxOf i) 0)
    (by
      intro x _ _
      split
      next occurs =>
        obtain ⟨p, member, occurs⟩ := occurs
        refine sound.closed _ (event p member) _ ?_
        rw [Term.subst_eq_under]
        exact Term.subterms_under occurs
      next => exact event p₀ first)
    (by
      intro i member index
      have among : i ∈ indices positions.length := by
        refine (List.mem_append.mp member).resolve_left fun name => ?_
        simp [plain i name] at index
      have below : (indices positions.length).idxOf i < positions.length := by
        simpa using List.idxOf_lt_length_iff.mpr among
      rw [List.getD_eq_getElem _ _ below]
      exact position _ (List.getElem_mem below))
  have same : (indices positions.length).map h = positions :=
    map_indices_eq fun i member => numbers i (List.mem_append_right _ member)
      (Formula.isIndex_of_mem_indices member)
  obtain ⟨ranges, kept⟩ := varies_iff.mp varies
  refine ⟨h, ranges, kept, same.symm ▸ ascending, same.symm ▸ ?_⟩
  rw [List.forall₂_iff_get] at met ⊢
  refine ⟨met.1, fun k first second => (met.2 k first second).trans ?_⟩
  rw [Term.subst_eq_under]
  refine congrArg some (Term.under_congr fun x occurs => ?_)
  obtain ⟨name, index⟩ := within _ (List.get_mem patterns _) x occurs
  rw [values x (List.mem_append_left _ name) index, if_pos ⟨_, List.get_mem patterns _, occurs⟩]

end InOrder

end Domain

section Check

variable {T : Theory} {V : Vocabulary} {names : List String} {terms patterns trace : List Term}
  {verdict : Bool}

structure Formula.Binds (names : List String) (terms : List Term) : Prop where
  some : terms ≠ []
  within : ∀ t ∈ terms, t.Within names
  plain : ∀ x ∈ names, isIndex x = false

theorem Formula.Binds.normal (binds : Binds names terms) (theory : T.Declared)
    (normal : T.normalizeAll terms = .ok patterns) : Binds names patterns where
  some := by
    have same := (mapM_eq_ok_iff.mp normal).length_eq
    rw [← List.length_pos_iff, ← same, List.length_pos_iff]
    exact binds.some
  within p member := by
    obtain ⟨t, among, rewritten⟩ := mem_of_mapM_eq_ok normal member
    exact (binds.within t among).normalize theory rewritten
  plain := binds.plain

theorem satisfies_reachability_iff {D : Domain} {g : Valuation} (sound : D.Sound)
    (closed : ∀ t ∈ D.members, t.vars = []) (normal : T.normalizeAll terms = .ok patterns)
    (binds : Formula.Binds names patterns) :
    D.Satisfies T (.reachability names terms) g ↔ Term.InOrder names patterns D.events := by
  simp only [Formula.reachability, Domain.Satisfies, Domain.satisfies_conj,
    Domain.satisfies_occurrences_iff normal]
  constructor
  · rintro ⟨h, ranges, -, ascending, met⟩
    have inner : D.Ranges names h := fun x member => ranges x (List.mem_append_left _ member)
    exact Domain.inOrder_of_ranges binds.within binds.plain closed inner ascending met
  · intro ordered
    rw [(mapM_eq_ok_iff.mp normal).length_eq]
    exact Domain.exists_ranges_of_inOrder binds.within binds.plain sound binds.some ordered

theorem check_reachability_iff (theory : T.Declared)
    (formula : (Formula.reachability names terms).Closed V [])
    (binds : Formula.Binds names terms) (ground : ∀ t ∈ trace, t.vars = []) :
    (Formula.reachability names terms).check T trace = .ok verdict ↔
      ∃ patterns events, T.normalizeAll terms = .ok patterns ∧ T.normalizeAll trace = .ok events ∧
        (verdict = true ↔ Term.InOrder names patterns events) := by
  rw [formula.check_eq_ok_iff theory]
  constructor
  · rintro ⟨D, created, means⟩
    have sound := Domain.sound_of_create created
    have closed := Domain.ground_of_create theory ground created
    simp only [Domain.create, bind_eq_ok_iff, pure_eq_ok_iff, Formula.terms_reachability] at created
    obtain ⟨events, second, patterns, first, rfl⟩ := created
    exact ⟨patterns, events, first, second,
      means.trans (satisfies_reachability_iff sound closed first (binds.normal theory first))⟩
  · rintro ⟨patterns, events, first, second, means⟩
    obtain ⟨D, created, rfl⟩ : ∃ D,
        Domain.create T trace (.reachability names terms) = .ok D ∧ D.events = events := by
      simp [Domain.create, Formula.terms_reachability, first, second]
    have sound := Domain.sound_of_create created
    have closed := Domain.ground_of_create theory ground created
    exact ⟨D, created, means.trans
      (satisfies_reachability_iff sound closed first (binds.normal theory first)).symm⟩

end Check

namespace Lexicon

variable {L : Lexicon} {l : LemmaDecl} {stated : Lemma} {bound : List String} {es : List EventExpr}
  {ts : List Term}

theorem terms_eq_mapM (es : List Expr) : L.terms bound es = es.mapM (L.term bound) := by
  induction es with
  | nil => rfl
  | cons e es ih => rw [terms, ih, List.mapM_cons]

theorem events_eq_mapM (es : List EventExpr) : L.events bound es = es.mapM (L.event bound) := by
  induction es with
  | nil => rfl
  | cons e es ih => rw [events, ih, List.mapM_cons]

theorem exists_terms_of_events (read : L.events bound es = .ok ts) :
    ∃ us, L.terms bound (es.flatMap (·.args)) = .ok us := by
  rw [terms_eq_mapM]
  refine exists_mapM_eq_ok fun e member => ?_
  obtain ⟨event, among, inside⟩ := List.mem_flatMap.mp member
  obtain ⟨t, -, made⟩ := exists_of_mapM_eq_ok (events_eq_mapM es ▸ read) among
  obtain ⟨us, inner, -⟩ := event_eq_ok made
  obtain ⟨u, -, one⟩ := exists_of_mapM_eq_ok (terms_eq_mapM event.args ▸ inner) inside
  exact ⟨u, one⟩

theorem plain_of_events (read : L.events (L.implicitOf [] es) es = .ok ts) :
    ∀ x ∈ L.implicitOf [] es, isIndex x = false := by
  intro x member
  obtain ⟨us, inner⟩ := exists_terms_of_events read
  have occurs := (mem_vars_of_implicitAll inner member member).resolve_left (by simp)
  exact (vars_of_terms inner x occurs.2).2

theorem closed_reachability (read : L.events bound es = .ok ts) :
    (Formula.reachability bound ts).Closed L.vocabulary [] := by
  refine .some (Formula.closed_conj (List.forall_mem_append.mpr ⟨?_, ?_⟩))
  · rw [List.forall_mem_map]
    rintro ⟨t, i⟩ member
    obtain ⟨among, index⟩ := List.of_mem_zip member
    obtain ⟨e, -, made⟩ := mem_of_mapM_eq_ok (events_eq_mapM es ▸ read) among
    exact closed_of_event made ⟨Formula.isIndex_of_mem_indices index, by simp [index]⟩
      fun x member => by simp [member]
  · rw [List.forall_mem_map]
    rintro ⟨i, j⟩ member
    obtain ⟨first, second⟩ := List.of_mem_zip member
    have second := List.mem_of_mem_tail second
    exact .precedes ⟨Formula.isIndex_of_mem_indices first, by simp [first]⟩
      ⟨Formula.isIndex_of_mem_indices second, by simp [second]⟩

theorem reachability_of_translate (accepted : L.translate l = .ok stated)
    (kind : l.kind = .reachable) :
    ∃ terms, L.events (L.implicitOf [] l.events) l.events = .ok terms ∧
      stated.formula = .reachability (L.implicitOf [] l.events) terms ∧
      Formula.Binds (L.implicitOf [] l.events) terms := by
  have stop (cause : Cause) : (flaw cause : Result Unit) = throw (.flaw { cause }) := rfl
  obtain ⟨_, made⟩ := statement_of_translate accepted
  simp only [statement, kind, reachability, stop, throw_bind, ite_throw_eq_ok_iff, bind_eq_ok_iff,
    pure_eq_ok_iff, Prod.mk.injEq] at made
  obtain ⟨listed, _, ⟨terms, read, rfl⟩, same, -⟩ := made
  have same' := (mapM_eq_ok_iff.mp (events_eq_mapM l.events ▸ read)).length_eq
  refine ⟨terms, read, ?_, ?_, fun t member => ?_, plain_of_events read⟩
  · rw [← same, Formula.reachability, Formula.occurrences, Formula.indices, ← same']
    rfl
  · rw [← List.length_pos_iff, ← same', List.length_pos_iff]
    simpa using listed
  · obtain ⟨e, -, made⟩ := mem_of_mapM_eq_ok (events_eq_mapM l.events ▸ read) member
    exact vars_of_event made

/-- A reachability lemma is judged on a ground trace where its events and those of the trace have
normal forms, and holds where its events are met in order. -/
theorem check_reachability {solver : Solver} (theory : L.theory.Declared)
    (correct : solver.Correct) (accepted : L.translate l = .ok stated)
    (kind : l.kind = .reachable) :
    ∃ terms, L.events (L.implicitOf [] l.events) l.events = .ok terms ∧
      ∀ trace : List Term, (∀ t ∈ trace, t.isGround = true) → ∀ verdict : Bool,
        stated.formula.check L.theory trace solver = .ok verdict ↔
          ∃ patterns events, L.theory.normalizeAll terms = .ok patterns ∧
            L.theory.normalizeAll trace = .ok events ∧
            (verdict = true ↔ Term.InOrder (L.implicitOf [] l.events) patterns events) := by
  obtain ⟨terms, read, formula, binds⟩ := reachability_of_translate accepted kind
  refine ⟨terms, read, fun trace ground verdict => ?_⟩
  rw [formula, correct.check_eq]
  exact check_reachability_iff theory (closed_reachability read) binds fun t member =>
    Term.isGround_iff.mp (ground t member)

def delivery : LemmaDecl where
  name := "delivery"
  kind := .reachable
  events := [{ tag := "Sent", args := [.ident "x" none] },
    { tag := "Got", args := [.apply "fst" [.tuple [.ident "x" none, .ident "y" none]] none] }]

theorem check_delivery : ∃ T stated,
    let L : Lexicon := { theory := T, constants := .empty, vocabulary := [("Sent", 1), ("Got", 1)] }
    let patterns := [Term.app "Sent" [.var "x"], .app "Got" [.var "x"]]
    let sent := Term.app "Sent" [.lit "a"]
    let got := Term.app "Got" [.lit "a"]
    let other := Term.app "Got" [.lit "b"]
    Theory.ofBudget 64 = .ok T ∧ L.translate delivery = .ok stated ∧
      Term.InOrder ["x", "y"] patterns [other, sent, other, got] ∧
      ¬ Term.InOrder ["x", "y"] patterns [got, sent, other] ∧
      stated.formula.check T [other, sent, other, got] = .ok true ∧
      stated.formula.check T [got, sent, other] = .ok false := by
  let patterns := [Term.app "Sent" [.var "x"], .app "Got" [.var "x"]]
  let sent := Term.app "Sent" [.lit "a"]
  let got := Term.app "Got" [.lit "a"]
  let other := Term.app "Got" [.lit "b"]
  have ran : (do
      let T ← Theory.ofBudget 64
      let L : Lexicon := ⟨T, .empty, [("Sent", 1), ("Got", 1)]⟩
      let stated ← L.translate delivery
      let terms ← L.events (L.implicitOf [] delivery.events) delivery.events
      let normal ← T.normalizeAll terms
      let events ← T.normalizeAll [other, sent, other, got]
      let events' ← T.normalizeAll [got, sent, other]
      let verdict ← stated.formula.check T [other, sent, other, got]
      let verdict' ← stated.formula.check T [got, sent, other]
      return decide (L.implicitOf [] delivery.events = ["x", "y"] ∧ normal = patterns ∧
        events = [other, sent, other, got] ∧ events' = [got, sent, other] ∧ verdict = true ∧
        verdict' = false) : Result Bool) = .ok true := by
    decide +kernel
  simp only [bind_eq_ok_iff, pure_eq_ok_iff, lift_eq_ok_iff, decide_eq_true_iff] at ran
  obtain ⟨T, built, stated, accepted, terms, read, normal, normalized, events, third, events',
    third', verdict, judged, verdict', judged', names, rfl, rfl, rfl, rfl, rfl⟩ := ran
  obtain ⟨terms', read', judges⟩ :=
    check_reachability (L := ⟨T, .empty, [("Sent", 1), ("Got", 1)]⟩) (.start built)
      Solver.correct_exhaustive accepted rfl
  obtain rfl := Except.ok.inj (read.symm.trans read')
  rw [names] at judges
  obtain ⟨_, _, first, second, holds⟩ := (judges _ (by decide) _).mp judged
  obtain ⟨_, _, first', second', fails⟩ := (judges _ (by decide) _).mp judged'
  obtain rfl := Except.ok.inj (normalized.symm.trans first)
  obtain rfl := Except.ok.inj (normalized.symm.trans first')
  obtain rfl := Except.ok.inj (third.symm.trans second)
  obtain rfl := Except.ok.inj (third'.symm.trans second')
  exact ⟨T, stated, built, accepted, holds.mp rfl,
    fun ordered => by simpa using fails.mpr ordered, judged, judged'⟩

end Lexicon

end ThreatModel
