import Mathlib
import ThreatModel.Proofs.Distinct
import ThreatModel.Proofs.Result
import ThreatModel.Proofs.Term.Names
import ThreatModel.Proofs.Theory.WellFormed
import ThreatModel.Proofs.Formula.Constraint

set_option autoImplicit false

namespace ThreatModel

open Result

namespace Domain

variable {D : Domain} {T : Theory} {g : Valuation} {bound : List String} {t value : Term}
  {trace : List Term} {f : Formula} {x : String} {found : Option (List (String × Nat))}
  {entries : List (String × Term)}

structure Sound (D : Domain) : Prop where
  distinct : D.members.Nodup
  events : ∀ e ∈ D.events, e ∈ D.members
  closed : ∀ t ∈ D.members, ∀ s ∈ t.subterms, s ∈ D.members

theorem sound_of_create (done : create T trace f = .ok D) : D.Sound := by
  simp only [create, bind_eq_ok_iff, pure_eq_ok_iff] at done
  obtain ⟨events, -, mentioned, -, rfl⟩ := done
  refine ⟨nodup_eraseDups _, ?_, ?_⟩
  · intro e member
    simp only [List.mem_eraseDups, List.mem_append, List.mem_flatMap]
    exact .inl ⟨e, member, e.subterms_self⟩
  · intro t member s inside
    simp only [List.mem_eraseDups, List.mem_append, List.mem_flatMap, List.mem_filter,
      Term.isGround_iff] at member ⊢
    rcases member with ⟨e, among, piece⟩ | ⟨⟨u, among, piece⟩, ground⟩
    · exact .inl ⟨e, among, Term.subterms_trans inside piece⟩
    · refine .inr ⟨⟨u, among, Term.subterms_trans inside piece⟩, ?_⟩
      exact List.eq_nil_iff_forall_not_mem.mpr fun x occurs => by
        simpa [ground] using Term.mem_vars_of_subterm inside occurs

theorem exists_of_create_eq_error {d : Diagnostic} (failed : create T trace f = .error d) :
    ∃ t ∈ trace ++ f.terms, T.normalize t = .error d := by
  simp only [create, bind_eq_error_iff, pure_ne_error, and_false, exists_false,
    or_false] at failed
  rcases failed with events | ⟨_, -, mentioned⟩
  · obtain ⟨t, member, diverged⟩ := mapM_eq_error events
    exact ⟨t, by simp [member], diverged⟩
  · obtain ⟨t, member, diverged⟩ := mapM_eq_error mentioned
    exact ⟨t, by simp [member], diverged⟩

theorem diverges_of_create {d : Diagnostic} (failed : create T trace f = .error d) :
    (Fault.flaw d).Diverges := by
  obtain ⟨t, -, diverged⟩ := exists_of_create_eq_error failed
  exact Fault.diverges_of_normalize diverged

theorem Sound.place?_eq_some_iff (sound : D.Sound) {k : Nat} :
    D.place? t = some k ↔ D.members[k]? = some t := by
  rw [place?, List.findIdx?_eq_some_iff_getElem, List.getElem?_eq_some_iff]
  refine exists_congr fun inside => ?_
  rw [decide_eq_true_iff]
  -- The first place is the only one, since the members are distinct.
  refine ⟨And.left, fun here => ⟨here, fun j before there => ?_⟩⟩
  have same : D.members[j] = D.members[k] := (of_decide_eq_true there).trans here.symm
  exact absurd (sound.distinct.getElem_inj_iff.mp same) before.ne

def member (D : Domain) (g : Valuation) (x : String) : Term := (D.members[g x]?).getD (.var x)

theorem member_eq (here : D.members[g x]? = some t) : D.member g x = t := by
  simp [member, here]

theorem getElem?_members (below : g x < D.members.length) :
    D.members[g x]? = some (D.member g x) := by
  simp [member, below]

theorem pins_iff (done : D.pins bound entries = .ok found) :
    (∃ pins ∈ found, ∀ pin ∈ pins, g pin.1 = pin.2) ↔
      ∀ entry ∈ entries, D.place? entry.2 = some (g entry.1) := by
  induction entries generalizing found with
  | nil =>
    obtain rfl : some [] = found := by simpa [pins] using done
    simp
  | cons entry rest ih =>
    obtain ⟨x, u⟩ := entry
    simp only [pins] at done
    split at done
    next => simp at done
    next =>
      split at done
      next absent =>
        obtain rfl : none = found := by simpa using done
        simp [absent]
      next k placed =>
        simp only [bind_eq_ok_iff, pure_eq_ok_iff] at done
        obtain ⟨others, later, rfl⟩ := done
        simp only [List.forall_mem_cons, placed, Option.some.injEq, ← ih later]
        constructor
        · rintro ⟨pins, member, each⟩
          obtain ⟨tail, member', rfl⟩ := Option.map_eq_some_iff.mp member
          obtain ⟨here, each⟩ := List.forall_mem_cons.mp each
          exact ⟨here.symm, tail, member', each⟩
        · rintro ⟨here, tail, member, each⟩
          exact ⟨_, Option.map_eq_some_iff.mpr ⟨tail, member, rfl⟩,
            List.forall_mem_cons.mpr ⟨here.symm, each⟩⟩

theorem exists_pins (known : ∀ entry ∈ entries, entry.1 ∈ bound) :
    ∃ found, D.pins bound entries = .ok found := by
  induction entries with
  | nil => exact ⟨_, rfl⟩
  | cons entry rest ih =>
    obtain ⟨x, u⟩ := entry
    obtain ⟨found, later⟩ := ih fun entry member => known entry (by simp [member])
    have here : x ∈ bound := known (x, u) (by simp)
    cases placed : D.place? u with
    | none => exact ⟨none, by simp [pins, here, placed]⟩
    | some k => exact ⟨found.map ((x, k) :: ·), by simp [pins, here, placed, later]⟩

theorem Sound.denotes_iff (sound : D.Sound) (inside : value ∈ D.members)
    (below : ∀ x ∈ t.vars, g x < D.members.length) (done : D.denotes bound t value = .ok found) :
    (∃ pins ∈ found, ∀ pin ∈ pins, g pin.1 = pin.2) ↔ t.under (D.member g) = value := by
  simp only [denotes] at done
  constructor
  · split at done
    next =>
      obtain rfl : none = found := by simpa using done
      simp
    next σ met =>
      intro pinned
      obtain ⟨covered, same⟩ := Term.extend?_sound met
      rw [← same, Term.subst_eq_under]
      refine Term.under_congr fun x occurs => ?_
      obtain ⟨u, bound⟩ := covered.covers x occurs
      have placed := (pins_iff done).mp pinned (x, u) (Table.mem_entries_of_find? bound)
      rw [Subst.value_of_find? bound]
      exact member_eq (sound.place?_eq_some_iff.mp placed)
  -- The members themselves are a match, and a match is unique on the variables of the pattern.
  · rintro rfl
    have unknown (x : String) (u : Term) (found : Table.empty.find? x = some u) :
        D.member g x = u := by
      simp at found
    obtain ⟨σ, met, agrees⟩ := Term.exists_extend? t unknown
    have matched : t.match? (t.under (D.member g)) = some σ := met
    rw [matched] at done
    refine (pins_iff done).mpr ?_
    rintro ⟨x, u⟩ entry
    have distinct := Term.nodup_keys_extend? met (by simp [Table.keys, Table.empty])
    have occurs := ((Term.extend?_sound met).1.of_empty entry).1
    rw [sound.place?_eq_some_iff, getElem?_members (below x occurs),
      agrees x u (Table.find?_of_mem_entries distinct entry)]

theorem exists_denotes (known : ∀ x ∈ t.vars, x ∈ bound) (value : Term) :
    ∃ found, D.denotes bound t value = .ok found := by
  simp only [denotes]
  split
  next => exact ⟨none, rfl⟩
  next σ met =>
    refine exists_pins ?_
    rintro ⟨x, u⟩ entry
    exact known x ((Term.extend?_sound met).1.of_empty entry).1

theorem Sound.eventOptions_iff (sound : D.Sound)
    (below : ∀ x ∈ t.vars, g x < D.members.length) {i : String} {numbered : List (Term × Nat)}
    (inside : ∀ p ∈ numbered, p.1 ∈ D.members) {options : List (List (String × Nat))}
    (done : D.eventOptions bound t i numbered = .ok options) :
    Constraint.Meets options g ↔ (t.under (D.member g), g i) ∈ numbered := by
  induction numbered generalizing options with
  | nil =>
    obtain rfl : [] = options := by simpa [eventOptions] using done
    simp [Constraint.Meets]
  | cons first rest ih =>
    obtain ⟨value, position⟩ := first
    simp only [eventOptions, bind_eq_ok_iff] at done
    obtain ⟨found, denoted, done⟩ := done
    have here := sound.denotes_iff (inside (value, position) (by simp)) below denoted
    have others := fun p member => inside p (List.mem_cons_of_mem _ member)
    cases found with
    | none =>
      have apart : t.under (D.member g) ≠ value := by simpa using here
      simp [ih others done, apart]
    | some pins =>
      simp only [bind_eq_ok_iff, pure_eq_ok_iff] at done
      obtain ⟨later, rest', rfl⟩ := done
      have meets : (∀ pin ∈ pins, g pin.1 = pin.2) ↔ t.under (D.member g) = value := by
        simpa using here
      rw [List.mem_cons, ← ih others rest', Prod.mk.injEq, ← meets]
      simp only [Constraint.Meets, List.mem_cons, exists_eq_or_imp, forall_eq_or_imp,
        and_comm (a := g i = position)]

theorem exists_eventOptions (known : ∀ x ∈ t.vars, x ∈ bound) (i : String)
    (numbered : List (Term × Nat)) :
    ∃ options, D.eventOptions bound t i numbered = .ok options := by
  induction numbered with
  | nil => exact ⟨[], rfl⟩
  | cons first rest ih =>
    obtain ⟨found, denoted⟩ := exists_denotes (D := D) known first.1
    obtain ⟨options, later⟩ := ih
    cases found with
    | none => exact ⟨options, by simp [eventOptions, denoted, later]⟩
    | some pins => exact ⟨((i, first.2) :: pins) :: options, by simp [eventOptions, denoted, later]⟩

theorem Sound.exists_event (sound : D.Sound) {event : Term} (normal : T.normalize event = .ok t)
    (known : ∀ x ∈ t.vars, x ∈ bound) {i : String} (index : i ∈ bound) :
    ∃ options, D.constrain T (.eventAt event i) bound = .ok (.oneOf options) ∧
      ∀ g : Valuation, (∀ x ∈ t.vars, g x < D.members.length) →
        (Constraint.Meets options g ↔ D.events[g i]? = some (t.under (D.member g))) := by
  obtain ⟨options, done⟩ := exists_eventOptions (D := D) known i D.events.zipIdx
  refine ⟨options, ?_, fun g below => ?_⟩
  · simp only [constrain, requireIndex, index, if_true, bind_eq_ok_iff, lift_eq_ok_iff,
      pure_eq_ok_iff]
    exact ⟨(), trivial, t, normal, options, done, rfl⟩
  · rw [sound.eventOptions_iff below ?_ done, List.mem_zipIdx_iff_getElem?]
    exact fun p member => sound.events p.1 (List.fst_mem_of_mem_zipIdx member)

theorem constrain_all {xs : List String} (f : Formula) (some_ : xs ≠ []) :
    D.constrain T (.quant .all xs f) bound = (do
      let body ← D.constrain T f (xs ++ bound)
      return .all (xs.map fun x => (x, D.bound x)) body) := by
  cases xs with
  | nil => exact absurd rfl some_
  | cons x xs => simp [constrain]

theorem constrain_some {xs : List String} (f : Formula) (some_ : xs ≠ []) :
    D.constrain T (.quant .some xs f) bound = (do
      let body ← D.constrain T f (xs ++ bound)
      return .some (xs.map fun x => (x, D.bound x)) body) := by
  cases xs with
  | nil => exact absurd rfl some_
  | cons x xs => simp [constrain]

theorem exists_varies (D : Domain) (xs : List String) (g : Valuation) (values : String → Term)
    (positions : Valuation) (terms : ∀ x ∈ xs, isIndex x = false → values x ∈ D.members)
    (indices : ∀ x ∈ xs, isIndex x = true → positions x < D.events.length) :
    ∃ h, Valuation.Varies (xs.map fun x => (x, D.bound x)) g h ∧
      (∀ x ∈ xs, isIndex x = false → D.member h x = values x) ∧
      ∀ x ∈ xs, isIndex x = true → h x = positions x := by
  have placed (x : String) (member : x ∈ xs) (plain : isIndex x = false) :
      ∃ k, D.members[k]? = some (values x) := List.getElem?_of_mem (terms x member plain)
  choose! place here using placed
  let h : Valuation := fun x =>
    if x ∈ xs then if isIndex x then positions x else place x else g x
  have names (x : String) (member : x ∈ xs) (plain : isIndex x = false) : h x = place x := by
    simp [h, member, plain]
  have numbers (x : String) (member : x ∈ xs) (index : isIndex x = true) : h x = positions x := by
    simp [h, member, index]
  refine ⟨h, varies_iff.mpr ⟨fun x member => ?_, fun x absent => by simp [h, absent]⟩, ?_, numbers⟩
  · cases index : isIndex x with
    | true =>
      rw [numbers x member index, Domain.bound, if_pos index]
      exact indices x member index
    | false =>
      rw [names x member index, Domain.bound, index]
      exact (List.getElem?_eq_some_iff.mp (here x member index)).1
  · intro x member plain
    apply member_eq
    rw [names x member plain]
    exact here x member plain

theorem below_of_varies {xs : List String} {h : Valuation}
    (varies : Valuation.Varies (xs.map fun x => (x, D.bound x)) g h) (member : x ∈ xs)
    (plain : isIndex x = false) : h x < D.members.length := by
  have below := (varies_iff.mp varies).1 x member
  rwa [Domain.bound, plain] at below

end Domain

namespace Formula

variable {T : Theory} {D : Domain} {f : Formula} {trace : List Term} {solver : Solver}

theorem check_of_constrain {c : Constraint} (created : Domain.create T trace f = .ok D)
    (done : D.constrain T f [] = .ok c) : f.check T trace solver = .ok (solver.holds c) := by
  simp only [check, bind_eq_ok_iff, lift_eq_ok_iff, pure_eq_ok_iff]
  exact ⟨D, created, c, done, rfl⟩

theorem check_of_create_eq_error {d : Diagnostic} (failed : Domain.create T trace f = .error d) :
    f.check T trace solver = .error (.flaw d) := by
  rw [check, failed]
  rfl

end Formula

end ThreatModel
