import Mathlib
import ThreatModel.Proofs.Run.Step

set_option autoImplicit false

namespace ThreatModel

open Result

namespace Tally

def Ordered (t : Tally) : Prop := (t.counts.map Prod.fst).Pairwise (· < ·)

theorem mem_bumpIn {id i : Nat} {counts : List (Nat × Nat)}
    (member : i ∈ (bumpIn id counts).map Prod.fst) : i = id ∨ i ∈ counts.map Prod.fst := by
  induction counts with
  | nil => simpa [bumpIn] using member
  | cons entry rest ih =>
    obtain ⟨j, n⟩ := entry
    simp only [bumpIn] at member
    split at member
    next same => exact .inr (by simpa using member)
    next =>
      split at member
      next => simpa using member
      next =>
        rcases List.mem_cons.mp member with here | later
        · exact .inr (by simp [here])
        · rcases ih later with same | there
          · exact .inl same
          · exact .inr (List.mem_cons_of_mem _ there)

theorem Ordered.bump {t : Tally} (ordered : t.Ordered) (id : Nat) : (t.bump id).Ordered := by
  obtain ⟨counts⟩ := t
  simp only [Ordered, Tally.bump] at ordered ⊢
  induction counts with
  | nil => simp [bumpIn]
  | cons entry rest ih =>
    obtain ⟨i, n⟩ := entry
    obtain ⟨above, ordered⟩ := List.pairwise_cons.mp ordered
    simp only [bumpIn]
    split
    next => exact List.pairwise_cons.mpr ⟨above, ordered⟩
    next other =>
      split
      next less =>
        refine List.pairwise_cons.mpr ⟨?_, List.pairwise_cons.mpr ⟨above, ordered⟩⟩
        intro j member
        rcases List.mem_cons.mp member with rfl | later
        · exact less
        · exact less.trans (above j later)
      next more =>
        refine List.pairwise_cons.mpr ⟨?_, ih ordered⟩
        intro j member
        rcases mem_bumpIn member with rfl | there
        · show i < j
          omega
        · exact above j there

theorem count_bump {t : Tally} (ordered : t.Ordered) (id j : Nat) :
    (t.bump id).count j = if id = j then t.count j + 1 else t.count j := by
  obtain ⟨counts⟩ := t
  simp only [Ordered, bump, count] at ordered ⊢
  induction counts with
  | nil => by_cases same : id = j <;> simp [bumpIn, Table.lookup, same]
  | cons entry rest ih =>
    obtain ⟨i, n⟩ := entry
    obtain ⟨above, ordered⟩ := List.pairwise_cons.mp ordered
    simp only [bumpIn]
    split
    next here =>
      subst here
      by_cases same : i = j <;> simp [Table.lookup, same]
    next other =>
      split
      next less =>
        -- The id is smaller than all that are there, so it was never drawn.
        have absent : Table.lookup id rest = none := by
          have missing : id ∉ (⟨rest⟩ : Table Nat Nat).keys := fun member =>
            absurd (above id member) (by show ¬ i < id; omega)
          exact Table.find?_eq_none_iff.mpr missing
        by_cases same : id = j
        · subst same
          simp [Table.lookup, other, absent]
        · simp [Table.lookup, same]
      next =>
        by_cases same : i = j
        · subst same
          simp [Table.lookup, Ne.symm other]
        · simpa [Table.lookup, same] using ih ordered

def names (t : Tally) : Set String := {n | ∃ id k, k < t.count id ∧ nonceName id k = .name n}

theorem names_bump {t : Tally} (ordered : t.Ordered) (id : Nat) : t.names ⊆ (t.bump id).names := by
  rintro n ⟨j, k, less, same⟩
  refine ⟨j, k, ?_, same⟩
  rw [count_bump ordered]
  split <;> omega

theorem mem_names_bump {t : Tally} (ordered : t.Ordered) (id : Nat) {n : String}
    (drawn : nonceName id (t.count id) = .name n) : n ∈ (t.bump id).names :=
  ⟨id, t.count id, by simp [count_bump ordered], drawn⟩

end Tally

structure Term.Value (T : Theory) (names : Set String) (t : Term) : Prop where
  ground : t.vars = []
  normal : T.Normal t
  names : ∀ n ∈ t.names, n ∈ names

namespace Term.Value

variable {T : Theory} {names more : Set String} {t : Term}

theorem mono (value : t.Value T names) (wider : names ⊆ more) : t.Value T more :=
  { value with names := fun n member => wider (value.names n member) }

theorem subterm (value : t.Value T names) {s : Term} (inside : s ∈ t.subterms) : s.Value T names where
  ground := by
    refine List.eq_nil_iff_forall_not_mem.mpr fun x occurs => ?_
    simpa [value.ground] using Term.mem_vars_of_subterm inside occurs
  normal := value.normal.subterm inside
  names := fun n occurs => value.names n (Term.mem_names_of_subterm inside occurs)

theorem nonce {id k : Nat} {n : String} (drawn : nonceName id k = .name n) (member : n ∈ names) :
    (nonceName id k).Value T names := by
  rw [drawn]
  exact ⟨by simp, Rewriting.irreducible_atom rfl, by simpa using member⟩

theorem of_normalize (sound : T.WellFormed) {σ : Subst} {v : Term} (nameless : t.names = [])
    (values : ∀ x u, σ.find? x = some u → u.Value T names) (ground : (t.subst σ).vars = [])
    (done : T.normalize (t.subst σ) = .ok v) : v.Value T names where
  ground := sound.ground ground done
  normal := Theory.normal_of_normalize done
  names := by
    intro n occurs
    have written := sound.names done n occurs
    rw [Term.subst_eq_under, Term.mem_names_under, nameless] at written
    rcases written with own | ⟨x, -, inside⟩
    · simp at own
    · cases found : σ.find? x with
      | none => simp [Subst.value_of_none found] at inside
      | some u =>
        rw [Subst.value_of_find? found] at inside
        exact (values x u found).names n inside

end Term.Value

namespace Store

variable {T : Theory} {names : Set String} {pattern fact : Term} {options : List Candidate}

theorem mem_candidates {facts : List Term} {found : Subst}
    (done : candidates T pattern facts = .ok options) (member : (fact, found) ∈ options) :
    fact ∈ facts ∧ T.match? pattern fact = .ok (some found) := by
  induction facts generalizing options with
  | nil =>
    obtain rfl : [] = options := by simpa [candidates] using done
    simp at member
  | cons first rest ih =>
    simp only [candidates, bind_eq_ok_iff] at done
    obtain ⟨met, tried, done⟩ := done
    cases met with
    | none =>
      obtain ⟨inside, matching⟩ := ih done member
      exact ⟨by simp [inside], matching⟩
    | some values =>
      simp only [bind_eq_ok_iff, pure_eq_ok_iff] at done
      obtain ⟨others, later, rfl⟩ := done
      rcases List.mem_cons.mp member with here | there
      · obtain ⟨rfl, rfl⟩ := Prod.mk.inj here
        exact ⟨by simp, tried⟩
      · obtain ⟨inside, matching⟩ := ih later (List.mem_of_mem_filter there)
        exact ⟨by simp [inside], matching⟩

theorem match?_eq_ok {met : Option Subst} (normal : T.Normal pattern) (value : fact.Value T names)
    (done : T.match? pattern fact = .ok met) : pattern.match? fact = met := by
  simp only [Theory.match?, Theory.normalize_of_normal normal,
    Theory.normalize_of_normal value.normal, bind_eq_ok_iff, pure_eq_ok_iff] at done
  obtain ⟨p, rfl, t, rfl, same⟩ : ∃ p, pattern = p ∧ ∃ t, fact = t ∧ p.match? t = met := by
    simpa using done
  exact same

theorem candidate_sound {store : Store} {found : Subst} (normal : T.Normal pattern)
    (values : ∀ fact ∈ store.facts, fact.Value T names)
    (done : store.candidatesOf T pattern = .ok options) (member : (fact, found) ∈ options) :
    fact ∈ store.facts ∧ pattern.subst found = fact ∧
      (∀ x ∈ pattern.vars, ∃ u, found.find? x = some u) ∧
      ∀ x u, (x, u) ∈ found.entries → x ∈ pattern.vars ∧ u ∈ fact.subterms := by
  obtain ⟨inside, matching⟩ := mem_candidates done member
  have met : pattern.extend? fact .empty = some found :=
    match?_eq_ok normal (values fact inside) matching
  obtain ⟨taken, same⟩ := Term.extend?_sound met
  refine ⟨inside, same, taken.covers, ?_⟩
  intro x u entry
  simpa [Table.empty] using taken.entries x u entry

theorem holds_of_normal {s : Store} (normal : T.Normal fact) :
    s.holds T fact = .ok (s.facts.contains fact) := by
  simp only [holds, Theory.normalize_of_normal normal]
  rfl

theorem exists_candidatesOf {store : Store} (normal : T.Normal pattern)
    (values : ∀ fact ∈ store.facts, fact.Value T names) :
    ∃ options, store.candidatesOf T pattern = .ok options := by
  simp only [candidatesOf]
  generalize store.facts = facts at values
  induction facts with
  | nil => exact ⟨[], rfl⟩
  | cons fact rest ih =>
    obtain ⟨options, later⟩ := ih fun t member => values t (by simp [member])
    have tried : T.match? pattern fact = .ok (pattern.match? fact) := by
      simp [Theory.match?, Theory.normalize_of_normal normal,
        Theory.normalize_of_normal (values fact (by simp)).normal]
    simp only [candidates, tried]
    cases pattern.match? fact with
    | none => exact ⟨options, later⟩
    | some found =>
      exact ⟨(fact, found) :: options.filter (·.1 ≠ fact), by simp [later]⟩

def Held (stores : Table String Store) (key : String) (fact : Term) : Prop :=
  ∃ store, stores.find? key = some store ∧ fact ∈ store.facts

end Store

end ThreatModel
