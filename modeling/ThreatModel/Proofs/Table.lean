import Mathlib
import ThreatModel.Table

set_option autoImplicit false

namespace ThreatModel.Table

variable {κ α : Type}

@[simp] theorem keys_map {β : Type} (f : α → β) (t : Table κ α) : (t.map f).keys = t.keys := by
  simp [keys, map, Function.comp_def]

@[simp] theorem values_map {β : Type} (f : α → β) (t : Table κ α) :
    (t.map f).values = t.values.map f := by
  simp [values, map, Function.comp_def]

section Entries

variable [DecidableEq κ] {t : Table κ α} {key : κ} {value : α}

theorem mem_entries_of_find? (found : t.find? key = some value) : (key, value) ∈ t.entries := by
  obtain ⟨entries⟩ := t
  simp only [find?] at found
  induction entries with
  | nil => simp [lookup] at found
  | cons entry rest ih =>
    obtain ⟨k, v⟩ := entry
    by_cases hit : k = key
    · simp only [lookup, hit, ↓reduceIte, Option.some.injEq] at found
      simp [hit, found]
    · simp only [lookup, hit, ↓reduceIte] at found
      simp [ih found]

theorem isSome_find?_iff : (t.find? key).isSome ↔ key ∈ t.keys := by
  obtain ⟨entries⟩ := t
  simp only [find?, keys]
  induction entries with
  | nil => simp [lookup]
  | cons entry rest ih =>
    obtain ⟨k, v⟩ := entry
    by_cases hit : k = key
    · simp [lookup, hit]
    · simp [lookup, hit, ih, Ne.symm hit]

theorem exists_find?_iff : (∃ value, t.find? key = some value) ↔ key ∈ t.keys := by
  rw [← isSome_find?_iff, Option.isSome_iff_exists]

theorem find?_eq_none_iff : t.find? key = none ↔ key ∉ t.keys := by
  rw [← isSome_find?_iff, Option.not_isSome_iff_eq_none]

theorem contains_iff : t.contains key = true ↔ key ∈ t.keys := by
  rw [contains, isSome_find?_iff]

theorem find?_filter (t : Table κ α) (keep : κ → Bool) (key : κ) :
    (t.filter keep).find? key = if keep key then t.find? key else none := by
  obtain ⟨entries⟩ := t
  simp only [find?, filter]
  induction entries with
  | nil => simp [lookup]
  | cons entry rest ih =>
    obtain ⟨k, v⟩ := entry
    by_cases hit : k = key
    · subst hit
      cases kept : keep k <;> simp_all [lookup]
    · cases kept : keep k <;> simp_all [lookup]

theorem mem_write {k : κ} {v : α} {entries : List (κ × α)}
    (member : (k, v) ∈ write key value entries) : (k, v) = (key, value) ∨ (k, v) ∈ entries := by
  induction entries with
  | nil => simpa [write] using member
  | cons entry rest ih =>
    obtain ⟨k', v'⟩ := entry
    by_cases same : k' = key
    · simp only [write, same, ↓reduceIte, List.mem_cons] at member
      rcases member with here | later
      · exact Or.inl here
      · exact Or.inr (by simp [later])
    · simp only [write, same, ↓reduceIte, List.mem_cons] at member
      rcases member with here | later
      · exact Or.inr (by simp [here])
      · exact (ih later).imp_right fun h => by simp [h]

theorem mem_values_insert {v : α} (member : v ∈ (t.insert key value).values) :
    v = value ∨ v ∈ t.values := by
  obtain ⟨⟨k, _⟩, entry, rfl⟩ := List.mem_map.mp member
  rcases mem_write entry with new | old
  · exact .inl (Prod.mk.inj new).2
  · exact .inr (List.mem_map_of_mem old)

theorem mem_keys_insert {k : κ} : k ∈ (t.insert key value).keys ↔ k = key ∨ k ∈ t.keys := by
  rw [← isSome_find?_iff, ← isSome_find?_iff, find?_insert]
  by_cases same : key = k
  · simp [same]
  · simp [same, Ne.symm same]

theorem keys_insert_of_mem (value : α) (present : key ∈ t.keys) :
    (t.insert key value).keys = t.keys := by
  obtain ⟨entries⟩ := t
  simp only [keys, insert] at present ⊢
  induction entries with
  | nil => simp at present
  | cons entry rest ih =>
    obtain ⟨k, v⟩ := entry
    by_cases same : k = key
    · simp [write, same]
    · have later : key ∈ rest.map Prod.fst := by
        rcases List.mem_cons.mp present with here | later
        · exact absurd here.symm same
        · exact later
      simp [write, same, ih later]

theorem insert_eq_self (found : t.find? key = some value) : t.insert key value = t := by
  obtain ⟨entries⟩ := t
  simp only [find?, insert, Table.mk.injEq] at found ⊢
  induction entries with
  | nil => simp [lookup] at found
  | cons entry rest ih =>
    obtain ⟨k, v⟩ := entry
    by_cases same : k = key
    · simp_all [lookup, write]
    · simp_all [lookup, write]

theorem insert_insert (t : Table κ α) (key : κ) (value later : α) :
    (t.insert key value).insert key later = t.insert key later := by
  obtain ⟨entries⟩ := t
  simp only [insert, Table.mk.injEq]
  induction entries with
  | nil => simp [write]
  | cons entry rest ih => by_cases hit : entry.1 = key <;> simp [write, hit, ih]

theorem insert_comm {a b : κ} (x y : α) (distinct : a ≠ b) (present : a ∈ t.keys) :
    (t.insert a x).insert b y = (t.insert b y).insert a x := by
  obtain ⟨entries⟩ := t
  simp only [keys, insert, Table.mk.injEq] at present ⊢
  induction entries with
  | nil => simp at present
  | cons entry rest ih =>
    obtain ⟨k, v⟩ := entry
    by_cases isA : k = a
    · subst isA; simp [write, distinct]
    · have later : a ∈ rest.map Prod.fst := by
        rcases List.mem_cons.mp present with here | later
        · exact absurd here.symm isA
        · exact later
      by_cases isB : k = b
      · subst isB; simp [write, isA]
      · simp [write, isA, isB, ih later]

theorem map_insert {β : Type} (f : α → β) (t : Table κ α) (key : κ) (value : α) :
    (t.insert key value).map f = (t.map f).insert key (f value) := by
  obtain ⟨entries⟩ := t
  simp only [insert, map, Table.mk.injEq]
  induction entries with
  | nil => simp [write]
  | cons entry rest ih => by_cases hit : entry.1 = key <;> simp [write, hit, ih]

theorem entries_insert_of_not_mem (value : α) (absent : key ∉ t.keys) :
    (t.insert key value).entries = t.entries ++ [(key, value)] := by
  obtain ⟨entries⟩ := t
  simp only [insert, keys] at absent ⊢
  induction entries with
  | nil => rfl
  | cons entry rest ih =>
    obtain ⟨k, v⟩ := entry
    have other : k ≠ key := fun same => absent (by simp [same])
    have later : key ∉ rest.map Prod.fst := fun member => absent (by simp [member])
    simp [write, other, ih later]

end Entries

theorem nodup_keys_insert {t : Table κ α} [DecidableEq κ] (key : κ) (value : α)
    (distinct : t.keys.Nodup) : (t.insert key value).keys.Nodup := by
  by_cases present : key ∈ t.keys
  · rw [keys_insert_of_mem value present]
    exact distinct
  · rw [keys, entries_insert_of_not_mem value present, List.map_append, List.map_singleton,
      ← List.concat_eq_append]
    exact distinct.concat present

theorem find?_of_mem_entries [DecidableEq κ] {t : Table κ α} {key : κ} {value : α}
    (distinct : t.keys.Nodup) (member : (key, value) ∈ t.entries) : t.find? key = some value := by
  obtain ⟨entries⟩ := t
  simp only [keys, find?] at distinct member ⊢
  induction entries with
  | nil => simp at member
  | cons entry rest ih =>
    obtain ⟨k, v⟩ := entry
    obtain ⟨new, distinct⟩ := List.nodup_cons.mp distinct
    rcases List.mem_cons.mp member with here | later
    · obtain ⟨rfl, rfl⟩ := Prod.mk.inj here
      simp [lookup]
    · have other : k ≠ key := by
        rintro rfl
        exact new (List.mem_map.mpr ⟨(k, value), later, rfl⟩)
      simp [lookup, other, ih distinct later]

theorem find?_mapEntries {β : Type} [DecidableEq κ] (f : κ → α → β) (t : Table κ α) (key : κ) :
    (⟨t.entries.map fun (k, v) => (k, f k v)⟩ : Table κ β).find? key = (t.find? key).map (f key) := by
  obtain ⟨entries⟩ := t
  simp only [find?]
  induction entries with
  | nil => rfl
  | cons entry rest ih =>
    by_cases hit : entry.1 = key
    · simp [lookup, hit]
    · simp [lookup, hit, ih]

section Merge

variable [DecidableEq κ] {other t : Table κ α} {key : κ}

theorem mem_keys_merge : key ∈ (t.merge other).keys ↔ key ∈ t.keys ∨ key ∈ other.keys := by
  obtain ⟨pairs⟩ := other
  simp only [merge]
  induction pairs generalizing t with
  | nil => simp [keys]
  | cons pair rest ih =>
    obtain ⟨k, v⟩ := pair
    have cons : key ∈ (⟨(k, v) :: rest⟩ : Table κ α).keys ↔
        key = k ∨ key ∈ (⟨rest⟩ : Table κ α).keys := by simp [keys]
    rw [List.foldl_cons, ih, mem_keys_insert, cons]
    tauto

theorem nodup_keys_merge (distinct : t.keys.Nodup) : (t.merge other).keys.Nodup := by
  obtain ⟨pairs⟩ := other
  simp only [merge]
  induction pairs generalizing t with
  | nil => exact distinct
  | cons pair rest ih => exact ih (nodup_keys_insert pair.1 pair.2 distinct)

theorem find?_merge {value : α} (found : (t.merge other).find? key = some value) :
    (key, value) ∈ other.entries ∨ t.find? key = some value := by
  obtain ⟨pairs⟩ := other
  simp only [merge] at found ⊢
  induction pairs generalizing t with
  | nil => exact Or.inr found
  | cons pair rest ih =>
    obtain ⟨k, v⟩ := pair
    rcases ih found with later | here
    · exact Or.inl (by simp [later])
    · rw [find?_insert] at here
      by_cases same : k = key
      · simp only [same, ↓reduceIte, Option.some.injEq] at here
        simp [same, here]
      · simp only [same, ↓reduceIte] at here
        exact Or.inr here

theorem nodup_keys_ofList (pairs : List (κ × α)) : (ofList pairs).keys.Nodup := by
  have merged : (empty.merge ⟨pairs⟩ : Table κ α).keys.Nodup :=
    nodup_keys_merge (by simp [keys, empty])
  exact merged

theorem find?_ofList {pairs : List (κ × α)} {value : α}
    (found : (ofList pairs).find? key = some value) : (key, value) ∈ pairs := by
  have written : (empty.merge ⟨pairs⟩).find? key = some value := found
  simpa using find?_merge written

theorem mem_keys_ofList {pairs : List (κ × α)} :
    key ∈ (ofList pairs).keys ↔ key ∈ pairs.map Prod.fst := by
  have merged : key ∈ (empty.merge ⟨pairs⟩ : Table κ α).keys ↔ _ := mem_keys_merge
  simpa [keys, empty, ofList, merge] using merged

end Merge

section Alike

variable {β : Type}

-- The same keys in the same order, with related values.
def Alike (R : κ → α → β → Prop) (t : Table κ α) (t' : Table κ β) : Prop :=
  List.Forall₂ (fun p p' => p.1 = p'.1 ∧ R p.1 p.2 p'.2) t.entries t'.entries

variable {R : κ → α → β → Prop} {t : Table κ α} {t' : Table κ β}

theorem alike_map {f : α → β} (each : ∀ key value, R key value (f value)) : t.Alike R (t.map f) := by
  rw [Alike, map, List.forall₂_map_right_iff, List.forall₂_same]
  exact fun entry _ => ⟨rfl, each entry.1 entry.2⟩

theorem Alike.eq_map {f : α → β} (alike : t.Alike R t')
    (only : ∀ key value value', R key value value' → f value = value') : t.map f = t' := by
  obtain ⟨entries⟩ := t
  obtain ⟨entries'⟩ := t'
  simp only [Alike, map, Table.mk.injEq] at alike ⊢
  induction alike with
  | nil => rfl
  | @cons p p' rest rest' pair _ ih =>
    rw [List.map_cons, ih, pair.1, only p.1 p.2 p'.2 pair.2]

variable [DecidableEq κ]

theorem Alike.find? (alike : t.Alike R t') (key : κ) :
    Option.Rel (R key) (t.find? key) (t'.find? key) := by
  obtain ⟨entries⟩ := t
  obtain ⟨entries'⟩ := t'
  simp only [Alike, Table.find?] at alike ⊢
  induction alike with
  | nil => exact .none
  | @cons p p' rest rest' pair _ ih =>
    simp only [lookup, ← pair.1]
    split
    next same => exact .some (same ▸ pair.2)
    next => exact ih

theorem Alike.insert (alike : t.Alike R t') {key : κ} {value : α} {value' : β}
    (related : R key value value') : (t.insert key value).Alike R (t'.insert key value') := by
  obtain ⟨entries⟩ := t
  obtain ⟨entries'⟩ := t'
  simp only [Alike, Table.insert] at alike ⊢
  induction alike with
  | nil => exact .cons ⟨rfl, related⟩ .nil
  | @cons p p' rest rest' pair others ih =>
    simp only [write, ← pair.1]
    split
    next same => exact .cons ⟨rfl, same ▸ related⟩ others
    next => exact .cons ⟨rfl, pair.2⟩ ih

end Alike

end ThreatModel.Table
