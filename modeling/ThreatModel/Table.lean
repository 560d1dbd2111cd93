set_option autoImplicit false

namespace ThreatModel

structure Table (κ α : Type) where
  entries : List (κ × α) := []
  deriving DecidableEq, Repr

namespace Table

variable {κ α β : Type}

def empty : Table κ α := ⟨[]⟩

def single (key : κ) (value : α) : Table κ α := ⟨[(key, value)]⟩

def keys (t : Table κ α) : List κ := t.entries.map Prod.fst

def values (t : Table κ α) : List α := t.entries.map Prod.snd

def size (t : Table κ α) : Nat := t.entries.length

def map (f : α → β) (t : Table κ α) : Table κ β := ⟨t.entries.map fun (k, v) => (k, f v)⟩

def filter (keep : κ → Bool) (t : Table κ α) : Table κ α := ⟨t.entries.filter fun (k, _) => keep k⟩

section Keyed

variable [DecidableEq κ]

def lookup (key : κ) : List (κ × α) → Option α
  | [] => none
  | (k, v) :: rest => if k = key then some v else lookup key rest

def write (key : κ) (value : α) : List (κ × α) → List (κ × α)
  | [] => [(key, value)]
  | (k, v) :: rest => if k = key then (k, value) :: rest else (k, v) :: write key value rest

def find? (t : Table κ α) (key : κ) : Option α := lookup key t.entries

def contains (t : Table κ α) (key : κ) : Bool := (t.find? key).isSome

def insert (t : Table κ α) (key : κ) (value : α) : Table κ α := ⟨write key value t.entries⟩

def ofList (pairs : List (κ × α)) : Table κ α :=
  pairs.foldl (fun t (k, v) => t.insert k v) empty

def merge (t other : Table κ α) : Table κ α :=
  other.entries.foldl (fun t (k, v) => t.insert k v) t

@[simp] theorem find?_empty (key : κ) : (empty : Table κ α).find? key = none := rfl

@[simp] theorem find?_single (key k : κ) (value : α) :
    (single k value).find? key = if k = key then some value else none := by
  simp [find?, single, lookup]

theorem lookup_write (key k : κ) (value : α) (entries : List (κ × α)) :
    lookup key (write k value entries) = if k = key then some value else lookup key entries := by
  induction entries with
  | nil => simp [write, lookup]
  | cons entry rest ih =>
      obtain ⟨k', v'⟩ := entry
      by_cases same : k' = k
      · subst same; by_cases hit : k' = key <;> simp [write, lookup, hit]
      · by_cases hit : k' = key
        · subst hit; simp [write, lookup, same, Ne.symm same]
        · simp [write, lookup, same, hit, ih]

@[simp] theorem find?_insert_self (t : Table κ α) (key : κ) (value : α) :
    (t.insert key value).find? key = some value := by
  simp [find?, insert, lookup_write]

theorem find?_insert (t : Table κ α) (key k : κ) (value : α) :
    (t.insert k value).find? key = if k = key then some value else t.find? key := by
  simp [find?, insert, lookup_write]

theorem find?_insert_of_ne (t : Table κ α) {key k : κ} (value : α) (other : k ≠ key) :
    (t.insert k value).find? key = t.find? key := by
  simp [find?_insert, other]

theorem find?_map (f : α → β) (t : Table κ α) (key : κ) :
    (t.map f).find? key = (t.find? key).map f := by
  simp only [find?, map]
  induction t.entries with
  | nil => rfl
  | cons entry rest ih => by_cases hit : entry.1 = key <;> simp [lookup, hit, ih]

end Keyed

end Table

end ThreatModel
