import Mathlib
import ThreatModel.Elaboration.Build
import ThreatModel.Proofs.Graph.Basic
import ThreatModel.Proofs.Term.Names

set_option autoImplicit false

namespace ThreatModel

structure DefiniteAssignment where
  before : Nat → Set String
  after : Nat → Set String

namespace DefiniteAssignment

def available (A : DefiniteAssignment) (ends : Ends) : Set String := {x | ∀ e ∈ ends, x ∈ A.after e}

@[simp] theorem available_singleton (A : DefiniteAssignment) (i : Nat) : A.available [i] = A.after i := by
  ext x
  simp [available]

theorem available_append (A : DefiniteAssignment) (ends others : Ends) :
    A.available (ends ++ others) = A.available ends ∩ A.available others := by
  ext x
  simp only [available, List.mem_append, Set.mem_ofPred_eq, Set.mem_inter_iff]
  constructor
  · exact fun all => ⟨fun e member => all e (.inl member), fun e member => all e (.inr member)⟩
  · rintro ⟨first, second⟩ e (member | member)
    · exact first e member
    · exact second e member

def Agrees (n : Nat) (A A' : DefiniteAssignment) : Prop :=
  ∀ i < n, A'.before i = A.before i ∧ A'.after i = A.after i

theorem Agrees.refl (n : Nat) (A : DefiniteAssignment) : Agrees n A A := fun _ _ => ⟨rfl, rfl⟩

theorem Agrees.trans {n m : Nat} {A A' A'' : DefiniteAssignment} (first : Agrees n A A')
    (second : Agrees m A' A'') (bound : n ≤ m) : Agrees n A A'' := by
  intro i inside
  obtain ⟨before, after⟩ := first i inside
  obtain ⟨before', after'⟩ := second i (by omega)
  exact ⟨before'.trans before, after'.trans after⟩

theorem Agrees.available {n : Nat} {A A' : DefiniteAssignment} (agrees : Agrees n A A') {ends : Ends}
    (inside : ∀ e ∈ ends, e < n) : A'.available ends = A.available ends := by
  ext x
  constructor
  · intro all e member
    rw [← (agrees e (inside e member)).2]
    exact all e member
  · intro all e member
    rw [(agrees e (inside e member)).2]
    exact all e member

def extend (A : DefiniteAssignment) (n : Nat) (known defined : Set String) : DefiniteAssignment :=
  { before := Function.update A.before n known
    after := Function.update A.after n (known ∪ defined) }

variable {A : DefiniteAssignment} {n : Nat} {known defined : Set String}

@[simp] theorem before_extend : (A.extend n known defined).before n = known := by
  simp [extend]

@[simp] theorem after_extend : (A.extend n known defined).after n = known ∪ defined := by
  simp [extend]

theorem agrees_extend : Agrees n A (A.extend n known defined) := by
  intro i inside
  have other : i ≠ n := by omega
  simp [extend, other]

end DefiniteAssignment

def Declarations.shared (D : Declarations) : Set String :=
  {x | ∃ name, D.constants.find? name = some true ∧ x = freshConstantVar name}

structure Action.Sound (D : Declarations) (known : Set String) (action : Action) : Prop where
  uses : ∀ x, action.Uses x → x ∈ known
  introduced : ∀ x ∈ action.introduces, ∃ t ∈ action.terms, x ∈ t.vars
  nameless : ∀ t ∈ action.terms, t.names = []
  store : ∀ s, action.store? = some s → D.stores.contains s = true

theorem Action.sound_of_plain {D : Declarations} {known : Set String} {action : Action}
    (terms : action.terms = []) (store : action.store? = none) : action.Sound D known where
  uses := by
    rintro x ⟨⟨t, member, -⟩, -⟩
    simp [terms] at member
  introduced := by
    cases action <;> simp_all [Action.terms, Action.introduces]
  nameless := by simp [terms]
  store := by simp [store]

structure Graph.Sound (D : Declarations) (first next : Nat) (A : DefiniteAssignment) (g : Graph) :
    Prop where
  action : ∀ i node, g.node? i = some node → node.action.Sound D (A.before i)
  defined : ∀ i node, g.node? i = some node →
    ∀ x ∈ A.after i, x ∈ A.before i ∨ x ∈ node.action.defines
  edge : ∀ i node, g.node? i = some node → ∀ j ∈ node.successors, j < g.size ∧
    A.before j ⊆ A.after i
  nonce : ∀ i node x id, g.node? i = some node → node.action = .fresh x id → first ≤ id ∧ id < next
  shared : ∀ i < g.size, D.shared ⊆ A.after i

namespace Graph.Sound

variable {D : Declarations} {first next : Nat} {A : DefiniteAssignment} {g : Graph}

theorem shared_available (sound : g.Sound D first next A) {ends : Ends}
    (inside : ∀ e ∈ ends, e < g.size) : D.shared ⊆ A.available ends :=
  fun _ member e drawn => sound.shared e (inside e drawn) member

theorem mono (sound : g.Sound D first next A) {next' : Nat} (later : next ≤ next') :
    g.Sound D first next' A :=
  { sound with
    nonce := by
      intro i node x id found drawn
      obtain ⟨low, high⟩ := sound.nonce i node x id found drawn
      exact ⟨low, by omega⟩ }

theorem append (sound : g.Sound D first next A) (node : Node) {ends : Ends} {known : Set String}
    (inside : ∀ e ∈ ends, e < g.size) (bare : node.successors = [])
    (fits : known ⊆ A.available ends) (shared : D.shared ⊆ known)
    (needs : node.action.Sound D known)
    (nonce : ∀ x id, node.action = .fresh x id → first ≤ id ∧ id < next) :
    (g.append node ends).Sound D first next
      (A.extend g.size known {x | x ∈ node.action.defines}) := by
  have agrees : DefiniteAssignment.Agrees g.size A
      (A.extend g.size known {x | x ∈ node.action.defines}) := DefiniteAssignment.agrees_extend
  constructor
  · intro i found here
    rcases append_cases inside here with ⟨rfl, rfl⟩ | ⟨old, there, same, -⟩
    · simpa using needs
    · rw [same, (agrees i (lt_size_of_node? there)).1]
      exact sound.action i old there
  · intro i found here x after
    rcases append_cases inside here with ⟨rfl, rfl⟩ | ⟨old, there, same, -⟩
    · simpa using after
    · obtain ⟨before, after'⟩ := agrees i (lt_size_of_node? there)
      rw [same, before]
      exact sound.defined i old there x (after' ▸ after)
  · intro i found here j next
    rcases append_cases inside here with ⟨rfl, rfl⟩ | ⟨old, there, -, successors⟩
    · simp [bare] at next
    · rw [(agrees i (lt_size_of_node? there)).2]
      rcases successors j next with kept | ⟨drawn, rfl⟩
      · obtain ⟨target, fewer⟩ := sound.edge i old there j kept
        rw [(agrees j target).1, size_append]
        exact ⟨by omega, fewer⟩
      · -- The new node is drawn from this end and knows no more than all ends do.
        rw [DefiniteAssignment.before_extend, size_append]
        exact ⟨by omega, fun x member => fits member i drawn⟩
  · intro i found x id here drawn
    rcases append_cases inside here with ⟨rfl, rfl⟩ | ⟨old, there, same, -⟩
    · exact nonce x id drawn
    · exact sound.nonce i old x id there (same ▸ drawn)
  · intro i bound
    rw [size_append] at bound
    rcases Nat.lt_or_ge i g.size with old | new
    · rw [(agrees i old).2]
      exact sound.shared i old
    · obtain rfl : i = g.size := by omega
      rw [DefiniteAssignment.after_extend]
      exact fun x member => .inl (shared member)

theorem connect (sound : g.Sound D first next A) {source target : Nat} (inside : target < g.size)
    (fits : A.before target ⊆ A.after source) :
    (g.connect source target).Sound D first next A := by
  have kept {i : Nat} {node : Node} (here : (g.connect source target).node? i = some node) :
      ∃ old, g.node? i = some old ∧ node.action = old.action ∧
        ∀ j ∈ node.successors, j ∈ old.successors ∨ (i = source ∧ j = target) := by
    rw [node?_connect] at here
    split at here
    next same =>
      obtain ⟨old, there, rfl⟩ := Option.map_eq_some_iff.mp here
      exact ⟨old, there, rfl, fun j member => by simpa [same] using member⟩
    next => exact ⟨node, here, rfl, fun j member => .inl member⟩
  constructor
  · intro i node here
    obtain ⟨old, there, same, -⟩ := kept here
    rw [same]
    exact sound.action i old there
  · intro i node here
    obtain ⟨old, there, same, -⟩ := kept here
    rw [same]
    exact sound.defined i old there
  · intro i node here j next
    obtain ⟨old, there, -, successors⟩ := kept here
    rw [size_connect]
    rcases successors j next with old' | ⟨rfl, rfl⟩
    · exact sound.edge i old there j old'
    · exact ⟨inside, fits⟩
  · intro i node x id here drawn
    obtain ⟨old, there, same, -⟩ := kept here
    exact sound.nonce i old x id there (same ▸ drawn)
  · rw [size_connect]
    exact sound.shared

end Graph.Sound

end ThreatModel
