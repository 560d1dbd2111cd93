import ThreatModel.System.Basic

set_option autoImplicit false

namespace ThreatModel

structure Tally where
  counts : List (Nat × Nat) := []
  deriving DecidableEq, Repr

namespace Tally

def bumpIn (id : Nat) : List (Nat × Nat) → List (Nat × Nat)
  | [] => [(id, 1)]
  | (i, n) :: rest =>
      if i = id then (i, n + 1) :: rest
      else if id < i then (id, 1) :: (i, n) :: rest
      else (i, n) :: bumpIn id rest

def bump (t : Tally) (id : Nat) : Tally := { counts := bumpIn id t.counts }

def count (t : Tally) (id : Nat) : Nat := (Table.lookup id t.counts).getD 0

theorem bump_comm (t : Tally) (a b : Nat) : (t.bump a).bump b = (t.bump b).bump a := by
  obtain ⟨counts⟩ := t
  simp only [bump, Tally.mk.injEq]
  induction counts with
  | nil =>
      rcases Nat.lt_trichotomy a b with less | same | more
      · simp [bumpIn, less, Nat.ne_of_lt less, Nat.ne_of_gt less, Nat.lt_asymm less]
      · rw [same]
      · simp [bumpIn, more, Nat.ne_of_lt more, Nat.ne_of_gt more, Nat.lt_asymm more]
  | cons entry rest ih =>
      obtain ⟨i, n⟩ := entry
      grind [bumpIn]

end Tally

structure TraceEvent where
  owner : String
  index : Nat
  term : Term
  deriving DecidableEq, Repr

def TraceEvent.text (e : TraceEvent) : String := s!"{e.owner}:{e.term.text}"

structure RunConfig where
  maxSteps : Int := 200
  maxTraces : Int := 1000
  keepAttackerFacts : Bool := true
  dedupe : Bool := true
  deriving DecidableEq, Repr

structure State where
  pcs : Table String (Option Nat)
  envs : Table String Subst
  stores : Table String Store
  events : List TraceEvent := []
  drawn : Tally := {}
  dead : List String := []
  steps : Nat := 0
  deriving DecidableEq, Repr

def nonceName (id k : Nat) : Term := .name s!"n{id}.{k}"

namespace State

def drawGlobals : List GlobalFresh → Subst → Tally → Subst × Tally
  | [], shared, drawn => (shared, drawn)
  | g :: rest, shared, drawn =>
      drawGlobals rest (shared.insert g.var (nonceName g.nonce (drawn.count g.nonce)))
        (drawn.bump g.nonce)

def initial (S : System) : Except Diagnostic State := do
  let (shared, drawn) := drawGlobals S.globals .empty {}
  return {
    pcs := .ofList (S.instances.map fun inst => (inst.name, some 0))
    envs := .ofList (S.instances.map fun inst => (inst.name, shared))
    stores := ← Registry.instantiate S.theory S.stores
    drawn }

def active (s : State) : List String :=
  (s.pcs.entries.filter (·.2.isSome)).map (·.1)

def env (s : State) (name : String) : Subst := (s.envs.find? name).getD .empty

def store (s : State) (name : String) : Result Store :=
  match s.stores.find? name with
  | some store => .ok store
  | none => .error (.missing name)

def advance (s : State) (name : String) (successors : List Nat) : State :=
  { s with pcs := s.pcs.insert name successors.head?, steps := s.steps + 1 }

def halt (s : State) (name : String) : State := { s with pcs := s.pcs.insert name none }

def bindValue (s : State) (name x : String) (t : Term) : State :=
  { s with envs := s.envs.insert name ((s.env name).insert x t) }

def bindAll (s : State) (name : String) (found : Subst) : State :=
  { s with envs := s.envs.insert name ((s.env name).merge found) }

def setStore (s : State) (store : Store) : State :=
  { s with stores := s.stores.insert store.name store }

end State

end ThreatModel
