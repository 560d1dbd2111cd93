import Mathlib
import ThreatModel.Proofs.Callable.Recursion

set_option autoImplicit false

namespace ThreatModel

open Result

def Table.Holds {κ α : Type} (t : Table κ α) (entries : List (κ × α)) : Prop :=
  t.entries = entries ∧ t.keys.Nodup

inductive NameKind where
  | symbol
  | callable
  | constant
  | store
  deriving DecidableEq, Repr

def SyscallDecl.definition (decl : SyscallDecl) : Definition :=
  { name := decl.name, params := decl.params, body := decl.body, role := .syscall, loc := decl.loc }

def AttackDecl.definition (decl : AttackDecl) : Definition :=
  { name := decl.name, params := decl.params, body := decl.body
    role := (decl.target.map Role.active).getD .passive, loc := decl.loc }

namespace Model

def symbols (M : Model) : List (String × Nat) :=
  [("pair", 2), ("fst", 1), ("snd", 1)] ++ M.functions.map fun f => (f.name, f.arity.toNat)

def definitions (M : Model) : List Definition :=
  Definition.builtins ++ M.syscalls.map (·.definition) ++ M.attacks.map (·.definition)

def stores (M : Model) : List (String × Option String × TypeKind) :=
  (attackerStore, none, .channel) ::
    (M.channels.map fun c => (c.name, some c.type, .channel)) ++
      M.files.map fun f => (f.name, some f.type, .filesys)

/-- Names that the model declares although they stand for something built in. -/
def Reuses (M : Model) (x : String) : Prop :=
  (x ∈ M.functions.map (·.name) ∧ x ∈ Definition.builtins.map (·.name)) ∨
    (x = attackerStore ∧
      x ∈ M.functions.map (·.name) ++ M.syscalls.map (·.name) ++ M.attacks.map (·.name))

end Model

namespace Declarations

def namesOf (D : Declarations) : NameKind → List String
  | .symbol => D.theory.symbols.keys
  | .callable => D.callables.definitions.keys
  | .constant => D.constants.keys
  | .store => D.stores.stores.keys

def Shared (D : Declarations) (x : String) : Prop :=
  ∃ kind other, kind ≠ other ∧ x ∈ D.namesOf kind ∧ x ∈ D.namesOf other

structure Lists (D : Declarations) (M : Model) : Prop where
  symbols : D.theory.symbols.Holds M.symbols
  definitions : D.callables.definitions.Holds (M.definitions.map fun d => (d.name, d))
  constants : D.constants.Holds (M.constants.map fun c => (c.name, c.fresh))
  stores : (D.stores.stores.map fun d => (d.type, d.kind)).Holds M.stores

end Declarations

namespace Table

variable {κ α : Type}

theorem Holds.insert [DecidableEq κ] {t : Table κ α} {entries : List (κ × α)} {key : κ} {value : α}
    (holds : t.Holds entries) (absent : key ∉ t.keys) :
    (t.insert key value).Holds (entries ++ [(key, value)]) :=
  ⟨by rw [entries_insert_of_not_mem value absent, holds.1], nodup_keys_insert key value holds.2⟩

theorem Holds.keys_eq {t : Table κ α} {entries : List (κ × α)} (holds : t.Holds entries) :
    t.keys = entries.map Prod.fst := by
  rw [keys, holds.1]

theorem Holds.foldlM {ε β σ : Type} {f : σ → β → Except ε σ} (table : σ → Table κ α)
    {entry : β → κ × α} {items : List β} {s s' : σ} {entries : List (κ × α)}
    (holds : (table s).Holds entries)
    (step : ∀ s x s' entries, f s x = .ok s' → (table s).Holds entries →
      (table s').Holds (entries ++ [entry x]))
    (done : items.foldlM f s = .ok s') : (table s').Holds (entries ++ items.map entry) := by
  induction items generalizing s entries with
  | nil =>
    obtain rfl : s = s' := by simpa using done
    simpa using holds
  | cons x rest ih =>
    simp only [List.foldlM_cons, bind_eq_ok_iff] at done
    obtain ⟨s₁, first, later⟩ := done
    simpa using ih (step s x s₁ entries first holds) later

end Table

namespace Theory

variable {T T' : Theory} {f : String} {arity : Int} {lhs rhs : Term} {location : Option Location}

theorem symbols_of_declareSymbol {entries : List (String × Nat)}
    (holds : T.symbols.Holds entries) (done : T.declareSymbol f arity location = .ok T') :
    T'.symbols.Holds (entries ++ [(f, arity.toNat)]) := by
  obtain ⟨unknown, rfl⟩ := exists_of_declareSymbol done
  exact holds.insert (Table.find?_eq_none_iff.mp unknown)

theorem symbols_of_declareEquation (done : T.declareEquation lhs rhs location = .ok T') :
    T'.symbols = T.symbols := by
  obtain ⟨rfl, -⟩ := exists_of_declareEquation done
  rfl

theorem symbols_ofBudget {budget : Int} (done : ofBudget budget = .ok T) :
    T.symbols.Holds [("pair", 2), ("fst", 1), ("snd", 1)] := by
  simp only [ofBudget, bind_eq_ok_iff] at done
  obtain ⟨T₁, pair, T₂, fst, T₃, snd, T₄, first, second⟩ := done
  have none : ({ budget } : Theory).symbols.Holds [] := ⟨rfl, List.nodup_nil⟩
  have declared := symbols_of_declareSymbol
    (symbols_of_declareSymbol (symbols_of_declareSymbol none pair) fst) snd
  rw [symbols_of_declareEquation second, symbols_of_declareEquation first]
  exact declared

end Theory

namespace Callables

variable {C C' : Callables} {entries : List (String × Definition)}

theorem definitions_of_declareSyscall {decl : SyscallDecl} (holds : C.definitions.Holds entries)
    (done : C.declareSyscall decl = .ok C') :
    C'.definitions.Holds (entries ++ [(decl.name, decl.definition)]) := by
  simp only [Callables.declareSyscall, bind_eq_ok_iff, pure_eq_ok_iff, checkName_eq_ok_iff] at done
  obtain ⟨-, new, -, -, rfl⟩ := done
  exact holds.insert (Table.find?_eq_none_iff.mp new)

theorem exists_of_declareAttack {decl : AttackDecl} (done : C.declareAttack decl = .ok C') :
    C.find? decl.name = none ∧
      C'.definitions = C.definitions.insert decl.name decl.definition := by
  simp only [Callables.declareAttack, bind_eq_ok_iff, checkName_eq_ok_iff] at done
  obtain ⟨-, new, -, -, done⟩ := done
  refine ⟨new, ?_⟩
  split at done
  next target active =>
    simp only [bind_eq_ok_iff, pure_eq_ok_iff] at done
    obtain ⟨-, -, rfl⟩ := done
    simp only [AttackDecl.definition, active, Option.map_some, Option.getD_some]
    rfl
  next passive =>
    simp only [bind_eq_ok_iff, pure_eq_ok_iff] at done
    obtain ⟨-, -, rfl⟩ := done
    simp only [AttackDecl.definition, passive, Option.map_none, Option.getD_none]
    rfl

theorem definitions_of_declareAttack {decl : AttackDecl} (holds : C.definitions.Holds entries)
    (done : C.declareAttack decl = .ok C') :
    C'.definitions.Holds (entries ++ [(decl.name, decl.definition)]) := by
  obtain ⟨new, grown⟩ := exists_of_declareAttack done
  rw [grown]
  exact holds.insert (Table.find?_eq_none_iff.mp new)

end Callables

namespace Declarations

variable {M : Model} {budget : Int} {D L : Declarations}

theorem symbols_of_early {E : Declarations} (made : early budget M = .ok E) :
    E.theory.symbols.Holds M.symbols := by
  simp only [early, bind_eq_ok_iff] at made
  obtain ⟨T, started, D₁, functions, D₂, equations, D₃, types, grants⟩ := made
  obtain ⟨P, -, rfl⟩ := (foldlM_policy fun P (t : TypeDecl) =>
    P.declareType t.name t.kind t.loc).mp types
  obtain ⟨P', -, rfl⟩ := (foldlM_policy fun P (g : GrantDecl) =>
    P.declareGrant ⟨g.subject, g.object, g.operations⟩ g.loc).mp grants
  have declared : D₁.theory.symbols.Holds M.symbols := by
    refine Table.Holds.foldlM (fun D : Declarations => D.theory.symbols)
      (Theory.symbols_ofBudget started) ?_ functions
    intro D f D' entries done holds
    simp only [bind_eq_ok_iff, pure_eq_ok_iff] at done
    obtain ⟨T', declared, rfl⟩ := done
    exact Theory.symbols_of_declareSymbol holds declared
  show D₂.theory.symbols.Holds M.symbols
  refine foldlM_keeps (P := fun D : Declarations => D.theory.symbols.Holds M.symbols) declared ?_
    equations
  intro D e D' _ kept done
  simp only [addEquation, bind_eq_ok_iff, pure_eq_ok_iff] at done
  obtain ⟨lhs, -, rhs, -, T', equation, rfl⟩ := done
  rwa [Theory.symbols_of_declareEquation equation]

theorem definitions_of_stages {S C : Callables}
    (syscalls : M.syscalls.foldlM Callables.declareSyscall {} = .ok S)
    (attacks : M.attacks.foldlM Callables.declareAttack S = .ok C) :
    C.definitions.Holds (M.definitions.map fun d => (d.name, d)) := by
  have builtin : ({} : Callables).definitions.Holds
      (Definition.builtins.map fun d => (d.name, d)) := ⟨rfl, Table.nodup_keys_ofList _⟩
  have called := Table.Holds.foldlM Callables.definitions builtin
    (fun _ _ _ _ done holds => Callables.definitions_of_declareSyscall holds done) syscalls
  have attacked := Table.Holds.foldlM Callables.definitions called
    (fun _ _ _ _ done holds => Callables.definitions_of_declareAttack holds done) attacks
  rw [Model.definitions, List.map_append, List.map_append, List.map_map, List.map_map]
  exact attacked

theorem Unused.not_mem {x : String} (unused : D.Unused x) (kind : NameKind) :
    x ∉ D.namesOf kind := by
  have absent {α : Type} {t : Table String α} (none : t.contains x = false) : x ∉ t.keys := by
    rw [← Table.contains_iff, none]
    exact Bool.false_ne_true
  cases kind with
  | symbol => exact absent unused.symbol
  | callable => exact absent unused.callable
  | constant => exact absent unused.constant
  | store => exact absent unused.store

theorem exists_of_addConstant {D' : Declarations} {c : ConstantDecl}
    (done : D.addConstant c = .ok D') :
    D.Unused c.name ∧ D' = { D with constants := D.constants.insert c.name c.fresh } := by
  simp only [addConstant, bind_eq_ok_iff, pure_eq_ok_iff, lift_eq_ok_iff] at done
  obtain ⟨⟨⟩, unused, rfl⟩ := done
  exact ⟨unused_of_checkUnused unused, rfl⟩

theorem constants_of_late (made : late D M = .ok L) (none : D.constants = .empty) :
    L.constants.Holds (M.constants.map fun c => (c.name, c.fresh)) := by
  simp only [late, bind_eq_ok_iff] at made
  obtain ⟨D₁, constants, D₂, channels, D₃, files, templates⟩ := made
  let Declared (D : Declarations) : Prop :=
    D.constants.Holds (M.constants.map fun c => (c.name, c.fresh))
  have declared : Declared D₁ := by
    have empty : D.constants.Holds [] := by
      rw [none]
      exact ⟨rfl, List.nodup_nil⟩
    refine Table.Holds.foldlM Declarations.constants empty ?_ constants
    intro D c D' entries done holds
    obtain ⟨unused, rfl⟩ := exists_of_addConstant done
    exact holds.insert (unused.not_mem .constant)
  show Declared L
  refine foldlM_keeps (foldlM_keeps (foldlM_keeps declared ?_ channels) ?_ files) ?_ templates
  · intro D c D' _ kept done
    obtain ⟨-, -, facts, R, -, -, rfl⟩ := exists_of_addStore done
    exact kept
  · intro D f D' _ kept done
    obtain ⟨-, -, facts, R, -, -, rfl⟩ := exists_of_addStore done
    exact kept
  · intro D p D' _ kept done
    rw [exists_of_addTemplate done]
    exact kept

def storeTypes (D : Declarations) : Table String (Option String × TypeKind) :=
  D.stores.stores.map fun d => (d.type, d.kind)

theorem storeTypes_of_addStore {D' : Declarations} {name type : String} {expected : TypeKind}
    {initial : Result (List Term)} {location : Option Location}
    {entries : List (String × Option String × TypeKind)} (holds : D.storeTypes.Holds entries)
    (done : D.addStore name type expected initial location = .ok D') :
    D'.storeTypes.Holds (entries ++ [(name, some type, expected)]) := by
  obtain ⟨-, unused, facts, R, -, declared, rfl⟩ := exists_of_addStore done
  simp only [Registry.declare, bind_eq_ok_iff, pure_eq_ok_iff] at declared
  obtain ⟨normal, -, rfl⟩ := declared
  have absent := (unused_of_checkUnused unused).not_mem .store
  simp only [storeTypes, Table.map_insert]
  exact holds.insert (by simpa [storeTypes, namesOf] using absent)

theorem storeTypes_of_late (made : late D M = .ok L) (initial : D.stores = {}) :
    L.storeTypes.Holds M.stores := by
  simp only [late, bind_eq_ok_iff] at made
  obtain ⟨D₁, constants, D₂, channels, D₃, files, templates⟩ := made
  have before : D₁.stores = {} := by
    refine foldlM_keeps (P := fun D : Declarations => D.stores = {}) initial ?_ constants
    intro D c D' _ kept done
    obtain ⟨-, rfl⟩ := exists_of_addConstant done
    exact kept
  have attacker : D₁.storeTypes.Holds [(attackerStore, none, .channel)] := by
    rw [storeTypes, before]
    exact ⟨rfl, List.nodup_singleton _⟩
  have opened := Table.Holds.foldlM storeTypes attacker
    (fun _ _ _ _ done holds => storeTypes_of_addStore holds done) channels
  have filed := Table.Holds.foldlM storeTypes opened
    (fun _ _ _ _ done holds => storeTypes_of_addStore holds done) files
  refine foldlM_keeps (P := fun D : Declarations => D.storeTypes.Holds M.stores) filed ?_ templates
  intro D p D' _ kept done
  rw [exists_of_addTemplate done]
  exact kept

theorem theory_of_late (made : late D M = .ok L) : L.theory = D.theory :=
  late_keeps (P := fun L : Declarations => L.theory = D.theory) rfl
    (fun _ _ _ _ kept => kept) (fun _ _ _ _ _ _ _ _ _ kept => kept) (fun _ _ kept => kept) made

theorem lists_of_ofModel (made : ofModel budget M = .ok D) : D.Lists M := by
  obtain ⟨E, P, S, C, L, early, -, syscalls, attacks, late, rfl, -⟩ := exists_stages made
  obtain ⟨noCallables, noStores, noConstants, -⟩ := initial_of_early early
  rw [noCallables] at syscalls
  have symbols : L.theory.symbols.Holds M.symbols := by
    rw [theory_of_late late]
    show E.theory.symbols.Holds M.symbols
    exact symbols_of_early early
  have definitions : L.callables.definitions.Holds (M.definitions.map fun d => (d.name, d)) := by
    rw [callables_of_late late]
    exact definitions_of_stages syscalls attacks
  have constants := constants_of_late late noConstants
  have stores := storeTypes_of_late late noStores
  exact ⟨symbols, definitions, constants, stores⟩

structure Separate (D : Declarations) : Prop where
  constants : ∀ x ∈ D.namesOf .constant, ∀ kind ≠ .constant, x ∉ D.namesOf kind
  stores : ∀ x ∈ D.namesOf .store, x ≠ attackerStore → ∀ kind ≠ .store, x ∉ D.namesOf kind

theorem Separate.constant {D : Declarations} {x : String} {fresh : Bool} (separate : D.Separate)
    (unused : D.Unused x) :
    ({ D with constants := D.constants.insert x fresh } : Declarations).Separate := by
  constructor
  · intro y known kind other
    have elsewhere : y ∉ D.namesOf kind := by
      rcases Table.mem_keys_insert.mp known with rfl | old
      · exact unused.not_mem kind
      · exact separate.constants y old kind other
    cases kind with
    | constant => exact absurd rfl other
    | _ => exact elsewhere
  · intro y known own kind other there
    have here := separate.stores y known own
    cases kind with
    | constant =>
      rcases Table.mem_keys_insert.mp there with rfl | old
      · exact unused.not_mem .store known
      · exact here .constant other old
    | _ => exact here _ other there

theorem Separate.store {D : Declarations} {x : String} {d : StoreDecl} (separate : D.Separate)
    (unused : D.Unused x) :
    ({ D with stores := ⟨D.stores.stores.insert x d⟩ } : Declarations).Separate := by
  constructor
  · intro y known kind other there
    have here := separate.constants y known
    cases kind with
    | store =>
      rcases Table.mem_keys_insert.mp there with rfl | old
      · exact unused.not_mem .constant known
      · exact here .store other old
    | _ => exact here _ other there
  · intro y known own kind other
    have elsewhere : y ∉ D.namesOf kind := by
      rcases Table.mem_keys_insert.mp known with rfl | old
      · exact unused.not_mem kind
      · exact separate.stores y old own kind other
    cases kind with
    | store => exact absurd rfl other
    | _ => exact elsewhere

theorem separate_of_ofModel (made : ofModel budget M = .ok D) : D.Separate := by
  obtain ⟨E, P, S, C, L, early, -, -, -, late, rfl, -⟩ := exists_stages made
  obtain ⟨-, noStores, noConstants, -⟩ := initial_of_early early
  have separate : L.Separate := by
    refine late_keeps (P := Separate) ?_ (fun D x fresh unused kept => kept.constant unused) ?_
      (fun _ _ kept => ⟨kept.constants, kept.stores⟩) late
    · -- Nothing is declared yet but the attacker's store.
      constructor
      · simp [namesOf, noConstants, Table.keys, Table.empty]
      · simp [namesOf, noStores, Table.keys, Table.single]
    · intro D R name type kind facts unused _ declared kept
      simp only [Registry.declare, bind_eq_ok_iff, pure_eq_ok_iff] at declared
      obtain ⟨normal, -, rfl⟩ := declared
      exact kept.store unused
  exact ⟨separate.constants, separate.stores⟩

section Names

variable {D : Declarations} {M : Model} {x : String} {budget : Int}

theorem Lists.namesOf_symbol (lists : D.Lists M) :
    D.namesOf .symbol = ["pair", "fst", "snd"] ++ M.functions.map (·.name) := by
  rw [namesOf, lists.symbols.keys_eq]
  simp [Model.symbols, Function.comp_def]

theorem Lists.namesOf_callable (lists : D.Lists M) :
    D.namesOf .callable = Definition.builtins.map (·.name) ++ M.syscalls.map (·.name) ++
      M.attacks.map (·.name) := by
  rw [namesOf, lists.definitions.keys_eq]
  simp [Model.definitions, SyscallDecl.definition, AttackDecl.definition, Function.comp_def]

theorem Lists.attacker_mem (lists : D.Lists M) : attackerStore ∈ D.namesOf .store := by
  rw [namesOf, ← Table.keys_map fun d : StoreDecl => (d.type, d.kind), lists.stores.keys_eq]
  simp [Model.stores]

theorem callable_not_mem_symbol (made : ofModel budget M = .ok D)
    (declared : x ∈ M.syscalls.map (·.name) ++ M.attacks.map (·.name)) : x ∉ D.namesOf .symbol := by
  obtain ⟨E, _, _, _, L, early, -, -, -, late, rfl, -, -, freeSyscalls, freeAttacks, -⟩ :=
    exists_stages made
  show x ∉ L.theory.symbols.keys
  rw [theory_of_late late]
  intro known
  have known : E.theory.hasSymbol x = true := Table.contains_iff.mpr known
  simp only [List.mem_append, List.mem_map] at declared
  rcases declared with ⟨s, member, rfl⟩ | ⟨a, member, rfl⟩
  · simp [freeSyscalls s member] at known
  · simp [freeAttacks a member] at known

theorem reuses_of_symbol_callable (made : ofModel budget M = .ok D) (symbol : x ∈ D.namesOf .symbol)
    (callable : x ∈ D.namesOf .callable) : M.Reuses x := by
  have lists := lists_of_ofModel made
  have undeclared := mt (callable_not_mem_symbol made) (not_not_intro symbol)
  rw [lists.namesOf_callable, List.append_assoc, List.mem_append] at callable
  have builtin := callable.resolve_right undeclared
  rw [lists.namesOf_symbol, List.mem_append] at symbol
  refine .inl ⟨symbol.resolve_left fun pairing => ?_, builtin⟩
  have apart : ∀ y ∈ ["pair", "fst", "snd"], y ∉ Definition.builtins.map (·.name) := by decide
  exact apart x pairing builtin

theorem reuses_of_store (made : ofModel budget M = .ok D) {kind : NameKind}
    (store : x ∈ D.namesOf .store) (other : kind ≠ .store) (there : x ∈ D.namesOf kind) :
    M.Reuses x := by
  have lists := lists_of_ofModel made
  have separate := separate_of_ofModel made
  obtain rfl : x = attackerStore := by
    by_contra own
    exact separate.stores x store own kind other there
  refine .inr ⟨rfl, ?_⟩
  cases kind with
  | symbol =>
    rw [lists.namesOf_symbol, List.mem_append] at there
    rw [List.append_assoc]
    exact List.mem_append_left _ (there.resolve_left (by decide))
  | callable =>
    rw [lists.namesOf_callable, List.append_assoc, List.mem_append] at there
    rw [List.append_assoc]
    exact List.mem_append_right _ (there.resolve_left (by decide))
  | constant => exact absurd store (separate.constants _ there .store (by simp))
  | store => exact absurd rfl other

theorem shared_of_reuses (lists : D.Lists M) (reuses : M.Reuses x) : D.Shared x := by
  rcases reuses with ⟨symbol, builtin⟩ | ⟨rfl, declared⟩
  · refine ⟨.symbol, .callable, by simp, ?_, ?_⟩
    · rw [lists.namesOf_symbol]
      exact List.mem_append_right _ symbol
    · rw [lists.namesOf_callable, List.append_assoc]
      exact List.mem_append_left _ builtin
  · rw [List.append_assoc, List.mem_append] at declared
    rcases declared with symbol | callable
    · refine ⟨.symbol, .store, by simp, ?_, lists.attacker_mem⟩
      rw [lists.namesOf_symbol]
      exact List.mem_append_right _ symbol
    · refine ⟨.callable, .store, by simp, ?_, lists.attacker_mem⟩
      rw [lists.namesOf_callable, List.append_assoc]
      exact List.mem_append_right _ callable

end Names

/-- Every declaration of a model without a flaw is kept, and the kinds share no name but those
that the model takes over from what is built in. -/
theorem shared_iff_reuses {budget : Int} {M : Model} {D : Declarations}
    (made : ofModel budget M = .ok D) : D.Lists M ∧ ∀ x, D.Shared x ↔ M.Reuses x := by
  have lists := lists_of_ofModel made
  have separate := separate_of_ofModel made
  refine ⟨lists, fun x => ⟨?_, shared_of_reuses lists⟩⟩
  rintro ⟨kind, other, distinct, here, there⟩
  -- Constants are apart from everything, and what a store shares is the attacker's name.
  by_cases stored : kind = .store ∨ other = .store
  · rcases stored with rfl | rfl
    · exact reuses_of_store made here distinct.symm there
    · exact reuses_of_store made there distinct here
  · obtain ⟨kind_ne, other_ne⟩ := not_or.mp stored
    cases kind with
    | store => exact absurd rfl kind_ne
    | constant => exact absurd there (separate.constants x here other distinct.symm)
    | symbol =>
        cases other with
        | symbol => exact absurd rfl distinct
        | callable => exact reuses_of_symbol_callable made here there
        | constant => exact absurd here (separate.constants x there .symbol distinct)
        | store => exact absurd rfl other_ne
    | callable =>
        cases other with
        | symbol => exact reuses_of_symbol_callable made there here
        | callable => exact absurd rfl distinct
        | constant => exact absurd here (separate.constants x there .callable distinct)
        | store => exact absurd rfl other_ne

end Declarations

def Model.shadowing : Model :=
  { functions := [{ name := "send", arity := 2 }]
    types := [{ name := "host_t", kind := .process }]
    processes := [{ name := "P", type := "host_t" }]
    system := some
      { instances := [{ template := "P", name := some "p" }]
        lemmas :=
          [{ name := "r", kind := .reachable, events := [{ tag := "Done", args := [] }] }] } }

theorem Declarations.send_shared_in_shadowing :
    ∃ D, ofModel 1000 Model.shadowing = .ok D ∧ D.Lists Model.shadowing ∧ D.Shared "send" := by
  have ran : (do let D ← ofModel 1000 Model.shadowing; return D.constants.size : Result Nat) =
      .ok 0 := by decide +kernel
  simp only [bind_eq_ok_iff, pure_eq_ok_iff] at ran
  obtain ⟨D, made, -⟩ := ran
  obtain ⟨lists, shared⟩ := shared_iff_reuses made
  exact ⟨D, made, lists, (shared "send").mpr (.inl (by decide))⟩

end ThreatModel
