import Mathlib
import ThreatModel.Proofs.Elaboration.Builtins
import ThreatModel.Proofs.Run.Conservation

set_option autoImplicit false

namespace ThreatModel

open Result

theorem Table.countP_insert {κ α : Type} [DecidableEq κ] {t : Table κ α} {key : κ} {old : α}
    (value : α) (p : κ × α → Bool) (found : t.find? key = some old) :
    (t.insert key value).entries.countP p + (p (key, old)).toNat =
      t.entries.countP p + (p (key, value)).toNat := by
  obtain ⟨entries⟩ := t
  simp only [find?, insert] at found ⊢
  induction entries with
  | nil => simp [lookup] at found
  | cons entry rest ih =>
    obtain ⟨k, v⟩ := entry
    by_cases same : k = key
    · subst same
      obtain rfl : v = old := by simpa [lookup] using found
      simp only [write, if_true, List.countP_cons]
      cases p (k, v) <;> cases p (k, value) <;> simp
    · have found : lookup key rest = some old := by simpa [lookup, same] using found
      have := ih found
      simp only [write, same, if_false, List.countP_cons]
      omega

namespace Action

def takesFrom (key : String) : Action → Bool
  | .consume store _ _ => store == key
  | _ => false

def putsInto (key : String) : Action → Bool
  | .insert store _ => store == key
  | _ => false

theorem takesFrom_iff {key : String} {action : Action} :
    action.takesFrom key = true ↔ ∃ pattern binds, action = .consume key pattern binds := by
  cases action <;> simp [takesFrom]

theorem putsInto_iff {key : String} {action : Action} :
    action.putsInto key = true ↔ ∃ t, action = .insert key t := by
  cases action <;> simp [putsInto]

end Action

namespace Graph

def overwrites (g : Graph) (key : String) (j : Nat) : Bool :=
  (g.node? (j - 1)).any (fun before =>
    before.action.takesFrom key && before.successors.head? == some j) &&
  (g.node? j).any fun node => node.action.putsInto key

variable {D : Declarations} {g : Graph} {key : String}

theorem overwrites_iff {j : Nat} : g.overwrites key j = true ↔
    (∃ before, g.node? (j - 1) = some before ∧ before.action.takesFrom key = true ∧
      before.successors.head? = some j) ∧
    ∃ node, g.node? j = some node ∧ node.action.putsInto key = true := by
  simp [overwrites, Option.any_eq_true]

theorem overwrites_zero : g.overwrites key 0 = false := by
  by_contra overwrites
  obtain ⟨⟨before, found, takes, -⟩, node, found', puts⟩ :=
    overwrites_iff.mp (Bool.eq_true_of_not_eq_false overwrites)
  obtain rfl := Option.some.inj (found.symm.trans found')
  obtain ⟨pattern, binds, consumes⟩ := Action.takesFrom_iff.mp takes
  simp [consumes, Action.putsInto] at puts

theorem not_overwrites_of_assign {i : Nat} {x : String} {t : Term}
    (assigns : g.actions[i]? = some (.assign x t)) : g.overwrites key (i + 1) = false := by
  by_contra overwrites
  obtain ⟨⟨before, found, consumes, -⟩, -⟩ :=
    overwrites_iff.mp (Bool.eq_true_of_not_eq_false overwrites)
  rw [Nat.add_sub_cancel] at found
  rw [getElem?_actions, found, Option.map_some, Option.some.injEq] at assigns
  simp [assigns, Action.takesFrom] at consumes

theorem Replaces.overwrites {i : Nat} (replaces : g.Replaces key i) :
    g.overwrites key (i + 1) = true := by
  obtain ⟨⟨node, pattern, binds, here, takes, leads, -⟩, ⟨node', t, there, puts⟩, -⟩ := replaces
  exact overwrites_iff.mpr ⟨⟨node, here, by simp [takes, Action.takesFrom], by simp [leads]⟩,
    node', there, by simp [puts, Action.putsInto]⟩

end Graph

def ProcessInstance.Inlines (inst : ProcessInstance) (D : Declarations) (callee : String)
    (i : Nat) : Prop :=
  ∃ (template : Template) (name : String) (channels : Table String String) (first : Nat)
    (u : template.Derivation D name channels { nextNonce := first } inst.graph), u.Inlines callee i

theorem ProcessInstance.Inlines.exchange {D : Declarations} {inst : ProcessInstance}
    {callee key : String} {i : Nat} {node : Node} (callables : D.callables.Sound)
    (inlines : inst.Inlines D callee i) (here : inst.graph.node? i = some node)
    (changes : node.action.Changes key) : inst.graph.Exchange key i node.action callee := by
  obtain ⟨template, name, channels, first, u, inlines⟩ := inlines
  exact inlines.exchange callables rfl here changes

theorem ProcessInstance.Elaborated.inlines {D : Declarations} {inst : ProcessInstance}
    {key : String} {i : Nat} {node : Node} (elaborated : inst.Elaborated D) (decls : D.Sound)
    (callables : D.callables.Sound) (file : D.IsFile key) (here : inst.graph.node? i = some node)
    (changes : node.action.Changes key) : ∃ callee, inst.Inlines D callee i := by
  obtain ⟨template, name, channels, first, e, done, rfl⟩ := elaborated
  obtain ⟨u⟩ := exists_derivation done
  obtain ⟨callee, inlines⟩ := u.inlines_of_file decls callables file (Nat.zero_le i) here changes
  exact ⟨callee, template, name, channels, first, u, inlines⟩

namespace Move

def takesFrom (key : String) : Move → Bool
  | .consume store _ _ => store == key
  | _ => false

def putsInto (key : String) : Move → Bool
  | .insert store _ => store == key
  | _ => false

end Move

namespace System

variable {S : System} {D : Declarations} {config : RunConfig} {s : State} {step : Step}
  {node : Node} {name key : String}

theorem Offers.takesFrom {m : Move} (offers : S.Offers s name node m) :
    m.takesFrom key = node.action.takesFrom key := by
  cases offers with
  | pass passes =>
    rcases passes with action | ⟨_, _, action⟩ | action | ⟨_, action⟩ | action <;>
      simp [Move.takesFrom, Action.takesFrom, action]
  | _ => simp_all [Move.takesFrom, Action.takesFrom]

theorem Offers.putsInto {m : Move} (offers : S.Offers s name node m) :
    m.putsInto key = node.action.putsInto key := by
  cases offers with
  | pass passes =>
    rcases passes with action | ⟨_, _, action⟩ | action | ⟨_, action⟩ | action <;>
      simp [Move.putsInto, Action.putsInto, action]
  | _ => simp_all [Move.putsInto, Action.putsInto]

theorem Compiled.facts_step (compiled : S.Compiled D) (sound : step.before.Sound S)
    (takes : S.Takes config step node) (other : key ≠ attackerStore)
    (kept : ∀ t, node.action ≠ .remove key t) {held : Store}
    (here : step.before.stores.find? key = some held) :
    ∃ held', step.after.stores.find? key = some held' ∧
      held'.facts.length + (step.move.takesFrom key).toNat =
        held.facts.length + (step.move.putsInto key).toNat := by
  have removes : ∀ fact, step.move ≠ .remove key fact := by
    intro fact moves
    have offers := takes.offers
    rw [moves] at offers
    cases offers with
    | remove action _ => exact kept _ action
  obtain ⟨there, present⟩ := compiled.store_step sound takes here
  refine ⟨_, there, ?_⟩
  cases moves : step.move with
  | insert store fact =>
    by_cases same : store = key <;> simp [Move.factsAfter, Move.takesFrom, Move.putsInto, same]
  | remove store fact =>
    have same : store ≠ key := fun same => removes fact (same ▸ moves)
    simp [Move.factsAfter, Move.takesFrom, Move.putsInto, same]
  | consume store fact found =>
    by_cases same : store = key
    · have member := present fact (.inr (by simp [moves, Move.consumes, same]))
      have positive := List.length_pos_of_mem member
      simp only [Move.factsAfter, Move.takesFrom, Move.putsInto, RunConfig.spares, same, other,
        List.length_erase_of_mem member, decide_true, decide_false, Bool.false_and, Bool.not_false,
        Bool.and_true, if_true, beq_self_eq_true, Bool.toNat_true, Bool.toNat_false]
      omega
    · simp [Move.factsAfter, Move.takesFrom, Move.putsInto, same]
  | _ => rfl

/-- An instance that stands there has taken the content out of a file and is about to put the new
content in. -/
def writing (S : System) (key : String) (entry : String × Option Nat) : Bool :=
  match entry.2, S.get entry.1 with
  | some place, .ok inst => inst.graph.overwrites key place
  | _, _ => false

def writers (S : System) (s : State) (key : String) : Nat := s.pcs.entries.countP (S.writing key)

def sends (S : System) (key : String) (step : Step) : Bool :=
  step.move.putsInto key && !S.writing key (step.owner, some step.place)

def receives (S : System) (key : String) (step : Step) : Bool :=
  step.move.takesFrom key && !S.writing key (step.owner, (step.after.pcs.find? step.owner).join)

theorem writing_iff {pc : Option Nat} : S.writing key (name, pc) = true ↔
    ∃ place inst, pc = some place ∧ S.get name = .ok inst ∧
      inst.graph.overwrites key place = true := by
  simp only [writing]
  cases pc <;> cases S.get name <;> simp

structure Declares (S : System) (D : Declarations) : Prop where
  decls : D.Sound
  callables : D.callables.Sound
  elaborated : ∀ inst ∈ S.instances, inst.Elaborated D

theorem Declares.exchange (declares : S.Declares D) (file : D.IsFile key) {inst : ProcessInstance}
    (member : inst ∈ S.instances) {i : Nat} (here : inst.graph.node? i = some node)
    (changes : node.action.Changes key) :
    ∃ callee, inst.Inlines D callee i ∧ inst.graph.Exchange key i node.action callee := by
  obtain ⟨callee, inlines⟩ := (declares.elaborated inst member).inlines declares.decls
    declares.callables file here changes
  exact ⟨callee, inlines, inlines.exchange declares.callables here changes⟩

theorem Declares.replaces (declares : S.Declares D) (file : D.IsFile key) {inst : ProcessInstance}
    (member : inst ∈ S.instances) {i j : Nat} (leads : inst.graph.Leads i j)
    (overwrites : inst.graph.overwrites key j = true) : inst.graph.Replaces key i := by
  obtain ⟨-, node, there, puts⟩ := Graph.overwrites_iff.mp overwrites
  obtain ⟨t, inserts⟩ := Action.putsInto_iff.mp puts
  obtain ⟨callee, -, exchange⟩ := declares.exchange file member there (.inl ⟨t, inserts⟩)
  obtain ⟨k, rfl, ⟨-, x, s, assigns⟩ | ⟨-, replaces⟩⟩ := exchange.of_insert inserts
  · simp [Graph.not_overwrites_of_assign assigns] at overwrites
  · -- Only the node that takes the old content out leads to the insertion of a write.
    exact replaces.only i leads ▸ replaces

theorem Declares.writing_step (declares : S.Declares D) (file : D.IsFile key)
    (takes : S.Takes config step node) :
    (S.writing key (step.owner, some step.place) = true → step.move.putsInto key = true) ∧
    (S.writing key (step.owner, (step.after.pcs.find? step.owner).join) = true →
      step.move.takesFrom key = true) := by
  obtain ⟨placed, inst, got, here⟩ := takes.stands
  constructor
  · intro writing
    obtain ⟨place, inst', same, got', overwrites⟩ := writing_iff.mp writing
    obtain rfl := Option.some.inj same
    obtain rfl := Except.ok.inj (got.symm.trans got')
    obtain ⟨-, node', here', puts⟩ := Graph.overwrites_iff.mp overwrites
    obtain rfl := Option.some.inj (here.symm.trans here')
    rw [takes.offers.putsInto, puts]
  · intro writing
    obtain ⟨place, inst', there, got', overwrites⟩ := writing_iff.mp writing
    obtain rfl := Except.ok.inj (got.symm.trans got')
    have there : step.after.pcs.find? step.owner = some (some place) :=
      Option.join_eq_some_iff.mp there
    obtain ⟨node', pattern, binds, here', consumes, -⟩ := (declares.replaces file
      (Compiled.mem_of_get got).1 ⟨node, here, takes.successor there⟩ overwrites).takes
    obtain rfl := Option.some.inj (here.symm.trans here')
    rw [takes.offers.takesFrom]
    exact Action.takesFrom_iff.mpr ⟨pattern, binds, consumes⟩

theorem writers_step (key : String) (takes : S.Takes config step node) :
    S.writers step.after key + (S.writing key (step.owner, some step.place)).toNat =
      S.writers step.before key +
        (S.writing key (step.owner, (step.after.pcs.find? step.owner).join)).toNat := by
  have moved := (State.moved_of_perform takes.performs).places
  have counted := Table.countP_insert (step.move.target node.successors) (S.writing key)
    takes.stands.1
  simp only [writers, moved, Table.find?_insert_self, Option.join_some]
  exact counted

def Inlines (S : System) (D : Declarations) (callee : String) (step : Step) : Prop :=
  ∃ inst, S.get step.owner = .ok inst ∧ inst.Inlines D callee step.place

theorem Declares.sends_iff (declares : S.Declares D) (file : D.IsFile key)
    (takes : S.Takes config step node) :
    S.sends key step = true ↔ step.move.putsInto key = true ∧ S.Inlines D "send" step := by
  obtain ⟨placed, inst, got, here⟩ := takes.stands
  simp only [sends, Bool.and_eq_true, Bool.not_eq_true']
  refine and_congr_right fun puts => ?_
  obtain ⟨t, inserts⟩ := Action.putsInto_iff.mp (takes.offers.putsInto ▸ puts)
  have changes : node.action.Changes key := .inl ⟨t, inserts⟩
  constructor
  · intro idle
    obtain ⟨callee, inlines, exchange⟩ :=
      declares.exchange file (Compiled.mem_of_get got).1 here changes
    obtain ⟨j, next, ⟨rfl, -⟩ | ⟨-, replaces⟩⟩ := exchange.of_insert inserts
    · exact ⟨inst, got, inlines⟩
    · have writing : S.writing key (step.owner, some step.place) = true :=
        writing_iff.mpr ⟨_, inst, rfl, got, next ▸ replaces.overwrites⟩
      simp [idle] at writing
  · rintro ⟨inst', got', inlines⟩
    obtain rfl := Except.ok.inj (got.symm.trans got')
    obtain ⟨j, next, ⟨-, x, s, assigns⟩ | ⟨other, -⟩⟩ :=
      (inlines.exchange declares.callables here changes).of_insert inserts
    · simp [writing, got, next, Graph.not_overwrites_of_assign assigns]
    · simp at other

theorem Declares.receives_iff (declares : S.Declares D) (file : D.IsFile key)
    (takes : S.Takes config step node) :
    S.receives key step = true ↔ step.move.takesFrom key = true ∧ S.Inlines D "recv" step := by
  obtain ⟨placed, inst, got, here⟩ := takes.stands
  have member := (Compiled.mem_of_get got).1
  simp only [receives, Bool.and_eq_true, Bool.not_eq_true']
  refine and_congr_right fun taken => ?_
  obtain ⟨pattern, binds, consumes⟩ := Action.takesFrom_iff.mp (takes.offers.takesFrom ▸ taken)
  have changes : node.action.Changes key := .inr (.inr ⟨pattern, binds, consumes⟩)
  constructor
  · intro idle
    obtain ⟨callee, inlines, exchange⟩ := declares.exchange file member here changes
    rcases exchange.of_consume consumes with ⟨rfl, -⟩ | ⟨-, replaces⟩
    · exact ⟨inst, got, inlines⟩
    · have overwrites := replaces.overwrites
      obtain ⟨node', -, -, here', -, leads, -⟩ := replaces.takes
      obtain rfl := Option.some.inj (here.symm.trans here')
      have moved := (State.moved_of_perform takes.performs).places
      have next : (step.after.pcs.find? step.owner).join = some (step.place + 1) := by
        rw [moved, Table.find?_insert_self, Option.join_some]
        cases moves : step.move <;> simp [moves, Move.takesFrom] at taken
        simp [Move.target, leads]
      have writing : S.writing key (step.owner, some (step.place + 1)) = true :=
        writing_iff.mpr ⟨_, inst, rfl, got, overwrites⟩
      simp [next, writing] at idle
  · rintro ⟨inst', got', inlines⟩
    obtain rfl := Except.ok.inj (got.symm.trans got')
    rcases (inlines.exchange declares.callables here changes).of_consume consumes with
      ⟨-, node', here', position⟩ | ⟨other, -⟩
    · obtain rfl := Option.some.inj (here.symm.trans here')
      by_contra writing
      obtain ⟨j, inst', there, got', overwrites⟩ :=
        writing_iff.mp (Bool.eq_true_of_not_eq_false writing)
      obtain rfl := Except.ok.inj (got.symm.trans got')
      have leads := takes.successor (Option.join_eq_some_iff.mp there)
      exact (declares.replaces file member ⟨node, here, leads⟩ overwrites).not_received here position
    · simp at other

/-- Facts in the file, and places from which one is about to be put in, against what was sent to the
file and received from it. -/
def Balanced (S : System) (key : String) (history : List Step) (s : State) : Prop :=
  ∃ held, s.stores.find? key = some held ∧
    held.facts.length + S.writers s key + history.countP (S.receives key) =
      1 + history.countP (S.sends key)

theorem balanced_step (compiled : S.Compiled D) (declares : S.Declares D) (file : D.IsFile key)
    (other : key ≠ attackerStore) (sound : step.before.Sound S)
    (takes : S.Takes config step node) {history : List Step}
    (balanced : S.Balanced key history step.before) :
    S.Balanced key (history ++ [step]) step.after := by
  obtain ⟨held, here, total⟩ := balanced
  have kept : ∀ t, node.action ≠ .remove key t := by
    obtain ⟨-, inst, got, found⟩ := takes.stands
    intro t removes
    obtain ⟨callee, -, exchange⟩ := declares.exchange file (Compiled.mem_of_get got).1 found
      (.inr (.inl ⟨t, removes⟩))
    exact exchange.not_removes t removes
  obtain ⟨held', there, changed⟩ := compiled.facts_step sound takes other kept here
  refine ⟨held', there, ?_⟩
  have moved := writers_step key takes
  obtain ⟨left, came⟩ := declares.writing_step file takes
  have apart : ¬ (step.move.putsInto key = true ∧ step.move.takesFrom key = true) := by
    cases step.move <;> simp [Move.putsInto, Move.takesFrom]
  simp only [List.countP_append, List.countP_singleton, sends, receives]
  -- A step that is neither a send nor a receipt gives or takes as much as its place does.
  rcases Bool.dichotomy (step.move.putsInto key) with puts | puts <;>
    rcases Bool.dichotomy (step.move.takesFrom key) with taken | taken <;>
    rcases Bool.dichotomy (S.writing key (step.owner, some step.place)) with before | before <;>
    rcases Bool.dichotomy (S.writing key
      (step.owner, (step.after.pcs.find? step.owner).join)) with after | after <;>
    simp [puts, taken, before, after] at changed moved left came apart ⊢ <;> omega

theorem writers_start : S.writers S.start key = 0 := by
  refine List.countP_eq_zero.mpr fun entry member => ?_
  obtain ⟨name, pc⟩ := entry
  have found := Table.find?_of_mem_entries (Table.nodup_keys_ofList _) member
  obtain ⟨inst, -, -, rfl⟩ : ∃ inst ∈ S.instances, inst.name = name ∧ some 0 = pc := by
    simpa using Table.find?_ofList found
  intro writing
  obtain ⟨place, inst', same, -, overwrites⟩ := writing_iff.mp writing
  obtain rfl := Option.some.inj same
  simp [Graph.overwrites_zero] at overwrites

theorem balanced_run (compiled : S.Compiled D) (declares : S.Declares D)
    (filed : D.stores.Filed) (file : D.IsFile key) {history : List Step}
    (run : S.Run config S.start history s) : S.Balanced key history s := by
  have other : key ≠ attackerStore := by
    rintro rfl
    obtain ⟨decl, found, isFile⟩ := file
    obtain ⟨decl', found', notFile⟩ := filed.attacker
    exact notFile (Option.some.inj (found'.symm.trans found) ▸ isFile)
  induction run with
  | start =>
    obtain ⟨decl, found, isFile⟩ := file
    have here : S.start.stores.find? key =
        some { name := key, kind := decl.kind, facts := decl.initial } := by
      simp [start, opening, find?_opened, compiled.stores, found]
    exact ⟨_, here, by simp [writers_start, filed.single key decl found isFile]⟩
  | step run takes ih =>
    exact balanced_step compiled declares file other (compiled.run_sound compiled.start_sound run)
      takes ih

theorem exists_writer (sound : s.Sound S) (positive : 0 < S.writers s key) :
    ∃ name place inst, s.pcs.find? name = some (some place) ∧ S.get name = .ok inst ∧
      inst.graph.overwrites key place = true := by
  obtain ⟨⟨name, pc⟩, member, writing⟩ := List.countP_pos_iff.mp positive
  obtain ⟨place, inst, rfl, got, overwrites⟩ := writing_iff.mp writing
  exact ⟨name, place, inst, Table.find?_of_mem_entries sound.distinct member, got, overwrites⟩

/-- A file holds one fact, less one for every instance in the middle of a write, and one more or
less for everything that was sent to it or received from it. -/
theorem file_facts_balance {compiler : CompilerConfig} {M : Model}
    (done : compile compiler M = .ok S) {s₀ : State} (initial : State.initial S = .ok s₀)
    {history : List Step} (run : S.Run config s₀ history s) {decl : StoreDecl}
    (declared : S.stores.find? key = some decl) (file : decl.kind = .filesys) :
    (∃ D, Declarations.ofModel compiler.rewriteBudget M = .ok D ∧ ∀ step ∈ history,
      (S.sends key step = true ↔ step.move.putsInto key = true ∧ S.Inlines D "send" step) ∧
      (S.receives key step = true ↔ step.move.takesFrom key = true ∧ S.Inlines D "recv" step)) ∧
    ∃ held, s.stores.find? key = some held ∧
      held.facts.length + S.writers s key + history.countP (S.receives key) =
        1 + history.countP (S.sends key) ∧
      ((∀ step ∈ history, S.sends key step = false ∧ S.receives key step = false) →
        held.facts.length ≤ 1 ∧ (held.facts.length = 1 ∨ ∃ name place inst,
          s.pcs.find? name = some (some place) ∧ S.get name = .ok inst ∧
            inst.graph.overwrites key place = true)) := by
  obtain ⟨D, made, compiled, elaborated⟩ := exists_declared done
  rw [compiled.initial_eq] at initial
  obtain rfl := Except.ok.inj initial
  have isFile : D.IsFile key := ⟨decl, compiled.stores ▸ declared, file⟩
  have declares : S.Declares D :=
    ⟨compiled.decls, Callables.sound_of_ofModel made, elaborated⟩
  refine ⟨⟨D, made, fun step member => ?_⟩, ?_⟩
  · obtain ⟨-, node, -, takes⟩ := run.exists_of_mem member
    exact ⟨declares.sends_iff isFile takes, declares.receives_iff isFile takes⟩
  obtain ⟨held, here, total⟩ := balanced_run compiled declares (Declarations.filed_of_ofModel made)
    isFile run
  refine ⟨held, here, total, fun quiet => ?_⟩
  have sent : history.countP (S.sends key) = 0 :=
    List.countP_eq_zero.mpr fun step member => by simp [(quiet step member).1]
  have received : history.countP (S.receives key) = 0 :=
    List.countP_eq_zero.mpr fun step member => by simp [(quiet step member).2]
  refine ⟨by omega, ?_⟩
  by_cases idle : S.writers s key = 0
  · exact .inl (by omega)
  · exact .inr (exists_writer (compiled.run_sound compiled.start_sound run) (by omega))

end System

def Model.appending : Model where
  types := [{ name := "host_t", kind := .process }, { name := "disk_t", kind := .filesys }]
  grants := [{ subject := "host_t", object := some "disk_t", operations := ["send"] }]
  files := [{ name := "db", type := "disk_t", content := .str "first" }]
  processes :=
    [{ name := "P", type := "host_t", params := [{ name := "f", type := "disk_t" }]
       main := .seq [.call "send" [.ident "f" none, .str "second"] none,
         .emit { tag := "Done", args := [] }] }]
  system := some
    { instances := [{ template := "P", args := ["db"], name := some "p" }]
      lemmas := [{ name := "r", kind := .reachable, events := [{ tag := "Done", args := [] }] }] }

namespace System

theorem appending_facts_balance : ∃ S s₀ history s held decl D,
    compile {} Model.appending = .ok S ∧ State.initial S = .ok s₀ ∧ S.Run {} s₀ history s ∧
      S.stores.find? "db" = some decl ∧ decl.kind = .filesys ∧
      s.stores.find? "db" = some held ∧ held.facts = [.lit "first", .lit "second"] ∧
      S.writers s "db" = 0 ∧
      history.countP (S.sends "db") = history.countP (S.receives "db") + 1 ∧
      Declarations.ofModel 64 Model.appending = .ok D ∧
      ∃ step ∈ history, step.move.putsInto "db" = true ∧ S.Inlines D "send" step := by
  have ran : (do
      let S ← compile {} Model.appending
      let s₀ ← State.initial S
      let steps ← S.replay {} s₀ [("p", 0), ("p", 0), ("p", 0)]
      let s := steps.foldl (fun _ step => step.after) s₀
      return ((S.stores.find? "db").map (·.kind), (s.stores.find? "db").map (·.facts),
        S.writers s "db") : Result (Option TypeKind × Option (List Term) × Nat)) =
      .ok (some .filesys, some [.lit "first", .lit "second"], 0) := by
    decide +kernel
  simp only [bind_eq_ok_iff, pure_eq_ok_iff, lift_eq_ok_iff, Prod.mk.injEq] at ran
  obtain ⟨S, done, s₀, initial, steps, replayed, kind, facts, idle⟩ := ran
  obtain ⟨decl, declared, file⟩ := Option.map_eq_some_iff.mp kind
  obtain ⟨held, here, holds⟩ := Option.map_eq_some_iff.mp facts
  have run := run_of_replay (Run.start : S.Run {} s₀ [] s₀) replayed
  rw [List.nil_append] at run
  obtain ⟨⟨D, made, each⟩, held', here', total, -⟩ :=
    file_facts_balance done initial run declared file
  obtain rfl := Option.some.inj (here.symm.trans here')
  simp only [holds, idle, List.length_cons, List.length_nil] at total
  obtain ⟨step, member, sent⟩ := List.countP_pos_iff.mp
    (show 0 < steps.countP (S.sends "db") by omega)
  exact ⟨S, s₀, steps, _, held, decl, D, done, initial, run, declared, file, here, holds, idle,
    by omega, made, step, member, (each step member).1.mp sent⟩

end System

end ThreatModel
