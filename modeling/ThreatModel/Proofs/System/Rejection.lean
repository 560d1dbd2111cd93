import Mathlib
import ThreatModel.Proofs.Declarations.Namespace
import ThreatModel.Proofs.Elaboration.Depth
import ThreatModel.Proofs.Formula.Flaws
import ThreatModel.Proofs.System.Compiled

set_option autoImplicit false

namespace ThreatModel

open Result

def Theory.Diverges (T : Theory) (t : Term) : Prop := ∃ d, T.normalize t = .error d

def StoreSite.Diverges (T : Theory) (inserts : List StoreSite) (access : StoreSite) : Prop :=
  T.Diverges access.term ∨ ∃ site ∈ inserts, site.store = access.store ∧ T.Diverges site.term

def Composition.Diverges (T : Theory) (accesses : ProcessInstance → List StoreSite)
    (c : Composition) : Prop :=
  ∃ access ∈ c.instances.flatMap accesses,
    access.Diverges T (c.instances.flatMap ProcessInstance.inserts)

/-- The computation fails if and only if `P`, and then because rewriting did not come to an
end. -/
structure Result.DivergesIff {α : Type} (x : Except Diagnostic α) (P : Prop) : Prop where
  cause : ∀ d, x = .error d → (Fault.flaw d).Diverges
  fails : (∃ d, x = .error d) ↔ P

namespace Result.DivergesIff

variable {α β γ : Type} {x : Except Diagnostic α} {f : α → Except Diagnostic β} {P Q : Prop}

theorem normalize (T : Theory) (t : Term) : DivergesIff (T.normalize t) (T.Diverges t) :=
  ⟨fun _ => Fault.diverges_of_normalize, Iff.rfl⟩

protected theorem pure (a : α) : DivergesIff (pure a) False := ⟨by simp, by simp⟩

theorem bind (first : DivergesIff x P) (later : ∀ a, DivergesIff (f a) Q) :
    DivergesIff (x >>= f) (P ∨ Q) := by
  have failed (d : Diagnostic) := bind_eq_error_iff (x := x) (f := f) (e := d)
  constructor
  · intro d ended
    rcases (failed d).mp ended with here | ⟨a, -, there⟩
    · exact first.cause d here
    · exact (later a).cause d there
  · rw [← first.fails]
    cases x with
    | error d => exact ⟨fun _ => .inl ⟨d, rfl⟩, fun _ => ⟨d, rfl⟩⟩
    | ok a => simpa using (later a).fails

theorem map (first : DivergesIff x P) (g : α → β) : DivergesIff (do return g (← x)) P := by
  simpa using first.bind fun a => .pure (g a)

theorem through {y : Except Diagnostic γ} {P : α → Prop} {xs : List α}
    (each : ∀ x, DivergesIff (f x) (P x))
    (stopped : ∀ d, y = .error d → ∃ x ∈ xs, f x = .error d)
    (passed : ∀ c, y = .ok c → ∀ x ∈ xs, ∃ b, f x = .ok b) : DivergesIff y (∃ x ∈ xs, P x) := by
  constructor
  · intro d failed
    obtain ⟨x, -, here⟩ := stopped d failed
    exact (each x).cause d here
  constructor
  · rintro ⟨d, failed⟩
    obtain ⟨x, member, here⟩ := stopped d failed
    exact ⟨x, member, (each x).fails.mp ⟨d, here⟩⟩
  · rintro ⟨x, member, holds⟩
    obtain ⟨d, here⟩ := (each x).fails.mpr holds
    cases y with
    | error d' => exact ⟨d', rfl⟩
    | ok c =>
      obtain ⟨b, judged⟩ := passed c rfl x member
      simp [here] at judged

theorem mapM {P : α → Prop} {xs : List α} (each : ∀ x, DivergesIff (f x) (P x)) :
    DivergesIff (xs.mapM f) (∃ x ∈ xs, P x) := by
  refine through each (fun d => mapM_eq_error) fun ys done x member => ?_
  obtain ⟨y, -, judged⟩ := exists_of_mapM_eq_ok done member
  exact ⟨y, judged⟩

theorem filterM {p : α → Except Diagnostic Bool} {P : α → Prop} {xs : List α}
    (each : ∀ x, DivergesIff (p x) (P x)) : DivergesIff (xs.filterM p) (∃ x ∈ xs, P x) :=
  through each (fun _ => filterM_eq_error) fun _ => exists_of_filterM_eq_ok

end Result.DivergesIff

structure Result.RejectsUnless {α : Type} (P : Prop) (r : Result α) : Prop where
  rejects : ¬ P → (∃ a, r = .ok a) ∨ ∃ d ds, r = .error (.rejected (d :: ds))
  diverges : P → ∃ fault, r = .error fault ∧ fault.Diverges

namespace Result.RejectsUnless

variable {α β : Type} {x : Except Diagnostic α} {f : α → Result β} {P Q : Prop}

theorem rejected {ds : List Diagnostic} (some : ds ≠ []) (never : ¬ P) :
    RejectsUnless P (.error (.rejected ds) : Result α) := by
  obtain ⟨d, rest, rfl⟩ := List.exists_cons_of_ne_nil some
  exact ⟨fun _ => .inr ⟨d, rest, rfl⟩, fun holds => absurd holds never⟩

theorem bind (first : DivergesIff x P) (later : ∀ a, x = .ok a → RejectsUnless Q (f a)) :
    RejectsUnless (P ∨ Q) (liftM x >>= f) := by
  cases x with
  | error d =>
    have holds : P := first.fails.mp ⟨d, rfl⟩
    exact ⟨fun not => absurd (.inl holds) not, fun _ => ⟨.flaw d, rfl, first.cause d rfl⟩⟩
  | ok a =>
    have never : ¬ P := by simp [← first.fails]
    rw [or_iff_right never]
    exact later a rfl

protected theorem pure (a : α) : RejectsUnless False (pure a) :=
  ⟨fun _ => .inl ⟨a, rfl⟩, False.elim⟩

theorem lift (only : DivergesIff x P) : RejectsUnless P (liftM x : Result α) := by
  simpa using RejectsUnless.bind only fun a _ => .pure a

end Result.RejectsUnless

variable {T : Theory} {R : Registry} {inserts : List StoreSite}

theorem StoreSite.diverges_iff (access : StoreSite) :
    access.Diverges T inserts ↔ T.Diverges access.term ∨
      ∃ site ∈ inserts.filter (·.store == access.store), T.Diverges site.term := by
  simp [Diverges, and_assoc]

theorem Registry.canSucceed_divergesIff (removal : StoreSite) :
    DivergesIff (R.canSucceed T inserts removal) (removal.Diverges T inserts) := by
  rw [removal.diverges_iff]
  refine .bind (.normalize T removal.term) fun target => ?_
  exact .map (.mapM fun site => .map (.normalize T _) _) _

theorem Registry.checkRemovals_divergesIff (removals : List StoreSite) :
    DivergesIff (R.checkRemovals T inserts removals)
      (∃ removal ∈ removals, removal.Diverges T inserts) :=
  .map (.filterM fun removal => .map (R.canSucceed_divergesIff removal) _) _

theorem edgesInto_divergesIff (consumer : StoreSite) :
    DivergesIff (edgesInto T R inserts consumer) (consumer.Diverges T inserts) := by
  rw [consumer.diverges_iff]
  refine .bind (.normalize T consumer.term) fun target => ?_
  exact .map (.filterM fun site => .map (.normalize T _) _) _

theorem edgesAmong_divergesIff (instances : List ProcessInstance) :
    DivergesIff (edgesAmong T R instances)
      (∃ consumer ∈ instances.flatMap ProcessInstance.consumers,
        consumer.Diverges T (instances.flatMap ProcessInstance.inserts)) :=
  .map (.mapM edgesInto_divergesIff) _

theorem Model.Filled.definition {M : Model} (filled : M.Filled) {d : Definition}
    (member : d ∈ M.definitions) : Part.Filled d.body.parts := by
  simp only [Model.definitions, List.mem_append, List.mem_map] at member
  rcases member with (builtin | ⟨s, listed, rfl⟩) | ⟨a, listed, rfl⟩
  · simp only [Definition.builtins, List.mem_cons, List.not_mem_nil, or_false] at builtin
    rcases builtin with rfl | rfl | rfl | rfl <;>
      simp [Part.Filled, Command.parts, Command.partsAll, Expr.parts]
  · exact filled.syscalls s listed
  · exact filled.attacks a listed

namespace Declarations

variable {budget : Int} {M : Model} {D : Declarations}

theorem filled_of_find? (made : ofModel budget M = .ok D) (filled : M.Filled) {name : String}
    {d : Definition} (found : D.callables.find? name = some d) : Part.Filled d.body.parts := by
  have listed := Table.mem_entries_of_find? found
  rw [(lists_of_ofModel made).definitions.1] at listed
  obtain ⟨d', member, same⟩ := List.mem_map.mp listed
  obtain rfl : d' = d := (Prod.mk.inj same).2
  exact filled.definition member

theorem mem_processes_of_find? (made : ofModel budget M = .ok D) {name : String} {p : Template}
    (found : D.templates.find? name = some p) : p ∈ M.processes := by
  obtain ⟨E, P, S, C, L, early, -, -, -, late, rfl, -⟩ := exists_stages made
  let Known (D : Declarations) : Prop := ∀ name p, D.templates.find? name = some p → p ∈ M.processes
  have none : Known { E with policy := P, callables := C } := by
    intro name p found
    have empty : E.templates = .empty := (initial_of_early early).templates
    simp [empty] at found
  simp only [Declarations.late, bind_eq_ok_iff] at late
  obtain ⟨D₁, constants, D₂, channels, D₃, files, templates⟩ := late
  suffices known : Known L from known name p found
  -- Of the four lists only the last one declares templates.
  refine foldlM_keeps (foldlM_keeps (foldlM_keeps (foldlM_keeps none ?_ constants) ?_ channels)
    ?_ files) ?_ templates
  · intro D c D' _ known done
    obtain ⟨-, rfl⟩ := exists_of_addConstant done
    exact known
  · intro D c D' _ known done
    obtain ⟨-, -, facts, R, -, -, rfl⟩ := exists_of_addStore done
    exact known
  · intro D f D' _ known done
    obtain ⟨-, -, facts, R, -, -, rfl⟩ := exists_of_addStore done
    exact known
  · intro D p D' member known done name p' found
    rw [exists_of_addTemplate done, Table.find?_insert] at found
    split at found
    next => exact Option.some.inj found ▸ member
    next => exact known name p' found

def Fits (D : Declarations) (inst : InstanceDecl) : Prop :=
  ∃ template, D.templates.find? inst.template = some template ∧
    inst.args.length = template.params.length

theorem fits_of_instancesFlaws {seen : List String} {i : Nat} {insts : List InstanceDecl}
    (clean : D.instancesFlaws seen i insts = []) : ∀ inst ∈ insts, D.Fits inst := by
  induction insts generalizing seen i with
  | nil => simp
  | cons inst rest ih =>
    simp only [instancesFlaws, List.append_eq_nil_iff] at clean
    obtain ⟨⟨-, fitting⟩, later⟩ := clean
    refine List.forall_mem_cons.mpr ⟨?_, ih later⟩
    simp only [instanceFlaws] at fitting
    split at fitting
    next => simp at fitting
    next template found =>
      split at fitting
      next => simp at fitting
      next same => exact ⟨template, found, not_not.mp same⟩

theorem fits_of_ofModel (made : ofModel budget M = .ok D) :
    ∀ inst ∈ D.system.instances, D.Fits inst := by
  obtain ⟨E, P, S, C, L, -, -, -, -, -, rfl, -, -, -, -, clean⟩ := exists_stages made
  exact fits_of_instancesFlaws (D := L) (instancesFlaws_of_systemFlaws clean)

theorem exists_of_addInstance (made : ofModel budget M = .ok D) (filled : M.Filled)
    {inst : InstanceDecl} (fits : D.Fits inst) (name : String) (c : Composition) :
    ∃ c', D.addInstance inst name c = .ok c' := by
  obtain ⟨template, found, same⟩ := fits
  -- There are as many arguments as parameters, so none is cut off when they are paired.
  have given : ∀ param ∈ template.params, param.name ∈
      (Table.ofList ((template.params.map (·.name)).zip inst.args)).keys := by
    intro param member
    rw [Table.mem_keys_ofList, List.map_fst_zip (by simp [same])]
    exact List.mem_map_of_mem member
  have diagnosed := diagnosed_elaborate (Callables.sound_of_ofModel made)
    (Callables.listed_of_ofModel made) (fun _ _ => filled_of_find? made filled) given
    (filled.processes template (mem_processes_of_find? made found)) name c.nextNonce
  simp only [addInstance, found]
  split
  next => exact ⟨_, rfl⟩
  next => exact ⟨_, rfl⟩
  next fault other failed =>
    obtain ⟨d, rfl⟩ := diagnosed fault failed
    exact absurd rfl (other d)

theorem exists_compose (made : ofModel budget M = .ok D) (filled : M.Filled) :
    ∃ c, D.compose = .ok c := by
  have fitting := fits_of_ofModel made
  unfold compose
  generalize D.system.instances = insts at fitting
  generalize ({ nextNonce := D.globals.length } : Composition) = c
  generalize 0 = i
  induction insts generalizing i c with
  | nil => exact ⟨c, rfl⟩
  | cons inst rest ih =>
    obtain ⟨fits, others⟩ := List.forall_mem_cons.mp fitting
    obtain ⟨c₁, added⟩ := exists_of_addInstance made filled fits (inst.label i) c
    simp only [addInstances, added, ok_bind]
    exact ih others c₁ (i + 1)

theorem exists_of_addLemmas (L : Lexicon) {ls : List LemmaDecl}
    (filled : ∀ l ∈ ls, Part.Filled l.parts) :
    ∃ lemmas flaws, addLemmas L ls = .ok (lemmas, flaws) := by
  induction ls with
  | nil => exact ⟨[], [], rfl⟩
  | cons l rest ih =>
    obtain ⟨here, others⟩ := List.forall_mem_cons.mp filled
    obtain ⟨lemmas, flaws, stated⟩ := ih others
    simp only [addLemmas, stated, ok_bind]
    split
    next => exact ⟨_, _, rfl⟩
    next => exact ⟨_, _, rfl⟩
    next fault other failed =>
      obtain ⟨d, rfl⟩ := L.diagnosed_translate here fault failed
      exact absurd rfl (other d)

theorem exists_lemmas (made : ofModel budget M = .ok D) (filled : M.Filled) (c : Composition) :
    ∃ lemmas flaws, D.lemmas c = .ok (lemmas, flaws) := by
  obtain ⟨E, P, S, C, L, -, -, -, -, -, rfl, -⟩ := exists_stages made
  exact exists_of_addLemmas _ filled.lemmas

def StallsRemoving (D : Declarations) (config : CompilerConfig) (c : Composition) : Prop :=
  config.checkFactPresence = true ∧ c.flaws = [] ∧
    c.Diverges D.theory ProcessInstance.removals

def StallsConsuming (D : Declarations) (config : CompilerConfig) (c : Composition) : Prop :=
  c.flaws = [] ∧ D.hopelessRemovals config c = .ok [] ∧ (∃ lemmas, D.lemmas c = .ok (lemmas, [])) ∧
    c.Diverges D.theory ProcessInstance.consumers

theorem hopelessRemovals_divergesIff (config : CompilerConfig) (c : Composition) :
    DivergesIff (D.hopelessRemovals config c) (D.StallsRemoving config c) := by
  unfold hopelessRemovals StallsRemoving
  split
  next looked =>
    obtain ⟨checks, clean⟩ : config.checkFactPresence = true ∧ c.flaws = [] := by
      simpa using looked
    simp only [checks, clean, true_and]
    exact Registry.checkRemovals_divergesIff _
  next skipped =>
    have never : ¬ (config.checkFactPresence = true ∧ c.flaws = []) := by simpa using skipped
    have none := DivergesIff.pure ([] : List Diagnostic)
    rwa [← and_assoc, eq_false never, false_and]

theorem package_divergesIff (D : Declarations) (c : Composition) (lemmas : List Lemma)
    (unordered : List String) :
    DivergesIff (System.package D c lemmas unordered)
      (c.Diverges D.theory ProcessInstance.consumers) :=
  .map (edgesAmong_divergesIff _) _

theorem package_rejectsUnless {config : CompilerConfig} {c : Composition}
    {hopeless flaws : List Diagnostic} {lemmas : List Lemma}
    (looked : D.hopelessRemovals config c = .ok hopeless)
    (stated : D.lemmas c = .ok (lemmas, flaws)) :
    RejectsUnless (D.StallsConsuming config c)
      (if (c.flaws ++ hopeless ++ flaws).isEmpty then
        (System.package D c lemmas (unorderable config lemmas) : Result System)
      else throw (.rejected (c.flaws ++ hopeless ++ flaws))) := by
  split
  next clean =>
    simp only [List.isEmpty_iff, List.append_eq_nil_iff] at clean
    obtain ⟨⟨clean, rfl⟩, rfl⟩ := clean
    have stalls : D.StallsConsuming config c ↔ c.Diverges D.theory ProcessInstance.consumers := by
      simp [StallsConsuming, clean, looked, stated]
    rw [stalls]
    exact .lift (D.package_divergesIff c lemmas (unorderable config lemmas))
  next flawed =>
    refine .rejected (by simpa using flawed) ?_
    rintro ⟨clean, none, ⟨lemmas', sound⟩, -⟩
    obtain rfl : hopeless = [] := by simpa [looked] using none
    obtain ⟨-, rfl⟩ : lemmas = lemmas' ∧ flaws = [] := by simpa [stated] using sound
    simp [clean] at flawed

end Declarations

/-- What is put into the stores of the model, taken out or asked for there diverges before a flaw
is found. -/
def Model.Stalls (M : Model) (config : CompilerConfig) : Prop :=
  ∃ D c, Declarations.ofModel config.rewriteBudget M = .ok D ∧ D.compose = .ok c ∧
    (D.StallsRemoving config c ∨ D.StallsConsuming config c)

namespace System

/-- With a positive budget and no empty tuple, a model is compiled or it is rejected with a list of
its flaws, unless rewriting a term of its stores does not come to an end. Then, and only then, the
compilation ends by that alone. -/
theorem compile_rejects_unless_stalling {config : CompilerConfig} {M : Model}
    (positive : 0 < config.rewriteBudget) (filled : Part.Filled M.parts) :
    (¬ M.Stalls config →
      (∃ S, compile config M = .ok S) ∨
        ∃ d ds, compile config M = .error (.rejected (d :: ds))) ∧
    (M.Stalls config → ∃ fault, compile config M = .error fault ∧ fault.Diverges) := by
  have filled := Model.filled_of_parts filled
  suffices outcome : RejectsUnless (M.Stalls config) (compile config M) from
    ⟨outcome.rejects, outcome.diverges⟩
  rcases Declarations.ofModel_ok_or_rejected positive filled with ⟨D, made⟩ | ⟨d, ds, failed⟩
  · -- Instances and lemmas never end the compilation, so it comes to the removals and the edges.
    obtain ⟨c, composed⟩ := Declarations.exists_compose made filled
    obtain ⟨lemmas, flaws, stated⟩ := Declarations.exists_lemmas made filled c
    have stalls : M.Stalls config ↔ D.StallsRemoving config c ∨ D.StallsConsuming config c := by
      simp [Model.Stalls, made, composed]
    rw [stalls, compile, made, ok_bind, composed, ok_bind]
    refine .bind (D.hopelessRemovals_divergesIff config c) fun hopeless looked => ?_
    rw [stated]
    exact Declarations.package_rejectsUnless looked stated
  · have never : ¬ M.Stalls config := by
      rintro ⟨D, c, made, -⟩
      simp [failed] at made
    rw [compile, failed]
    exact .rejected (List.cons_ne_nil d ds) never

end System

def Model.looping : Model where
  functions := [{ name := "c", arity := 0 }, { name := "ap", arity := 2 }]
  equations :=
    [{ lhs := .apply "ap" [.apply "c" [] none, .ident "x" none] none
       rhs := .apply "ap" [.ident "x" none, .ident "x" none] none }]
  types := [{ name := "host_t", kind := .process }, { name := "net_t", kind := .channel }]
  grants := [{ subject := "host_t", object := some "net_t", operations := ["insert", "consume"] }]
  channels := [{ name := "net", type := "net_t" }]
  processes :=
    [{ name := "P", type := "host_t", params := [{ name := "n", type := "net_t" }]
       main := .seq
         [.store .insert "n" (.apply "ap" [.apply "c" [] none, .apply "c" [] none] none) none,
          .store .consume "n" (.ident "x" none) none,
          .emit { tag := "Done", args := [.ident "x" none] }] }]
  system := some
    { instances := [{ template := "P", args := ["net"], name := some "p" }]
      lemmas :=
        [{ name := "r", kind := .reachable
           events := [{ tag := "Done", args := [.ident "z" none] }] }] }

theorem System.looping_stalls :
    0 < ({} : CompilerConfig).rewriteBudget ∧ Part.Filled Model.looping.parts ∧
      Model.looping.Stalls {} ∧
      ∃ fault, compile {} Model.looping = .error fault ∧ fault.Diverges := by
  have positive : 0 < ({} : CompilerConfig).rewriteBudget := by decide
  have filled : Part.Filled Model.looping.parts := by
    simp [Part.Filled, Model.looping, Model.parts, Expr.parts, Expr.partsAll, Template.parts,
      Command.parts, Command.partsAll, EventExpr.parts, SystemDecl.parts, LemmaDecl.parts]
  have ran : (compile {} Model.looping).map (fun _ => ()) = .error (.flaw
      { cause := .diverged 768 (.app "ap" [.app "c" [], .app "c" []]) }) := by
    decide +kernel
  obtain ⟨rejects, diverges⟩ := compile_rejects_unless_stalling positive filled
  -- The fault is neither a system nor a rejection, so the model must be one that stalls.
  have stalls : Model.looping.Stalls {} := by
    by_contra settles
    rcases rejects settles with ⟨S, compiled⟩ | ⟨d, ds, rejected⟩
    · simp [compiled, Except.map] at ran
    · simp [rejected, Except.map] at ran
  exact ⟨positive, filled, stalls, diverges stalls⟩

end ThreatModel
