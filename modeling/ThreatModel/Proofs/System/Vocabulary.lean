import Mathlib
import ThreatModel.Proofs.Elaboration.Identifiers
import ThreatModel.Proofs.System.Statements

set_option autoImplicit false

namespace ThreatModel

open Result

namespace Judgement

theorem length_terms {ctx : Context} {scope : Scope} : ∀ {es : List Expr} {ends ends' : Ends}
    {b b' : Build} {ts : List Term},
    Elaborates (.terms es ctx scope ends b ts ends' b') → ts.length = es.length
  | [], _, _, _, _, _, derived => by
    cases derived
    rfl
  | e :: es, _, _, _, _, _, derived => by
    cases derived with
    | someTerms _ rest => simp [length_terms rest]

theorem Adds.emit_holds {K : Judgement} {i k : Nat} {t : Term} (adds : K.Adds i (.emit t k)) :
    ∃ event ts, K.Holds (.emit event) ∧ t = .app event.tag ts ∧ ts.length = event.args.length := by
  generalize action : Action.emit t k = drawn at adds
  cases adds with
  | emit each =>
    cases action
    exact ⟨_, _, List.mem_cons_self, rfl, length_terms each⟩
  | put puts => rcases puts with rfl | rfl <;> cases action
  | take takes => rcases takes with rfl | rfl <;> cases action
  | _ => cases action

end Judgement

theorem exists_written_of_event {D : Declarations} {template : Template} {name : String}
    {channels : Table String String} {first : Nat} {e : Elaborated}
    (done : elaborate D template name channels first = .ok e) {site : EventSite}
    (listed : site ∈ e.inst.events) : ∃ event : EventExpr, template.Code D (.emit event) ∧
      event.tag = site.tag ∧ event.args.length = site.arity := by
  have made : e.inst.Elaborated D := ⟨template, name, channels, first, e, done, rfl⟩
  obtain ⟨i, node, args, k, found, emits, arity⟩ := made.emits listed
  obtain ⟨u⟩ := exists_derivation done
  have acts : e.inst.graph.actions[i]? = some (.emit (.app site.tag args) k) :=
    Graph.acts_iff.mpr ⟨node, found, emits⟩
  rcases u.drawn (Nat.zero_le i) acts with start | finish | ⟨K, meets, adds, -⟩
  · cases start
  · cases finish
  · obtain ⟨event, ts, inside, same, length⟩ := adds.emit_holds
    obtain ⟨tag, rfl⟩ := Term.app.inj same
    exact ⟨event, meets.code inside, tag.symm, length.symm.trans arity⟩

def Result.Keeps {α : Type} (x y : Result α) : Prop := ∀ a, x = .ok a → y = .ok a

theorem Result.Keeps.refl {α : Type} (x : Result α) : Keeps x x := fun _ done => done

theorem Result.Keeps.bind {α β : Type} {x y : Result α} {f g : α → Result β} (first : Keeps x y)
    (later : ∀ a, Keeps (f a) (g a)) : Keeps (x >>= f) (y >>= g) := by
  intro b done
  obtain ⟨a, ran, done⟩ := bind_eq_ok_iff.mp done
  exact bind_eq_ok_iff.mpr ⟨a, first a ran, later a b done⟩

namespace Lexicon

variable {L : Lexicon} {V : Vocabulary}

def speaking (L : Lexicon) (V : Vocabulary) : Lexicon := { L with vocabulary := V }

theorem term_speaking : (L.speaking V).term = L.term := by
  delta term
  rfl

theorem terms_speaking : (L.speaking V).terms = L.terms := by
  delta terms
  rfl

theorem implicitOf_speaking : (L.speaking V).implicitOf = L.implicitOf := by
  delta implicitOf implicitAll
  rfl

theorem keeps_event (wider : ∀ entry ∈ L.vocabulary, entry ∈ V) (bound : List String)
    (e : EventExpr) : Keeps (L.event bound e) ((L.speaking V).event bound e) := by
  intro t made
  have known : e.args.length ∈ (L.speaking V).vocabulary.arities e.tag :=
    Vocabulary.mem_arities.mpr (wider _ (mem_vocabulary_of_event made))
  obtain ⟨ts, read, rfl⟩ := event_eq_ok made
  simp [event, terms_speaking, read, known, List.ne_nil_of_mem known]

theorem keeps_events (wider : ∀ entry ∈ L.vocabulary, entry ∈ V) (bound : List String)
    (es : List EventExpr) : Keeps (L.events bound es) ((L.speaking V).events bound es) := by
  induction es with
  | nil => exact .refl _
  | cons e es ih => exact (keeps_event wider bound e).bind fun _ => ih.bind fun _ => .refl _

mutual

theorem keeps_formula (wider : ∀ entry ∈ L.vocabulary, entry ∈ V) :
    ∀ (a : Assertion) (bound : List String),
    Keeps (L.formula a bound) ((L.speaking V).formula a bound)
  -- Events alone ask the vocabulary.
  | .event e i, bound =>
    (Keeps.refl _).bind fun _ => (keeps_event wider bound e).bind fun _ => .refl _
  | .not a, bound | .all xs a, bound | .some xs a, bound =>
    (keeps_formula wider a _).bind fun _ => .refl _
  | .and (a :: as), bound | .or (a :: as), bound =>
    (keeps_formulas wider (a :: as) bound).bind fun _ => .refl _
  | .implies p c, bound =>
    (keeps_formula wider p bound).bind fun _ => (keeps_formula wider c bound).bind fun _ => .refl _
  | .equal l r, bound => by
    rw [formula, formula, term_speaking]
    exact .refl _
  | .before .., _ | .and [], _ | .or [], _ | .unsupported .., _ => .refl _

theorem keeps_formulas (wider : ∀ entry ∈ L.vocabulary, entry ∈ V) :
    ∀ (as : List Assertion) (bound : List String),
    Keeps (L.formulas as bound) ((L.speaking V).formulas as bound)
  | [], _ => .refl _
  | a :: as, bound =>
    (keeps_formula wider a bound).bind fun _ =>
      (keeps_formulas wider as bound).bind fun _ => .refl _

end

theorem keeps_statement (wider : ∀ entry ∈ L.vocabulary, entry ∈ V) (l : LemmaDecl) :
    Keeps (L.statement l) ((L.speaking V).statement l) := by
  unfold statement
  cases l.kind with
  | existsTrace | allTraces =>
    cases l.formula with
    | none => exact .refl _
    | some a => exact (keeps_formula wider a []).bind fun _ => .refl _
  | reachable =>
    have read : Keeps (L.reachability l.events) ((L.speaking V).reachability l.events) := by
      rw [reachability, reachability, implicitOf_speaking]
      exact (keeps_events wider _ _).bind fun _ => .refl _
    by_cases none : l.events.isEmpty = true
    · simp only [if_pos none]
      exact (Keeps.refl _).bind fun _ => read.bind fun _ => .refl _
    · simp only [if_neg none]
      exact read.bind fun _ => .refl _
  | corresponds =>
    rcases l.premise with _ | premise
    · exact .refl _
    · rcases l.conclusion with _ | conclusion
      · exact .refl _
      · refine Keeps.bind ?_ fun _ => .refl _
        rw [correspondence, correspondence, implicitOf_speaking]
        exact (keeps_event wider _ _).bind fun _ => (keeps_event wider _ _).bind fun _ => .refl _

theorem keeps_translate (wider : ∀ entry ∈ L.vocabulary, entry ∈ V) (l : LemmaDecl) :
    Keeps (L.translate l) ((L.speaking V).translate l) := by
  intro stated done
  unfold translate at done ⊢
  cases made : L.statement l with
  | ok pair =>
    rw [made] at done
    rw [keeps_statement wider l pair made]
    exact done
  | error fault => cases fault <;> simp [made] at done

end Lexicon

def ProcessInstance.tags (inst : ProcessInstance) : List (String × Nat) :=
  inst.events.map fun e => (e.tag, e.arity)

theorem Template.mem_parts {template : Template} {event : EventExpr} {whole : Command}
    (member : whole ∈ template.vars.map (fun v => .bind v.name v.init) ++ [template.main])
    (inside : .command (.emit event) ∈ whole.parts) :
    .command (.emit event) ∈ template.parts := by
  rcases List.mem_append.mp member with bound | main
  · obtain ⟨v, among, rfl⟩ := List.mem_map.mp bound
    refine List.mem_append_left _ (List.mem_append_right _ ?_)
    exact List.mem_flatMap.mpr ⟨v, among,
      List.mem_cons_of_mem _ ((List.mem_cons.mp inside).resolve_left (by simp))⟩
  · rw [List.mem_singleton.mp main] at inside
    exact List.mem_append_right _ inside

namespace Declarations

variable {D : Declarations} {names : List String} {t : String} {template : Template}
  {event : EventExpr}

theorem mem_writtenEvents_of_template (found : D.templates.find? t = some template)
    (inside : .command (.emit event) ∈ template.parts) :
    (event.tag, event.args.length) ∈ D.writtenEvents [t] := by
  refine List.mem_append_left _ (List.mem_flatMap.mpr ⟨template, ?_, ?_⟩)
  · exact List.mem_filterMap.mpr ⟨t, List.mem_singleton_self t, found⟩
  · exact List.mem_filterMap.mpr ⟨_, inside, rfl⟩

theorem mem_writtenEvents_of_definition {d : Definition}
    (listed : d ∈ D.callables.definitions.values) (inside : .command (.emit event) ∈ d.body.parts) :
    (event.tag, event.args.length) ∈ D.writtenEvents [t] := by
  refine List.mem_append_right _ (List.mem_flatMap.mpr ⟨d, listed, ?_⟩)
  exact List.mem_filterMap.mpr ⟨_, inside, rfl⟩

theorem writtenEvents_mono {more : List String} (listed : ∀ t ∈ names, t ∈ more)
    {entry : String × Nat} (written : entry ∈ D.writtenEvents names) :
    entry ∈ D.writtenEvents more := by
  unfold writtenEvents at written ⊢
  split at written
  next => cases written
  next some =>
    obtain ⟨t, here⟩ := List.exists_mem_of_ne_nil names (by simpa using some)
    rw [if_neg (by simpa using List.ne_nil_of_mem (listed t here))]
    rcases List.mem_append.mp written with own | called
    · obtain ⟨p, member, inside⟩ := List.mem_flatMap.mp own
      obtain ⟨t, here, found⟩ := List.mem_filterMap.mp member
      refine List.mem_append_left _ (List.mem_flatMap.mpr ⟨p, ?_, inside⟩)
      exact List.mem_filterMap.mpr ⟨t, listed t here, found⟩
    · exact List.mem_append_right _ called

variable {budget : Int} {M : Model} {name : String} {channels : Table String String} {first : Nat}
  {e : Elaborated}

theorem written_of_event (made : ofModel budget M = .ok D)
    (found : D.templates.find? t = some template)
    (done : elaborate D template name channels first = .ok e) {entry : String × Nat}
    (emitted : entry ∈ e.inst.tags) : entry ∈ D.writtenEvents [t] := by
  obtain ⟨site, listed, rfl⟩ := List.mem_map.mp emitted
  obtain ⟨event, code, tag, arity⟩ := exists_written_of_event done listed
  rw [← tag, ← arity]
  rcases code with ⟨whole, member, inside⟩ | ⟨d, has, inside⟩
  · exact mem_writtenEvents_of_template found (Template.mem_parts member inside)
  · obtain ⟨f, known⟩ := Callables.exists_find?_of_has made has
    exact mem_writtenEvents_of_definition (List.mem_map_of_mem (Table.mem_entries_of_find? known))
      inside

def lexicon (D : Declarations) (c : Composition) : Lexicon where
  theory := D.theory
  constants := D.constants
  vocabulary := D.vocabulary c

/-- Every event of an instance can be read off the text of its template and of what is callable. So
where an instance failed, a lemma can still be stated that could be with the instance there. -/
theorem writtenEvents_cover (made : ofModel budget M = .ok D)
    (found : D.templates.find? t = some template)
    (done : elaborate D template name channels first = .ok e) :
    (∀ entry ∈ e.inst.tags, entry ∈ D.writtenEvents [t]) ∧
    ∀ c c' : Composition, t ∈ c'.failed → (∀ f ∈ c.failed, f ∈ c'.failed) →
      (∀ inst ∈ c.instances, inst = e.inst ∨ ∃ other ∈ c'.instances, other.tags = inst.tags) →
      ∀ l stated, (D.lexicon c).translate l = .ok stated →
        (D.lexicon c').translate l = .ok stated := by
  refine ⟨fun entry => written_of_event made found done, fun c c' failed more others l => ?_⟩
  refine Lexicon.keeps_translate (V := D.vocabulary c') (fun entry known => ?_) l
  rcases List.mem_append.mp known with emitted | written
  · obtain ⟨inst, member, inside⟩ := List.mem_flatMap.mp emitted
    rcases others inst member with rfl | ⟨other, member', same⟩
    · have written := written_of_event made found done inside
      exact List.mem_append_right _ (writtenEvents_mono (by simpa using failed) written)
    · have inside : entry ∈ other.tags := same ▸ inside
      exact List.mem_append_left _ (List.mem_flatMap.mpr ⟨other, member', inside⟩)
  · exact List.mem_append_right _ (writtenEvents_mono more written)

end Declarations

def Model.rumoured : Model :=
  { courier with
    grants := [{ subject := "host_t", object := some "net_t", operations := ["send", "listen"] }]
    attackerGrants := [{ subject := "net_t", attacks := ["forge"] }]
    syscalls := [{ name := "listen", params := ["c"],
                   body := .seq [.bind "m" (.apply "recv" [.ident "c" none] none),
                     .emit { tag := "Heard", args := [.ident "m" none] },
                     .ret (.ident "m" none) none] }]
    attacks := [{ name := "forge", params := ["c"], target := some "recv",
                  body := .seq [.emit { tag := "Forged", args := [.ident "seal" none, .str "m"] },
                    .ret (.str "m") none] }]
    processes :=
      [{ name := "Receiver", type := "host_t", params := [{ name := "c", type := "net_t" }]
         main := .branch [.guarded []
           (.emit { tag := "Got", args := [.apply "listen" [.ident "c" none] none] })] }]
    system := some
      { instances := [{ template := "Receiver", args := ["net"], name := some "b" }]
        lemmas := [{ name := "tells", kind := .corresponds,
                     premise := some { tag := "Heard", args := [.ident "y" none] },
                     conclusion := some
                       { tag := "Forged", args := [.ident "x" none, .ident "y" none] } }] } }

theorem writtenEvents_cover_rumoured : ∃ D template e,
    Declarations.ofModel 64 .rumoured = .ok D ∧ D.templates.find? "Receiver" = some template ∧
    elaborate D template "b" (.single "c" "net") 1 = .ok e ∧
    e.inst.tags = [("Forged", 2), ("Heard", 1), ("Got", 1)] ∧
    (∀ entry ∈ e.inst.tags, entry ∈ D.writtenEvents ["Receiver"]) ∧
    D.system.lemmas.map (·.name) = ["tells"] ∧
    ∀ l ∈ D.system.lemmas, ∃ stated,
      (D.lexicon { instances := [e.inst], nextNonce := 1 }).translate l = .ok stated ∧
      (D.lexicon { nextNonce := 1, failed := ["Receiver"] }).translate l = .ok stated := by
  have ran : (do
      let D ← Declarations.ofModel 64 .rumoured
      let template ← (D.templates.find? "Receiver").elim (.error (.missing "Receiver")) .ok
      let e ← elaborate D template "b" (.single "c" "net") 1
      let L := D.lexicon { instances := [e.inst], nextNonce := 1 }
      return decide (e.inst.tags = [("Forged", 2), ("Heard", 1), ("Got", 1)] ∧
        D.system.lemmas.map (·.name) = ["tells"] ∧
        ∀ l ∈ D.system.lemmas, (L.translate l).isOk = true) : Result Bool) = .ok true := by
    decide +kernel
  simp only [bind_eq_ok_iff, pure_eq_ok_iff, decide_eq_true_eq] at ran
  obtain ⟨D, made, template, found, e, done, tags, names, accepted⟩ := ran
  have found : D.templates.find? "Receiver" = some template := by
    cases listed : D.templates.find? "Receiver" with
    | none => simp [listed] at found
    | some p => simpa [listed] using found
  obtain ⟨covered, stated⟩ := Declarations.writtenEvents_cover made found done
  refine ⟨D, template, e, made, found, done, tags, covered, names, fun l member => ?_⟩
  have accepts := accepted l member
  cases done : (D.lexicon { instances := [e.inst], nextNonce := 1 }).translate l with
  | error fault => simp [done, Except.isOk, Except.toBool] at accepts
  | ok s =>
    have others : ∀ inst ∈ [e.inst], inst = e.inst ∨
        ∃ other ∈ ([] : List ProcessInstance), other.tags = inst.tags := by simp
    refine ⟨s, rfl, stated _ _ (List.mem_singleton_self "Receiver") ?_ others l s done⟩
    exact fun f member => absurd member List.not_mem_nil

end ThreatModel
