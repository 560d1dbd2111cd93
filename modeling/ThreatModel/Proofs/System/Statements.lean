import Mathlib
import ThreatModel.Proofs.Elaboration.Shape
import ThreatModel.Proofs.Formula.Reachability

set_option autoImplicit false

namespace ThreatModel

open Result

namespace EventSite

def Tagged (site : EventSite) : Prop := ∃ ts, site.term = .app site.tag ts ∧ site.arity = ts.length

end EventSite

namespace Build

variable {b b' : Build}

theorem Step.tagged (step : b.Step b') (before : ∀ site ∈ b.events, site.Tagged) :
    ∀ site ∈ b'.events, site.Tagged := by
  cases step with
  | quiet _ events => rwa [events]
  | append => exact before
  | @emit ctx tag ts ends =>
    intro site member
    rcases List.mem_append.mp member with old | new
    · exact before site old
    · rw [List.mem_singleton.mp new]
      exact ⟨ts, rfl, rfl⟩
  | connect => exact before

theorem Steps.tagged (steps : b.Steps b') (before : ∀ site ∈ b.events, site.Tagged) :
    ∀ site ∈ b'.events, site.Tagged := by
  induction steps with
  | refl => exact before
  | tail _ one ih => exact one.tagged ih

theorem events_close (ctx : Context) (ends : Ends) : (b.close ctx ends).events = b.events := by
  unfold close
  split <;> rfl

end Build

def ProcessInstance.Emits (inst : ProcessInstance) (tag : String) (n : Nat) : Prop :=
  ∃ i node args k, inst.graph.node? i = some node ∧ node.action = .emit (.app tag args) k ∧
    args.length = n

theorem ProcessInstance.Elaborated.exists_logged {D : Declarations} {inst : ProcessInstance}
    (made : inst.Elaborated D) :
    ∃ b : Build, b.Logged ∧ b.graph = inst.graph ∧ b.events = inst.events ∧
      ∀ site ∈ inst.events, site.Tagged := by
  obtain ⟨template, name, channels, first, e, done, rfl⟩ := made
  obtain ⟨b, ran, -⟩ := exists_build_of_elaborate done
  -- Every step keeps what sites say of their events; the log says at which nodes these are.
  have tagged : ∀ site ∈ e.inst.events, site.Tagged := by
    obtain ⟨scope, flow, flow', b₁, b₂, -, vars, main, rfl, same⟩ := template.derives ran
    have steps := Build.Steps.enter (vars.steps.trans main.steps) rfl
    rw [same, Build.events_close]
    exact steps.tagged (by simp)
  obtain ⟨last, ends, complete, graph, events⟩ := Template.exists_complete rfl rfl ran
  exact ⟨_, complete.close_logged, graph.symm, events.symm, tagged⟩

theorem ProcessInstance.Elaborated.emits {D : Declarations} {inst : ProcessInstance}
    (made : inst.Elaborated D) {site : EventSite} (listed : site ∈ inst.events) :
    inst.Emits site.tag site.arity := by
  obtain ⟨b, logged, graph, events, tagged⟩ := made.exists_logged
  obtain ⟨k, inside, here⟩ := List.mem_iff_getElem.mp listed
  obtain ⟨-, acts⟩ := logged.sites k site (by rw [events, List.getElem?_eq_getElem inside, here])
  obtain ⟨node, found, emits⟩ := Graph.acts_iff.mp (graph ▸ acts)
  obtain ⟨ts, term, arity⟩ := tagged site listed
  exact ⟨site.node, node, ts, k, found, term ▸ emits, arity.symm⟩

namespace Lexicon

variable {L : Lexicon} {l : LemmaDecl} {stated : Lemma}

theorem closed_of_translate (done : L.translate l = .ok stated) :
    stated.formula.Closed L.vocabulary [] := by
  -- Each kind of lemma has its own way of binding the names that nobody declared.
  cases kind : l.kind with
  | reachable =>
    obtain ⟨terms, read, formula, -⟩ := reachability_of_translate done kind
    rw [formula]
    exact closed_reachability read
  | corresponds =>
    obtain ⟨_, made⟩ := statement_of_translate done
    simp only [statement, kind] at made
    split at made
    next =>
      simp only [bind_eq_ok_iff, pure_eq_ok_iff, Prod.mk.injEq] at made
      obtain ⟨_, formula, rfl, -⟩ := made
      exact closed_of_correspondence formula
    next => simp [flaw] at made
  | existsTrace | allTraces =>
    obtain ⟨_, made⟩ := statement_of_translate done
    simp only [statement, kind] at made
    split at made
    next => simp [flaw] at made
    next =>
      simp only [bind_eq_ok_iff, pure_eq_ok_iff, Prod.mk.injEq] at made
      obtain ⟨_, formula, rfl, -⟩ := made
      exact closed_of_formula formula

end Lexicon

theorem Declarations.translated_of_addLemmas {L : Lexicon} {decls : List LemmaDecl}
    {lemmas : List Lemma} {flaws : List Diagnostic} (done : addLemmas L decls = .ok (lemmas, flaws))
    {l : Lemma} (member : l ∈ lemmas) : ∃ decl ∈ decls, L.translate decl = .ok l := by
  induction decls generalizing lemmas flaws with
  | nil =>
    obtain ⟨rfl, -⟩ : [] = lemmas ∧ [] = flaws := by simpa [addLemmas] using done
    simp at member
  | cons decl rest ih =>
    simp only [addLemmas] at done
    split at done
    next stated translated =>
      simp only [bind_eq_ok_iff, pure_eq_ok_iff, Prod.mk.injEq] at done
      obtain ⟨⟨others, flaws'⟩, later, rfl, -⟩ := done
      rcases List.mem_cons.mp member with rfl | old
      · exact ⟨decl, by simp, translated⟩
      · obtain ⟨decl', among, made⟩ := ih later old
        exact ⟨decl', by simp [among], made⟩
    next =>
      simp only [bind_eq_ok_iff, pure_eq_ok_iff, Prod.mk.injEq] at done
      obtain ⟨⟨others, flaws'⟩, later, rfl, -⟩ := done
      obtain ⟨decl', among, made⟩ := ih later member
      exact ⟨decl', by simp [among], made⟩
    next => simp at done

namespace Composition

variable {D : Declarations} {c c' : Composition}

theorem Adds.failed {insts : List InstanceDecl} {i : Nat} (adds : Adds D insts i c c') :
    c'.failed = c.failed := by
  induction adds with
  | nil => rfl
  | cons _ _ _ ih => exact ih

theorem vocabulary_of_compose (composed : D.compose = .ok c) (clean : c.flaws = []) :
    D.vocabulary c =
      c.instances.flatMap fun inst => inst.events.map fun e => (e.tag, e.arity) := by
  have none : c.failed = [] := (adds_of_addInstances composed clean).2.failed
  simp [Declarations.vocabulary, Declarations.writtenEvents, none]

end Composition

namespace System

variable {config : CompilerConfig} {M : Model} {S : System} {l : Lemma}

theorem exists_translated (done : compile config M = .ok S) (member : l ∈ S.lemmas) :
    ∃ (L : Lexicon) (decl : LemmaDecl), L.translate decl = .ok l ∧ L.theory = S.theory ∧
      L.theory.Declared ∧ L.vocabulary = S.eventTags := by
  simp only [compile, bind_eq_ok_iff, lift_eq_ok_iff] at done
  obtain ⟨D, declared, c, composed, hopeless, -, ⟨lemmas, flaws⟩, stated, done⟩ := done
  split at done
  next clean =>
    simp only [List.isEmpty_iff, List.append_eq_nil_iff] at clean
    simp only [lift_eq_ok_iff, package, bind_eq_ok_iff, pure_eq_ok_iff] at done
    obtain ⟨edges, -, rfl⟩ := done
    obtain ⟨decl, -, translated⟩ := Declarations.translated_of_addLemmas stated member
    exact ⟨_, decl, translated, rfl, Declarations.theory_of_ofModel declared,
      Composition.vocabulary_of_compose composed clean.1.1⟩
  next => simp at done

/-- The lemmas of a compiled system are closed, and each event they speak of is emitted by some
instance. So there is no trace on which one cannot be judged for its form: it is judged, unless
rewriting does not come to an end. -/
theorem lemmas_closed (done : compile config M = .ok S) (member : l ∈ S.lemmas) :
    l.formula.Closed S.eventTags [] ∧
      (∀ tag n, (tag, n) ∈ S.eventTags → ∃ inst ∈ S.instances, inst.Emits tag n) ∧
      ∀ (trace : List Term) (solver : Solver),
        (∀ problem, l.formula.check S.theory trace solver ≠ .error (.unsupported problem)) ∧
        ((∃ verdict, l.formula.check S.theory trace solver = .ok verdict) ∨
          ∃ fault, l.formula.check S.theory trace solver = .error fault ∧ fault.Diverges) := by
  obtain ⟨L, decl, translated, theory, declared, vocabulary⟩ := exists_translated done member
  have closed := Lexicon.closed_of_translate translated
  rw [vocabulary] at closed
  refine ⟨closed, fun tag n listed => ?_, fun trace solver => ?_⟩
  · obtain ⟨inst, among, emitted⟩ := List.mem_flatMap.mp listed
    obtain ⟨site, here, same⟩ := List.mem_map.mp emitted
    obtain ⟨rfl, rfl⟩ := Prod.mk.inj same
    obtain ⟨D, -, -, made⟩ := exists_declared done
    exact ⟨inst, among, (made inst among).emits here⟩
  · have judged := closed.judged_or_diverges (theory ▸ declared) trace solver
    refine ⟨fun problem failed => ?_, judged⟩
    rcases judged with ⟨verdict, judged⟩ | ⟨_, judged, d, limit, last, rfl, -⟩
    · simp [judged] at failed
    · simp [judged] at failed

end System

def Model.audited : Model :=
  { courier with
    system := some
      { instances := [{ template := "Sender", args := ["net"], name := some "a" },
          { template := "Receiver", args := ["net"], name := some "b" }]
        lemmas :=
          [{ name := "arrives", kind := .reachable,
             events := [{ tag := "Got", args := [.ident "y" none] }] },
           { name := "again", kind := .corresponds,
             premise := some { tag := "Got", args := [.ident "x" none] },
             conclusion := some { tag := "Got", args := [.ident "z" none] } },
           { name := "once", kind := .allTraces,
             formula := some (.all ["x", "#i"] (.implies
               (.event { tag := "Got", args := [.ident "x" none] } "#i")
               (.not (.some ["x", "#j"] (.and
                 [.event { tag := "Got", args := [.ident "x" none] } "#j",
                  .before "#j" "#i", .equal (.ident "x" none) (.str "m")]))))) }] } }

theorem System.lemmas_of_audited_closed : ∃ S, compile {} Model.audited = .ok S ∧
    S.lemmas.map (·.name) = ["arrives", "again", "once"] ∧ S.eventTags = [("Got", 1)] ∧
    ∀ l ∈ S.lemmas, l.formula.Closed [("Got", 1)] [] ∧ (∃ inst ∈ S.instances, inst.Emits "Got" 1) ∧
      ∀ problem, l.formula.check S.theory [.app "Got" [.lit "m"]] ≠
        .error (.unsupported problem) := by
  have compiles : (do
      let S ← compile {} Model.audited
      return (S.lemmas.map (·.name), S.eventTags) : Result (List String × List (String × Nat))) =
      .ok (["arrives", "again", "once"], [("Got", 1)]) := by
    decide +kernel
  simp only [bind_eq_ok_iff, pure_eq_ok_iff, Prod.mk.injEq] at compiles
  obtain ⟨S, done, names, tags⟩ := compiles
  refine ⟨S, done, names, tags, fun l member => ?_⟩
  obtain ⟨closed, emitted, judged⟩ := lemmas_closed done member
  rw [tags] at closed emitted
  exact ⟨closed, emitted "Got" 1 (by simp), (judged _ _).1⟩

end ThreatModel
