import Mathlib
import ThreatModel.Proofs.Run.Exploration
import ThreatModel.Proofs.System.Statements
import ThreatModel.Proofs.Theory.Evaluation

set_option autoImplicit false

namespace ThreatModel

open Result

theorem System.Run.events_eq {S : System} {config : RunConfig} {s₀ s : State} {history : List Step}
    (run : S.Run config s₀ history s) :
    s.events = s₀.events ++ history.filterMap fun step => step.move.event? step.owner := by
  induction run with
  | start => simp
  | @step history step node run takes ih =>
    rw [(State.moved_of_perform takes.performs).events, ih, List.filterMap_append, List.append_assoc,
      List.filterMap_cons]
    cases step.move.event? step.owner <;> rfl

theorem ProcessInstance.Elaborated.exists_site {D : Declarations} {inst : ProcessInstance}
    (made : inst.Elaborated D) {place k : Nat} {node : Node} {t : Term}
    (found : inst.graph.node? place = some node) (action : node.action = .emit t k) :
    ∃ site, inst.events[k]? = some site ∧ site.Tagged ∧ site.term = t := by
  obtain ⟨b, logged, graph, events, tagged⟩ := made.exists_logged
  have acts : b.graph.actions[place]? = some (.emit t k) :=
    Graph.acts_iff.mpr ⟨node, graph ▸ found, action⟩
  have listed : place ∈ b.events.map (·.node) := by
    rw [logged.order, Graph.placesOf_eq]
    refine List.mem_map.mpr ⟨(.emit t k, place), List.mem_filter.mpr ⟨?_, rfl⟩, rfl⟩
    exact List.mem_zipIdx_iff_getElem?.mpr acts
  obtain ⟨site, member, rfl⟩ := List.mem_map.mp listed
  obtain ⟨j, inside, here⟩ := List.mem_iff_getElem.mp member
  have here : b.events[j]? = some site := by rw [List.getElem?_eq_getElem inside, here]
  -- Both entries speak of one node, so the term and the number are the same.
  obtain ⟨-, acts'⟩ := logged.sites j site here
  obtain ⟨rfl, rfl⟩ : t = site.term ∧ k = j := by simpa [acts] using acts'
  exact ⟨site, events ▸ here, tagged site (events ▸ member), rfl⟩

namespace System

/-- Every event on a trace was emitted at the site that it names. The arguments there have been given
their values, and the event has the tag and the arity of the site just if no equation for the tag
applies to these. -/
theorem explored_event_tagged {compiler : CompilerConfig} {M : Model} {S : System}
    {config : RunConfig} {x : Exploration} {t : Trace} {event : TraceEvent}
    (done : compile compiler M = .ok S) (explored : S.explore config = .ok x)
    (member : t ∈ x.traces) (emitted : event ∈ t.events) :
    ∃ inst site ts σ args, S.get event.owner = .ok inst ∧
      inst.events[event.index]? = some site ∧ (site.tag, site.arity) ∈ S.eventTags ∧
      site.term = .app site.tag ts ∧ args.length = site.arity ∧
      List.Forall₂ (Rewriting.Value S.theory.equations) (ts.map (·.subst σ)) args ∧
      (event.term = .app site.tag args ↔ ¬ S.theory.Redex site.tag args) := by
  obtain ⟨D, -, compiled, elaborated⟩ := exists_declared done
  obtain ⟨s₀, history, s, initial, run, -, rfl⟩ := exists_run_of_explore explored member
  rw [compiled.initial_eq] at initial
  obtain rfl := Except.ok.inj initial
  -- Nothing was emitted at the start, so some step of the run emitted the event.
  have emitted : event ∈ history.filterMap fun step => step.move.event? step.owner := by
    have emitted : event ∈ s.events := emitted
    rwa [run.events_eq] at emitted
  obtain ⟨step, among, moved⟩ := List.mem_filterMap.mp emitted
  obtain ⟨-, node, -, takes⟩ := run.exists_of_mem among
  obtain ⟨-, inst, got, found⟩ := takes.stands
  have offers := takes.offers
  generalize step.move = m at offers moved
  cases offers with
  | @emit u v index action value =>
      obtain rfl := Option.some.inj moved
      have listed := (Compiled.mem_of_get got).1
      obtain ⟨site, here, ⟨ts, term, arity⟩, rfl⟩ :=
        (elaborated inst listed).exists_site found action
      obtain ⟨-, normalized⟩ := evaluate_eq_ok_iff.mp value
      rw [term, Term.subst, Term.substAll_eq_map] at normalized
      obtain ⟨args, each, kept⟩ := compiled.wellFormed.normalize_app normalized
      have tags : (site.tag, site.arity) ∈ S.eventTags :=
        List.mem_flatMap.mpr ⟨inst, listed, List.mem_map.mpr ⟨site, List.mem_of_getElem? here, rfl⟩⟩
      refine ⟨inst, site, ts, _, args, got, here, tags, term, ?_, each, kept⟩
      rw [← each.length_eq, arity, List.length_map]
  | _ => simp [Move.event?] at moved

end System

def Model.mistagged : Model where
  types := [{ name := "host_t", kind := .process }]
  processes :=
    [{ name := "P", type := "host_t"
       main := .seq
         [.emit { tag := "Done", args := [.apply "fst" [.tuple [.str "a", .str "b"]] none] },
          .emit { tag := "fst", args := [.tuple [.str "a", .str "b"]] }] }]
  system := some
    { instances := [{ template := "P", name := some "p" }]
      lemmas := [{ name := "r", kind := .reachable,
                   events := [{ tag := "fst", args := [.ident "z" none] }] }] }

theorem System.explored_mistagged_loses_tag :
    ∃ S x t event, ∃ inst : ProcessInstance, ∃ site : EventSite, ∃ args,
    compile {} Model.mistagged = .ok S ∧ S.explore {} = .ok x ∧ t ∈ x.traces ∧
      S.eventTags = [("Done", 1), ("fst", 1)] ∧
      t.events.map (·.term) = [.app "Done" [.lit "a"], .lit "a"] ∧
      event ∈ t.events ∧ event.term = .lit "a" ∧ S.get event.owner = .ok inst ∧
      inst.events[event.index]? = some site ∧ S.theory.Redex site.tag args := by
  have ran : (do
      let S ← compile {} Model.mistagged
      let x ← S.explore {}
      return (S.eventTags, x.traces.map fun t => t.events.map (·.term)) :
        Result (List (String × Nat) × List (List Term))) =
      .ok ([("Done", 1), ("fst", 1)], [[.app "Done" [.lit "a"], .lit "a"]]) := by
    decide +kernel
  simp only [bind_eq_ok_iff, pure_eq_ok_iff, Prod.mk.injEq] at ran
  obtain ⟨S, done, x, explored, tags, traces⟩ := ran
  obtain ⟨t, member, terms⟩ := List.mem_map.mp (traces ▸ List.mem_singleton_self _)
  obtain ⟨event, emitted, bare⟩ : ∃ event ∈ t.events, event.term = .lit "a" :=
    List.mem_map.mp (terms ▸ by simp)
  obtain ⟨inst, site, -, -, args, got, here, -, -, -, -, kept⟩ :=
    explored_event_tagged done explored member emitted
  have redex : S.theory.Redex site.tag args := by
    by_contra stands
    simpa [bare] using kept.mpr stands
  exact ⟨S, x, t, event, inst, site, args, done, explored, member, tags, terms, emitted, bare, got,
    here, redex⟩

end ThreatModel
