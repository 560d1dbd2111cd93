import Mathlib
import ThreatModel.Proofs.Run.Sound

set_option autoImplicit false

namespace ThreatModel

open Result

def RunConfig.spares (config : RunConfig) (key : String) : Bool :=
  key = attackerStore && config.keepAttackerFacts

namespace Move

def inserts (key : String) (fact : Term) : Move → Bool
  | .insert store put => store == key && put == fact
  | _ => false

def removes (key : String) (fact : Term) : Move → Bool
  | .remove store taken => store == key && taken == fact
  | _ => false

def consumes (key : String) (fact : Term) : Move → Bool
  | .consume store taken _ => store == key && taken == fact
  | _ => false

def touches (key : String) : Move → Bool
  | .insert store _ | .remove store _ | .consume store _ _ => store == key
  | _ => false

def factsAfter (config : RunConfig) (key : String) (facts : List Term) : Move → List Term
  | .insert store fact => if store = key then facts ++ [fact] else facts
  | .remove store fact => if store = key then facts.erase fact else facts
  | .consume store fact _ =>
    if store = key && !config.spares key then facts.erase fact else facts
  | _ => facts

variable {config : RunConfig} {key : String} {facts : List Term} {m : Move}

theorem factsAfter_of_not_touches (untouched : m.touches key = false) :
    m.factsAfter config key facts = facts := by
  cases m <;> simp_all [touches, factsAfter]

theorem mem_factsAfter {fact : Term} (member : fact ∈ m.factsAfter config key facts) :
    fact ∈ facts ∨ m = .insert key fact := by
  cases m with
  | insert store put =>
    by_cases here : store = key
    · subst here
      simpa [factsAfter, eq_comm] using member
    · exact .inl (by simpa [factsAfter, here] using member)
  | remove store taken | consume store taken found =>
    simp only [factsAfter] at member
    split at member
    · exact .inl (List.mem_of_mem_erase member)
    · exact .inl member
  | _ => exact .inl member

theorem count_factsAfter (m : Move) (config : RunConfig) (fact : Term)
    (there : m.removes key fact = true ∨ m.consumes key fact = true → fact ∈ facts) :
    (m.factsAfter config key facts).count fact + (m.removes key fact).toNat +
        (if config.spares key then 0 else (m.consumes key fact).toNat) =
      facts.count fact + (m.inserts key fact).toNat := by
  have erased (taken : Term) (present : taken = fact → fact ∈ facts) :
      (facts.erase taken).count fact + (taken == fact).toNat = facts.count fact := by
    by_cases same : taken = fact
    · subst same
      have positive := List.count_pos_iff.mpr (present rfl)
      simp only [List.count_erase_self, beq_self_eq_true, Bool.toNat_true]
      omega
    · simp [List.count_erase_of_ne (Ne.symm same), same]
  cases m with
  | insert store put =>
    by_cases here : store = key
    · simp [factsAfter, removes, consumes, inserts, here, List.count_append,
        List.count_singleton, Bool.toNat, Bool.cond_eq_ite]
    · simp [factsAfter, removes, consumes, inserts, here]
  | remove store taken =>
    by_cases here : store = key
    · have balance := erased taken fun same => there (.inl (by simp [removes, here, same]))
      simpa [factsAfter, removes, consumes, inserts, here] using balance
    · simp [factsAfter, removes, consumes, inserts, here]
  | consume store taken found =>
    by_cases here : store = key
    · have balance := erased taken fun same => there (.inr (by simp [consumes, here, same]))
      cases spared : config.spares key with
      | false => simpa [factsAfter, removes, consumes, inserts, here, spared] using balance
      | true => simp [factsAfter, removes, inserts, here, spared]
    · simp [factsAfter, removes, consumes, inserts, here]
  | _ => simp [factsAfter, removes, consumes, inserts]

end Move

theorem State.afterConsume_eq {config : RunConfig} {held : Store} {fact : Term} :
    afterConsume config held fact =
      { held with facts :=
          if config.spares held.name then held.facts else held.facts.erase fact } := by
  unfold afterConsume RunConfig.spares
  split <;> rfl

namespace System

variable {S : System} {D : Declarations} {config : RunConfig} {s₀ s : State} {step : Step}
  {node : Node} {name key : String} {history : List Step}

theorem find?_setStore {next : List Nat} {store : Store} :
    ((s.advance name next).setStore store).stores.find? key =
      if store.name = key then some store else s.stores.find? key := by
  simp [State.setStore, State.advance, Table.find?_insert]

theorem Compiled.store_step (compiled : S.Compiled D) (sound : step.before.Sound S)
    (takes : S.Takes config step node) {held : Store}
    (here : step.before.stores.find? key = some held) :
    step.after.stores.find? key =
        some { held with facts := step.move.factsAfter config key held.facts } ∧
      ∀ fact, step.move.removes key fact = true ∨ step.move.consumes key fact = true →
        fact ∈ held.facts := by
  obtain ⟨inst, got, found, inside, nameless, touches⟩ := compiled.node_sound takes.stands
  have offers := takes.offers
  have performs := takes.performs
  obtain ⟨before, owner, place, move, after⟩ := step
  simp only at sound offers performs here ⊢
  cases offers with
  | @insert store t v action value =>
    have holds := compiled.value_of_evaluate sound (nameless t (by simp [action, Action.terms]))
      value
    obtain ⟨old, there, rfl⟩ := (State.perform_insert_iff holds).mp performs
    obtain ⟨named, -⟩ := sound.facts store old there
    refine ⟨?_, by simp [Move.removes, Move.consumes]⟩
    rw [find?_setStore]
    by_cases same : store = key
    · subst same
      obtain rfl := Option.some.inj (here.symm.trans there)
      simp [Move.factsAfter, named]
    · simp [Move.factsAfter, named, same, here]
  | @remove store t v _ action value =>
    have holds := compiled.value_of_evaluate sound (nameless t (by simp [action, Action.terms]))
      value
    obtain ⟨old, there, member, rfl⟩ := (State.perform_remove_iff holds).mp performs
    obtain ⟨named, -⟩ := sound.facts store old there
    rw [find?_setStore]
    by_cases same : store = key
    · subst same
      obtain rfl := Option.some.inj (here.symm.trans there)
      refine ⟨by simp [Move.factsAfter, Store.erase, named], ?_⟩
      simpa [Move.removes, Move.consumes] using member
    · simp [Move.factsAfter, Move.removes, Move.consumes, Store.erase, named, same, here]
  | @consume store p pattern fact binds old options found action there made matching member =>
    obtain ⟨inside, -⟩ := Compiled.found_values sound there (Theory.normal_of_normalize made)
      matching member
    obtain ⟨old', there', rfl⟩ := State.perform_consume_iff.mp performs
    obtain rfl : old = old' := Option.some.inj (there.symm.trans there')
    obtain ⟨named, -⟩ := sound.facts store old there
    change ((before.advance owner node.successors).setStore
      (State.afterConsume config old fact)).stores.find? key = _ ∧ _
    rw [find?_setStore, State.afterConsume_eq]
    by_cases same : store = key
    · subst same
      obtain rfl := Option.some.inj (here.symm.trans there)
      refine ⟨?_, by simpa [Move.removes, Move.consumes] using inside⟩
      cases spared : config.spares store <;> simp [Move.factsAfter, named, spared]
    · simp [Move.factsAfter, Move.removes, Move.consumes, named, same, here]
  | _ =>
    obtain rfl := Except.ok.inj performs
    exact ⟨here, by simp [Move.removes, Move.consumes]⟩

/-- What is left of a fact in a store and what was taken make up what was there and was put in. -/
def Conserves (config : RunConfig) (key : String) (held₀ : Store) (history : List Step)
    (s : State) : Prop :=
  ∃ held, s.stores.find? key = some held ∧
    ∀ fact, held.facts.count fact + history.countP (·.move.removes key fact) +
        (if config.spares key then 0 else history.countP (·.move.consumes key fact)) =
      held₀.facts.count fact + history.countP (·.move.inserts key fact)

variable {held₀ : Store}

theorem Compiled.conserves_step (compiled : S.Compiled D) (sound : step.before.Sound S)
    (takes : S.Takes config step node)
    (conserves : Conserves config key held₀ history step.before) :
    Conserves config key held₀ (history ++ [step]) step.after := by
  obtain ⟨held, here, total⟩ := conserves
  obtain ⟨there, present⟩ := compiled.store_step sound takes here
  refine ⟨_, there, fun fact => ?_⟩
  have before := total fact
  have changed := step.move.count_factsAfter config fact (present fact)
  have last (p : Step → Bool) : [step].countP p = (p step).toNat := by cases h : p step <;> simp [h]
  simp only [List.countP_append, last]
  cases spared : config.spares key <;>
    simp only [spared, Bool.false_eq_true, if_true, if_false] at before changed ⊢ <;> omega

theorem Compiled.conserves_run (compiled : S.Compiled D)
    (declared : S.start.stores.find? key = some held₀) (run : S.Run config S.start history s) :
    Conserves config key held₀ history s := by
  induction run with
  | start => exact ⟨held₀, declared, by simp⟩
  | step run takes ih =>
    exact compiled.conserves_step (compiled.run_sound compiled.start_sound run) takes ih

/-- No fact is lost or doubled, whoever moves when. A step that neither puts a fact into a store nor
takes one from it leaves the store alone. -/
theorem facts_conserved {compiler : CompilerConfig} {M : Model} (done : compile compiler M = .ok S)
    (initial : State.initial S = .ok s₀) (run : S.Run config s₀ history s)
    (declared : s₀.stores.find? key = some held₀) :
    ∃ held, s.stores.find? key = some held ∧
      (∀ fact, held.facts.count fact + history.countP (·.move.removes key fact) +
          (if key = attackerStore ∧ config.keepAttackerFacts = true then 0
            else history.countP (·.move.consumes key fact)) =
        held₀.facts.count fact + history.countP (·.move.inserts key fact)) ∧
      ∀ step ∈ history, step.move.touches key = false →
        step.after.stores.find? key = step.before.stores.find? key := by
  obtain ⟨D, compiled⟩ := compiled_of_compile done
  rw [compiled.initial_eq] at initial
  obtain rfl := Except.ok.inj initial
  obtain ⟨held, here, total⟩ := compiled.conserves_run declared run
  refine ⟨held, here, by simpa [RunConfig.spares] using total, fun step member untouched => ?_⟩
  obtain ⟨earlier, node, ran, takes⟩ := run.exists_of_mem member
  obtain ⟨old, kept, -⟩ := compiled.conserves_run declared ran
  obtain ⟨there, -⟩ := compiled.store_step (compiled.run_sound compiled.start_sound ran) takes kept
  rw [there, kept, Move.factsAfter_of_not_touches untouched]

-- What the sender put on the channel is gone from it, since the receiver took it.
theorem facts_courier_conserved : ∃ S s₀ history s held₀ held,
    compile {} Model.courier = .ok S ∧ State.initial S = .ok s₀ ∧ S.Run {} s₀ history s ∧
      s₀.stores.find? "net" = some held₀ ∧ s.stores.find? "net" = some held ∧
      ∃ fact, fact = .app "pair" [nonceName 1 0, nonceName 0 0] ∧
        held₀.facts.count fact = 0 ∧ history.countP (·.move.inserts "net" fact) = 1 ∧
        history.countP (·.move.consumes "net" fact) = 1 ∧ held.facts.count fact = 0 := by
  have ran : (do
      let S ← compile {} Model.courier
      let s₀ ← State.initial S
      let steps ← S.replay {} s₀ [("b", 0), ("a", 0), ("a", 0), ("a", 0), ("a", 0), ("b", 0)]
      let fact := Term.app "pair" [nonceName 1 0, nonceName 0 0]
      return ((s₀.stores.find? "net").map (·.facts.count fact),
        steps.countP (·.move.inserts "net" fact), steps.countP (·.move.consumes "net" fact)) :
        Result (Option Nat × Nat × Nat)) = .ok (some 0, 1, 1) := by
    decide +kernel
  simp only [bind_eq_ok_iff, pure_eq_ok_iff, lift_eq_ok_iff, Prod.mk.injEq,
    Option.map_eq_some_iff] at ran
  obtain ⟨S, done, s₀, initial, steps, replayed, ⟨held₀, declared, none⟩, put, taken⟩ := ran
  have run := run_of_replay (Run.start : S.Run {} s₀ [] s₀) replayed
  rw [List.nil_append] at run
  obtain ⟨held, left, total, -⟩ := facts_conserved done initial run declared
  refine ⟨S, s₀, steps, _, held₀, held, done, initial, run, declared, left, _, rfl, none, put, taken,
    ?_⟩
  have balance := total (.app "pair" [nonceName 1 0, nonceName 0 0])
  rw [if_neg (by decide), none, put, taken] at balance
  omega

end System

end ThreatModel
