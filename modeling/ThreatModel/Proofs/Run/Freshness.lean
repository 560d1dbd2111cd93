import Mathlib
import ThreatModel.Proofs.Run.Sound

set_option autoImplicit false

namespace ThreatModel

open Result

theorem nonceName_injective {id k id' k' : Nat} (same : nonceName id k = nonceName id' k') :
    id = id' ∧ k = k' := by
  obtain ⟨ids, draws⟩ := numbered_injective (Term.name.inj same)
  refine ⟨?_, draws⟩
  have digits : ("n" ++ id.repr).toList = ("n" ++ id'.repr).toList := congrArg String.toList ids
  rw [← Nat.repr_inj]
  exact String.toList_inj.mp (by simpa using digits)

theorem Tally.not_mem_names {t : Tally} {id : Nat} {n : String}
    (drawn : nonceName id (t.count id) = .name n) : n ∉ t.names := by
  rintro ⟨id', k, less, same⟩
  obtain ⟨rfl, rfl⟩ := nonceName_injective (same.trans drawn.symm)
  omega

def State.Mentions (s : State) (n : String) : Prop :=
  (∃ name x t, (s.env name).find? x = some t ∧ n ∈ t.names) ∨
    (∃ key fact, Store.Held s.stores key fact ∧ n ∈ fact.names) ∨
    ∃ e ∈ s.events, n ∈ e.term.names

theorem State.Sound.mem_names {S : System} {s : State} {n : String} (sound : s.Sound S)
    (mentions : s.Mentions n) : n ∈ s.drawn.names := by
  rcases mentions with ⟨name, x, t, found, inside⟩ | ⟨key, fact, ⟨store, found, member⟩, inside⟩ |
    ⟨e, member, inside⟩
  · exact (sound.values name x t found).names n inside
  · exact ((sound.facts key store found).2 fact member).names n inside
  · exact (sound.events e member).names n inside

def Step.nonce? (step : Step) : Option Term :=
  match step.move with
  | .draw x _ => (step.after.env step.owner).find? x
  | _ => none

namespace State

def globalNonces : List GlobalFresh → Tally → List Term
  | [], _ => []
  | g :: rest, drawn =>
    nonceName g.nonce (drawn.count g.nonce) :: globalNonces rest (drawn.bump g.nonce)

variable {earlier later globals : List GlobalFresh} {shared : Subst} {drawn : Tally}

theorem drawGlobals_append :
    drawGlobals (earlier ++ later) shared drawn =
      drawGlobals later (drawGlobals earlier shared drawn).1 (drawGlobals earlier shared drawn).2 := by
  induction earlier generalizing shared drawn with
  | nil => rfl
  | cons g rest ih => exact ih

theorem globalNonces_append (shared : Subst) :
    globalNonces (earlier ++ later) drawn =
      globalNonces earlier drawn ++ globalNonces later (drawGlobals earlier shared drawn).2 := by
  induction earlier generalizing shared drawn with
  | nil => rfl
  | cons g rest ih => exact congrArg _ (ih _)

@[simp] theorem length_globalNonces : (globalNonces globals drawn).length = globals.length := by
  induction globals generalizing drawn with
  | nil => rfl
  | cons g rest ih => simp [globalNonces, ih]

theorem names_drawGlobals (ordered : drawn.Ordered) :
    drawn.names ⊆ (drawGlobals globals shared drawn).2.names := by
  induction globals generalizing shared drawn with
  | nil => exact subset_rfl
  | cons g rest ih => exact (Tally.names_bump ordered g.nonce).trans (ih (ordered.bump g.nonce))

theorem globalNonces_fresh (globals : List GlobalFresh) (shared : Subst) (ordered : drawn.Ordered) :
    (globalNonces globals drawn).Nodup ∧ ∀ t ∈ globalNonces globals drawn, ∃ n, t = .name n ∧
      n ∉ drawn.names ∧ n ∈ (drawGlobals globals shared drawn).2.names := by
  induction globals generalizing shared drawn with
  | nil => simp [globalNonces]
  | cons g rest ih =>
    obtain ⟨distinct, each⟩ := ih _ (ordered.bump g.nonce)
    have first :
        nonceName g.nonce (drawn.count g.nonce) ∉ globalNonces rest (drawn.bump g.nonce) := by
      intro member
      obtain ⟨n, same, absent, -⟩ := each _ member
      exact absent (Tally.mem_names_bump ordered g.nonce same)
    refine ⟨List.nodup_cons.mpr ⟨first, distinct⟩, ?_⟩
    intro t member
    rcases List.mem_cons.mp member with rfl | later
    · exact ⟨_, rfl, Tally.not_mem_names rfl,
        names_drawGlobals (ordered.bump g.nonce) (Tally.mem_names_bump ordered g.nonce rfl)⟩
    · obtain ⟨n, rfl, absent, drawn⟩ := each t later
      exact ⟨n, rfl, fun member => absent (Tally.names_bump ordered g.nonce member), drawn⟩

end State

namespace System

variable {S : System} {D : Declarations} {config : RunConfig} {s s₀ : State} {step : Step}
  {node : Node} {history : List Step}

def constantNonces (S : System) : List Term := State.globalNonces S.globals {}

def nonces (S : System) (history : List Step) : List Term :=
  S.constantNonces ++ history.filterMap Step.nonce?

theorem Takes.nonce?_eq (takes : S.Takes config step node) {x : String} {id : Nat}
    (draws : step.move = .draw x id) :
    step.nonce? = some (nonceName id (step.before.drawn.count id)) := by
  simp [Step.nonce?, draws, (State.moved_of_perform takes.performs).env, Move.bound]

theorem draw_fresh (sound : step.before.Sound S) (takes : S.Takes config step node)
    {x : String} {id : Nat} (draws : step.move = .draw x id) :
    ∃ n, step.nonce? = some (.name n) ∧ ¬ step.before.Mentions n :=
  ⟨_, takes.nonce?_eq draws, fun mentions => Tally.not_mem_names rfl (sound.mem_names mentions)⟩

namespace Compiled

theorem nonces_distinct (compiled : S.Compiled D) (run : S.Run config S.start history s) :
    (S.nonces history).Nodup ∧ ∀ t ∈ S.nonces history, ∃ n ∈ s.drawn.names, t = .name n := by
  induction run with
  | start =>
    have ordered : Tally.Ordered {} := by simp [Tally.Ordered]
    obtain ⟨distinct, each⟩ := State.globalNonces_fresh S.globals .empty ordered
    refine ⟨by simpa [nonces, constantNonces] using distinct, fun t member => ?_⟩
    obtain ⟨n, same, -, drawn⟩ := each t (by simpa [nonces, constantNonces] using member)
    exact ⟨n, drawn, same⟩
  | @step history step node run takes ih =>
    have ordered := (compiled.run_sound compiled.start_sound run).ordered
    obtain ⟨distinct, each⟩ := ih
    have more : S.nonces (history ++ [step]) = S.nonces history ++ step.nonce?.toList := by
      cases made : step.nonce? <;> simp [nonces, made]
    rw [more, (State.moved_of_perform takes.performs).drawn]
    cases move : step.move with
    | draw x id =>
      rw [takes.nonce?_eq move]
      refine ⟨distinct.append (by simp) ?_, ?_⟩
      · -- Earlier names are known to the counts and the new one is not.
        intro t old new
        obtain ⟨n, drawn, rfl⟩ := each t old
        exact Tally.not_mem_names (List.mem_singleton.mp new).symm drawn
      · intro t member
        rcases List.mem_append.mp member with old | new
        · obtain ⟨n, drawn, same⟩ := each t old
          exact ⟨n, Tally.names_bump ordered id drawn, same⟩
        · exact ⟨_, Tally.mem_names_bump ordered id rfl, List.mem_singleton.mp new⟩
    | _ => simpa [Step.nonce?, move, Move.counted] using ⟨distinct, each⟩

theorem constant_fresh (compiled : S.Compiled D) {earlier later : List GlobalFresh} {g : GlobalFresh}
    (among : S.globals = earlier ++ g :: later) :
    ∃ n, S.constantNonces[earlier.length]? = some (.name n) ∧
      (∀ inst ∈ S.instances,
        ((S.opening (earlier ++ [g])).env inst.name).find? g.var = some (.name n)) ∧
      ¬ (S.opening earlier).Mentions n := by
  obtain ⟨n, named⟩ :
      ∃ n, nonceName g.nonce ((S.opening earlier).drawn.count g.nonce) = .name n := ⟨_, rfl⟩
  have count := named
  simp only [opening] at count
  refine ⟨n, ?_, ?_, ?_⟩
  · rw [constantNonces, among, State.globalNonces_append .empty]
    simp [State.globalNonces, count]
  · intro inst member
    rw [env_opening _ member, State.drawGlobals_append]
    simp [State.drawGlobals, count]
  · intro mentions
    exact Tally.not_mem_names named ((compiled.opening_sound earlier).mem_names mentions)

end Compiled

/-- Whatever is drawn, for a fresh constant or in a step, is a name that occurs nowhere in the
state it is drawn in, and no two draws of a run give the same name. -/
theorem nonces_fresh {compiler : CompilerConfig} {M : Model} (done : compile compiler M = .ok S)
    (initial : State.initial S = .ok s₀) (run : S.Run config s₀ history s) :
    (∀ earlier g later, S.globals = earlier ++ g :: later → ∃ n,
      S.constantNonces[earlier.length]? = some (.name n) ∧
      (∀ inst ∈ S.instances,
        ((S.opening (earlier ++ [g])).env inst.name).find? g.var = some (.name n)) ∧
      ¬ (S.opening earlier).Mentions n) ∧
    (∀ step ∈ history, ∀ x id, step.move = .draw x id →
      ∃ n, step.nonce? = some (.name n) ∧ ¬ step.before.Mentions n) ∧
    S.opening S.globals = s₀ ∧ (S.nonces history).Nodup := by
  obtain ⟨D, compiled⟩ := compiled_of_compile done
  obtain rfl : S.start = s₀ := Except.ok.inj (compiled.initial_eq.symm.trans initial)
  refine ⟨fun earlier g later among => compiled.constant_fresh among, ?_, rfl,
    (compiled.nonces_distinct run).1⟩
  intro step member x id draws
  obtain ⟨before, node, run', takes⟩ := run.exists_of_mem member
  exact draw_fresh (compiled.run_sound compiled.start_sound run') takes draws

theorem nonces_courier_fresh : ∃ S s₀ history s,
    compile {} Model.courier = .ok S ∧ State.initial S = .ok s₀ ∧ S.Run {} s₀ history s ∧
      (∃ step ∈ history, step.move = .draw "n.0" 1 ∧
        ∃ n, step.nonce? = some (.name n) ∧ ¬ step.before.Mentions n) ∧
      S.nonces history = [nonceName 0 0, nonceName 1 0] ∧ (S.nonces history).Nodup := by
  have ran : (do
      let S ← compile {} Model.courier
      let s₀ ← State.initial S
      let steps ← S.replay {} s₀ [("b", 0), ("a", 0), ("a", 0)]
      return (steps.map (·.move), S.nonces steps) : Result (List Move × List Term)) =
      .ok ([.pass, .pass, .draw "n.0" 1], [nonceName 0 0, nonceName 1 0]) := by
    decide +kernel
  simp only [bind_eq_ok_iff, pure_eq_ok_iff, lift_eq_ok_iff, Prod.mk.injEq] at ran
  obtain ⟨S, done, s₀, initial, steps, replayed, moved, drawn⟩ := ran
  have run := run_of_replay (Run.start : S.Run {} s₀ [] s₀) replayed
  rw [List.nil_append] at run
  obtain ⟨-, draws, -, distinct⟩ := nonces_fresh done initial run
  have member : Move.draw "n.0" 1 ∈ steps.map (·.move) := by simp [moved]
  obtain ⟨step, inside, move⟩ := List.mem_map.mp member
  exact ⟨S, s₀, steps, _, done, initial, run, ⟨step, inside, move, draws step inside _ _ move⟩, drawn,
    distinct⟩

end System

end ThreatModel
