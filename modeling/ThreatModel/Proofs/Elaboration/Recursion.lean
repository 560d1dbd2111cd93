import Mathlib
import ThreatModel.Proofs.Callable.Recursion
import ThreatModel.Proofs.Elaboration.Shifting

set_option autoImplicit false

namespace ThreatModel

open Relation

namespace Declarations

variable {D : Declarations} {names : List String} {f x : String} {intercept : Bool}

structure Attacks (D : Declarations) (f : String) (attack : Definition) : Prop where
  overrides : attack ∈ D.callables.overridesOf f
  granted : ∃ subject, D.policy.allowsAttack subject attack.name = true

/-- Definitions being inlined, outermost first: each one calls the next, but for one place where an
attack stands for what is called there. -/
inductive Stack (D : Declarations) : Bool → List String → Prop
  | straight {intercept : Bool} {names : List String}
      (walk : names.IsChain D.callables.callGraph.Calls) : Stack D intercept names
  | attacked {outer inner : List String} {f : String} {attack : Definition}
      (before : (outer ++ [f]).IsChain D.callables.callGraph.Calls) (attacks : D.Attacks f attack)
      (after : (attack.name :: inner).IsChain D.callables.callGraph.Calls) :
      Stack D false (outer ++ attack.name :: inner)

/-- The chain leads to `f`, goes on with an attack on `f`, and from there comes back to a definition
from before. -/
def ReturnsByAttack (D : Declarations) (chain : List String) : Prop :=
  ∃ (outer : List String) (f : String) (attack : Definition) (inner : List String) (x : String),
    chain = outer ++ attack.name :: inner ++ [x] ∧ x ∈ outer ∧ D.Attacks f attack ∧
    (outer ++ [f]).IsChain D.callables.callGraph.Calls ∧
    (attack.name :: inner ++ [x]).IsChain D.callables.callGraph.Calls

def CalledFrom (D : Declarations) (names : List String) (f : String) : Prop :=
  ∀ last ∈ names.getLast?, D.callables.callGraph.Calls last f

theorem Stack.call (stack : D.Stack intercept names) (called : D.CalledFrom names f) :
    D.Stack intercept (names ++ [f]) := by
  cases stack with
  | straight walk => exact .straight (CallGraph.isChain_concat walk called)
  | @attacked outer inner g attack before attacks after =>
    have further : (attack.name :: inner ++ [f]).IsChain D.callables.callGraph.Calls :=
      CallGraph.isChain_concat after (by simpa [CalledFrom] using called)
    simpa using Stack.attacked before attacks further

theorem Stack.sealed (stack : D.Stack intercept names) (more : Bool) :
    D.Stack (intercept && more) names := by
  cases stack with
  | straight walk => exact .straight walk
  | attacked before attacks after => exact .attacked before attacks after

theorem Stack.attack {attack : Definition} (stack : D.Stack true names)
    (called : D.CalledFrom names f) (attacks : D.Attacks f attack) :
    D.Stack false (names ++ [attack.name]) := by
  -- Where calls are intercepted, no attack is on the stack yet.
  cases stack with
  | straight walk => exact .attacked (CallGraph.isChain_concat walk called) attacks (by simp)

theorem Stack.returnsByAttack (acyclic : ∀ f, ¬ TransGen D.callables.callGraph.Calls f f)
    (stack : D.Stack intercept names) (called : D.CalledFrom names f) (again : f ∈ names) :
    D.ReturnsByAttack (names ++ [f]) := by
  cases stack with
  | straight walk =>
    have around := CallGraph.transGen_of_isChain (CallGraph.isChain_concat walk called) again
    exact absurd around (acyclic f)
  | @attacked outer inner g attack before attacks after =>
    have back : (attack.name :: inner ++ [f]).IsChain D.callables.callGraph.Calls :=
      CallGraph.isChain_concat after (by simpa [CalledFrom] using called)
    -- What was called since the attack cannot come back; what was there before it can.
    rcases List.mem_append.mp again with early | late
    · exact ⟨outer, g, attack, inner, f, rfl, early, attacks, before, back⟩
    · exact absurd (CallGraph.transGen_of_isChain back late) (acyclic f)

end Declarations

structure Context.Stacked (D : Declarations) (ctx : Context) (part : Part) : Prop where
  decls : ctx.decls = D
  stack : D.Stack ctx.frame.intercept ctx.frame.calls
  called : ∀ f, part.callee? = some f → D.callables.contains f = true →
    D.CalledFrom ctx.frame.calls f

theorem Context.Stacked.inside {D : Declarations} {ctx : Context} {part : Part} {f : String}
    {d : Definition} {result : Option String} (sound : D.callables.Sound)
    (listed : D.callables.Listed) (stacked : ctx.Stacked D part) (calls : part.callee? = some f)
    (runs : ctx.MayRun f d) : ∀ part' ∈ d.body.parts, (ctx.inside d result).Stacked D part' := by
  obtain ⟨rfl, stack, called⟩ := stacked
  obtain ⟨-, callee, subjects, found, -, a, among, rfl⟩ := runs
  have here : ctx.decls.CalledFrom ctx.frame.calls f :=
    called f calls (Table.contains_iff.mpr (Table.exists_find?_iff.mp ⟨callee, found⟩))
  have named : callee.name = f := sound.named f callee found
  obtain ⟨known, deeper⟩ : ctx.decls.callables.find? a.definition.name = some a.definition ∧
      ctx.decls.Stack (ctx.frame.intercept && !a.definition.role.isAttack)
        (ctx.frame.calls ++ [a.definition.name]) := by
    rcases Callables.of_mem_plan among with same | ⟨intercepted, overrides, granted⟩
    · rw [same, named]
      exact ⟨found, (stack.call here).sealed _⟩
    · rw [named] at overrides
      refine ⟨listed f _ overrides, ?_⟩
      rw [intercepted] at stack ⊢
      simpa [sound.overrides _ _ overrides, Role.isAttack] using
        stack.attack here ⟨overrides, granted⟩
  -- Whatever stands on the stack is found under its name, so its calls are calls of the graph.
  intro part' member
  refine ⟨rfl, deeper, fun g calls' contained => ?_⟩
  have edge : ctx.decls.callables.callGraph.Calls a.definition.name g :=
    Callables.calls_iff.mpr ⟨_, known, List.mem_filterMap.mpr ⟨part', member, calls'⟩, contained⟩
  simpa [Declarations.CalledFrom, Context.inside] using edge

theorem Context.sustains_stacked {D : Declarations} (sound : D.callables.Sound)
    (listed : D.callables.Listed) (acyclic : ∀ f, ¬ TransGen D.callables.callGraph.Calls f f) :
    Context.Sustains
      (fun fault => ∀ d chain, fault = .flaw d → d.cause = .recursiveCalls chain →
        D.ReturnsByAttack chain)
      fun _ ctx part => ctx.Stacked D part where
  reasons _ :=
    { flaws := fun d plain d' chain same caused => by
        cases same
        exact absurd ⟨chain, caused⟩ plain
      empty := by simp
      again := fun ctx part f d stacked calls known again caused d' chain same caused' => by
        cases same
        obtain rfl := Cause.recursiveCalls.inj (caused.symm.trans caused')
        have called := stacked.called f calls (stacked.decls ▸ known)
        exact stacked.stack.returnsByAttack acyclic called again
      enter := fun ctx part segment stacked => ⟨stacked.decls, stacked.stack, stacked.called⟩ }
  deep _ _ _ _ _ _ _ := by simp
  inside _ _ _ _ _ _ stacked calls runs := stacked.inside sound listed calls runs

/-- The declarations of a model have no definition that comes back to itself by calls. Elaboration
of an instance stops at a call that comes back only if an attack, in place of what is called, leads
back to a definition that was being inlined before it. -/
theorem recursion_only_by_attack {budget : Int} {M : Model} {D : Declarations}
    (made : Declarations.ofModel budget M = .ok D) :
    (∀ f, ¬ TransGen D.callables.callGraph.Calls f f) ∧
    ∀ template name channels first d chain,
      elaborate D template name channels first = .error (.flaw d) →
      d.cause = .recursiveCalls chain → D.ReturnsByAttack chain := by
  have acyclic := Callables.acyclic_of_ofModel made
  refine ⟨acyclic, fun template name channels first d chain failed caused => ?_⟩
  have sustains := Context.sustains_stacked (Callables.sound_of_ofModel made)
    (Callables.listed_of_ofModel made) acyclic
  have outermost (part : Part) : (template.context D name).Stacked D part :=
    ⟨rfl, .straight (by simp [Template.context]),
      by simp [Template.context, Declarations.CalledFrom]⟩
  have steps : (template.build D name channels).Stepwise _ :=
    (Template.alike_build sustains D.system (by simp) (fun _ _ part _ => outermost part)
      fun part _ => outermost part).1
  rw [elaborate_eq_map] at failed
  cases ran : template.build D name channels { nextNonce := first } with
  | ok r => simp [ran, Except.map] at failed
  | error fault =>
      rw [ran] at failed
      exact steps.allowed ran d chain (Except.error.inj failed) caused

def Template.caller : Template where
  name := "Caller"
  type := "host_t"
  params := [{ name := "c", type := "net_t" }]
  main := .seq [.call "relay" [.ident "c" none, .str "m"] none, .emit { tag := "Done", args := [] }]

def Model.relaying : Model where
  types := [{ name := "host_t", kind := .process }, { name := "net_t", kind := .channel }]
  grants := [{ subject := "host_t", object := some "net_t", operations := ["relay"] }]
  attackerGrants := [{ subject := "net_t", attacks := ["hijack"] }]
  syscalls := [{ name := "relay", params := ["c", "m"],
                 body := .call "send" [.ident "c" none, .ident "m" none] none }]
  attacks := [{ name := "hijack", params := ["c", "m"], target := some "send",
                body := .call "relay" [.ident "c" none, .str "forged"] none }]
  channels := [{ name := "net", type := "net_t" }]
  processes := [.caller]
  system := some
    { instances := [{ template := "Caller", args := ["net"], name := some "p" }]
      lemmas := [{ name := "done", kind := .reachable,
                   events := [{ tag := "Done", args := [] }] }] }

def Diagnostic.relayAgain : Diagnostic where
  cause := .recursiveCalls ["relay", "hijack", "relay"]
  declaration := some "p"
  position := some "p/main.0.relay.attack:hijack.hijack"

theorem relay_recursion_by_attack : ∃ D,
    Declarations.ofModel 64 .relaying = .ok D ∧
    (∀ f, ¬ TransGen D.callables.callGraph.Calls f f) ∧
    elaborate D .caller "p" (.ofList [("c", "net")]) 1 = .error (.flaw .relayAgain) ∧
    D.ReturnsByAttack ["relay", "hijack", "relay"] := by
  have ran : (do
      let D ← Declarations.ofModel 64 .relaying
      return (elaborate D .caller "p" (.ofList [("c", "net")]) 1).map fun _ => () :
        Result (Result Unit)) = .ok (.error (.flaw .relayAgain)) := by
    decide +kernel
  simp only [Result.bind_eq_ok_iff, Result.pure_eq_ok_iff] at ran
  obtain ⟨D, made, ran⟩ := ran
  have failed : elaborate D .caller "p" (.ofList [("c", "net")]) 1 =
      .error (.flaw .relayAgain) := by
    cases result : elaborate D .caller "p" (.ofList [("c", "net")]) 1 with
    | ok e => simp [result, Except.map] at ran
    | error fault => simpa [result, Except.map] using ran
  obtain ⟨acyclic, returns⟩ := recursion_only_by_attack made
  exact ⟨D, made, acyclic, failed, returns _ _ _ _ _ _ failed rfl⟩

end ThreatModel
