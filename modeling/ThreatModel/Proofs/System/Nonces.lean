import Mathlib
import ThreatModel.Proofs.Declarations.Namespace
import ThreatModel.Proofs.Graph.Shape
import ThreatModel.Proofs.System.Shifting

set_option autoImplicit false

namespace ThreatModel

open Result

namespace Action

def nonce? : Action → Option Nat
  | .fresh _ id => some id
  | _ => none

theorem nonce?_of_plain {action : Action} (plain : action.isFresh = false) :
    action.nonce? = none := by
  cases action with
  | fresh => simp [isFresh] at plain
  | _ => rfl

theorem isSome_nonce? (action : Action) : action.nonce?.isSome = action.isFresh := by
  cases action <;> rfl

end Action

namespace System

theorem noncesOf_eq_filterMap (g : Graph) : noncesOf g = g.actions.filterMap Action.nonce? := by
  simp only [noncesOf, Graph.actions, List.filterMap_map]
  refine List.filterMap_congr fun node _ => ?_
  simp only [Function.comp_apply]
  cases node.action <;> rfl

theorem length_noncesOf (g : Graph) : (noncesOf g).length = g.actions.countP Action.isFresh := by
  rw [noncesOf_eq_filterMap, List.length_filterMap_eq_countP]
  simp only [Action.isSome_nonce?]

theorem noncesOf_append (g : Graph) (node : Node) (ends : List Nat) :
    noncesOf (g.append node ends) = noncesOf g ++ node.action.nonce?.toList := by
  rw [noncesOf_eq_filterMap, noncesOf_eq_filterMap, Graph.actions_append, List.filterMap_append,
    List.filterMap_cons]
  cases node.action.nonce? <;> rfl

theorem noncesOf_connect (g : Graph) (source target : Nat) :
    noncesOf (g.connect source target) = noncesOf g := by
  simp [noncesOf_eq_filterMap]

end System

def Build.Allots (first : Nat) (b : Build) : Prop :=
  ∃ k, b.nextNonce = first + k ∧ System.noncesOf b.graph = List.range' first k

theorem Build.Allots.append {first : Nat} {b : Build} (allots : b.Allots first) (ctx : Context)
    {action : Action} (ends : Ends) (plain : action.isFresh = false) :
    (b.append ctx action ends).Allots first := by
  obtain ⟨k, next, ids⟩ := allots
  refine ⟨k, next, ?_⟩
  simp [Build.append, System.noncesOf_append, Action.nonce?_of_plain plain, ids]

namespace Builder

variable {α : Type} {P : Fault → Prop}

theorem Stepwise.allots {m : Builder α} (steps : m.Stepwise P) {first : Nat} {a : α} {b b' : Build}
    (done : m b = .ok (a, b')) (before : b.Allots first) : b'.Allots first := by
  induction steps generalizing b b' with
  | pure a | freshVar name | note ctx text =>
    cases done
    exact before
  | fail => cases done
  | bind _ _ ihFirst ihLater =>
    obtain ⟨a₁, b₁, ran, later⟩ := bind_eq_ok_iff.mp done
    exact ihLater a₁ ⟨b, b₁, ran⟩ later (ihFirst ran before)
  | append ctx ends plain =>
    cases done
    exact before.append ctx ends plain
  | draw ctx x ends =>
    -- The id drawn is the next one, and the count moves past it.
    rw [Context.draw_apply] at done
    cases done
    obtain ⟨k, next, ids⟩ := before
    refine ⟨k + 1, ?_, ?_⟩
    · simp [Build.append, Build.takeNonce, next, Nat.add_assoc]
    · simp [Build.append, Build.takeNonce, System.noncesOf_append, Action.nonce?, ids, next,
        List.range'_concat]
  | log ctx tag args ends =>
    rw [Context.log_apply] at done
    cases done
    exact before.append ctx ends rfl
  | connect source target =>
    cases done
    obtain ⟨k, next, ids⟩ := before
    exact ⟨k, next, (System.noncesOf_connect _ source target).trans ids⟩

end Builder

theorem noncesOf_of_elaborate {D : Declarations} {template : Template} {name : String}
    {channels : Table String String} {first : Nat} {e : Elaborated}
    (done : elaborate D template name channels first = .ok e) :
    ∃ k, e.nextNonce = first + k ∧ System.noncesOf e.inst.graph = List.range' first k := by
  rw [elaborate_eq_map] at done
  cases ran : template.build D name channels { nextNonce := first } with
  | error fault => simp [ran, Except.map] at done
  | ok r =>
    have steps := (Template.alike_build_within template D name channels D.system).1
    have start : ({ nextNonce := first } : Build).Allots first := ⟨0, rfl, rfl⟩
    rw [ran] at done
    cases done
    exact steps.allots ran start

namespace Composition

variable {D : Declarations} {c c' : Composition}

def nonces (c : Composition) : List Nat :=
  c.instances.flatMap fun inst => System.noncesOf inst.graph

theorem Adds.nonces_eq {insts : List InstanceDecl} {i : Nat} (adds : Adds D insts i c c') :
    ∃ k, c'.nextNonce = c.nextNonce + k ∧ c'.nonces = c.nonces ++ List.range' c.nextNonce k := by
  induction adds with
  | nil => exact ⟨0, rfl, by simp⟩
  | cons _ elaborated _ ih =>
    obtain ⟨k, next, ids⟩ := noncesOf_of_elaborate elaborated
    obtain ⟨k', last, later⟩ := ih
    simp only [add, next] at last later
    refine ⟨k + k', by omega, ?_⟩
    rw [later, ← List.range'_append_1, ← List.append_assoc]
    simp [nonces, ids]

end Composition

theorem Declarations.nonces_of_globals (D : Declarations) :
    D.globals.map (·.nonce) = List.range D.globals.length := by
  refine List.ext_getElem (by simp) fun i _ _ => ?_
  simp [globals]

theorem Declarations.length_globals {budget : Int} {M : Model} {D : Declarations}
    (declared : ofModel budget M = .ok D) :
    D.globals.length = M.constants.countP (·.fresh) := by
  obtain ⟨entries, -⟩ := (lists_of_ofModel declared).constants
  simp [globals, entries, List.countP_eq_length_filter, List.filter_map, Function.comp_def]

namespace System

variable {config : CompilerConfig} {M : Model} {S : System}

theorem mem_noncesOf {g : Graph} {id : Nat} (drawn : g.Draws id) : id ∈ noncesOf g := by
  obtain ⟨i, node, x, found, action⟩ := drawn
  have stands : g.actions[i]? = some (.fresh x id) := Graph.acts_iff.mpr ⟨node, found, action⟩
  rw [noncesOf_eq_filterMap]
  exact List.mem_filterMap.mpr ⟨_, List.mem_of_getElem? stands, rfl⟩

theorem place_unique {g : Graph} (distinct : (noncesOf g).Nodup) {i j : Nat} {node node' : Node}
    {x y : String} {id : Nat} (here : g.node? i = some node) (there : g.node? j = some node')
    (draws : node.action = .fresh x id) (draws' : node'.action = .fresh y id) : i = j := by
  rw [noncesOf_eq_filterMap, List.Nodup, List.pairwise_filterMap,
    List.pairwise_iff_getElem] at distinct
  have stands (i : Nat) (node : Node) (x : String) (found : g.node? i = some node)
      (draws : node.action = .fresh x id) :
      ∃ inside : i < g.actions.length, (g.actions.get ⟨i, inside⟩).nonce? = some id := by
    obtain ⟨inside, acts⟩ := List.getElem?_eq_some_iff.mp (Graph.acts_iff.mpr ⟨node, found, rfl⟩)
    exact ⟨inside, by simp [acts, draws, Action.nonce?]⟩
  obtain ⟨inside, drawn⟩ := stands i node x here draws
  obtain ⟨inside', drawn'⟩ := stands j node' y there draws'
  rcases Nat.lt_trichotomy i j with less | same | more
  · exact absurd rfl (distinct i j inside inside' less id drawn id drawn')
  · exact same
  · exact absurd rfl (distinct j i inside' inside more id drawn' id drawn)

theorem length_nonceIds (done : compile config M = .ok S) :
    S.nonceIds.length = M.constants.countP (·.fresh) +
      (S.instances.map fun inst => inst.graph.actions.countP Action.isFresh).sum := by
  obtain ⟨D, -, declared, -, -, -, compiled⟩ := exists_composed done
  simp [nonceIds, compiled.globals, Declarations.length_globals declared, List.length_flatMap,
    length_noncesOf]

theorem nonceIds_eq_range (done : compile config M = .ok S) :
    S.nonceIds = List.range S.nonceIds.length := by
  obtain ⟨D, c, -, composed, clean, same, compiled⟩ := exists_composed done
  obtain ⟨k, -, ids⟩ := (Composition.adds_of_addInstances composed clean).2.nonces_eq
  have each : (S.instances.flatMap fun inst => noncesOf inst.graph) =
      List.range' D.globals.length k := by
    rw [same]
    simpa [Composition.nonces] using ids
  have ids : S.nonceIds = List.range (D.globals.length + k) := by
    rw [nonceIds, compiled.globals, Declarations.nonces_of_globals, each, List.range_eq_range',
      List.range_eq_range', ← List.range'_append_1, Nat.zero_add]
  rw [ids, List.length_range]

def DrawsAt (S : System) (k node id : Nat) : Prop :=
  ∃ inst found x, S.instances[k]? = some inst ∧ inst.graph.node? node = some found ∧
    found.action = .fresh x id

theorem DrawsAt.unique (distinct : S.nonceIds.Nodup) {k k' node node' id : Nat}
    (drawn : S.DrawsAt k node id) (drawn' : S.DrawsAt k' node' id) : k = k' ∧ node = node' := by
  obtain ⟨inst, found, x, listed, here, draws⟩ := drawn
  obtain ⟨inst', found', y, listed', there, draws'⟩ := drawn'
  obtain ⟨-, distinct, -⟩ := List.nodup_append.mp distinct
  obtain ⟨within, between⟩ := List.nodup_flatMap.mp distinct
  obtain ⟨inside, rfl⟩ := List.getElem?_eq_some_iff.mp listed
  obtain ⟨inside', rfl⟩ := List.getElem?_eq_some_iff.mp listed'
  have member := mem_noncesOf ⟨node, found, x, here, draws⟩
  have member' := mem_noncesOf ⟨node', found', y, there, draws'⟩
  have apart := List.pairwise_iff_getElem.mp between
  rcases Nat.lt_trichotomy k k' with less | rfl | more
  · exact (apart k k' inside inside' less member member').elim
  · exact ⟨rfl, place_unique (within _ (List.getElem_mem inside)) here there draws draws'⟩
  · exact (apart k' k inside' inside more member' member).elim

/-- The nonce ids of a compiled system are the numbers from zero on, one for each fresh constant of
the model and then one for each fresh node of each instance. -/
theorem nonceIds_consecutive (done : compile config M = .ok S) :
    S.nonceIds = List.range (M.constants.countP (·.fresh) +
      (S.instances.map fun inst => inst.graph.actions.countP Action.isFresh).sum) ∧
    (∀ k k' node node' id, S.DrawsAt k node id → S.DrawsAt k' node' id →
      k = k' ∧ node = node') ∧
    ∀ g ∈ S.globals, ∀ k node, ¬ S.DrawsAt k node g.nonce := by
  have ids := nonceIds_eq_range done
  have distinct : S.nonceIds.Nodup := by
    rw [ids]
    exact List.nodup_range
  rw [length_nonceIds done] at ids
  refine ⟨ids, fun k k' node node' id => DrawsAt.unique distinct, ?_⟩
  rintro g among k node ⟨inst, found, x, listed, here, draws⟩
  obtain ⟨-, -, apart⟩ := List.nodup_append.mp distinct
  have drawn : g.nonce ∈ S.instances.flatMap fun inst => noncesOf inst.graph :=
    List.mem_flatMap.mpr ⟨inst, List.mem_of_getElem? listed,
      mem_noncesOf ⟨node, found, x, here, draws⟩⟩
  exact apart g.nonce (List.mem_map_of_mem among) g.nonce drawn rfl

end System

def Command.mint : Command :=
  .seq [.new "n", .call "send" [.ident "c" none, .ident "n" none] none]

def Model.minting : Model where
  types := [{ name := "host_t", kind := .process }, { name := "net_t", kind := .channel }]
  grants := [{ subject := "host_t", object := some "net_t", operations := ["mint"] }]
  attackerGrants := [{ subject := "host_t", attacks := ["forge"] }]
  syscalls := [{ name := "mint", params := ["c"], body := .mint }]
  attacks := [{ name := "forge", params := ["c"], body := .mint, target := some "mint" }]
  constants :=
    [{ name := "k", fresh := true }, { name := "public" }, { name := "l", fresh := true }]
  channels := [{ name := "net", type := "net_t" }]
  processes :=
    [{ name := "Minter", type := "host_t", params := [{ name := "c", type := "net_t" }]
       main := .seq [.new "a", .call "mint" [.ident "c" none] none,
         .call "mint" [.ident "c" none] none, .emit { tag := "Done", args := [] }] }]
  system := some
    { instances := [{ template := "Minter", args := ["net"] },
        { template := "Minter", args := ["net"] }]
      lemmas := [{ name := "done", kind := .reachable,
                   events := [{ tag := "Done", args := [] }] }] }

theorem System.nonceIds_minting_consecutive : ∃ S, compile {} Model.minting = .ok S ∧
    S.globals.map (·.nonce) = [0, 1] ∧
    S.instances.map (fun inst => noncesOf inst.graph) = [[2, 3, 4, 5, 6], [7, 8, 9, 10, 11]] ∧
    S.nonceIds = List.range (2 + [5, 5].sum) ∧
    ∀ k k' node node' id, S.DrawsAt k node id → S.DrawsAt k' node' id → k = k' ∧ node = node' := by
  have compiles : (do
      let S ← compile {} Model.minting
      return (S.globals.map (·.nonce), S.instances.map fun inst => noncesOf inst.graph) :
        Result (List Nat × List (List Nat))) =
      .ok ([0, 1], [[2, 3, 4, 5, 6], [7, 8, 9, 10, 11]]) := by
    decide +kernel
  simp only [bind_eq_ok_iff, pure_eq_ok_iff, Prod.mk.injEq] at compiles
  obtain ⟨S, done, globals, nodes⟩ := compiles
  obtain ⟨ids, unique, -⟩ := nonceIds_consecutive done
  have fresh : S.instances.map (fun inst => inst.graph.actions.countP Action.isFresh) = [5, 5] := by
    simpa [Function.comp_def, length_noncesOf] using congrArg (List.map List.length) nodes
  rw [fresh] at ids
  exact ⟨S, done, globals, nodes, ids, unique⟩

end ThreatModel
