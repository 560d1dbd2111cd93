import Mathlib
import ThreatModel.Proofs.Elaboration.Identifiers
import ThreatModel.Proofs.Elaboration.Returns

set_option autoImplicit false

namespace ThreatModel

namespace Graph

variable {g : Graph} {past : List Nat} {i k : Nat}

def definedOn (g : Graph) (path : List Nat) : List String :=
  path.flatMap fun i => g.actions[i]?.elim [] Action.defines

theorem definedOn_cons {path : List Nat} :
    g.definedOn (i :: path) = g.actions[i]?.elim [] Action.defines ++ g.definedOn path :=
  List.flatMap_cons

theorem mem_definedOn {path : List Nat} {x : String} : x ∈ g.definedOn path ↔
    ∃ i ∈ path, ∃ action, g.actions[i]? = some action ∧ x ∈ action.defines := by
  simp only [definedOn, List.mem_flatMap]
  refine exists_congr fun i => and_congr_right fun _ => ?_
  cases g.actions[i]? <;> simp

theorem Walk.next (walk : g.Walk past i) (member : k ∈ past) : ∃ j ∈ i :: past, g.Leads k j := by
  induction past generalizing i with
  | nil => simp at member
  | cons k' past ih =>
    obtain ⟨leads, before⟩ := walk
    rcases List.mem_cons.mp member with rfl | earlier
    · exact ⟨i, List.mem_cons_self, leads⟩
    · obtain ⟨j, among, leads'⟩ := ih before earlier
      exact ⟨j, List.mem_cons_of_mem _ among, leads'⟩

structure WritesOnce (g : Graph) : Prop where
  once : ∀ (i : Nat) action, g.actions[i]? = some action → action.defines.Nodup
  passes : ∀ (p q j : Nat) action action' (x : String), p < q → g.actions[p]? = some action →
    g.actions[q]? = some action' → x ∈ action.defines → x ∈ action'.defines → g.Leads p j → q < j

theorem WritesOnce.nodup_definedOn (writes : g.WritesOnce) (walk : g.Walk past i)
    (rising : (i :: past).Pairwise (· > ·)) : (g.definedOn (i :: past)).Nodup := by
  have alone (i : Nat) : (g.actions[i]?.elim [] Action.defines).Nodup := by
    cases here : g.actions[i]? with
    | none => simp
    | some action => exact writes.once i action here
  induction past generalizing i with
  | nil => simpa [definedOn] using alone i
  | cons k past ih =>
    obtain ⟨above, rising'⟩ := List.pairwise_cons.mp rising
    rw [definedOn_cons]
    refine List.nodup_append'.mpr ⟨alone i, ih walk.2 rising', fun x here there => ?_⟩
    obtain ⟨p, member, action, earlier, first⟩ := mem_definedOn.mp there
    -- From the earlier node control has gone on, but not past the later one.
    obtain ⟨j, among, leads⟩ := walk.next member
    obtain ⟨action', now, second⟩ :
        ∃ action', g.actions[i]? = some action' ∧ x ∈ action'.defines := by
      cases now : g.actions[i]? with
      | none => simp [now] at here
      | some action' => exact ⟨action', rfl, by simpa [now] using here⟩
    have beyond : i < j :=
      writes.passes p i j action action' x (above p member) earlier now first second leads
    rcases List.mem_cons.mp among with rfl | before
    · exact lt_irrefl _ beyond
    · exact lt_asymm beyond (above j before)

end Graph

namespace Template.Derivation

variable {template : Template} {D : Declarations} {name : String} {channels : Table String String}
  {b : Build} {g : Graph} {u : template.Derivation D name channels b g} {x : String} {p q : Nat}
  {action action' : Action}

def SameCall (u : template.Derivation D name channels b g) (x : String) (p q : Nat) : Prop :=
  ∃ f args ctx scope ends b ends' b', u.Meets (.call f args ctx scope ends (some x) b ends' b') ∧
    b.Took x ∧ b.graph.size ≤ p ∧ q < b'.graph.size

theorem writes (u : template.Derivation D name channels b g) :
    Build.Writes u.SameCall none b (u.b₂.close (template.context D name) u.flow'.ends) := by
  have vars : Build.Writes u.SameCall none (b.append (template.context D name) .start []) u.b₁ := by
    refine u.vars.writes.mono fun x p q same => ?_
    obtain ⟨f, args, ctx, scope, ends, b, ends', b', within, rest⟩ := same
    exact ⟨f, args, ctx, scope, ends, b, ends', b', .inl within, rest⟩
  have main : Build.Writes u.SameCall none u.b₁ u.b₂ := by
    refine u.main.writes.mono fun x p q same => ?_
    obtain ⟨f, args, ctx, scope, ends, b, ends', b', within, rest⟩ := same
    exact ⟨f, args, ctx, scope, ends, b, ends', b', .inr within, rest⟩
  -- The nodes that mark the start and the end define nothing.
  have ran := (vars.enter rfl).trans main
  unfold Build.close
  split
  next => exact ran
  next => exact ran.leave rfl

theorem took (u : template.Derivation D name channels b g) (empty : b.graph.size = 0) {i : Nat}
    (here : g.actions[i]? = some action) (defines : x ∈ action.defines) :
    (u.b₂.close (template.context D name) u.flow'.ends).Took x := by
  rw [u.graph] at here
  have own := (u.writes.draws.new i action (by omega) here).2 x defines
  exact (own.resolve_right (by simp)).2

theorem sameCall (u : template.Derivation D name channels b g) (empty : b.graph.size = 0)
    (later : p < q) (here : g.actions[p]? = some action) (there : g.actions[q]? = some action')
    (first : x ∈ action.defines) (second : x ∈ action'.defines) : u.SameCall x p q := by
  rw [u.graph] at here there
  exact (u.writes.apart p q action action' x (by omega) later here there first second).resolve_left
    (by simp)

theorem stood_of_call {f : String} {args : List Expr} {ctx : Context} {scope : Scope}
    {ends ends' : Ends} {result : Option String} {b₁ b' : Build}
    (meets : u.Meets (.call f args ctx scope ends result b₁ ends' b')) {i : Nat}
    (here : g.actions[i]? = some action) (inside : i < b'.graph.size) :
    b'.graph.actions[i]? = some action ∧
      ∀ j, g.Leads i j → b'.graph.Leads i j ∨ b'.graph.size ≤ j := by
  obtain ⟨-, -, grown⟩ := meets.embeds
  obtain ⟨node, found⟩ := Graph.exists_node? inside
  obtain ⟨more, there, fresh, -⟩ := grown.kept i node found
  constructor
  · rw [Graph.getElem?_actions, there] at here
    rwa [Graph.getElem?_actions, found]
  · rintro j ⟨node', found', next⟩
    obtain rfl := Option.some.inj (there.symm.trans found')
    rcases List.mem_append.mp next with old | new
    · exact .inl ⟨node, found, old⟩
    · exact .inr (fresh j new)

def ReturnedBy (u : template.Derivation D name channels b g) (x : String) (p q : Nat)
    (action action' : Action) : Prop :=
  ∃ f args ctx scope ends b ends' b', u.Meets (.call f args ctx scope ends (some x) b ends' b') ∧
    (Judgement.call f args ctx scope ends (some x) b ends' b').Returns p action ∧
    (Judgement.call f args ctx scope ends (some x) b ends' b').Returns q action'

theorem ReturnedBy.symm (returned : u.ReturnedBy x p q action action') :
    u.ReturnedBy x q p action' action := by
  obtain ⟨f, args, ctx, scope, ends, b, ends', b', meets, here, there⟩ := returned
  exact ⟨f, args, ctx, scope, ends, b, ends', b', meets, there, here⟩

theorem ReturnedBy.assigns (returned : u.ReturnedBy x p q action action')
    (defines : x ∈ action.defines) : ∃ t, action = .assign x t := by
  obtain ⟨f, args, ctx, scope, ends, b, ends', b', -, returns, -⟩ := returned
  exact returns.assigns defines

theorem returned (u : template.Derivation D name channels b g) (empty : b.graph.size = 0)
    (later : p < q) (here : g.actions[p]? = some action) (there : g.actions[q]? = some action')
    (first : x ∈ action.defines) (second : x ∈ action'.defines) :
    u.ReturnedBy x p q action action' := by
  obtain ⟨f, args, ctx, scope, ends, b₁, ends', b', meets, took, new, inside⟩ :=
    u.sameCall empty later here there first second
  have hands := meets.elaborates.handsBack x rfl took meets.embeds.1
  have stood := (stood_of_call meets here (later.trans inside)).1
  have stood' := (stood_of_call meets there inside).1
  exact ⟨f, args, ctx, scope, ends, b₁, ends', b', meets, (hands.new p action new stood first).1,
    (hands.new q action' (new.trans later.le) stood' second).1⟩

theorem writesOnce (u : template.Derivation D name channels b g) (empty : b.graph.size = 0) :
    g.WritesOnce where
  once := by
    intro i action here
    rw [u.graph] at here
    exact (u.writes.draws.new i action (by omega) here).1
  passes := by
    intro p q j action action' x later here there first second leads
    obtain ⟨f, args, ctx, scope, ends, b₁, ends', b', meets, took, new, inside⟩ :=
      u.sameCall empty later here there first second
    obtain ⟨stood, edges⟩ := stood_of_call meets here (later.trans inside)
    have stood' := (stood_of_call meets there inside).1
    rcases edges j leads with old | far
    · exact meets.elaborates.passes_call took meets.embeds.1 new (new.trans later.le) stood stood'
        first second old
    · exact inside.trans_le far

theorem takesFor (u : template.Derivation D name channels b g) (good : String → Prop)
    (results : ∀ f, good f → good s!"{f}$ret")
    (defined : ∀ d, D.callables.Has d → ∀ x ∈ d.identifiers, good x)
    (fine : ∀ x ∈ template.identifiers, good x) :
    b.TakesFor good (u.b₂.close (template.context D name) u.flow'.ends) := by
  have vars : b.TakesFor good u.b₁ := by
    refine u.vars.takes results defined rfl fun x member => fine x ?_
    exact template.mem_identifiers_of_vars member
  have main : u.b₁.TakesFor good u.b₂ := by
    refine u.main.takes results defined rfl fun x member => fine x ?_
    simp only [Template.identifiers, Template.parts, identifiersOf, List.filterMap_append]
    exact List.mem_append_right _ (List.mem_append_right _ member)
  have ran := vars.trans main
  unfold Build.close
  split
  next => exact ran
  next => exact ran

end Template.Derivation

theorem head?_append_ne {x y : String} {c : Char} (left : x.toList.head? ≠ some c)
    (right : y.toList.head? ≠ some c) : (x ++ y).toList.head? ≠ some c := by
  rw [String.toList_append, List.head?_append]
  cases start : x.toList.head? with
  | none => simpa using right
  | some c' => simpa [start] using left

theorem Build.Took.ne_freshConstantVar {b : Build} {x : String} (took : b.Took x)
    (plain : ∀ name, 0 < b.taken name → name.toList.head? ≠ some '~') (constant : String) :
    x ≠ freshConstantVar constant := by
  obtain ⟨name, k, rfl, before⟩ := took
  have dotted : ("." ++ toString k).toList.head? ≠ some '~' := by simp
  have start := head?_append_ne (plain name (Nat.zero_lt_of_lt before)) dotted
  rw [← String.append_assoc] at start
  intro same
  exact start ((congrArg (fun x => x.toList.head?) same).trans (by simp [freshConstantVar]))

/-- Variables of an instance are written once. Those of fresh constants are written by no node, two
nodes write the same one only as returns of one call, and a path that comes to no node twice writes
none twice. -/
theorem elaborate_writes_once {budget : Int} {M : Model} {D : Declarations} {template : Template}
    {name : String} {channels : Table String String} {first : Nat} {e : Elaborated}
    (made : Declarations.ofModel budget M = .ok D) (member : template ∈ M.processes)
    (plain : ∀ x ∈ M.identifiers, x.toList.head? ≠ some '~')
    (done : elaborate D template name channels first = .ok e) :
    (∀ (i : Nat) action, e.inst.graph.actions[i]? = some action →
      ∀ constant, freshConstantVar constant ∉ action.defines) ∧
    (∃ u : template.Derivation D name channels { nextNonce := first } e.inst.graph,
      ∀ (i j : Nat) action action' x, i ≠ j → e.inst.graph.actions[i]? = some action →
        e.inst.graph.actions[j]? = some action' → x ∈ action.defines → x ∈ action'.defines →
        (∃ t, action = .assign x t) ∧ (∃ t, action' = .assign x t) ∧
          u.ReturnedBy x i j action action') ∧
    ∀ past i, e.inst.graph.Walk past i → (i :: past).Nodup →
      (e.inst.graph.definedOn (i :: past)).Nodup := by
  obtain ⟨u⟩ := exists_derivation done
  refine ⟨fun i action here constant defines => ?_, ⟨u, fun i j action action' x other here there
    first second => ?_⟩, fun past i walk once => ?_⟩
  · have took := u.took rfl here defines
    refine took.ne_freshConstantVar (fun name taken => ?_) constant rfl
    have suffixed : "$ret".toList.head? ≠ some '~' := by decide
    refine u.takesFor (fun x => x.toList.head? ≠ some '~') (fun f fine => ?_) (fun d has => ?_)
      (fun x inside => ?_) name taken
    · exact head?_append_ne fine suffixed
    · exact M.plain_of_definitions plain (Callables.mem_of_has made has)
    · exact plain x (List.mem_append_right _ (List.mem_flatMap.mpr ⟨template, member, inside⟩))
  · have returned : u.ReturnedBy x i j action action' := by
      rcases Nat.lt_or_gt_of_ne other with later | later
      · exact u.returned rfl later here there first second
      · exact (u.returned rfl later there here second first).symm
    exact ⟨returned.assigns first, returned.symm.assigns second, returned⟩
  · exact (u.writesOnce rfl).nodup_definedOn walk ((u.reducible rfl).rising_of_walk walk once)

theorem gateway_writes_once : ∃ (D : Declarations) (e : Elaborated)
    (u : Template.gate.Derivation D "g" (.ofList [("c", "net"), ("f", "log")]) { nextNonce := 1 }
      e.inst.graph) (action action' : Action),
    Declarations.ofModel 64 .gateway = .ok D ∧
    elaborate D .gate "g" (.ofList [("c", "net"), ("f", "log")]) 1 = .ok e ∧
    e.inst.graph.actions[5]? = some action ∧ e.inst.graph.actions[8]? = some action' ∧
    u.ReturnedBy "x.0" 5 8 action action' ∧
    e.inst.graph.Walk [5, 4, 3, 2, 1, 0] 9 ∧
    (e.inst.graph.definedOn [9, 5, 4, 3, 2, 1, 0]).Nodup ∧
    freshConstantVar "seal" ∉ action.defines := by
  have ran : (do
      let D ← Declarations.ofModel 64 .gateway
      let e ← elaborate D .gate "g" (.ofList [("c", "net"), ("f", "log")]) 1
      let g := e.inst.graph
      return (decide (g.Walk [5, 4, 3, 2, 1, 0] 9), g.actions[5]?.map Action.defines,
        g.actions[8]?.map Action.defines) :
          Result (Bool × Option (List String) × Option (List String))) =
      .ok (true, some ["x.0"], some ["x.0"]) := by
    decide +kernel
  simp only [Result.bind_eq_ok_iff, Result.pure_eq_ok_iff, Prod.mk.injEq, decide_eq_true_eq,
    Option.map_eq_some_iff] at ran
  obtain ⟨D, made, e, done, walk, ⟨action, here, first⟩, action', there, second⟩ := ran
  obtain ⟨fresh, ⟨u, twice⟩, once⟩ :=
    elaborate_writes_once made (List.mem_singleton_self _) (by decide) done
  obtain ⟨-, -, returned⟩ := twice 5 8 action action' "x.0" (by decide) here there (by simp [first])
    (by simp [second])
  exact ⟨D, e, u, action, action', made, done, here, there, returned, walk,
    once _ _ walk (by decide), fresh 5 action here "seal"⟩

end ThreatModel
