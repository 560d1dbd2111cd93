import Mathlib
import ThreatModel.Proofs.Callable.Declared
import ThreatModel.Proofs.Elaboration.Inlined

set_option autoImplicit false

namespace ThreatModel

theorem Callables.plan_passive {C : Callables} {d : Definition} (passive : d.role = .passive)
    (subjects : List String) (P : Policy) (intercept : Bool) :
    (C.plan d subjects P intercept).length ≤ 1 := by
  simp [plan, passive, Role.isAttack]

namespace Judgement

variable {D : Declarations} {J K : Judgement} {Ks : List Judgement}

def Harmless (C : Callables) : Judgement → Prop
  | .command c _ _ _ _ _ => ∀ part ∈ c.parts, part.Harmless C
  | .sequence cs _ _ _ _ _ _ => ∀ part ∈ Command.partsAll cs, part.Harmless C
  | .bind _ value _ _ _ _ _ => ∀ part ∈ value.parts, part.Harmless C
  | .arms as _ _ _ _ _ _ _ _ => ∀ part ∈ Arm.partsAll as, part.Harmless C
  | .term e _ _ _ _ _ _ _ => ∀ part ∈ e.parts, part.Harmless C
  | .terms es _ _ _ _ _ _ _ | .arguments es _ _ _ _ _ _ _ =>
    ∀ part ∈ Expr.partsAll es, part.Harmless C
  | .call f args _ _ _ _ _ _ _ => (∀ d, C.find? f = some d → d.role.isAttack = true) ∧
    ∀ part ∈ Expr.partsAll args, part.Harmless C
  | .invoke d _ _ _ _ _ _ _ | .inlined d _ _ _ _ _ _ _ =>
    C.find? d.name = some d ∧ d.role = .passive
  -- Nothing replaces a passive attack, so no call site is drawn for one.
  | .alternatives .. => False
  | .params .. => True

theorem Premises.harmless (callables : D.callables.Sound) (rule : J.Premises Ks) (member : K ∈ Ks)
    (decls : J.context.decls = D) (harmless : J.Harmless D.callables) : K.Harmless D.callables := by
  cases rule with
  | seq | bind | branch | retValue | retNothing | put | tuple | symbol =>
    obtain rfl := List.mem_singleton.mp member
    exact (List.forall_mem_cons.mp harmless).2
  | emit =>
    obtain rfl := List.mem_singleton.mp member
    exact (List.forall_mem_cons.mp (List.forall_mem_cons.mp harmless).2).2
  | call => exact ((List.forall_mem_cons.mp harmless).1).elim
  | loop =>
    obtain ⟨body, arms⟩ := List.forall_mem_append.mp harmless
    rcases List.mem_pair.mp member with rfl | rfl
    · exact (List.forall_mem_cons.mp body).2
    · exact arms
  | next | someTerms | valueArgument =>
    obtain ⟨first, rest⟩ := List.forall_mem_append.mp harmless
    rcases List.mem_pair.mp member with rfl | rfl
    · exact first
    · exact rest
  | dropArm | storeArgument =>
    obtain rfl := List.mem_singleton.mp member
    exact (List.forall_mem_append.mp harmless).2
  | takeArm =>
    obtain ⟨arm, rest⟩ := List.forall_mem_append.mp harmless
    rcases List.mem_pair.mp member with rfl | rfl
    · exact (List.forall_mem_append.mp arm).2
    · exact rest
  | bindCall | callTerm =>
    obtain rfl := List.mem_singleton.mp member
    exact List.forall_mem_cons.mp harmless
  | bindTerm | direct =>
    obtain rfl := List.mem_singleton.mp member
    exact harmless
  | @callee f args ctx scope ends ends₁ ends' result b b₁ b' passed d found =>
    obtain rfl : ctx.decls = D := decls
    obtain ⟨known, free, -⟩ := Context.callee_eq_ok found
    -- An attack that can be called by name has no target.
    have passive : d.role = .passive := by
      have attack := harmless.1 d known
      cases role : d.role <;> simp_all [Role.isAttack, Role.target?]
    rw [← callables.named f d known] at known
    rcases List.mem_pair.mp member with rfl | rfl
    · exact harmless.2
    · exact ⟨known, passive⟩
  | site _ several | deadSite _ several =>
    exact absurd (Callables.plan_passive harmless.2 _ _ _) several
  | someAlternatives => exact harmless.elim
  | inline =>
    rcases List.mem_pair.mp member with rfl | rfl
    · exact trivial
    · exact callables.passive _ _ harmless.1 harmless.2
  | storeParam | valueParam =>
    obtain rfl := List.mem_singleton.mp member
    exact trivial

theorem Within.harmless (callables : D.callables.Sound) (within : K.Within J)
    (decls : J.context.decls = D) (harmless : J.Harmless D.callables) : K.Harmless D.callables :=
  within.keeps (P := Harmless D.callables)
    (fun _ _ _ rule _ member => rule.harmless callables member) decls harmless

theorem leaks_of_drawn (decls : D.Sound) (callables : D.callables.Sound) (derived : Elaborates J)
    (same : J.context.decls = D) (harmless : J.Harmless D.callables) {i : Nat} {action : Action}
    {store : String} (drawn : J.Drawn i action) (touched : action.store? = some store) :
    (∃ t, action = .insert store t) ∧ (store = attackerStore ∨
      (∃ d args, J.Inlines i d args ∧ (attackerStore, .store store) ∈ d.params.zip args) ∨
      J.Names attackerStore store) := by
  obtain ⟨K, within, adds, low, high⟩ := drawn
  obtain ⟨kind, target, e, loc, ctx, flow, b, flow', b', decl, t, binds, rfl, resolved, rfl, rfl⟩ :=
    adds.of_store touched
  obtain rfl : ctx.decls = D := within.decls.trans same
  have parts := within.harmless callables same harmless
  obtain ⟨⟨rfl, rfl⟩, -⟩ := List.forall_mem_cons.mp parts
  refine ⟨⟨t, rfl⟩, ?_⟩
  rcases Context.resolveStore_eq_ok resolved with ⟨name, bound, found⟩ | ⟨-, found⟩
  · obtain rfl : decl.name = name := (decls.store found).named
    rcases within.copied derived with ⟨-, names⟩ | ⟨d, args, ⟨-, names⟩, inlines⟩
    · exact .inr (.inr (names _ _ bound))
    · exact .inr (.inl ⟨d, args, inlines i low high, names _ _ bound⟩)
  · exact .inl (decls.store found).named

end Judgement

def Model.misdirected : Model where
  types := [{ name := "host_t", kind := .process }, { name := "net_t", kind := .channel }]
  attackerGrants := [{ subject := "host_t", attacks := ["leak"] }]
  attacks := [{ name := "leak", params := [attackerStore, "v"], target := none,
                body := .store .insert attackerStore (.ident "v" none) none }]
  channels := [{ name := "net", type := "net_t" }]
  processes :=
    [{ name := "P", type := "host_t", params := [{ name := "c", type := "net_t" }]
       main := .seq [.call "leak" [.ident "c" none, .str "x"] none,
         .emit { tag := "Done", args := [] }] }]
  system := some
    { instances := [{ template := "P", args := ["net"], name := some "p" }]
      lemmas := [{ name := "r", kind := .reachable, events := [{ tag := "Done", args := [] }] }] }

/-- Whatever an inlined passive attack touches it writes to, and that is the attacker's store unless
the passive attack inlined around it has a parameter of that name and was passed this store. -/
theorem Context.passive_inlining_leaks {budget : Int} {M : Model} {ctx : Context}
    (declared : Declarations.ofModel budget M = .ok ctx.decls) {d : Definition}
    (found : ctx.decls.callables.find? d.name = some d) (passive : d.role = .passive)
    {depth : Nat} {args : List Argument} {ends ends' : Ends} {result : Option String}
    {b b' : Build} (done : inlineUpTo depth ctx d args ends result b = .ok (ends', b')) :
    ∀ i node, b.graph.size ≤ i → b'.graph.node? i = some node →
      ∀ store, node.action.store? = some store →
        (∃ t, node.action = .insert store t) ∧
        (store = attackerStore ∨ ∃ other passed,
          (Judgement.inlined d args ctx ends result b ends' b').Inlines i other passed ∧
          ctx.decls.callables.find? other.name = some other ∧ other.role = .passive ∧
          (attackerStore, .store store) ∈ other.params.zip passed) := by
  have decls := Declarations.sound_of_ofModel declared
  have callables := Callables.sound_of_ofModel declared
  have derived := inlines_inlineUpTo depth done
  intro i node new here store touched
  have acts : b'.graph.actions[i]? = some node.action := Graph.acts_iff.mpr ⟨node, here, rfl⟩
  obtain ⟨puts, leaks⟩ := Judgement.leaks_of_drawn decls callables derived rfl ⟨found, passive⟩
    (derived.drawn.new i _ new acts) touched
  refine ⟨puts, leaks.imp_right fun misled => ?_⟩
  obtain ⟨other, passed, inlines, bound⟩ | unnamed := misled
  · obtain ⟨ctx', ends₁, result', b₁, ends₂, b₂, within, among⟩ := inlines
    obtain ⟨known, passive⟩ := within.harmless callables rfl ⟨found, passive⟩
    exact ⟨other, passed, ⟨ctx', ends₁, result', b₁, ends₂, b₂, within, among⟩, known, passive, bound⟩
  · exact unnamed.elim

theorem Context.misdirected_inlining_leaks : ∃ (ctx : Context) (d : Definition) (ends : Ends)
    (b : Build) (node : Node),
    Declarations.ofModel 64 .misdirected = .ok ctx.decls ∧
    ctx.decls.callables.find? "leak" = some d ∧ d.role = .passive ∧
    inlineUpTo 5 ctx d [.store "net", .value (.lit "x")] [] none { nextNonce := 0 } =
      .ok (ends, b) ∧
    b.graph.node? 1 = some node ∧ node.action.store? = some "net" ∧
    (∃ t, node.action = .insert "net" t) ∧
    ∃ other passed, (Judgement.inlined d [.store "net", .value (.lit "x")] ctx [] none
        { nextNonce := 0 } ends b).Inlines 1 other passed ∧
      ctx.decls.callables.find? other.name = some other ∧ other.role = .passive ∧
      (attackerStore, .store "net") ∈ other.params.zip passed := by
  have computed : (do
      let D ← Declarations.ofModel 64 .misdirected
      let d ← (D.callables.find? "leak").elim (throw (.missing "leak")) pure
      let made ← inlineUpTo 5 { decls := D, owner := "p", type := "host_t" } d
        [.store "net", .value (.lit "x")] [] none { nextNonce := 0 }
      return (d.name, d.role, (made.2.graph.node? 1).map (·.action.store?)) :
        Result (String × Role × Option (Option String))) =
      .ok ("leak", .passive, some (some "net")) := by
    decide +kernel
  simp only [Result.bind_eq_ok_iff, Result.pure_eq_ok_iff, Prod.mk.injEq,
    Option.map_eq_some_iff] at computed
  obtain ⟨D, declared, d, found, ⟨ends, b⟩, done, named, passive, node, here, touched⟩ := computed
  have found : D.callables.find? "leak" = some d := by
    cases looked : D.callables.find? "leak" with
    | none => simp [looked] at found
    | some d' => simpa [looked] using found
  have declared : Declarations.ofModel 64 .misdirected =
    .ok ({ decls := D, owner := "p", type := "host_t" } : Context).decls := declared
  have leaks := passive_inlining_leaks declared (named ▸ found) passive done
    1 node (by simp) here "net" touched
  refine ⟨_, d, ends, b, node, declared, found, passive, done, here, touched, leaks.1, ?_⟩
  exact leaks.2.resolve_left (by decide)

end ThreatModel
