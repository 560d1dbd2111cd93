import Mathlib
import ThreatModel.Proofs.Elaboration.Scoping

set_option autoImplicit false

namespace ThreatModel

structure Ready (D : Declarations) (first : Nat) (A : DefiniteAssignment) (b : Build) (ends : Ends) :
    Prop where
  decls : D.Sound
  graph : b.graph.Sound D first b.nextNonce A
  nonces : first ≤ b.nextNonce
  inside : ∀ e ∈ ends, e < b.graph.size

/-- From some ends to others: what was known is still known, and what was built is still there. -/
structure Reaches (D : Declarations) (first : Nat) (A : DefiniteAssignment) (b : Build) (ends : Ends)
    (A' : DefiniteAssignment) (b' : Build) (ends' : Ends) : Prop where
  ready : Ready D first A' b' ends'
  agrees : DefiniteAssignment.Agrees b.graph.size A A'
  larger : b.graph.size ≤ b'.graph.size
  sites : ∀ i, b'.graph.Bare i → b.graph.Bare i
  keeps : A.available ends ⊆ A'.available ends'

variable {D : Declarations} {first : Nat} {A A' A'' : DefiniteAssignment} {b b' b'' : Build}
  {ends ends' ends'' : Ends} {result : Option String} {base : Set String}

namespace Ready

theorem same (ready : Ready D first A b ends) (graph : b'.graph = b.graph)
    (nonces : b'.nextNonce = b.nextNonce) : Ready D first A b' ends :=
  ⟨ready.decls, by rw [graph, nonces]; exact ready.graph, by rw [nonces]; exact ready.nonces,
    by rw [graph]; exact ready.inside⟩

theorem reaches_same (ready : Ready D first A b ends) (graph : b'.graph = b.graph)
    (nonces : b'.nextNonce = b.nextNonce) : Reaches D first A b ends A b' ends :=
  ⟨ready.same graph nonces, .refl _ _, by rw [graph], by rw [graph]; exact fun _ bare => bare,
    subset_rfl⟩

theorem refl (ready : Ready D first A b ends) : Reaches D first A b ends A b ends :=
  ready.reaches_same rfl rfl

theorem shared (ready : Ready D first A b ends) : D.shared ⊆ A.available ends :=
  ready.graph.shared_available ready.inside

theorem shared_node {i : Nat} (ready : Ready D first A b [i]) : D.shared ⊆ A.after i :=
  ready.graph.shared i (ready.inside i (by simp))

theorem leaving (ready : Ready D first A b ends) (inside : ∀ e ∈ ends', e < b.graph.size) :
    Ready D first A b ends' :=
  { ready with inside }

theorem graph_append (ready : Ready D first A b ends) (ctx : Context) {action : Action}
    (needs : action.Sound D (A.available ends))
    (nonce : ∀ x id, action = .fresh x id → first ≤ id ∧ id < b.nextNonce) :
    ∃ A', Ready D first A' (b.append ctx action ends) [b.graph.size] ∧
      DefiniteAssignment.Agrees b.graph.size A A' ∧
      A'.before b.graph.size = A.available ends ∧
      A'.after b.graph.size = A.available ends ∪ {x | x ∈ action.defines} := by
  refine ⟨A.extend b.graph.size (A.available ends) {x | x ∈ action.defines}, ?_,
    DefiniteAssignment.agrees_extend, DefiniteAssignment.before_extend,
    DefiniteAssignment.after_extend⟩
  have grown : (b.append ctx action ends).graph.Sound D first b.nextNonce _ :=
    ready.graph.append _ ready.inside rfl subset_rfl ready.shared needs nonce
  exact ⟨ready.decls, grown, ready.nonces, by simp⟩

theorem append (ready : Ready D first A b ends) (ctx : Context) {action : Action}
    (needs : action.Sound D (A.available ends))
    (nonce : ∀ x id, action = .fresh x id → first ≤ id ∧ id < b.nextNonce)
    (inner : ∀ callee, action ≠ .callSite callee) :
    ∃ A', Reaches D first A b ends A' (b.append ctx action ends) [b.graph.size] ∧
      A'.before b.graph.size = A.available ends ∧
      A'.after b.graph.size = A.available ends ∪ {x | x ∈ action.defines} := by
  obtain ⟨A', ready', agrees, before, after⟩ := ready.graph_append ctx needs nonce
  refine ⟨A', ⟨ready', agrees, by simp, ?_, ?_⟩, before, after⟩
  · intro i bare
    rcases Graph.bare_append ready.inside bare with ⟨-, callee, site⟩ | ⟨kept, -⟩
    · exact absurd site (inner callee)
    · exact kept
  · rw [DefiniteAssignment.available_singleton, after]
    exact Set.subset_union_left

theorem at_node (ready : Ready D first A b ends) {i : Nat} (inside : i < b.graph.size) :
    Ready D first A b [i] :=
  ready.leaving (by simpa using inside)

end Ready

namespace Reaches

theorem of_graph_eq (reached : Reaches D first A b ends A' b' ends') (same : b.graph = b''.graph) :
    Reaches D first A b'' ends A' b' ends' :=
  ⟨reached.ready, same ▸ reached.agrees, same ▸ reached.larger, same ▸ reached.sites, reached.keeps⟩

theorem trans (one : Reaches D first A b ends A' b' ends')
    (two : Reaches D first A' b' ends' A'' b'' ends'') : Reaches D first A b ends A'' b'' ends'' :=
  ⟨two.ready, one.agrees.trans two.agrees one.larger, one.larger.trans two.larger,
    fun i bare => one.sites i (two.sites i bare), one.keeps.trans two.keeps⟩

theorem available_eq (reached : Reaches D first A b ends A' b' ends') {others : Ends}
    (inside : ∀ e ∈ others, e < b.graph.size) : A'.available others = A.available others :=
  reached.agrees.available inside

theorem after_eq (reached : Reaches D first A b ends A' b' ends') {i : Nat}
    (inside : i < b.graph.size) : A'.after i = A.after i :=
  (reached.agrees i inside).2

theorem connect (reached : Reaches D first A b ends A' b' ends') {source target : Nat}
    (inside : target < b'.graph.size) (fits : A'.before target ⊆ A'.after source) :
    Reaches D first A b ends A' (b'.connect source target) ends' where
  ready := ⟨reached.ready.decls, reached.ready.graph.connect inside fits, reached.ready.nonces,
    by simpa using reached.ready.inside⟩
  agrees := reached.agrees
  larger := by simpa using reached.larger
  sites := fun i bare => reached.sites i (Graph.bare_connect bare)
  keeps := reached.keeps

theorem leaving (reached : Reaches D first A b ends A' b' ends') (start : Ends) {others : Ends}
    (inside : ∀ e ∈ others, e < b'.graph.size) (keeps : A.available start ⊆ A'.available others) :
    Reaches D first A b start A' b' others :=
  ⟨reached.ready.leaving inside, reached.agrees, reached.larger, reached.sites, keeps⟩

end Reaches

structure Returned (A : DefiniteAssignment) (size : Nat) (base : Set String) (result : Option String)
    (e : Nat) : Prop where
  inside : e < size
  keeps : base ⊆ A.after e
  result : ∀ x, result = some x → x ∈ A.after e

theorem Returned.onward {e : Nat} (returned : Returned A b.graph.size base result e)
    (reached : Reaches D first A b ends A' b' ends') : Returned A' b'.graph.size base result e := by
  have same := reached.after_eq returned.inside
  exact ⟨returned.inside.trans_le reached.larger, by rw [same]; exact returned.keeps,
    by rw [same]; exact returned.result⟩

structure Flow.Sound (D : Declarations) (A : DefiniteAssignment) (size : Nat) (base : Set String)
    (result : Option String) (flow : Flow) : Prop where
  scope : flow.scope.Sound D (A.available flow.ends)
  returns : ∀ e ∈ flow.returns, Returned A size base result e
  base : base ⊆ A.available flow.ends

theorem Flow.Sound.onward {flow : Flow} {scope : Scope}
    (sound : flow.Sound D A b.graph.size base result)
    (reached : Reaches D first A b flow.ends A' b' ends')
    (named : scope.Sound D (A'.available ends')) :
    ({ flow with ends := ends', scope } : Flow).Sound D A' b'.graph.size base result :=
  ⟨named, fun e member => (sound.returns e member).onward reached, sound.base.trans reached.keeps⟩

theorem Flow.Sound.stay {flow : Flow} (sound : flow.Sound D A b.graph.size base result)
    (reached : Reaches D first A b flow.ends A' b' ends') :
    ({ flow with ends := ends' } : Flow).Sound D A' b'.graph.size base result :=
  sound.onward reached (sound.scope.mono reached.keeps)

structure Arms.Sound (A : DefiniteAssignment) (size choice : Nat) (base : Set String)
    (result : Option String) (arms : Arms) : Prop where
  ends : ∀ e ∈ arms.ends, e < size ∧ A.after choice ⊆ A.after e
  returns : ∀ e ∈ arms.returns, Returned A size base result e
  taken : ∀ group ∈ arms.taken, ∀ c ∈ group, ∀ t ∈ c.terms, t.Known (A.after choice)

theorem Arms.Sound.available {size choice : Nat} {arms : Arms}
    (sound : arms.Sound A size choice base result) : A.after choice ⊆ A.available arms.ends :=
  fun _ member e drawn => (sound.ends e drawn).2 member

def Argument.Sound (D : Declarations) (known : Set String) : Argument → Prop
  | .store name => D.stores.contains name = true
  | .value t => t.Known known

theorem Argument.Sound.mono {known more : Set String} {a : Argument} (sound : a.Sound D known)
    (wider : known ⊆ more) : a.Sound D more := by
  cases a with
  | store name => exact sound
  | value t => exact Term.Known.mono sound wider

def Judgement.Sound (first : Nat) : Judgement → Prop
  | .command _ ctx flow b flow' b' | .sequence _ _ ctx flow b flow' b'
  | .bind _ _ ctx flow b flow' b' =>
    ∀ A base, Ready ctx.decls first A b flow.ends →
      flow.Sound ctx.decls A b.graph.size base ctx.frame.result →
      ∃ A', Reaches ctx.decls first A b flow.ends A' b' flow'.ends ∧
        flow'.Sound ctx.decls A' b'.graph.size base ctx.frame.result
  | .arms _ _ ctx choice scope sofar b out b' =>
    ∀ A base, Ready ctx.decls first A b [choice] → scope.Sound ctx.decls (A.after choice) →
      base ⊆ A.after choice →
      sofar.Sound A b.graph.size choice base ctx.frame.result →
      ∃ A', Reaches ctx.decls first A b [choice] A' b' [choice] ∧
        out.Sound A' b'.graph.size choice base ctx.frame.result
  | .term _ ctx scope ends b t ends' b' =>
    ∀ A, Ready ctx.decls first A b ends → scope.Sound ctx.decls (A.available ends) →
      ∃ A', Reaches ctx.decls first A b ends A' b' ends' ∧ t.Known (A'.available ends')
  | .terms _ ctx scope ends b ts ends' b' =>
    ∀ A, Ready ctx.decls first A b ends → scope.Sound ctx.decls (A.available ends) →
      ∃ A', Reaches ctx.decls first A b ends A' b' ends' ∧
        ∀ t ∈ ts, t.Known (A'.available ends')
  | .arguments _ ctx scope ends b args ends' b' =>
    ∀ A, Ready ctx.decls first A b ends → scope.Sound ctx.decls (A.available ends) →
      ∃ A', Reaches ctx.decls first A b ends A' b' ends' ∧
        ∀ a ∈ args, a.Sound ctx.decls (A'.available ends')
  | .call _ _ ctx scope ends result b ends' b' =>
    ∀ A, Ready ctx.decls first A b ends → scope.Sound ctx.decls (A.available ends) →
      ∃ A', Reaches ctx.decls first A b ends A' b' ends' ∧
        ∀ x, result = some x → x ∈ A'.available ends'
  | .invoke _ args ctx ends result b ends' b' | .inlined _ args ctx ends result b ends' b' =>
    ∀ A, Ready ctx.decls first A b ends →
      (∀ a ∈ args, a.Sound ctx.decls (A.available ends)) →
      ∃ A', Reaches ctx.decls first A b ends A' b' ends' ∧
        ∀ x, result = some x → x ∈ A'.available ends'
  | .alternatives plan args ctx result site b ends' b' =>
    ∀ A, Ready ctx.decls first A b [site] →
      (∀ a ∈ args, a.Sound ctx.decls (A.after site)) →
      ∃ A', Reaches ctx.decls first A b [site] A' b' ends' ∧
        (∀ x, result = some x → x ∈ A'.available ends') ∧
        (plan ≠ [] → ¬ b'.graph.Bare site)
  | .params pairs ctx scope ends b scope' ends' b' =>
    ∀ A, Ready ctx.decls first A b ends → scope.Sound ctx.decls (A.available ends) →
      (∀ pair ∈ pairs, pair.2.Sound ctx.decls (A.available ends)) →
      ∃ A', Reaches ctx.decls first A b ends A' b' ends' ∧
        scope'.Sound ctx.decls (A'.available ends')

namespace Ready

theorem assign (ready : Ready D first A b ends) (ctx : Context) (x : String) {t : Term}
    (known : t.Known (A.available ends)) :
    ∃ A', Reaches D first A b ends A' (b.append ctx (.assign x t) ends) [b.graph.size] ∧
      x ∈ A'.after b.graph.size := by
  have needs : (Action.assign x t).Sound D (A.available ends) :=
    ⟨by simpa [Action.Uses, Action.terms, Action.introduces] using known.vars,
      by simp [Action.introduces], by simpa [Action.terms] using known.nameless,
      by simp [Action.store?]⟩
  obtain ⟨A', reached, -, after⟩ := ready.append ctx needs (by simp) (by simp)
  refine ⟨A', reached, ?_⟩
  rw [after]
  exact .inr (by simp [Action.defines])

theorem mark (ready : Ready D first A b ends) (ctx : Context) (action : Action)
    (terms : action.terms = []) (store : action.store? = none) (defines : action.defines = [])
    (inner : ∀ callee, action ≠ .callSite callee) :
    ∃ A', Reaches D first A b ends A' (b.append ctx action ends) [b.graph.size] ∧
      A'.before b.graph.size = A.available ends ∧ A'.after b.graph.size = A.available ends := by
  have fresh : ∀ x id, action = .fresh x id → first ≤ id ∧ id < b.nextNonce := by
    rintro x id rfl
    simp [Action.defines] at defines
  obtain ⟨A', reached, before, after⟩ :=
    ready.append ctx (Action.sound_of_plain terms store) fresh inner
  exact ⟨A', reached, before, by simpa [defines] using after⟩

theorem put (ready : Ready D first A b ends) (ctx : Context) (action : Action) {t : Term}
    (terms : action.terms = [t]) (introduces : action.introduces = [])
    (known : t.Known (A.available ends))
    (store : ∀ s, action.store? = some s → D.stores.contains s = true)
    (fresh : ∀ x id, action ≠ .fresh x id) (inner : ∀ callee, action ≠ .callSite callee) :
    ∃ A', Reaches D first A b ends A' (b.append ctx action ends) [b.graph.size] := by
  have needs : action.Sound D (A.available ends) := by
    refine ⟨?_, by simp [introduces], by simpa [terms] using known.nameless, store⟩
    rintro x ⟨⟨u, member, occurs⟩, -⟩
    obtain rfl : u = t := by simpa [terms] using member
    exact known.vars x occurs
  obtain ⟨A', reached, -, -⟩ :=
    ready.append ctx needs (fun x id drawn => absurd drawn (fresh x id)) inner
  exact ⟨A', reached⟩

theorem guard (ready : Ready D first A b ends) (ctx : Context) (group : List Condition)
    {excluded : List (List Condition)}
    (known : ∀ c ∈ group, ∀ t ∈ c.terms, t.Known (A.available ends))
    (unknown : ∀ group ∈ excluded, ∀ c ∈ group, ∀ t ∈ c.terms, t.Known (A.available ends)) :
    ∃ A', Reaches D first A b ends A' (b.append ctx (.guard group excluded) ends) [b.graph.size] ∧
      A'.after b.graph.size = A.available ends := by
  have each : ∀ t ∈ (Action.guard group excluded).terms, t.Known (A.available ends) := by
    intro t member
    obtain ⟨c, among, inside⟩ := List.mem_flatMap.mp member
    rcases List.mem_append.mp among with own | other
    · exact known c own t inside
    · obtain ⟨others, listed, held⟩ := List.mem_flatten.mp other
      exact unknown others listed c held t inside
  have needs : (Action.guard group excluded).Sound D (A.available ends) :=
    ⟨by rintro x ⟨⟨t, member, occurs⟩, -⟩; exact (each t member).vars x occurs,
      by simp [Action.introduces], fun t member => (each t member).nameless, by simp [Action.store?]⟩
  obtain ⟨A', reached, -, after⟩ := ready.append ctx needs (by simp) (by simp)
  exact ⟨A', reached, by simpa [Action.defines, Action.introduces] using after⟩

end Ready

namespace Judgement

variable {ctx : Context} {scope scope' : Scope} {flow flow' : Flow} {result : Option String}
  {x : String} {as : List Arm} {out : Arms} {b₁ b₂ : Build} {body : Command}
  {comparisons : List Comparison} {loc : Option Location} {t : Term} {e : Expr}
  {plan : List Callables.Alternative} {args : List Argument}

theorem sound_new (declared : flow.scope.declare x (.value (b.varFor x)) = .ok scope) :
    (command (.new x) ctx flow b { flow with ends := [b.graph.size], scope }
      ((b.takeVar x).takeNonce.append ctx (.fresh (b.varFor x) b.nextNonce) flow.ends)).Sound
        first := by
  intro A base ready flows
  -- The id is taken first, so the node draws below the new bound.
  have taken : Ready ctx.decls first A (b.takeVar x).takeNonce flow.ends :=
    ⟨ready.decls, ready.graph.mono (Nat.le_succ _), Nat.le_succ_of_le ready.nonces, ready.inside⟩
  have needs : (Action.fresh (b.varFor x) b.nextNonce).Sound ctx.decls (A.available flow.ends) :=
    Action.sound_of_plain rfl rfl
  obtain ⟨A', reached, -, after⟩ := taken.append ctx needs
    (by rintro y id ⟨⟩; exact ⟨ready.nonces, Nat.lt_succ_self _⟩) (by simp)
  have reached : Reaches ctx.decls first A b flow.ends A' _ [b.graph.size] := reached.of_graph_eq rfl
  have named : b.varFor x ∈ A'.available [b.graph.size] := by
    rw [DefiniteAssignment.available_singleton]
    exact after ▸ .inr (by simp [Action.defines])
  exact ⟨A', reached, flows.onward reached
    ((flows.scope.mono reached.keeps).declare_value named declared)⟩

theorem sound_branch (arms : (Judgement.choosing as ctx flow b out b').Sound first) :
    (branch as ctx flow b out b').Sound first := by
  intro A base ready flows
  obtain ⟨A₁, opened, -, after⟩ := ready.mark ctx .choice rfl rfl rfl (by simp)
  -- No arm has been tried yet, so what is to be shown of the earlier ones is empty.
  obtain ⟨A₂, tried, ended⟩ := arms A₁ base opened.ready (after ▸ flows.scope) (after ▸ flows.base)
    ⟨by simp, fun e member => (flows.returns e member).onward opened, by simp⟩
  have same : A₂.after b.graph.size = A.available flow.ends :=
    (tried.after_eq (by simp)).trans after
  have keeps : A.available flow.ends ⊆ A₂.available out.ends := same ▸ ended.available
  refine ⟨A₂, (opened.trans tried).leaving flow.ends (fun e member => (ended.ends e member).1) keeps,
    flows.scope.mono keeps, ended.returns, flows.base.trans keeps⟩

theorem sound_loop {inner : Flow} (repeated : (repetition body ctx flow b inner b₁).Sound first)
    (arms : (Judgement.choosing as (ctx.enter "until") inner b₁ out b₂).Sound first) :
    (loop body as ctx flow b b₁ out b₂).Sound first := by
  intro A base ready flows
  obtain ⟨A₁, opened, before, after⟩ := ready.mark ctx .loopHead rfl rfl rfl (by simp)
  have entry : ({ ends := [b.graph.size], scope := flow.scope.child, returns := flow.returns } :
      Flow).Sound ctx.decls A₁ (b.append ctx .loopHead flow.ends).graph.size base
        ctx.frame.result :=
    ⟨by simpa [after] using flows.scope.child,
      fun e member => (flows.returns e member).onward opened, by simpa [after] using flows.base⟩
  obtain ⟨A₂, ran, inside⟩ := repeated A₁ base opened.ready entry
  obtain ⟨A₃, chosen, -, atChoice⟩ :=
    ran.ready.mark (ctx.enter "until") .choice rfl rfl rfl (by simp)
  obtain ⟨A₄, tried, ended⟩ := arms A₃ base chosen.ready (atChoice ▸ inside.scope)
    (atChoice ▸ inside.base)
    ⟨by simp, fun e member => (inside.returns e member).onward chosen, by simp⟩
  obtain ⟨A₅, again, atAgain⟩ := tried.ready.guard (ctx.enter "again") [] (by simp)
    (by simpa using ended.taken)
  have gone := ((opened.trans ran).trans chosen).trans tried
  -- Whatever is known at the head is known after every node of the body, so it is known again.
  have kept : A.available flow.ends ⊆ A₄.after b₁.graph.size := by simpa using gone.keeps
  have head : A₅.before b.graph.size ⊆ A₅.after b₂.graph.size := by
    have small : b.graph.size < (b.append ctx .loopHead flow.ends).graph.size := by
      simp
    rw [atAgain, DefiniteAssignment.available_singleton,
      ((((ran.trans chosen).trans tried).trans again).agrees _ small).1, before]
    exact kept
  have bound : b.graph.size < (b₂.append (ctx.enter "again") (.guard [] out.taken)
      [b₁.graph.size]).graph.size := by
    have larger := (gone.trans again).larger
    simp only [Build.size_append] at larger ⊢
    have := gone.larger
    omega
  have closed := again.connect bound head
  have left (e : Nat) (member : e ∈ out.ends) : e < b₂.graph.size := (ended.ends e member).1
  have keeps : A.available flow.ends ⊆ A₅.available out.ends := by
    rw [closed.available_eq left]
    exact kept.trans ended.available
  refine ⟨A₅, (gone.trans closed).leaving flow.ends
    (fun e member => (left e member).trans_le closed.larger) keeps,
    flows.scope.mono keeps, fun e member => (ended.returns e member).onward closed,
    flows.base.trans keeps⟩

theorem sound_dropArm {i choice : Nat} {sofar : Arms} {text : String}
    (never : (ctx.enter s!"arm{i}").conditions scope comparisons b = .ok (none, b₁))
    (rest : (arms as (i + 1) ctx choice scope sofar (b₁.note (ctx.enter s!"arm{i}") text) out
      b').Sound first) :
    (arms (.guarded comparisons body :: as) i ctx choice scope sofar b out b').Sound first := by
  intro A base ready named known sound
  have inner : scope.Sound (ctx.enter s!"arm{i}").decls (A.after choice) := named
  obtain ⟨-, graph, nonces⟩ := Context.conditions_eq_ok inner ready.shared_node never
  have graph : (b₁.note (ctx.enter s!"arm{i}") text).graph = b.graph := graph
  obtain ⟨A', tried, ended⟩ :=
    rest A base (ready.same graph nonces) named known (by rw [graph]; exact sound)
  exact ⟨A', tried.of_graph_eq graph, ended⟩

theorem sound_takeArm {i choice : Nat} {sofar : Arms} {group : List Condition} {inner : Flow}
    (guarded : (ctx.enter s!"arm{i}").conditions scope comparisons b = .ok (some group, b₁))
    (chosen : (Judgement.guarded body i ctx choice scope sofar group b₁ inner b₂).Sound first)
    (rest : (remaining as i ctx choice scope sofar group inner b₂ out b').Sound first) :
    (arms (.guarded comparisons body :: as) i ctx choice scope sofar b out b').Sound first := by
  intro A base ready named known sound
  have within : scope.Sound (ctx.enter s!"arm{i}").decls (A.after choice) := named
  obtain ⟨holds, graph, nonces⟩ :=
    Context.conditions_eq_ok within ready.shared_node guarded
  have holds := holds group rfl
  obtain ⟨A₁, opened, after⟩ := (ready.same graph nonces).guard (ctx.enter s!"arm{i}") group
    (by simpa using holds) (by simpa using sound.taken)
  have opened := opened.of_graph_eq graph
  rw [DefiniteAssignment.available_singleton] at after
  have entry : ({ ends := [b₁.graph.size], scope := scope.child, returns := sofar.returns } :
      Flow).Sound ctx.decls A₁ _ base ctx.frame.result :=
    ⟨by simpa [after] using named.child, fun e member => (sound.returns e member).onward opened,
      by simpa [after] using known⟩
  obtain ⟨A₂, ran, inside⟩ := chosen A₁ base opened.ready entry
  have gone := opened.trans ran
  -- The arm is drawn from the choice, and so is the next: control returns to what is known there.
  have here : choice < b.graph.size := ready.inside choice (by simp)
  have same : A₂.after choice = A.after choice := gone.after_eq here
  have sofar' : Arms.Sound A₂ b₂.graph.size choice base ctx.frame.result
      { ends := sofar.ends ++ inner.ends, returns := inner.returns,
        taken := sofar.taken ++ [group] } := by
    refine ⟨?_, inside.returns, ?_⟩
    · intro e member
      rcases List.mem_append.mp member with old | new
      · obtain ⟨bound, wider⟩ := sound.ends e old
        rw [same, gone.after_eq bound]
        exact ⟨bound.trans_le gone.larger, wider⟩
      · refine ⟨ran.ready.inside e new, fun x held => ?_⟩
        exact gone.keeps (by simpa [same] using held) e new
    · intro others member
      rw [same]
      rcases List.mem_append.mp member with old | new
      · exact sound.taken others old
      · obtain rfl := List.mem_singleton.mp new
        exact holds
  have back : Reaches ctx.decls first A b [choice] A₂ b₂ [choice] :=
    gone.leaving [choice] (by simpa using here.trans_le gone.larger) (by simp [same])
  obtain ⟨A₃, tried, ended⟩ := rest A₂ base back.ready (same ▸ named) (same ▸ known) sofar'
  exact ⟨A₃, back.trans tried, ended⟩

theorem sound_emit {event : EventExpr} {ts : List Term}
    (each : (terms event.args ctx flow.scope flow.ends b ts ends b₁).Sound first)
    {site : EventSite} :
    (command (.emit event) ctx flow b { flow with ends := [b₁.graph.size] }
      ((b₁.append ctx (.emit (.app event.tag ts) b₁.events.length) ends).addEvent site)).Sound
        first := by
  intro A base ready flows
  obtain ⟨A₁, reached, known⟩ := each A ready flows.scope
  have shown : (Term.app event.tag ts).Known (A₁.available ends) := .app known
  obtain ⟨A₂, appended⟩ := reached.ready.put ctx (.emit (.app event.tag ts) b₁.events.length) rfl rfl
    shown (by simp [Action.store?]) (by simp) (by simp)
  have noted := reached.trans (appended.trans
    (appended.ready.reaches_same (Build.graph_addEvent _ site) rfl))
  exact ⟨A₂, noted, flows.stay noted⟩

theorem sound_put {action : StoreAction} {target : String} {store : StoreDecl}
    (puts : action = .insert ∨ action = .remove)
    (resolved : ctx.resolveStore flow.scope target b = .ok (store, b))
    (value : (term e ctx flow.scope flow.ends b t ends b₁).Sound first) :
    (command (.store action target e loc) ctx flow b { flow with ends := [b₁.graph.size] }
      (b₁.append ctx (action.node store.name t []) ends)).Sound first := by
  intro A base ready flows
  obtain ⟨A₁, reached, known⟩ := value A ready flows.scope
  have contained := Context.contains_of_resolveStore ready.decls resolved
  obtain ⟨A₂, appended⟩ : ∃ A₂, Reaches ctx.decls first A₁ b₁ ends A₂
      (b₁.append ctx (action.node store.name t []) ends) [b₁.graph.size] := by
    rcases puts with rfl | rfl
    · exact reached.ready.put ctx (.insert store.name t) rfl rfl known
        (by rintro s ⟨⟩; exact contained) (by simp) (by simp)
    · exact reached.ready.put ctx (.remove store.name t) rfl rfl known
        (by rintro s ⟨⟩; exact contained) (by simp) (by simp)
  exact ⟨A₂, reached.trans appended, flows.stay (reached.trans appended)⟩

theorem sound_take {action : StoreAction} {target : String} {store : StoreDecl} {pattern : Term}
    {binds : Table String String} (takes : action = .consume ∨ action = .read)
    (resolved : ctx.resolveStore flow.scope target b = .ok (store, b))
    (read : ctx.plain flow.scope true e .empty b = .ok ((pattern, binds), b₁))
    (declared : ctx.declareAll flow.scope binds.entries b₂ = .ok (scope, b₂)) :
    (command (.store action target e loc) ctx flow b { flow with ends := [b₁.graph.size], scope }
      (b₁.append ctx (action.node store.name pattern binds.values) flow.ends)).Sound first := by
  intro A base ready flows
  have contained := Context.contains_of_resolveStore ready.decls resolved
  have spec := (Context.reading_of_plain read).plain flows.scope ready.shared
  have known := spec.terms pattern (by simp)
  have introduces : (action.node store.name pattern binds.values).introduces = binds.values := by
    rcases takes with rfl | rfl <;> rfl
  have defines : (action.node store.name pattern binds.values).defines = binds.values := by
    rcases takes with rfl | rfl <;> rfl
  have terms : (action.node store.name pattern binds.values).terms = [pattern] := by
    rcases takes with rfl | rfl <;> rfl
  have touched : (action.node store.name pattern binds.values).store? = some store.name := by
    rcases takes with rfl | rfl <;> rfl
  have needs : (action.node store.name pattern binds.values).Sound ctx.decls
      (A.available flow.ends) := by
    refine ⟨?_, ?_, by simpa [terms] using known.nameless, ?_⟩
    · -- A variable that the pattern does not introduce was known before.
      rintro x ⟨⟨t, member, occurs⟩, free⟩
      obtain rfl : t = pattern := by simpa [terms] using member
      rcases known.vars x occurs with held | bound
      · exact held
      · exact absurd (Context.mem_values_of_boundIn bound) (introduces ▸ free)
    · intro x member
      rw [introduces] at member
      rw [terms]
      exact (spec.met x member).resolve_left (by simp [Table.values, Table.empty])
    · intro s found
      obtain rfl : store.name = s := by simpa [touched] using found
      exact contained
  obtain ⟨A', reached, -, after⟩ := (ready.same spec.graph spec.nonces).append ctx needs
    (by rcases takes with rfl | rfl <;> simp [StoreAction.node])
    (by rcases takes with rfl | rfl <;> simp [StoreAction.node])
  have reached := reached.of_graph_eq spec.graph
  have bound : ∀ entry ∈ binds.entries, entry.2 ∈ A'.available [b₁.graph.size] := by
    intro entry member
    rw [DefiniteAssignment.available_singleton, after, defines]
    exact .inr (List.mem_map.mpr ⟨entry, member, rfl⟩)
  exact ⟨A', reached, flows.onward reached
    (Context.sound_of_declareAll (flows.scope.mono reached.keeps) bound declared)⟩

theorem sound_retValue (result : ctx.frame.result = some x)
    (value : (term e ctx flow.scope flow.ends b t ends b₁).Sound first) :
    (command (.ret e loc) ctx flow b
      { flow with ends := [], returns := flow.returns ++ [b₁.graph.size] }
      (b₁.append ctx (.assign x t) ends)).Sound first := by
  intro A base ready flows
  obtain ⟨A₁, reached, known⟩ := value A ready flows.scope
  obtain ⟨A₂, appended, assigned⟩ := reached.ready.assign ctx x known
  have gone := reached.trans appended
  -- Nothing follows, and at no end at all everything is known.
  refine ⟨A₂, gone.leaving flow.ends (by simp) (by simp [DefiniteAssignment.available]),
    flows.scope.mono (by simp [DefiniteAssignment.available]), ?_,
    by simp [DefiniteAssignment.available]⟩
  intro r member
  rcases List.mem_append.mp member with old | new
  · exact (flows.returns r old).onward gone
  · obtain rfl := List.mem_singleton.mp new
    refine ⟨by simp, by simpa using flows.base.trans gone.keeps, ?_⟩
    intro y same
    obtain rfl : x = y := by simpa [result] using same
    exact assigned

theorem sound_retNothing (result : ctx.frame.result = none)
    (value : (term e ctx flow.scope flow.ends b t ends b₁).Sound first) :
    (command (.ret e loc) ctx flow b { flow with ends := [], returns := flow.returns ++ ends }
      b₁).Sound first := by
  intro A base ready flows
  obtain ⟨A₁, reached, known⟩ := value A ready flows.scope
  refine ⟨A₁, reached.leaving flow.ends (by simp) (by simp [DefiniteAssignment.available]),
    flows.scope.mono (by simp [DefiniteAssignment.available]), ?_,
    by simp [DefiniteAssignment.available]⟩
  intro r member
  rcases List.mem_append.mp member with old | new
  · exact (flows.returns r old).onward reached
  · exact ⟨reached.ready.inside r new, fun x held => reached.keeps (flows.base held) r new,
      by simp [result]⟩

theorem sound_bindCall {f : String} {args : List Expr}
    (called : (call f args ctx flow.scope flow.ends (some (b.varFor x)) (b.takeVar x) ends b').Sound
      first)
    (declared : flow.scope.declare x (.value (b.varFor x)) = .ok scope) :
    (bind x (.apply f args loc) ctx flow b { flow with ends, scope } b').Sound first := by
  intro A base ready flows
  obtain ⟨A', reached, result⟩ := called A (ready.same rfl rfl) flows.scope
  have reached : Reaches ctx.decls first A b flow.ends A' b' ends := reached.of_graph_eq rfl
  exact ⟨A', reached, flows.onward reached
    ((flows.scope.mono reached.keeps).declare_value (result _ rfl) declared)⟩

theorem sound_bindTerm {value : Expr}
    (evaluated : (term value ctx flow.scope flow.ends b t ends b₁).Sound first)
    (declared : flow.scope.declare x (.value (b₁.varFor x)) = .ok scope) :
    (bind x value ctx flow b { flow with ends := [b₁.graph.size], scope }
      ((b₁.takeVar x).append ctx (.assign (b₁.varFor x) t) ends)).Sound first := by
  intro A base ready flows
  obtain ⟨A₁, reached, known⟩ := evaluated A ready flows.scope
  have taken : Ready ctx.decls first A₁ (b₁.takeVar x) ends := reached.ready.same rfl rfl
  obtain ⟨A₂, appended, assigned⟩ := taken.assign ctx (b₁.varFor x) known
  have gone : Reaches ctx.decls first A b flow.ends A₂ _ [b₁.graph.size] :=
    reached.trans (appended.of_graph_eq rfl)
  exact ⟨A₂, gone, flows.onward gone
    ((flows.scope.mono gone.keeps).declare_value (by simpa using assigned) declared)⟩

theorem reaches_alternatives {f : String} (several : ¬ plan.length ≤ 1)
    (sides : (alternatives plan args ctx result b.graph.size (b.append ctx (.callSite f) ends) ends'
      b').Sound first)
    (ready : Ready ctx.decls first A b ends)
    (known : ∀ a ∈ args, a.Sound ctx.decls (A.available ends)) :
    ∃ A', Reaches ctx.decls first A b ends A' b' ends' ∧
      ∀ x, result = some x → x ∈ A'.available ends' := by
  have needs : (Action.callSite f).Sound ctx.decls (A.available ends) :=
    Action.sound_of_plain rfl rfl
  obtain ⟨A₁, opened, agrees, -, after⟩ := ready.graph_append ctx needs (by simp)
  have after : A₁.after b.graph.size = A.available ends := by
    simpa [Action.defines, Action.introduces] using after
  obtain ⟨A₂, tried, results, led⟩ := sides A₁ opened (after ▸ known)
  have larger : b.graph.size ≤ (b.append ctx (.callSite f) ends).graph.size := by simp
  refine ⟨A₂, ⟨tried.ready, agrees.trans tried.agrees larger, larger.trans tried.larger, ?_, ?_⟩,
    results⟩
  · intro i bare
    rcases Graph.bare_append ready.inside (tried.sites i bare) with ⟨rfl, -⟩ | ⟨kept, -⟩
    · -- The site itself led nowhere when it was drawn, but its alternatives follow.
      exact absurd bare (led (by rintro rfl; simp at several))
    · exact kept
  · simpa [after] using tried.keeps

theorem sound_someAlternatives {a : Callables.Alternative} {site : Nat} {here later : Ends}
    (one : (alternative a args ctx result site b here b₁).Sound first)
    (others : (alternatives plan args ctx result site b₁ later b').Sound first) :
    (alternatives (a :: plan) args ctx result site b (here ++ later) b').Sound first := by
  intro A ready known
  obtain ⟨A₁, entered, -, after⟩ :=
    ready.mark (ctx.enter a.tag) (.alternative a.tag) rfl rfl rfl (by simp)
  rw [DefiniteAssignment.available_singleton] at after
  obtain ⟨A₂, inlined, result₁⟩ := one A₁ entered.ready (by simpa [after] using known)
  have gone : Reaches ctx.decls first A b [site] A₂ b₁ here := entered.trans inlined
  have inside : site < b.graph.size := ready.inside site (by simp)
  have same : A₂.after site = A.after site := gone.after_eq inside
  obtain ⟨A₃, tried, result₂, -⟩ :=
    others A₂ (gone.ready.at_node (inside.trans_le gone.larger)) (same ▸ known)
  have front : A₃.available here = A₂.available here := tried.available_eq gone.ready.inside
  refine ⟨A₃, ⟨tried.ready.leaving ?_, gone.agrees.trans tried.agrees gone.larger,
    gone.larger.trans tried.larger, fun i bare => gone.sites i (tried.sites i bare), ?_⟩, ?_, ?_⟩
  · intro e member
    rcases List.mem_append.mp member with old | new
    · exact (gone.ready.inside e old).trans_le tried.larger
    · exact tried.ready.inside e new
  · rw [DefiniteAssignment.available_append, front]
    refine Set.subset_inter gone.keeps ?_
    simpa [same] using tried.keeps
  · intro x wanted
    rw [DefiniteAssignment.available_append, front]
    exact ⟨result₁ x wanted, result₂ x wanted⟩
  · -- This alternative was drawn from the site.
    rintro - bare
    rcases Graph.bare_append ready.inside (inlined.sites site (tried.sites site bare)) with
      ⟨-, callee, differs⟩ | ⟨-, undrawn⟩
    · simp at differs
    · simp at undrawn

theorem sound_inline {d : Definition} {ends₁ : Ends}
    (bound : (params (d.params.zip args) (ctx.inside d result) {} ends b scope ends₁ b₁).Sound
      first)
    (body : (command d.body (ctx.inside d result) { ends := ends₁, scope } b₁ flow b').Sound first)
    (returned : result.isSome = true → flow.ends = []) :
    (inlined d args ctx ends result b (flow.ends ++ flow.returns) b').Sound first := by
  intro A ready known
  obtain ⟨A₁, passed, named⟩ := bound A ready Scope.sound_empty
    (fun pair member => known pair.2 (List.of_mem_zip (show (pair.1, pair.2) ∈ _ from member)).2)
  -- The call site's knowledge is the base that every return has to keep.
  obtain ⟨A₂, ran, flows⟩ := body A₁ (A.available ends) passed.ready
    ⟨named, by simp, passed.keeps⟩
  have gone : Reaches ctx.decls first A b ends A₂ b' flow.ends := passed.trans ran
  refine ⟨A₂, gone.leaving ends ?_ ?_, ?_⟩
  · intro e member
    rcases List.mem_append.mp member with goes | returns
    · exact ran.ready.inside e goes
    · exact (flows.returns e returns).inside
  · rw [DefiniteAssignment.available_append]
    exact Set.subset_inter gone.keeps fun x held e member => (flows.returns e member).keeps held
  · rintro x rfl
    rw [returned rfl, List.nil_append]
    exact fun e member => (flows.returns e member).result x rfl

theorem sound_valueParam {pairs : List (String × Argument)} {scope₁ : Scope}
    (declared : scope.declare x (.value (b.varFor x)) = .ok scope₁)
    (rest : (params pairs ctx scope₁ [b.graph.size]
      ((b.takeVar x).append ctx (.assign (b.varFor x) t) ends) scope' ends' b').Sound first) :
    (params ((x, .value t) :: pairs) ctx scope ends b scope' ends' b').Sound first := by
  intro A ready named known
  have value : t.Known (A.available ends) := known (x, .value t) (by simp)
  have taken : Ready ctx.decls first A (b.takeVar x) ends := ready.same rfl rfl
  obtain ⟨A₁, appended, assigned⟩ := taken.assign ctx (b.varFor x) value
  have reached : Reaches ctx.decls first A b ends A₁ _ [b.graph.size] := appended.of_graph_eq rfl
  obtain ⟨A₂, passed, named'⟩ := rest A₁ reached.ready
    ((named.mono reached.keeps).declare_value (by simpa using assigned) declared)
    (fun pair member => (known pair (by simp [member])).mono reached.keeps)
  exact ⟨A₂, reached.trans passed, named'⟩

end Judgement

theorem Elaborates.sound {J : Judgement} (derived : Elaborates J) : J.Sound first := by
  induction derived with
  | skip | last => exact fun A base ready flows => ⟨A, ready.refl, flows⟩
  | seq _ ih => exact ih
  | bind _ ih => exact ih
  | new declared => exact Judgement.sound_new declared
  | branch _ ih => exact Judgement.sound_branch ih
  | loop _ _ ih ih' => exact Judgement.sound_loop ih ih'
  | call _ ih =>
    intro A base ready flows
    obtain ⟨A', reached, -⟩ := ih A ready flows.scope
    exact ⟨A', reached, flows.stay reached⟩
  | emit _ ih => exact Judgement.sound_emit ih
  | put puts resolved _ _ ih => exact Judgement.sound_put puts resolved ih
  | take takes resolved _ read declared => exact Judgement.sound_take takes resolved read declared
  | retValue _ result _ ih => exact Judgement.sound_retValue result ih
  | retNothing _ result _ ih => exact Judgement.sound_retNothing result ih
  | next _ _ ih ih' =>
    intro A base ready flows
    obtain ⟨A₁, reached, flows₁⟩ := ih A base ready flows
    obtain ⟨A₂, reached', flows₂⟩ := ih' A₁ base reached.ready flows₁
    exact ⟨A₂, reached.trans reached', flows₂⟩
  | noArm => exact fun A base ready _ _ sound => ⟨A, ready.refl, sound⟩
  | dropArm never _ ih => exact Judgement.sound_dropArm never ih
  | takeArm guarded _ _ ih ih' => exact Judgement.sound_takeArm guarded ih ih'
  | bindCall _ _ _ declared ih => exact Judgement.sound_bindCall ih declared
  | bindTerm _ _ _ declared ih => exact Judgement.sound_bindTerm ih declared
  | str => exact fun A ready _ => ⟨A, ready.refl, .lit _⟩
  | ident known =>
    intro A ready named
    have stands := (Context.finds_of_known known).stands named ready.shared
    exact ⟨A, ready.refl, stands.mono (by rintro x (held | ⟨y, found⟩) <;> simp_all)⟩
  | tuple _ made ih =>
    intro A ready named
    obtain ⟨A', reached, known⟩ := ih A ready named
    exact ⟨A', reached, .tuple known made⟩
  | symbol _ _ ih =>
    intro A ready named
    obtain ⟨A', reached, known⟩ := ih A ready named
    exact ⟨A', reached, .app known⟩
  | callTerm _ _ _ ih =>
    intro A ready named
    obtain ⟨A', reached, result⟩ := ih A (ready.same rfl rfl) named
    exact ⟨A', reached.of_graph_eq rfl, .var (result _ rfl)⟩
  | noTerm | noArgument => exact fun A ready _ => ⟨A, ready.refl, by simp⟩
  | someTerms _ _ ih ih' | valueArgument _ _ _ ih ih' =>
    intro A ready named
    obtain ⟨A₁, reached, known⟩ := ih A ready named
    obtain ⟨A₂, reached', others⟩ := ih' A₁ reached.ready (named.mono reached.keeps)
    refine ⟨A₂, reached.trans reached', List.forall_mem_cons.mpr ⟨?_, others⟩⟩
    exact known.mono reached'.keeps
  | storeArgument found _ ih =>
    intro A ready named
    obtain ⟨A', reached, others⟩ := ih A ready named
    exact ⟨A', reached, List.forall_mem_cons.mpr
      ⟨Context.contains_of_storeNamed? named found, others⟩⟩
  | callee _ _ _ ih ih' =>
    intro A ready named
    obtain ⟨A₁, reached, known⟩ := ih A ready named
    obtain ⟨A₂, reached', result⟩ := ih' A₁ reached.ready known
    exact ⟨A₂, reached.trans reached', result⟩
  | direct _ _ _ _ ih => exact ih
  | site _ _ several _ _ ih =>
    intro A ready known
    obtain ⟨A₁, reached, result⟩ := Judgement.reaches_alternatives several ih ready known
    obtain ⟨A₂, joined, -, after⟩ := reached.ready.mark _ .join rfl rfl rfl (by simp)
    exact ⟨A₂, reached.trans joined, fun x wanted => by simpa [after] using result x wanted⟩
  | deadSite _ _ several _ ih =>
    exact fun A ready known => Judgement.reaches_alternatives several ih ready known
  | noAlternative =>
    intro A ready known
    exact ⟨A, ready.refl.leaving _ (by simp) (by simp [DefiniteAssignment.available]),
      by simp [DefiniteAssignment.available], by simp⟩
  | someAlternatives _ _ ih ih' => exact Judgement.sound_someAlternatives ih ih'
  | inline _ _ returned ih ih' => exact Judgement.sound_inline ih ih' returned
  | noParam => exact fun A ready named _ => ⟨A, ready.refl, named⟩
  | storeParam declared _ ih =>
    intro A ready named known
    have contained := known _ (List.mem_cons_self)
    exact ih A ready (named.declare_store contained declared)
      fun pair member => known pair (List.mem_cons_of_mem _ member)
  | valueParam declared _ ih => exact Judgement.sound_valueParam declared ih

end ThreatModel
