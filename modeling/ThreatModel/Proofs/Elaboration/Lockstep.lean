import Mathlib
import ThreatModel.Proofs.Elaboration.Widening

set_option autoImplicit false

namespace ThreatModel

variable {D : Declarations} {P Q : Pairing} {ctx ctx' : Context} {scope scope' : Scope}
  {b b₁ b' b₁' : Build}

structure Flows (common : Set String) (P : Pairing) (b : Build) (flow : Flow) (b' : Build)
    (flow' : Flow) : Prop extends Meets common P b flow.ends b' flow'.ends where
  returns : Graph.Pool P.places b'.graph flow.returns flow'.returns
  scope : P.Scopes flow.scope flow'.scope

structure Tries (common : Set String) (P : Pairing) (b : Build) (sofar : Arms) (b' : Build)
    (sofar' : Arms) : Prop extends Paired common P b b' where
  ends : Graph.Pool P.places b'.graph sofar.ends sofar'.ends
  returns : Graph.Pool P.places b'.graph sofar.returns sofar'.returns
  taken : P.Groups sofar.taken sofar'.taken

structure Stand (P : Pairing) (b : Build) (i : Nat) (b' : Build) (i' : Nat) : Prop where
  placed : P.places[i]? = some i'
  several : b.graph.Branches i
  several' : b'.graph.Branches i'

def Graph.IsSite (g : Graph) (i : Nat) : Prop :=
  ∃ node f, g.node? i = some node ∧ node.action = .callSite f

def Judgement.Widened (D : Declarations) : Judgement → Prop
  | .command c ctx flow b flow₁ b₁ => ∀ P ctx' flow' b' flow₁' b₁', ctx.Widens D P ctx' →
      Flows D.shared P b flow b' flow' → Elaborates (.command c ctx' flow' b' flow₁' b₁') →
      ∃ Q, P.Onward b' Q b₁' ∧ Flows D.shared Q b₁ flow₁ b₁' flow₁'
  | .sequence cs i ctx flow b flow₁ b₁ => ∀ P ctx' flow' b' flow₁' b₁', ctx.Widens D P ctx' →
      Flows D.shared P b flow b' flow' → Elaborates (.sequence cs i ctx' flow' b' flow₁' b₁') →
      ∃ Q, P.Onward b' Q b₁' ∧ Flows D.shared Q b₁ flow₁ b₁' flow₁'
  | .bind x value ctx flow b flow₁ b₁ => ∀ P ctx' flow' b' flow₁' b₁', ctx.Widens D P ctx' →
      Flows D.shared P b flow b' flow' → Elaborates (.bind x value ctx' flow' b' flow₁' b₁') →
      ∃ Q, P.Onward b' Q b₁' ∧ Flows D.shared Q b₁ flow₁ b₁' flow₁'
  | .arms as i ctx choice scope sofar b out b₁ =>
    ∀ P ctx' choice' scope' sofar' b' out' b₁', ctx.Widens D P ctx' →
    Tries D.shared P b sofar b' sofar' → Stand P b choice b' choice' → P.Scopes scope scope' →
    Elaborates (.arms as i ctx' choice' scope' sofar' b' out' b₁') →
    ∃ Q, P.Onward b' Q b₁' ∧ Tries D.shared Q b₁ out b₁' out'
  | .term e ctx scope ends b t ends₁ b₁ => ∀ P ctx' scope' ends' b' t' ends₁' b₁',
      ctx.Widens D P ctx' → Meets D.shared P b ends b' ends' → P.Scopes scope scope' →
      Elaborates (.term e ctx' scope' ends' b' t' ends₁' b₁') →
      ∃ Q, P.Onward b' Q b₁' ∧ Meets D.shared Q b₁ ends₁ b₁' ends₁' ∧ Q.Terms t t'
  | .terms es ctx scope ends b ts ends₁ b₁ => ∀ P ctx' scope' ends' b' ts' ends₁' b₁',
      ctx.Widens D P ctx' → Meets D.shared P b ends b' ends' → P.Scopes scope scope' →
      Elaborates (.terms es ctx' scope' ends' b' ts' ends₁' b₁') →
      ∃ Q, P.Onward b' Q b₁' ∧ Meets D.shared Q b₁ ends₁ b₁' ends₁' ∧ Q.TermLists ts ts'
  | .arguments es ctx scope ends b args ends₁ b₁ => ∀ P ctx' scope' ends' b' args' ends₁' b₁',
      ctx.Widens D P ctx' → Meets D.shared P b ends b' ends' → P.Scopes scope scope' →
      Elaborates (.arguments es ctx' scope' ends' b' args' ends₁' b₁') →
      ∃ Q, P.Onward b' Q b₁' ∧ Meets D.shared Q b₁ ends₁ b₁' ends₁' ∧
        List.Forall₂ Q.Arguments args args'
  | .call f args ctx scope ends result b ends₁ b₁ => ∀ P ctx' scope' ends' result' b' ends₁' b₁',
      ctx.Widens D P ctx' → Meets D.shared P b ends b' ends' → P.Scopes scope scope' →
      P.Results result result' →
      Elaborates (.call f args ctx' scope' ends' result' b' ends₁' b₁') →
      ∃ Q, P.Onward b' Q b₁' ∧ Meets D.shared Q b₁ ends₁ b₁' ends₁'
  | .invoke d args ctx ends result b ends₁ b₁ => ∀ P args' ctx' ends' result' b' ends₁' b₁',
      ctx.Widens D P ctx' → Meets D.shared P b ends b' ends' → List.Forall₂ P.Arguments args args' →
      P.Results result result' → Elaborates (.invoke d args' ctx' ends' result' b' ends₁' b₁') →
      ∃ Q, P.Onward b' Q b₁' ∧ Meets D.shared Q b₁ ends₁ b₁' ends₁'
  | .inlined d args ctx ends result b ends₁ b₁ => ∀ P args' ctx' ends' result' b' ends₁' b₁',
      ctx.Widens D P ctx' → Meets D.shared P b ends b' ends' → List.Forall₂ P.Arguments args args' →
      P.Results result result' → Elaborates (.inlined d args' ctx' ends' result' b' ends₁' b₁') →
      ∃ Q, P.Onward b' Q b₁' ∧ Meets D.shared Q b₁ ends₁ b₁' ends₁'
  | .alternatives plan args ctx result site b out b₁ =>
    ∀ P plan' args' ctx' result' site' b' out' b₁', plan.Sublist plan' → ctx.Widens D P ctx' →
    Paired D.shared P b b' → Stand P b site b' site' → b'.graph.IsSite site' →
    List.Forall₂ P.Arguments args args' → P.Results result result' →
    Elaborates (.alternatives plan' args' ctx' result' site' b' out' b₁') →
    ∃ Q, P.Onward b' Q b₁' ∧ Paired D.shared Q b₁ b₁' ∧ Graph.Pool Q.places b₁'.graph out out'
  | .params pairs ctx scope ends b scope₁ ends₁ b₁ =>
    ∀ P pairs' ctx' scope' ends' b' scope₁' ends₁' b₁', ctx.Widens D P ctx' →
    Meets D.shared P b ends b' ends' → P.Scopes scope scope' →
    List.Forall₂ (fun p p' => p.1 = p'.1 ∧ P.Arguments p.2 p'.2) pairs pairs' →
    Elaborates (.params pairs' ctx' scope' ends' b' scope₁' ends₁' b₁') →
    ∃ Q, P.Onward b' Q b₁' ∧ Meets D.shared Q b₁ ends₁ b₁' ends₁' ∧ Q.Scopes scope₁ scope₁'

namespace Graph

variable {g g' : Graph} {i : Nat}

theorem Appends.branches (app : g.Appends g') (several : g.Branches i) : g'.Branches i := by
  obtain ⟨node, found, branches⟩ := several
  obtain ⟨node', there, action⟩ := app.node? found
  exact ⟨node', there, by rw [action, branches]⟩

theorem IsSite.branches (isSite : g.IsSite i) : g.Branches i := by
  obtain ⟨node, f, found, action⟩ := isSite
  exact ⟨node, found, by rw [action]; rfl⟩

theorem Appends.isSite (app : g.Appends g') (isSite : g.IsSite i) : g'.IsSite i := by
  obtain ⟨node, f, found, action⟩ := isSite
  obtain ⟨node', there, same⟩ := app.node? found
  exact ⟨node', f, there, by rw [same, action]⟩

theorem IsSite.extends {ends : List Nat} (isSite : g.IsSite i) (threads : g.Threads [i] g' ends) :
    g.Extends g' := by
  refine threads.toGrows.extends fun e member node found => ?_
  obtain rfl := List.mem_singleton.mp member
  obtain ⟨node', f, found', action⟩ := isSite
  obtain rfl := Option.some.inj (found.symm.trans found')
  simp [action]

theorem Pool.more {places ends ends' ends'' : List Nat} (pool : Pool places g ends ends')
    (more : ends' ⊆ ends'') : Pool places g ends ends'' := by
  intro e member
  obtain ⟨b, among, rest⟩ := pool e member
  exact ⟨b, more among, rest⟩

end Graph

theorem Pairing.Onward.append (P : Pairing) (ctx : Context) (action : Action) {ends : Ends}
    (inside : ∀ e ∈ ends, e < b.graph.size) :
    P.Onward b (P.place b.graph.size) (b.append ctx action ends) :=
  .place P _ (Graph.Grows.append _ rfl inside).appends

theorem Pairing.onward_connect (P : Pairing) {source : Nat} (target : Nat)
    (free : b.graph.Open source) : P.Onward b P (b.connect source target) :=
  .alone P (Graph.extends_connect target free).appends

namespace Meets

variable {common : Set String} {ends ends' : Ends}

theorem onward (meets : Meets common P b ends b' ends') (ctx : Context) (action : Action) :
    P.Onward b' (P.place b'.graph.size) (b'.append ctx action ends') :=
  .append P ctx action fun e member => (meets.free' e member).inside

theorem read (meets : Meets common P b ends b' ends') (onward : P.Onward b' Q b₁')
    (paired : Paired common Q b₁ b₁') (same : b₁.graph = b.graph) (same' : b₁'.graph = b'.graph) :
    Meets common Q b₁ ends b₁' ends' where
  toPaired := paired
  pool := onward.pool meets.pool
  free := by simpa only [same] using meets.free
  free' := by simpa only [same'] using meets.free'

theorem takeVar (apart : Untaken common) (meets : Meets common P b ends b' ends') (x : String) :
    Meets common (P.bind (b.varFor x) (b'.varFor x)) (b.takeVar x) ends (b'.takeVar x) ends' :=
  meets.read (.bind P _ _ (.refl _)) (meets.toPaired.takeVar apart x) rfl rfl

theorem takeNonce (meets : Meets common P b ends b' ends') :
    Meets common (P.draw b.nextNonce b'.nextNonce) b.takeNonce ends b'.takeNonce ends' :=
  meets.read (.draw P _ _ (.refl _)) meets.toPaired.takeNonce rfl rfl

end Meets

theorem Pairing.onward_takeVar (P : Pairing) (b b' : Build) (x : String) :
    P.Onward b' (P.bind (b.varFor x) (b'.varFor x)) (b'.takeVar x) :=
  .bind P _ _ (.refl _)

theorem Pairing.bound_bind (P : Pairing) (x x' : String) :
    (P.bind x x').Bindings (.value x) (.value x') := List.mem_cons_self

theorem Stand.onward {i i' : Nat} (stand : Stand P b i b' i') (onward : P.Onward b' Q b₁')
    (grown : b.graph.Appends b₁.graph) : Stand Q b₁ i b₁' i' :=
  ⟨onward.at_place stand.placed, grown.branches stand.several, onward.graph.branches stand.several'⟩

theorem Meets.flows {common : Set String} {ends ends' returns returns' : Ends}
    (meets : Meets common P b ends b' ends')
    (returned : Graph.Pool P.places b'.graph returns returns') (scopes : P.Scopes scope scope') :
    Flows common P b { ends, scope, returns } b'
      { ends := ends', scope := scope', returns := returns' } :=
  ⟨meets, returned, scopes⟩

namespace Pairing

theorem alike_assign {x x' : String} {t t' : Term} (pair : (x, x') ∈ P.vars) (terms : P.Terms t t') :
    P.Alike (.assign x t) (.assign x' t') := by
  intro ρ f respects
  simp [Action.recast, Action.unnumbered, respects.vars _ pair, terms ρ f respects]

theorem alike_fresh (P : Pairing) (x x' : String) (n n' : Nat) :
    ((P.bind x x').draw n n').Alike (.fresh x n) (.fresh x' n') := by
  intro ρ f respects
  have var := respects.vars _ List.mem_cons_self
  have nonce := respects.nonces _ List.mem_cons_self
  simp_all [Action.recast, Action.unnumbered]

theorem alike_guard {cs cs' : List Condition} {groups groups' : List (List Condition)}
    (conditions : P.Conditions cs cs') (taken : P.Groups groups groups') :
    P.Alike (.guard cs groups) (.guard cs' groups') := by
  intro ρ f respects
  simp [Action.recast, Action.unnumbered, conditions ρ f respects, taken ρ f respects]

theorem alike_node (action : StoreAction) (store : String) {t t' : Term} {binds binds' : List String}
    (terms : P.Terms t t') (bound : ∀ ρ f, P.Respects ρ f → binds.map ρ = binds') :
    P.Alike (action.node store t binds) (action.node store t' binds') := by
  intro ρ f respects
  cases action <;>
    simp [StoreAction.node, Action.recast, Action.unnumbered, terms ρ f respects,
      bound ρ f respects]

theorem zip_arguments {args args' : List Argument} (alike : List.Forall₂ P.Arguments args args')
    (names : List String) : List.Forall₂ (fun p p' => p.1 = p'.1 ∧ P.Arguments p.2 p'.2)
      (names.zip args) (names.zip args') := by
  induction alike generalizing names with
  | nil => simp
  | cons same _ ih =>
    cases names with
    | nil => exact .nil
    | cons x names => exact .cons ⟨rfl, same⟩ (ih names)

theorem Groups.concat {groups groups' : List (List Condition)} {group group' : List Condition}
    (taken : P.Groups groups groups') (conditions : P.Conditions group group') :
    P.Groups (groups ++ [group]) (groups' ++ [group']) := by
  intro ρ f respects
  simp [taken ρ f respects, conditions ρ f respects]

end Pairing

theorem Meets.assign {common : Set String} {ends ends' : Ends} (apart : Untaken common)
    (meets : Meets common P b ends b' ends') (ctx ctx' : Context) (x : String) {t t' : Term}
    (terms : P.Terms t t') : ∃ Q,
    P.Onward b' Q ((b'.takeVar x).append ctx' (.assign (b'.varFor x) t') ends') ∧
      Meets common Q ((b.takeVar x).append ctx (.assign (b.varFor x) t) ends) [b.graph.size]
        ((b'.takeVar x).append ctx' (.assign (b'.varFor x) t') ends') [b'.graph.size] ∧
      Q.Bindings (.value (b.varFor x)) (.value (b'.varFor x)) := by
  have taking := P.onward_takeVar b b' x
  have bound := P.bound_bind (b.varFor x) (b'.varFor x)
  have taken := meets.takeVar apart x
  have drawing := taken.onward ctx' (.assign (b'.varFor x) t')
  exact ⟨_, taking.trans drawing, taken.append ctx ctx' rfl rfl
    (Pairing.alike_assign bound (taking.terms terms)), drawing.bindings bound⟩

namespace Elaborates

variable {flow flow₁ : Flow} {ends out : Ends} {result : Option String} {args : List Argument}

theorem command_appends {c : Command} (derived : Elaborates (.command c ctx flow b flow₁ b₁))
    (free : ∀ e ∈ flow.ends, b.graph.Open e) : b.graph.Appends b₁.graph := by
  obtain ⟨returned, -, threads, -⟩ := derived.threads free
  exact threads.toGrows.appends

theorem arms_appends {as : List Arm} {i choice : Nat} {sofar out : Arms}
    (derived : Elaborates (.arms as i ctx choice scope sofar b out b₁))
    (several : b.graph.Branches choice) : b.graph.Appends b₁.graph := by
  obtain ⟨ends, returned, -, -, threads, -⟩ := derived.threads several
  exact threads.toGrows.appends

theorem alone {plan : List Callables.Alternative} {site : Nat}
    (derived : Elaborates (.alternatives plan args ctx result site b out b₁))
    (isSite : b.graph.IsSite site) :
    b.graph.Extends b₁.graph ∧ b.Counts b₁ ∧ ∀ e ∈ out, b₁.graph.Open e := by
  obtain ⟨threads, -⟩ := derived.threads isSite.branches
  exact ⟨isSite.extends threads, derived.counts, threads.free⟩

end Elaborates

theorem Paired.last_placed {common : Set String} (paired : Paired common P b b') (n : Nat) :
    (P.place n).places[b.graph.size]? = some n := by
  simp [Pairing.place, ← paired.laid.length]

theorem Flows.choose {common : Set String} {flow flow' : Flow}
    (flows : Flows common P b flow b' flow') (ctx ctx' : Context) :
    P.Onward b' (P.place b'.graph.size) (b'.append ctx' .choice flow'.ends) ∧
      Tries common (P.place b'.graph.size) (b.append ctx .choice flow.ends)
        { returns := flow.returns } (b'.append ctx' .choice flow'.ends)
        { returns := flow'.returns } ∧
      Stand (P.place b'.graph.size) (b.append ctx .choice flow.ends) b.graph.size
        (b'.append ctx' .choice flow'.ends) b'.graph.size := by
  have onward := flows.onward ctx' .choice
  refine ⟨onward, ⟨.branch flows.toMeets ctx ctx' fun _ _ _ => rfl, .nil, onward.pool flows.returns,
    fun _ _ _ => rfl⟩, flows.last_placed _, ?_, ?_⟩
  · exact b.branches_append ctx .choice rfl flows.free
  · exact b'.branches_append ctx' .choice rfl flows.free'

namespace Judgement

variable {flow flow₁ : Flow} {ends ends₁ : Ends} {result : Option String} {args : List Argument}
  {b₂ : Build} {as : List Arm} {out : Arms} {body : Command} {comparisons : List Comparison}
  {x : String} {loc : Option Location} {t : Term} {e : Expr} {plan : List Callables.Alternative}
  {d : Definition}

theorem widened_branch (derived : Elaborates (.choosing as ctx flow b out b₁))
    (arms : (Judgement.choosing as ctx flow b out b₁).Widened D) :
    (branch as ctx flow b out b₁).Widened D := by
  intro P ctx' flow' b' flow₁' b₁' widens flows derived'
  have free := (Elaborates.branch derived).command_free flows.free
  have free' := derived'.command_free flows.free'
  cases derived' with
  | branch arms' =>
    obtain ⟨onward, tries, stand⟩ := flows.choose ctx ctx'
    obtain ⟨Q, onward', tries⟩ := arms _ _ _ _ _ _ _ _ (widens.onward onward) tries stand
      (onward.scopes flows.scope) arms'
    have onward := onward.trans onward'
    exact ⟨Q, onward, ⟨tries.toPaired, tries.ends, free, free'⟩, tries.returns,
      onward.scopes flows.scope⟩

theorem widened_loop {inner : Flow} (ran : Elaborates (.repetition body ctx flow b inner b₁))
    (tried : Elaborates (.choosing as (ctx.enter "until") inner b₁ out b₂))
    (repeated : (repetition body ctx flow b inner b₁).Widened D)
    (arms : (Judgement.choosing as (ctx.enter "until") inner b₁ out b₂).Widened D) :
    (loop body as ctx flow b b₁ out b₂).Widened D := by
  intro P ctx' flow' b' flow₁' b₁' widens flows derived'
  have free := (Elaborates.loop ran tried).command_free flows.free
  have free' := derived'.command_free flows.free'
  cases derived' with
  | @loop _ _ _ _ inner' _ b₁' b₂' out' repeated' arms' =>
    have head := flows.onward ctx' .loopHead
    have same : P.Alike .loopHead .loopHead := fun _ _ _ => rfl
    have opened := flows.toMeets.append ctx ctx' rfl rfl same
    obtain ⟨Q, through, flows₁⟩ := repeated _ _ _ _ _ _ ((widens.onward head).enter _ _)
      (opened.flows (head.pool flows.returns) (head.scopes flows.scope).child) repeated'
    have onward := head.trans through
    obtain ⟨choosing, tries, stand⟩ := flows₁.choose (ctx.enter "until") (ctx'.enter "until")
    obtain ⟨R, leaving, tries⟩ := arms _ _ _ _ _ _ _ _
      ((widens.onward (onward.trans choosing)).enter _ _) tries stand
      (choosing.scopes flows₁.scope) arms'
    have stand := stand.onward leaving (tried.arms_appends stand.several)
    -- From the choice control may go back to the head.
    have nothing : R.Conditions [] [] := fun _ _ _ => rfl
    have again := tries.toPaired.draw (ctx.enter "again") (ctx'.enter "again") stand.placed
      stand.several stand.several' rfl rfl (Pairing.alike_guard nothing tries.taken)
    have drawing : R.Onward b₂' (R.place b₂'.graph.size) (b₂'.append (ctx'.enter "again")
        (.guard [] out'.taken) [b₁'.graph.size]) :=
      .append R _ _ (by simpa using stand.several'.inside)
    have onward := (onward.trans choosing).trans (leaving.trans drawing)
    have reached := ((through.trans choosing).trans (leaving.trans drawing)).at_place
      (flows.last_placed b'.graph.size)
    have closed := again.toPaired.connect (again.free _ (by simp)) (again.free' _ (by simp))
      (tries.last_placed _) reached
    have closing := (R.place b₂'.graph.size).onward_connect b'.graph.size
      (again.free' b₂'.graph.size (by simp))
    have onward := onward.trans closing
    exact ⟨_, onward, ⟨closed, (drawing.trans closing).pool tries.ends, free, free'⟩,
      (drawing.trans closing).pool tries.returns, onward.scopes flows.scope⟩

theorem widened_dropArm (apart : Untaken D.shared) {i choice : Nat} {sofar : Arms} {text : String}
    (never : (ctx.enter s!"arm{i}").conditions scope comparisons b = .ok (none, b₁))
    (rest : (arms as (i + 1) ctx choice scope sofar (b₁.note (ctx.enter s!"arm{i}") text) out
      b₂).Widened D) :
    (arms (.guarded comparisons body :: as) i ctx choice scope sofar b out b₂).Widened D := by
  intro P ctx' choice' scope' sofar' b' out' b₂' widens tries stand scopes derived'
  cases derived' with
  | takeArm guarded' =>
    obtain ⟨Q, -, -, groups⟩ :=
      (widens.enter _ _).conditions apart tries.toPaired scopes never guarded'
    cases groups
  | @dropArm _ _ _ _ _ _ _ _ _ _ b₁' _ text' never' rest' =>
    obtain ⟨Q, reading, paired, -⟩ :=
      (widens.enter _ _).conditions apart tries.toPaired scopes never never'
    have same : b.graph.Appends b₁.graph :=
      (Context.reads_conditions never).graph ▸ .refl _
    have stand := stand.onward reading same
    have noting : Q.Onward b₁' Q (b₁'.note (ctx'.enter s!"arm{i}") text') := .alone Q (.refl _)
    have onward := reading.trans noting
    obtain ⟨R, trying, tries⟩ := rest _ _ _ _ _ _ _ _ (widens.onward onward)
      ⟨paired.annotate _ _ b₁.events b₁'.events, onward.pool tries.ends,
        onward.pool tries.returns, onward.groups tries.taken⟩
      (stand.onward noting (.refl _)) (onward.scopes scopes) rest'
    exact ⟨R, onward.trans trying, tries⟩

theorem widened_takeArm (apart : Untaken D.shared) {i choice : Nat} {sofar : Arms} {b₃ : Build}
    {group : List Condition} {inner : Flow}
    (guarded : (ctx.enter s!"arm{i}").conditions scope comparisons b = .ok (some group, b₁))
    (ran : Elaborates (.guarded body i ctx choice scope sofar group b₁ inner b₂))
    (chosen : (Judgement.guarded body i ctx choice scope sofar group b₁ inner b₂).Widened D)
    (rest : (remaining as i ctx choice scope sofar group inner b₂ out b₃).Widened D) :
    (arms (.guarded comparisons body :: as) i ctx choice scope sofar b out b₃).Widened D := by
  intro P ctx' choice' scope' sofar' b' out' b₃' widens tries stand scopes derived'
  cases derived' with
  | dropArm never' rest' =>
    obtain ⟨Q, -, -, groups⟩ :=
      (widens.enter _ _).conditions apart tries.toPaired scopes guarded never'
    cases groups
  | @takeArm _ _ _ _ _ _ _ _ _ _ b₁' b₂' _ group' inner' guarded' chosen' rest' =>
    obtain ⟨Q, reading, paired, groups⟩ :=
      (widens.enter _ _).conditions apart tries.toPaired scopes guarded guarded'
    cases groups with
    | some group =>
      have same : b.graph.Appends b₁.graph :=
        (Context.reads_conditions guarded).graph ▸ .refl _
      have stand := stand.onward reading same
      have entered := paired.draw (ctx.enter s!"arm{i}") (ctx'.enter s!"arm{i}") stand.placed
        stand.several stand.several' rfl rfl
        (Pairing.alike_guard group (reading.groups tries.taken))
      have drawing : Q.Onward b₁' (Q.place b₁'.graph.size) (b₁'.append (ctx'.enter s!"arm{i}")
          (.guard group' sofar'.taken) [choice']) :=
        .append Q _ _ (by simpa using stand.several'.inside)
      have onward := reading.trans drawing
      obtain ⟨R, running, flows⟩ := chosen _ _ _ _ _ _ ((widens.onward onward).enter _ _)
        (entered.flows (onward.pool tries.returns) (onward.scopes scopes).child) chosen'
      have onward := onward.trans running
      have grown := (b₁.threads_draw (ctx.enter s!"arm{i}") (.guard _ sofar.taken) rfl
        stand.several).toGrows.appends.trans (ran.command_appends entered.free)
      have later := drawing.trans running
      obtain ⟨S, trying, tries⟩ := rest _ _ _ _ _ _ _ _ (widens.onward onward)
        ⟨flows.toPaired, (onward.pool tries.ends).append flows.pool, flows.returns,
          (onward.groups tries.taken).concat fun ρ f respects =>
            group ρ f (later.respects respects)⟩
        (stand.onward later grown) (onward.scopes scopes) rest'
      exact ⟨S, onward.trans trying, tries⟩

theorem widened_new (apart : Untaken D.shared)
    (declared : flow.scope.declare x (.value (b.varFor x)) = .ok scope) :
    (command (.new x) ctx flow b { flow with ends := [b.graph.size], scope }
      ((b.takeVar x).takeNonce.append ctx (.fresh (b.varFor x) b.nextNonce) flow.ends)).Widened
        D := by
  intro P ctx' flow' b' flow₁' b₁' widens flows derived'
  cases derived' with
  | new declared' =>
    have taken := (flows.toMeets.takeVar apart x).takeNonce
    have counting : (P.bind (b.varFor x) (b'.varFor x)).Onward (b'.takeVar x)
        ((P.bind (b.varFor x) (b'.varFor x)).draw b.nextNonce b'.nextNonce)
        (b'.takeVar x).takeNonce := .draw _ _ _ (.refl _)
    have later := counting.trans (taken.onward ctx' (.fresh (b'.varFor x) b'.nextNonce))
    have onward := (P.onward_takeVar b b' x).trans later
    have bound := later.bindings (P.bound_bind (b.varFor x) (b'.varFor x))
    have alike := P.alike_fresh (b.varFor x) (b'.varFor x) b.nextNonce b'.nextNonce
    exact ⟨_, onward, (taken.append ctx ctx' rfl rfl alike).flows (onward.pool flows.returns)
      ((onward.scopes flows.scope).declare bound declared declared')⟩

theorem widened_emit {event : EventExpr} {ts : List Term}
    (each : (terms event.args ctx flow.scope flow.ends b ts ends b₁).Widened D) :
    (command (.emit event) ctx flow b { flow with ends := [b₁.graph.size] }
      ((b₁.append ctx (.emit (.app event.tag ts) b₁.events.length) ends).addEvent
        { owner := ctx.owner, index := b₁.events.length, node := b₁.graph.size, tag := event.tag,
          arity := ts.length, term := .app event.tag ts })).Widened D := by
  intro P ctx' flow' b' flow₁' b₁' widens flows derived'
  cases derived' with
  | @emit _ _ _ _ b₁' ts' ends' each' =>
    obtain ⟨Q, onward, meets, terms⟩ := each _ _ _ _ _ _ _ _ widens flows.toMeets flows.scope each'
    have alike : Q.Alike (.emit (.app event.tag ts) b₁.events.length)
        (.emit (.app event.tag ts') b₁'.events.length) := by
      intro ρ f respects
      simp only [Action.recast, Action.unnumbered, terms.app event.tag ρ f respects]
    have emitted := meets.append ctx ctx' rfl rfl alike
    have onward :=
      onward.trans (meets.onward ctx' (.emit (.app event.tag ts') b₁'.events.length))
    exact ⟨_, ⟨onward.places, onward.vars, onward.nonces, onward.graph⟩,
      ⟨emitted.annotate _ _ _ _, emitted.pool, emitted.free, emitted.free'⟩,
      onward.pool flows.returns, onward.scopes flows.scope⟩

theorem widened_put {action : StoreAction} {target : String} {store : StoreDecl}
    (puts : action = .insert ∨ action = .remove)
    (resolved : ctx.resolveStore flow.scope target b = .ok (store, b))
    (value : (term e ctx flow.scope flow.ends b t ends b₁).Widened D) :
    (command (.store action target e loc) ctx flow b { flow with ends := [b₁.graph.size] }
      (b₁.append ctx (action.node store.name t []) ends)).Widened D := by
  intro P ctx' flow' b' flow₁' b₁' widens flows derived'
  cases derived' with
  | @put _ _ _ _ _ _ _ _ _ t' _ _ resolved' _ value' =>
    obtain ⟨Q, onward, meets, terms⟩ :=
      value _ _ _ _ _ _ _ _ widens flows.toMeets flows.scope value'
    obtain rfl := widens.resolveStore flows.scope resolved resolved'
    have onward := onward.trans (meets.onward ctx' (action.node store.name t' []))
    exact ⟨_, onward, (meets.append _ ctx' (StoreAction.branches_node ..)
      (StoreAction.branches_node ..) (Pairing.alike_node _ _ terms fun _ _ _ => rfl)).flows
        (onward.pool flows.returns) (onward.scopes flows.scope)⟩
  | take takes' => rcases puts with rfl | rfl <;> rcases takes' with h | h <;> cases h

theorem widened_take (apart : Untaken D.shared) {action : StoreAction} {target : String}
    {store : StoreDecl} {pattern : Term} {binds : Table String String}
    (takes : action = .consume ∨ action = .read)
    (resolved : ctx.resolveStore flow.scope target b = .ok (store, b))
    (read : ctx.plain flow.scope true e .empty b = .ok ((pattern, binds), b₁))
    (declared : ctx.declareAll flow.scope binds.entries
      (b₁.append ctx (action.node store.name pattern binds.values) flow.ends) = .ok (scope,
        b₁.append ctx (action.node store.name pattern binds.values) flow.ends)) :
    (command (.store action target e loc) ctx flow b { flow with ends := [b₁.graph.size], scope }
      (b₁.append ctx (action.node store.name pattern binds.values) flow.ends)).Widened D := by
  intro P ctx' flow' b' flow₁' b₁' widens flows derived'
  cases derived' with
  | put puts' => rcases takes with rfl | rfl <;> rcases puts' with h | h <;> cases h
  | @take _ _ _ _ _ _ _ _ _ pattern' binds' _ _ resolved' _ read' declared' =>
    obtain rfl := widens.resolveStore flows.scope resolved resolved'
    obtain ⟨Q, reading, paired, terms, binds⟩ :=
      Context.Widens.plain apart widens flows.toPaired flows.scope .nil read read'
    have meets := flows.toMeets.read reading paired
      (Context.reads_plain read).graph (Context.reads_plain read').graph
    have drawing := meets.onward ctx' (action.node store.name pattern' binds'.values)
    have onward := reading.trans drawing
    exact ⟨_, onward, (meets.append _ ctx' (StoreAction.branches_node ..)
      (StoreAction.branches_node ..)
      (Pairing.alike_node _ _ terms fun _ _ respects => binds.values respects)).flows
        (onward.pool flows.returns) (drawing.scopes
          (Context.Widens.declareAll (reading.scopes flows.scope) binds declared declared'))⟩

theorem widened_retValue (result : ctx.frame.result = some x)
    (value : (term e ctx flow.scope flow.ends b t ends b₁).Widened D) :
    (command (.ret e loc) ctx flow b
      { flow with ends := [], returns := flow.returns ++ [b₁.graph.size] }
      (b₁.append ctx (.assign x t) ends)).Widened D := by
  intro P ctx' flow' b' flow₁' b₁' widens flows derived'
  have link := widens.result
  cases derived' with
  | @retValue _ _ _ _ _ _ t' _ x' _ result' value' =>
    obtain ⟨Q, onward, meets, terms⟩ :=
      value _ _ _ _ _ _ _ _ widens flows.toMeets flows.scope value'
    rw [result, result'] at link
    cases link with
    | some pair =>
      have returned := meets.append ctx ctx' rfl rfl
        (Pairing.alike_assign (onward.vars pair) terms)
      have onward := onward.trans (meets.onward ctx' (.assign x' t'))
      exact ⟨_, onward, ⟨returned.toPaired, .nil, by simp, by simp⟩,
        (onward.pool flows.returns).append returned.pool, onward.scopes flows.scope⟩
  | retNothing _ result' =>
    rw [result, result'] at link
    cases link

theorem widened_retNothing (result : ctx.frame.result = none)
    (value : (term e ctx flow.scope flow.ends b t ends b₁).Widened D) :
    (command (.ret e loc) ctx flow b { flow with ends := [], returns := flow.returns ++ ends }
      b₁).Widened D := by
  intro P ctx' flow' b' flow₁' b₁' widens flows derived'
  have link := widens.result
  cases derived' with
  | retValue _ result' =>
    rw [result, result'] at link
    cases link
  | retNothing _ _ value' =>
    obtain ⟨Q, onward, meets, -⟩ := value _ _ _ _ _ _ _ _ widens flows.toMeets flows.scope value'
    exact ⟨Q, onward, ⟨meets.toPaired, .nil, by simp, by simp⟩,
      (onward.pool flows.returns).append meets.pool, onward.scopes flows.scope⟩

theorem widened_bindCall (apart : Untaken D.shared) {f : String} {args : List Expr}
    (callable : (!ctx.decls.theory.hasSymbol f && ctx.decls.callables.contains f) = true)
    (called : (call f args ctx flow.scope flow.ends (some (b.varFor x)) (b.takeVar x) ends
      b₁).Widened D)
    (declared : flow.scope.declare x (.value (b.varFor x)) = .ok scope) :
    (bind x (.apply f args loc) ctx flow b { flow with ends, scope } b₁).Widened D := by
  intro P ctx' flow' b' flow₁' b₁' widens flows derived'
  cases derived' with
  | bindCall _ _ called' declared' =>
    have taking := P.onward_takeVar b b' x
    have bound := P.bound_bind (b.varFor x) (b'.varFor x)
    have scopes := taking.scopes flows.scope
    obtain ⟨Q, onward, meets⟩ := called _ _ _ _ _ _ _ _ (widens.onward taking)
      (flows.toMeets.takeVar apart x) scopes (.some bound) called'
    exact ⟨Q, taking.trans onward, meets.flows ((taking.trans onward).pool flows.returns)
      (onward.scopes (scopes.declare bound declared declared'))⟩
  | bindTerm _ uncalled' =>
    have uncalled := uncalled' _ _ _ rfl
    rw [widens.callable, callable] at uncalled
    cases uncalled

theorem widened_bindTerm (apart : Untaken D.shared) {value : Expr}
    (uncalled : ∀ f args loc, value = .apply f args loc →
      (!ctx.decls.theory.hasSymbol f && ctx.decls.callables.contains f) = false)
    (evaluated : (term value ctx flow.scope flow.ends b t ends b₁).Widened D)
    (declared : flow.scope.declare x (.value (b₁.varFor x)) = .ok scope) :
    (bind x value ctx flow b { flow with ends := [b₁.graph.size], scope }
      ((b₁.takeVar x).append ctx (.assign (b₁.varFor x) t) ends)).Widened D := by
  intro P ctx' flow' b' flow₁' b₁' widens flows derived'
  cases derived' with
  | bindCall _ callable' =>
    rw [widens.callable, uncalled _ _ _ rfl] at callable'
    cases callable'
  | bindTerm _ _ evaluated' declared' =>
    obtain ⟨Q, onward, meets, terms⟩ :=
      evaluated _ _ _ _ _ _ _ _ widens flows.toMeets flows.scope evaluated'
    obtain ⟨R, assigning, assigned, bound⟩ := meets.assign apart ctx ctx' x terms
    have onward := onward.trans assigning
    exact ⟨R, onward, assigned.flows (onward.pool flows.returns)
      ((onward.scopes flows.scope).declare bound declared declared')⟩

theorem widened_callTerm (apart : Untaken D.shared) {f : String} {args : List Expr}
    (free : ctx.decls.theory.symbols.find? f = none)
    (called : (call f args ctx scope ends (some (b.varFor s!"{f}$ret")) (b.takeVar s!"{f}$ret")
      ends₁ b₁).Widened D) :
    (term (.apply f args loc) ctx scope ends b (.var (b.varFor s!"{f}$ret")) ends₁ b₁).Widened
      D := by
  intro P ctx' scope' ends' b' t' ends₁' b₁' widens meets scopes derived'
  cases derived' with
  | symbol arity' =>
    rw [widens.wider.theory, ← widens.decls, free] at arity'
    cases arity'
  | callTerm _ _ called' =>
    have taking := P.onward_takeVar b b' s!"{f}$ret"
    have bound := P.bound_bind (b.varFor s!"{f}$ret") (b'.varFor s!"{f}$ret")
    obtain ⟨Q, onward, meets⟩ := called _ _ _ _ _ _ _ _ (widens.onward taking)
      (meets.takeVar apart s!"{f}$ret") (taking.scopes scopes) (.some bound) called'
    refine ⟨Q, taking.trans onward, meets, fun ρ f respects => ?_⟩
    simp only [Term.recast_var, respects.vars _ (onward.vars bound)]

theorem widened_someAlternatives {a : Callables.Alternative} {site : Nat} {here later : Ends}
    (ran : Elaborates (.alternative a args ctx result site b here b₁))
    (one : (alternative a args ctx result site b here b₁).Widened D)
    (others : (alternatives plan args ctx result site b₁ later b₂).Widened D) :
    (alternatives (a :: plan) args ctx result site b (here ++ later) b₂).Widened D := by
  intro P plan' args' ctx' result' site' b' out' b₂' among widens paired stand isSite alike results
    derived'
  induction plan' generalizing b' out' with
  | nil => cases among
  | cons a' plan' ih =>
    cases derived' with
    | @someAlternatives _ _ _ _ _ _ here' later' _ b₁' _ first' rest' =>
      cases among with
      | cons _ among =>
        -- This alternative is one the narrower policy does not grant.
        obtain ⟨ext, counts, -⟩ := (first'.someAlternatives .noAlternative).alone isSite
        have skipping : P.Onward b' P b₁' := .alone P ext.appends
        obtain ⟨Q, onward, paired, pool⟩ := ih _ _ among (paired.widen ext counts)
          (stand.onward skipping (.refl _)) (ext.appends.isSite isSite) rest'
        exact ⟨Q, skipping.trans onward, paired, pool.more (List.subset_append_right _ _)⟩
      | cons_cons _ among =>
        have same : P.Alike (.alternative a.tag) (.alternative a.tag) := fun _ _ _ => rfl
        have entered := paired.draw (ctx.enter a.tag) (ctx'.enter a.tag) stand.placed
          stand.several stand.several' rfl rfl same
        have drawing : P.Onward b' (P.place b'.graph.size) (b'.append (ctx'.enter a.tag)
            (.alternative a.tag) [site']) :=
          .append P _ _ (by simpa using stand.several'.inside)
        obtain ⟨Q, running, meets⟩ := one _ _ _ _ _ _ _ _ ((widens.onward drawing).enter _ _)
          entered (drawing.arguments alike) (drawing.results results) first'
        have onward := drawing.trans running
        have grown := (b.threads_draw (ctx.enter a.tag) (.alternative a.tag) rfl
          stand.several).trans (ran.threads entered.free)
        obtain ⟨R, trying, paired, pool⟩ := others _ _ _ _ _ _ _ _ _ among
          (widens.onward onward) meets.toPaired (stand.onward onward grown.toGrows.appends)
          (onward.graph.isSite isSite) (onward.arguments alike) (onward.results results) rest'
        exact ⟨R, onward.trans trying, paired, (trying.pool meets.pool).append pool⟩

theorem widened_direct (inlined : (Judgement.inlined d args ctx ends result b ends₁ b₁).Widened D) :
    (invoke d args ctx ends result b ends₁ b₁).Widened D := by
  intro P args' ctx' ends' result' b' ends₁' b₁' widens meets alike results derived'
  -- There may be a call site under the wider policy: then the body is the first alternative there.
  have beside {out : Ends} {b₂' : Build} {attacks : List Callables.Alternative}
      (alternatives' : Elaborates (.alternatives
        ({ tag := "normal", definition := d } :: attacks) args' ctx' result' b'.graph.size
        (b'.append ctx' (.callSite d.name) ends') out b₂')) :
      ∃ Q, P.Onward b' Q b₂' ∧ Meets D.shared Q b₁ ends₁ b₂' out := by
    cases alternatives' with
    | @someAlternatives _ _ _ _ _ _ here' later' _ b₂' _ first' rest' =>
      have entered := meets.enter ctx' (ctx'.enter "normal") d.name "normal"
      have isSite : (b'.append ctx' (.callSite d.name) ends').graph.IsSite b'.graph.size :=
        ⟨_, d.name, b'.node?_append_self meets.free', rfl⟩
      have marking : P.Onward b' P ((b'.append ctx' (.callSite d.name) ends').append
          (ctx'.enter "normal") (.alternative "normal") [b'.graph.size]) :=
        .alone P ((b'.threads_branch ctx' (.callSite d.name) rfl meets.free').toGrows.appends.trans
          ((b'.append ctx' (.callSite d.name) ends').threads_draw (ctx'.enter "normal")
            (.alternative "normal") rfl isSite.branches).toGrows.appends)
      obtain ⟨Q, running, meets⟩ := inlined _ _ _ _ _ _ _ _ (widens.enter_alone "normal") entered
        alike results first'
      obtain ⟨ext, -⟩ := (first'.someAlternatives .noAlternative).alone isSite
      -- The attacks come after the body and leave it as it is.
      obtain ⟨ext', counts', -⟩ := rest'.alone (ext.appends.isSite isSite)
      have free' := ((first'.someAlternatives rest').alone isSite).2.2
      exact ⟨Q, (marking.trans running).trans (.alone Q ext'.appends),
        meets.widen ext' counts' (List.subset_append_left _ _) free'⟩
  cases derived' with
  | direct typed' authorised' single' inlined' =>
    exact inlined _ _ _ _ _ _ _ _ widens meets alike results inlined'
  | site typed' authorised' several' alternatives' goesOn' =>
    obtain ⟨Q, onward, meets⟩ := beside alternatives'
    exact ⟨Q, onward.trans (.alone Q ((Build.threads_append ctx' .join rfl
      meets.free').toGrows.appends)), meets.join ctx'⟩
  | deadSite typed' authorised' several' alternatives' => exact beside alternatives'

theorem widened_alternatives {plan' : List Callables.Alternative} {args' : List Argument}
    {ends' out out' : Ends} {result' : Option String} {b₁' : Build}
    (tried : (alternatives plan args ctx result b.graph.size (b.append ctx (.callSite d.name) ends)
      out b₁).Widened D)
    (widens : ctx.Widens D P ctx') (meets : Meets D.shared P b ends b' ends')
    (alike : List.Forall₂ P.Arguments args args') (results : P.Results result result')
    (among : plan.Sublist plan')
    (derived' : Elaborates (.alternatives plan' args' ctx' result' b'.graph.size
      (b'.append ctx' (.callSite d.name) ends') out' b₁')) :
    ∃ Q, P.Onward b' Q b₁' ∧ Paired D.shared Q b₁ b₁' ∧ Graph.Pool Q.places b₁'.graph out out' := by
  have onward := meets.onward ctx' (.callSite d.name)
  have same : P.Alike (.callSite d.name) (.callSite d.name) := fun _ _ _ => rfl
  have isSite : (b'.append ctx' (.callSite d.name) ends').graph.IsSite b'.graph.size :=
    ⟨_, d.name, b'.node?_append_self meets.free', rfl⟩
  obtain ⟨Q, onward', paired, pool⟩ := tried _ _ _ _ _ _ _ _ _ among (widens.onward onward)
    (.branch meets ctx ctx' same)
    ⟨meets.last_placed _, b.branches_append ctx _ rfl meets.free, isSite.branches⟩ isSite
    (onward.arguments alike) (onward.results results) derived'
  exact ⟨Q, onward.trans onward', paired, pool⟩

theorem widened_site {out : Ends} {objects : List String}
    (typed : ctx.objectTypes args b = .ok (objects, b))
    (several : ¬ (ctx.plan d objects).length ≤ 1)
    (ran : Elaborates (.alternatives (ctx.plan d objects) args ctx result b.graph.size
      (b.append ctx (.callSite d.name) ends) out b₁))
    (goesOn : out ≠ [])
    (tried : (alternatives (ctx.plan d objects) args ctx result b.graph.size
      (b.append ctx (.callSite d.name) ends) out b₁).Widened D) :
    (invoke d args ctx ends result b [b₁.graph.size] (b₁.append ctx .join out)).Widened D := by
  intro P args' ctx' ends' result' b' ends₁' b₁' widens meets alike results derived'
  have free := (ran.threads (Build.branches_append _ _ rfl meets.free)).1.free
  cases derived' with
  | direct typed' _ single' =>
    obtain rfl := widens.objectTypes alike typed typed'
    exact absurd ((widens.plan _ _).length_le.trans single') several
  | site typed' _ _ alternatives' =>
    obtain rfl := widens.objectTypes alike typed typed'
    have free' := (alternatives'.threads (Build.branches_append ctx' _ rfl meets.free')).1.free
    obtain ⟨Q, onward, paired, pool⟩ := widened_alternatives tried widens meets alike results
      (widens.plan _ _) alternatives'
    have tried : Meets D.shared Q _ _ _ _ := ⟨paired, pool, free, free'⟩
    have same : Q.Alike .join .join := fun _ _ _ => rfl
    exact ⟨_, onward.trans (tried.onward ctx' .join), tried.append _ ctx' rfl rfl same⟩
  | deadSite typed' _ _ alternatives' =>
    obtain rfl := widens.objectTypes alike typed typed'
    obtain ⟨Q, -, -, pool⟩ := widened_alternatives tried widens meets alike results
      (widens.plan _ _) alternatives'
    exact absurd rfl (pool.ne_nil goesOn)

theorem widened_deadSite {objects : List String} (typed : ctx.objectTypes args b = .ok (objects, b))
    (several : ¬ (ctx.plan d objects).length ≤ 1)
    (tried : (alternatives (ctx.plan d objects) args ctx result b.graph.size
      (b.append ctx (.callSite d.name) ends) [] b₁).Widened D) :
    (invoke d args ctx ends result b [] b₁).Widened D := by
  intro P args' ctx' ends' result' b' ends₁' b₁' widens meets alike results derived'
  have free' := (derived'.threads meets.free').free
  cases derived' with
  | direct typed' _ single' =>
    obtain rfl := widens.objectTypes alike typed typed'
    exact absurd ((widens.plan _ _).length_le.trans single') several
  | site typed' _ _ alternatives' =>
    -- Only attacks that the narrower policy does not grant let control go on.
    obtain rfl := widens.objectTypes alike typed typed'
    obtain ⟨Q, onward, paired, -⟩ := widened_alternatives tried widens meets alike results
      (widens.plan _ _) alternatives'
    have threads := (alternatives'.threads (Build.branches_append ctx' _ rfl meets.free')).1
    have joins := Build.threads_append ctx' .join rfl threads.free
    exact ⟨Q, onward.trans (.alone Q joins.toGrows.appends),
      paired.widen (joins.extends threads.free) (.refl _), .nil, by simp, free'⟩
  | deadSite typed' _ _ alternatives' =>
    obtain rfl := widens.objectTypes alike typed typed'
    obtain ⟨Q, onward, paired, pool⟩ := widened_alternatives tried widens meets alike results
      (widens.plan _ _) alternatives'
    exact ⟨Q, onward, paired, pool, by simp, by simp⟩

theorem widened_inline
    (derived : Elaborates (.inlined d args ctx ends result b (flow.ends ++ flow.returns) b₂))
    (params : (Judgement.params (d.params.zip args) (ctx.inside d result) {} ends b scope ends₁
      b₁).Widened D)
    (body : (command d.body (ctx.inside d result) { ends := ends₁, scope } b₁ flow b₂).Widened D) :
    (inlined d args ctx ends result b (flow.ends ++ flow.returns) b₂).Widened D := by
  intro P args' ctx' ends' result' b' out' b₂' widens meets alike results derived'
  have free := derived.threads meets.free
  have free' := derived'.threads meets.free'
  cases derived' with
  | inline params' body' returned' =>
    have widens := widens.inside d results
    obtain ⟨Q, onward, meets, scopes⟩ := params _ _ _ _ _ _ _ _ _ widens meets
      Pairing.scopes_empty (Pairing.zip_arguments alike d.params) params'
    obtain ⟨R, onward', flows⟩ := body _ _ _ _ _ _ (widens.onward onward)
      (meets.flows .nil scopes) body'
    exact ⟨R, onward.trans onward', flows.toPaired, flows.pool.append flows.returns, free.free,
      free'.free⟩

theorem widened_valueParam (apart : Untaken D.shared) {pairs : List (String × Argument)}
    {scope₁ scope₂ : Scope} (declared : scope.declare x (.value (b.varFor x)) = .ok scope₁)
    (rest : (params pairs ctx scope₁ [b.graph.size]
      ((b.takeVar x).append ctx (.assign (b.varFor x) t) ends) scope₂ ends₁ b₁).Widened D) :
    (params ((x, .value t) :: pairs) ctx scope ends b scope₂ ends₁ b₁).Widened D := by
  intro P pairs' ctx' scope' ends' b' scope₂' ends₁' b₁' widens meets scopes alike derived'
  cases alike with
  | @cons _ p' _ pairs' same others =>
    obtain ⟨x', arg'⟩ := p'
    obtain ⟨rfl, terms⟩ : x = x' ∧ P.Arguments (.value t) arg' := same
    cases arg' with
    | store s => exact terms.elim
    | value t' =>
      cases derived' with
      | valueParam declared' rest' =>
        obtain ⟨R, onward, assigned, bound⟩ := meets.assign apart ctx ctx' x terms
        obtain ⟨Q, later, rest⟩ := rest _ _ _ _ _ _ _ _ _ (widens.onward onward) assigned
          ((onward.scopes scopes).declare bound declared declared')
          (others.imp fun _ _ same => ⟨same.1, onward.argument same.2⟩) rest'
        exact ⟨Q, onward.trans later, rest⟩

end Judgement

theorem Elaborates.widened (apart : Untaken D.shared) {J : Judgement} (derived : Elaborates J) :
    J.Widened D := by
  induction derived with
  | skip | last =>
    intro P ctx' flow' b' flow₁' b₁' widens flows derived'
    cases derived'
    exact ⟨P, .refl P _, flows⟩
  | seq _ ih =>
    intro P ctx' flow' b' flow₁' b₁' widens flows derived'
    cases derived' with
    | seq body' => exact ih _ _ _ _ _ _ widens flows body'
  | bind _ ih =>
    intro P ctx' flow' b' flow₁' b₁' widens flows derived'
    cases derived' with
    | bind bound' => exact ih _ _ _ _ _ _ widens flows bound'
  | new declared => exact Judgement.widened_new apart declared
  | branch arms ih => exact Judgement.widened_branch arms ih
  | loop repeated arms ih ih' => exact Judgement.widened_loop repeated arms ih ih'
  | call _ ih =>
    intro P ctx' flow' b' flow₁' b₁' widens flows derived'
    cases derived' with
    | call called' =>
      obtain ⟨Q, onward, meets⟩ := ih _ _ _ _ _ _ _ _ widens flows.toMeets flows.scope .none
        called'
      exact ⟨Q, onward, meets.flows (onward.pool flows.returns) (onward.scopes flows.scope)⟩
  | emit _ ih => exact Judgement.widened_emit ih
  | put puts resolved _ _ ih => exact Judgement.widened_put puts resolved ih
  | take takes resolved _ read declared =>
    exact Judgement.widened_take apart takes resolved read declared
  | retValue _ result _ ih => exact Judgement.widened_retValue result ih
  | retNothing _ result _ ih => exact Judgement.widened_retNothing result ih
  | next _ _ ih ih' =>
    intro P ctx' flow' b' flow₁' b₁' widens flows derived'
    cases derived' with
    | next first' rest' =>
      obtain ⟨Q, onward, flows⟩ := ih _ _ _ _ _ _ (widens.enter _ _) flows first'
      obtain ⟨R, onward', flows⟩ := ih' _ _ _ _ _ _ (widens.onward onward) flows rest'
      exact ⟨R, onward.trans onward', flows⟩
  | noArm =>
    intro P ctx' choice' scope' sofar' b' out' b₁' widens tries stand scopes derived'
    cases derived'
    exact ⟨P, .refl P _, tries⟩
  | dropArm never _ ih => exact Judgement.widened_dropArm apart never ih
  | takeArm guarded chosen _ ih ih' => exact Judgement.widened_takeArm apart guarded chosen ih ih'
  | bindCall _ callable _ declared ih => exact Judgement.widened_bindCall apart callable ih declared
  | bindTerm _ uncalled _ declared ih => exact Judgement.widened_bindTerm apart uncalled ih declared
  | str =>
    intro P ctx' scope' ends' b' t' ends₁' b₁' widens meets scopes derived'
    cases derived'
    exact ⟨P, .refl P _, meets, fun ρ f respects => by simp⟩
  | ident known =>
    intro P ctx' scope' ends' b' t' ends₁' b₁' widens meets scopes derived'
    cases derived' with
    | ident known' =>
      cases widens.known meets.toPaired scopes .nil known known' with
      | some terms => exact ⟨P, .refl P _, meets, terms⟩
  | tuple _ made ih =>
    intro P ctx' scope' ends' b' t' ends₁' b₁' widens meets scopes derived'
    cases derived' with
    | tuple each' made' =>
      obtain ⟨Q, onward, meets, terms⟩ := ih _ _ _ _ _ _ _ _ widens meets scopes each'
      exact ⟨Q, onward, meets, terms.tuple made made'⟩
  | @symbol f _ _ _ _ _ _ _ _ _ arity _ ih =>
    intro P ctx' scope' ends' b' t' ends₁' b₁' widens meets scopes derived'
    cases derived' with
    | symbol _ each' =>
      obtain ⟨Q, onward, meets, terms⟩ := ih _ _ _ _ _ _ _ _ widens meets scopes each'
      exact ⟨Q, onward, meets, terms.app f⟩
    | callTerm free' =>
      rw [widens.wider.theory, ← widens.decls, arity] at free'
      cases free'
  | callTerm free _ _ ih => exact Judgement.widened_callTerm apart free ih
  | noTerm =>
    intro P ctx' scope' ends' b' ts' ends₁' b₁' widens meets scopes derived'
    cases derived'
    exact ⟨P, .refl P _, meets, fun ρ f respects => rfl⟩
  | someTerms _ _ ih ih' =>
    intro P ctx' scope' ends' b' ts' ends₁' b₁' widens meets scopes derived'
    cases derived' with
    | someTerms first' rest' =>
      obtain ⟨Q, onward, meets, term⟩ := ih _ _ _ _ _ _ _ _ widens meets scopes first'
      obtain ⟨R, onward', meets, terms⟩ := ih' _ _ _ _ _ _ _ _ (widens.onward onward) meets
        (onward.scopes scopes) rest'
      exact ⟨R, onward.trans onward', meets, terms.cons (onward'.terms term)⟩
  | noArgument =>
    intro P ctx' scope' ends' b' args' ends₁' b₁' widens meets scopes derived'
    cases derived'
    exact ⟨P, .refl P _, meets, .nil⟩
  | storeArgument named _ ih =>
    intro P ctx' scope' ends' b' args' ends₁' b₁' widens meets scopes derived'
    cases derived' with
    | storeArgument named' rest' =>
      rw [widens.storeNamed? scopes, named] at named'
      cases named'
      obtain ⟨Q, onward, meets, alike⟩ := ih _ _ _ _ _ _ _ _ widens meets scopes rest'
      exact ⟨Q, onward, meets, .cons rfl alike⟩
    | valueArgument unnamed' =>
      rw [widens.storeNamed? scopes, named] at unnamed'
      cases unnamed'
  | valueArgument unnamed _ _ ih ih' =>
    intro P ctx' scope' ends' b' args' ends₁' b₁' widens meets scopes derived'
    cases derived' with
    | storeArgument named' =>
      rw [widens.storeNamed? scopes, unnamed] at named'
      cases named'
    | valueArgument _ first' rest' =>
      obtain ⟨Q, onward, meets, term⟩ := ih _ _ _ _ _ _ _ _ widens meets scopes first'
      obtain ⟨R, onward', meets, alike⟩ := ih' _ _ _ _ _ _ _ _ (widens.onward onward) meets
        (onward.scopes scopes) rest'
      exact ⟨R, onward.trans onward', meets, .cons (onward'.terms term) alike⟩
  | callee found _ _ ih ih' =>
    intro P ctx' scope' ends' result' b' ends₁' b₁' widens meets scopes results derived'
    cases derived' with
    | callee found' passing' invoked' =>
      obtain rfl := widens.callee found found'
      obtain ⟨Q, onward, meets, alike⟩ := ih _ _ _ _ _ _ _ _ widens meets scopes passing'
      obtain ⟨R, onward', meets⟩ := ih' _ _ _ _ _ _ _ _ (widens.onward onward) meets alike
        (onward.results results) invoked'
      exact ⟨R, onward.trans onward', meets⟩
  | direct _ _ _ _ ih => exact Judgement.widened_direct ih
  | site typed _ several alternatives goesOn ih =>
    exact Judgement.widened_site typed several alternatives goesOn ih
  | deadSite typed _ several _ ih => exact Judgement.widened_deadSite typed several ih
  | noAlternative =>
    intro P plan' args' ctx' result' site' b' out' b₁' among widens paired stand isSite alike
      results derived'
    obtain ⟨ext, counts, -⟩ := derived'.alone isSite
    exact ⟨P, .alone P ext.appends, paired.widen ext counts, .nil⟩
  | someAlternatives first _ ih ih' => exact Judgement.widened_someAlternatives first ih ih'
  | inline params body returned ih ih' =>
    exact Judgement.widened_inline (.inline params body returned) ih ih'
  | noParam =>
    intro P pairs' ctx' scope' ends' b' scope₁' ends₁' b₁' widens meets scopes alike derived'
    cases alike
    cases derived'
    exact ⟨P, .refl P _, meets, scopes⟩
  | @storeParam x name _ _ _ _ _ _ _ _ _ declared _ ih =>
    intro P pairs' ctx' scope' ends' b' scope₁' ends₁' b₁' widens meets scopes alike derived'
    cases alike with
    | @cons _ p' _ pairs' same others =>
      obtain ⟨x', arg'⟩ := p'
      obtain ⟨rfl, stores⟩ : x = x' ∧ P.Arguments (.store name) arg' := same
      cases arg' with
      | value t => exact stores.elim
      | store name' =>
        cases derived' with
        | storeParam declared' rest' =>
          have bound : P.Bindings (.store name) (.store name') := stores
          exact ih _ _ _ _ _ _ _ _ _ widens meets
            (scopes.declare bound declared declared') others rest'
  | valueParam declared _ ih => exact Judgement.widened_valueParam apart declared ih

end ThreatModel
