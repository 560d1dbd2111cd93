import Mathlib
import ThreatModel.Proofs.Elaboration.Files
import ThreatModel.Proofs.Elaboration.Loops

set_option autoImplicit false

namespace ThreatModel

theorem Context.position_inside (ctx : Context) (d : Definition) (result : Option String) :
    ∃ start, ((ctx.inside d result).enter (toString 0)).position = start ++ (d.name ++ ".0") := by
  have path : ((ctx.inside d result).enter (toString 0)).path = ctx.path ++ [d.name, "0"] := by
    simp only [inside, enter, List.append_assoc, List.singleton_append]
    rfl
  have last : ".".intercalate [d.name, "0"] = d.name ++ ".0" := by
    simp only [String.intercalate_cons_cons, String.intercalate_singleton, String.append_assoc]
    rfl
  unfold position
  rw [path]
  by_cases empty : ctx.path = []
  · exact ⟨_, by rw [empty, List.nil_append, last]⟩
  · refine ⟨ctx.owner ++ "/" ++ (".".intercalate ctx.path ++ "."), ?_⟩
    rw [String.intercalate_append_of_ne_nil empty (by simp), last]
    simp only [String.append_assoc]
    rfl

namespace Graph

variable {g g' : Graph} {key : String} {i start : Nat}

theorem GrowsFrom.stood (grown : g.GrowsFrom start g') (inside : i < g.size) {action : Action}
    (here : g'.actions[i]? = some action) : g.actions[i]? = some action := by
  obtain ⟨action', acts⟩ : ∃ action', g.actions[i]? = some action' :=
    ⟨_, List.getElem?_eq_getElem (by simpa using inside)⟩
  rw [acts, ← grown.stands acts, here]

structure Replaces (g : Graph) (key : String) (i : Nat) : Prop where
  takes : ∃ node pattern binds, g.node? i = some node ∧ node.action = .consume key pattern binds ∧
    node.successors = [i + 1] ∧ ∃ start, node.position = start ++ "write.0"
  puts : ∃ node t, g.node? (i + 1) = some node ∧ node.action = .insert key t
  only : ∀ j, g.Leads j (i + 1) → j = i

/-- The nodes that change a store, as the body of each built-in syscall draws them. -/
inductive Exchange (g : Graph) (key : String) : Nat → Action → String → Prop
  | send {i : Nat} {t : Term} {x : String} {s : Term} (after : g.actions[i]? = some (.assign x s)) :
      Exchange g key (i + 1) (.insert key t) "send"
  | recv {i : Nat} {pattern : Term} {binds : List String} {node : Node}
      (here : g.node? i = some node) (position : ∃ start, node.position = start ++ "recv.0") :
      Exchange g key i (.consume key pattern binds) "recv"
  | take {i : Nat} {pattern : Term} {binds : List String} (replaces : g.Replaces key i) :
      Exchange g key i (.consume key pattern binds) "write"
  | put {i : Nat} {t : Term} (replaces : g.Replaces key i) :
      Exchange g key (i + 1) (.insert key t) "write"

namespace Exchange

variable {action : Action} {callee : String}

theorem of_insert {t : Term} (exchange : g.Exchange key i action callee)
    (puts : action = .insert key t) : ∃ j, i = j + 1 ∧
      (callee = "send" ∧ (∃ x s, g.actions[j]? = some (.assign x s)) ∨
        callee = "write" ∧ g.Replaces key j) := by
  cases exchange with
  | send after => exact ⟨_, rfl, .inl ⟨rfl, _, _, after⟩⟩
  | put replaces => exact ⟨_, rfl, .inr ⟨rfl, replaces⟩⟩
  | recv | take => cases puts

theorem of_consume {pattern : Term} {binds : List String}
    (exchange : g.Exchange key i action callee) (takes : action = .consume key pattern binds) :
    callee = "recv" ∧ (∃ node, g.node? i = some node ∧ ∃ start, node.position = start ++ "recv.0") ∨
      callee = "write" ∧ g.Replaces key i := by
  cases exchange with
  | recv here position => exact .inl ⟨rfl, _, here, position⟩
  | take replaces => exact .inr ⟨rfl, replaces⟩
  | send | put => cases takes

theorem not_removes (exchange : g.Exchange key i action callee) (t : Term) :
    action ≠ .remove key t := by
  cases exchange <;> simp

end Exchange

theorem Replaces.not_received (replaces : g.Replaces key i) {node : Node}
    (here : g.node? i = some node) : ¬ ∃ start, node.position = start ++ "recv.0" := by
  rintro ⟨start, stands⟩
  obtain ⟨node', pattern, binds, here', -, -, start', stands'⟩ := replaces.takes
  obtain rfl := Option.some.inj (here.symm.trans here')
  have same : (start ++ "rec").toList ++ ['v', '.', '0'] =
      (start' ++ "writ").toList ++ ['e', '.', '0'] := by
    have := congrArg String.toList (stands.symm.trans stands')
    simpa using this
  simpa using (List.append_inj' same rfl).2

end Graph

def Action.Changes (key : String) (action : Action) : Prop :=
  (∃ t, action = .insert key t) ∨ (∃ t, action = .remove key t) ∨
    ∃ pattern binds, action = .consume key pattern binds

section Bodies

variable {ctx : Context} {ends ends' ends₁ : Ends} {b b₁ b' : Build} {flow : Flow} {scope : Scope}
  {a a' : Argument} {g : Graph} {key : String} {i : Nat} {node : Node} {action : Action}

theorem after_params {pairs : List (String × Argument)}
    (params : Elaborates (.params pairs ctx {} ends b scope ends₁ b₁))
    (kept : b₁.graph.actions <+: b'.graph.actions) (new : b.graph.size ≤ i)
    (here : b'.graph.actions[i]? = some action) (changes : action.Changes key) :
    b₁.graph.size ≤ i := by
  by_contra early
  obtain ⟨more, same⟩ := kept
  rw [← same, List.getElem?_append_left (by simpa using early)] at here
  obtain ⟨x, t, rfl⟩ := (draws_params params).new i action new here
  simp [Action.Changes] at changes

theorem exchange_of_send
    (params : Elaborates (.params [("c", a), ("m", a')] ctx {} ends b scope ends₁ b₁))
    (body : Elaborates (.command (.seq [.store .insert "c" (.ident "m" none) none]) ctx
      { ends := ends₁, scope } b₁ flow b'))
    (grown : b'.graph.GrowsFrom b.graph.size g) (new : b.graph.size ≤ i)
    (old : i < b'.graph.size) (here : g.actions[i]? = some action) (changes : action.Changes key) :
    g.Exchange key i action "send" := by
  obtain ⟨valued, store, t, rfl⟩ := body_of_send body
  have stood := grown.stood old here
  have late := after_params params (by simp [Build.append]) new stood changes
  obtain rfl : i = b₁.graph.size := by simp at old; omega
  obtain rfl : .insert store t = action := by simpa [Build.append] using stood
  obtain rfl : store = key := by simpa [Action.Changes] using changes
  rcases last_of_params [("c", a)] params with ⟨name, bound⟩ | ⟨more, -⟩
  · exact absurd bound (valued name)
  · obtain ⟨j, last⟩ : ∃ j, b₁.graph.size = j + 1 := ⟨b₁.graph.size - 1, by omega⟩
    have inside : j < b₁.graph.actions.length := by simp [last]
    have acts := List.getElem?_eq_getElem inside
    obtain ⟨x, s, assigns⟩ := (draws_params params).new j _ (by omega) acts
    rw [assigns] at acts
    have kept : (b₁.append (ctx.enter (toString 0)) (.insert store t) ends₁).graph.actions[j]? =
        some (.assign x s) := by
      rw [Build.append, Graph.actions_append, List.getElem?_append_left inside, acts]
    rw [last]
    exact .send (grown.stands kept)

theorem exchange_of_take {f x : String} {kind : StoreAction}
    (takes : kind = .consume ∨ kind = .read)
    (params : Elaborates (.params [(f, a)] ctx {} ends b scope ends₁ b₁))
    (body : Elaborates (.command (.seq [.store kind f (.ident x none) none,
      .ret (.ident x none) none]) ctx { ends := ends₁, scope } b₁ flow b'))
    (free : ∀ e ∈ ends, b.graph.Open e) (grown : b'.graph.GrowsFrom b.graph.size g)
    (new : b.graph.size ≤ i) (old : i < b'.graph.size) (here : g.node? i = some node)
    (changes : node.action.Changes key) :
    (∃ pattern binds, kind = .consume ∧ node.action = .consume key pattern binds) ∧
      node.position = (ctx.enter (toString 0)).position := by
  obtain ⟨b₂, store, pattern, binds, same, drawn⟩ := body_of_take takes body
  have opened := (params.threads free).free
  rw [← same] at opened
  have acts : g.actions[i]? = some node.action := Graph.acts_iff.mpr ⟨node, here, rfl⟩
  have stood := grown.stood old acts
  have left := (b₂.threads_append (ctx.enter (toString 0)) (kind.node store pattern binds)
    (StoreAction.branches_node ..) opened).free
  -- What the call returns may be assigned after the node; it changes no store.
  have onward : (b₂.append (ctx.enter (toString 0)) (kind.node store pattern binds)
      ends₁).graph.GrowsFrom b.graph.size g ∧ i = b₂.graph.size := by
    rcases drawn with rfl | ⟨y, t, rfl⟩
    · have late := after_params params (by simp [Build.append, same]) new stood changes
      rw [Build.size_append] at old
      exact ⟨grown, by rw [same] at old ⊢; omega⟩
    · have late := after_params params (by simp [Build.append, same]) new stood changes
      refine ⟨(Graph.GrowsFrom.append _ _ left).trans grown le_rfl, ?_⟩
      simp only [Build.size_append] at old
      by_contra other
      obtain rfl : i = b₂.graph.size + 1 := by rw [same] at old other ⊢; omega
      have assigns : .assign y t = node.action := by simpa [Build.append] using stood
      simp [← assigns, Action.Changes] at changes
  obtain ⟨grown, rfl⟩ := onward
  obtain ⟨more, there, -⟩ := grown.kept _ _ (b₂.node?_append_self opened)
  obtain rfl := Option.some.inj (here.symm.trans there)
  refine ⟨?_, rfl⟩
  rcases takes with rfl | rfl
  · obtain rfl : store = key := by simpa [StoreAction.node, Action.Changes] using changes
    exact ⟨pattern, binds, rfl, rfl⟩
  · simp [StoreAction.node, Action.Changes] at changes

theorem replaces_of_grown {ctx' : Context} {key : String} {pattern t : Term} {binds : List String}
    (position : ∃ start, ctx.position = start ++ "write.0")
    (free : ∀ e ∈ ends, b.graph.Open e) (reducible : b.graph.Reducible) {start : Nat}
    (new : start ≤ b.graph.size)
    (grown : ((b.append ctx (.consume key pattern binds) ends).append ctx' (.insert key t)
      [b.graph.size]).graph.GrowsFrom start g) : g.Replaces key b.graph.size := by
  have left := (b.threads_append ctx (.consume key pattern binds) rfl free).free
  have there := Graph.node?_append (i := b.graph.size)
    { action := .insert key t, position := ctx'.position } [b.graph.size]
    fun e member => (left e member).inside
  rw [b.node?_append_self free, if_neg (by simp), Option.map_some] at there
  have closed : ¬ ((b.append ctx (.consume key pattern binds) ends).append ctx' (.insert key t)
      [b.graph.size]).graph.Open b.graph.size := by
    rintro ⟨node, found, none, -⟩
    obtain rfl := Option.some.inj (there.symm.trans found)
    simp at none
  constructor
  · exact ⟨_, pattern, binds, grown.closed there new closed, rfl, by simp, position⟩
  · obtain ⟨more, after, -⟩ := grown.kept _ _ (Build.node?_append_self left)
    rw [Build.size_append] at after
    exact ⟨_, t, after, rfl⟩
  · intro j leads
    have drawn := grown.leads leads (by omega) (by simp)
    rcases Graph.leads_append rfl (fun e member => (left e member).inside) drawn with
      old | ⟨member, -⟩
    · have inside := (b.reducible_append ctx (.consume key pattern binds) free reducible).inside
        j _ old
      simp at inside
    · exact List.mem_singleton.mp member

theorem exchange_of_write
    (params : Elaborates (.params [("f", a), ("m", a')] ctx {} ends b scope ends₁ b₁))
    (body : Elaborates (.command (.seq [.store .consume "f" (.ident "old$" none) none,
      .store .insert "f" (.ident "m" none) none]) ctx { ends := ends₁, scope } b₁ flow b'))
    (position : ∃ start, (ctx.enter (toString 0)).position = start ++ "write.0")
    (free : ∀ e ∈ ends, b.graph.Open e) (reducible : b.graph.Reducible)
    (grown : b'.graph.GrowsFrom b.graph.size g)
    (new : b.graph.size ≤ i) (old : i < b'.graph.size) (here : g.actions[i]? = some action)
    (changes : action.Changes key) : g.Exchange key i action "write" := by
  obtain ⟨b₂, store, pattern, t, binds, same, rfl⟩ := body_of_write body
  have opened := (params.threads free).free
  rw [← same] at opened
  have stood := grown.stood old here
  have late := after_params params (by simp [Build.append, same]) new stood changes
  have replaces : g.Replaces store b₂.graph.size := replaces_of_grown position opened
    (same ▸ params.reduces free reducible) (same ▸ params.larger) grown
  simp only [Build.size_append] at old
  rw [← same] at late
  obtain rfl | rfl : i = b₂.graph.size ∨ i = b₂.graph.size + 1 := by omega
  · obtain rfl : .consume store pattern binds = action := by
      simpa [Build.append, List.getElem?_append] using stood
    obtain rfl : store = key := by simpa [Action.Changes] using changes
    exact .take replaces
  · obtain rfl : .insert store t = action := by simpa [Build.append] using stood
    obtain rfl : store = key := by simpa [Action.Changes] using changes
    exact .put replaces

theorem exchange_of_builtin {d : Definition} {args : List Argument} {result : Option String}
    (member : d ∈ Definition.builtins) (arity : args.length = d.params.length)
    (derived : Elaborates (.inlined d args ctx ends result b ends' b'))
    (free : ∀ e ∈ ends, b.graph.Open e) (reducible : b.graph.Reducible)
    (grown : b'.graph.GrowsFrom b.graph.size g) (new : b.graph.size ≤ i)
    (old : i < b'.graph.size) (here : g.node? i = some node)
    (changes : node.action.Changes key) : g.Exchange key i node.action d.name := by
  have position := ctx.position_inside d result
  have acts : g.actions[i]? = some node.action := Graph.acts_iff.mpr ⟨node, here, rfl⟩
  cases derived with
  | inline params body _ =>
    simp only [Definition.builtins, List.mem_cons, List.not_mem_nil, or_false] at member
    rcases member with rfl | rfl | rfl | rfl
    · obtain ⟨a, a', rfl⟩ := List.length_eq_two.mp arity
      exact exchange_of_send params body grown new old acts changes
    · obtain ⟨a, rfl⟩ := List.length_eq_one_iff.mp arity
      obtain ⟨⟨pattern, binds, -, consumes⟩, stands⟩ :=
        exchange_of_take (.inl rfl) params body free grown new old here changes
      rw [consumes]
      exact .recv here (stands ▸ position)
    · obtain ⟨a, rfl⟩ := List.length_eq_one_iff.mp arity
      obtain ⟨⟨pattern, binds, reads, -⟩, -⟩ :=
        exchange_of_take (.inr rfl) params body free grown new old here changes
      cases reads
    · obtain ⟨a, a', rfl⟩ := List.length_eq_two.mp arity
      exact exchange_of_write params body position free reducible grown new old acts changes

end Bodies

theorem permitted_of_store {kind : StoreAction} {target : String} {e : Expr}
    {loc : Option Location} {ctx : Context} {flow flow' : Flow} {b b' : Build} {decl : StoreDecl}
    (derived : Elaborates (.command (.store kind target e loc) ctx flow b flow' b'))
    (resolved : ctx.resolveStore flow.scope target b = .ok (decl, b)) :
    ctx.permit kind decl b = .ok ((), b) := by
  cases derived with
  | put _ resolved' permitted _ | take _ resolved' permitted _ _ =>
    cases resolved.symm.trans resolved'
    exact permitted

namespace Judgement

variable {D : Declarations} {J K : Judgement} {Ks : List Judgement}

def Fits : Judgement → Prop
  | .invoke d args _ _ _ _ _ _ | .inlined d args _ _ _ _ _ _ => d.Fits args
  | .alternatives plan args _ _ _ _ _ _ => ∀ a ∈ plan, a.definition.Fits args
  | _ => True

theorem Premises.fits (callables : D.callables.Sound) (rule : J.Premises Ks)
    (each : ∀ L ∈ Ks, Elaborates L) (member : K ∈ Ks) (decls : J.context.decls = D)
    (fits : J.Fits) : K.Fits := by
  cases rule with
  | callee found =>
    rcases List.mem_pair.mp member with rfl | rfl
    · trivial
    · obtain ⟨known, -, arity⟩ := Context.callee_eq_ok found
      have passing := length_arguments (both_of_pair each).1
      have known := decls ▸ known
      exact fun isBuiltin => ⟨callables.builtin _ _ known isBuiltin, passing.trans arity⟩
  | direct =>
    obtain rfl := List.mem_singleton.mp member
    exact fits
  | site | deadSite =>
    obtain rfl := List.mem_singleton.mp member
    obtain rfl := decls
    exact callables.fits_plan fits
  | someAlternatives =>
    obtain ⟨here, others⟩ := List.forall_mem_cons.mp fits
    rcases List.mem_pair.mp member with rfl | rfl
    · exact here
    · exact others
  | loop | next | takeArm | someTerms | valueArgument | inline =>
    rcases List.mem_pair.mp member with rfl | rfl
    all_goals trivial
  | _ =>
    obtain rfl := List.mem_singleton.mp member
    trivial

theorem Within.fits (callables : D.callables.Sound) (within : K.Within J)
    (decls : J.context.decls = D) (fits : J.Fits) : K.Fits :=
  within.keeps (fun _ _ _ rule each member => rule.fits callables each member) decls fits

end Judgement

namespace Template.Derivation

variable {template : Template} {D : Declarations} {name : String} {channels : Table String String}
  {b : Build} {g : Graph} {key : String} {i : Nat} {node : Node}

def Inlines (u : template.Derivation D name channels b g) (callee : String) (i : Nat) : Prop :=
  ∃ d args ctx ends result b₁ ends' b₂, d ∈ Definition.builtins ∧ d.name = callee ∧
    u.Meets (.inlined d args ctx ends result b₁ ends' b₂) ∧ b₁.graph.size ≤ i ∧ i < b₂.graph.size

theorem Meets.fits {u : template.Derivation D name channels b g} (callables : D.callables.Sound)
    {K : Judgement} (meets : u.Meets K) : K.Fits :=
  meets.elim (fun within => within.fits callables rfl trivial)
    fun within => within.fits callables rfl trivial

theorem Inlines.exchange {u : template.Derivation D name channels b g}
    (callables : D.callables.Sound) (empty : b.graph.size = 0) {callee : String}
    (inlines : u.Inlines callee i) (here : g.node? i = some node)
    (changes : node.action.Changes key) : g.Exchange key i node.action callee := by
  obtain ⟨d, args, ctx, ends, result, b₁, ends', b₂, member, rfl, meets, new, old⟩ := inlines
  obtain ⟨-, arity⟩ := meets.fits callables (Callables.role_of_mem_builtins member)
  obtain ⟨free, -, grown⟩ := meets.embeds
  exact exchange_of_builtin member arity meets.elaborates free (meets.reducible empty) grown new old
    here changes

theorem Meets.copied {u : template.Derivation D name channels b g} {K : Judgement} {d : Definition}
    (meets : u.Meets K) (inside : K.context.frame.definition = some d)
    (low : K.before.graph.size ≤ i) (high : i < K.after.graph.size) :
    ∃ args ctx ends result b₁ ends' b₂, u.Meets (.inlined d args ctx ends result b₁ ends' b₂) ∧
      b₁.graph.size ≤ i ∧ i < b₂.graph.size := by
  have copy {J : Judgement} (derived : Elaborates J) (within : K.Within J)
      (outside : J.context.frame.definition = none) : ∃ args, J.Inlines i d args := by
    rcases within.copied derived with ⟨same, -⟩ | ⟨d', args, ⟨same, -⟩, inlines⟩
    · simp [same, outside] at inside
    · obtain rfl := Option.some.inj (same.symm.trans inside)
      exact ⟨args, inlines i low high⟩
  rcases meets with inVars | inMain
  · obtain ⟨args, ctx, ends, result, b₁, ends', b₂, within, among⟩ := copy u.vars inVars rfl
    exact ⟨args, ctx, ends, result, b₁, ends', b₂, .inl within, among⟩
  · obtain ⟨args, ctx, ends, result, b₁, ends', b₂, within, among⟩ := copy u.main inMain rfl
    exact ⟨args, ctx, ends, result, b₁, ends', b₂, .inr within, among⟩

theorem inlines_of_file (u : template.Derivation D name channels b g) (decls : D.Sound)
    (callables : D.callables.Sound) (file : D.IsFile key) (new : b.graph.size ≤ i)
    (here : g.node? i = some node) (changes : node.action.Changes key) :
    ∃ callee, u.Inlines callee i := by
  have acts : g.actions[i]? = some node.action := Graph.acts_iff.mpr ⟨node, here, rfl⟩
  have touched : node.action.store? = some key := by
    rcases changes with ⟨t, same⟩ | ⟨t, same⟩ | ⟨pattern, binds, same⟩ <;>
      simp [same, Action.store?]
  rcases u.drawn new acts with start | finish | ⟨K, meets, adds, low, high⟩
  · simp [start, Action.store?] at touched
  · simp [finish, Action.store?] at touched
  · obtain ⟨kind, target, e, loc, ctx, flow, c, flow', c', decl, t, binds, rfl, resolved, action,
      rfl⟩ := adds.of_store touched
    obtain rfl : ctx.decls = D := meets.embeds.2.1
    obtain ⟨decl', found, isFile⟩ := file
    obtain rfl := Option.some.inj
      (found.symm.trans (Context.find?_name_of_resolveStore decls resolved))
    have writes : kind ≠ .read := by
      rintro rfl
      simp [action, StoreAction.node, Action.Changes] at changes
    obtain ⟨d, inside, isBuiltin⟩ :=
      Context.permit_eq_ok (permitted_of_store meets.elaborates resolved) isFile writes
    obtain ⟨args, ctx', ends, result, b₁, ends', b₂, copied, among⟩ :=
      meets.copied inside low high
    obtain ⟨member, -⟩ := copied.fits callables isBuiltin
    exact ⟨d.name, d, args, ctx', ends, result, b₁, ends', b₂, member, rfl, copied, among⟩

end Template.Derivation

end ThreatModel
