import Mathlib
import ThreatModel.Proofs.Callable.Declared
import ThreatModel.Proofs.Elaboration.Accesses
import ThreatModel.Proofs.Elaboration.Shape

set_option autoImplicit false

namespace ThreatModel

def Argument.store? : Argument → Option String
  | .store name => some name
  | .value _ => none

structure Context.IsBody (ctx : Context) (D : Declarations) (type : String) : Prop where
  decls : ctx.decls = D
  type : ctx.type = type
  outside : ctx.frame.definition = none

def Declarations.Calls (D : Declarations) (type f : String) (stores : List String)
    (before after : List Action) : Prop :=
  ∃ (ctx : Context) (d : Definition) (args : List Argument) (ends ends' : Ends)
    (result : Option String) (b b' : Build),
    ctx.IsBody D type ∧ D.callables.find? f = some d ∧ args.filterMap Argument.store? = stores ∧
      Elaborates (.invoke d args ctx ends result b ends' b') ∧
      b.graph.actions = before ∧ b'.graph.actions = after

/-- How accesses take the actions of a graph from one list to another: each touch adds one action
and each call what stands in its place. Nothing else that is added touches a store. -/
inductive Access.Accounts (D : Declarations) (type : String) :
    List Action → List Access → List Action → Prop
  | done {actions : List Action} : Access.Accounts D type actions [] actions
  | other {before after : List Action} {accesses : List Access} {action : Action}
      (untouched : action.store? = none)
      (rest : Access.Accounts D type (before ++ [action]) accesses after) :
      Access.Accounts D type before accesses after
  | touch {before after : List Action} {accesses : List Access} {action : StoreAction}
      {store : String} {t : Term} {binds : List String}
      (rest : Access.Accounts D type (before ++ [action.node store t binds]) accesses after) :
      Access.Accounts D type before (.touch action store :: accesses) after
  | call {before between after : List Action} {accesses : List Access} {f : String}
      {stores : List String} (calls : D.Calls type f stores before between)
      (rest : Access.Accounts D type between accesses after) :
      Access.Accounts D type before (.call f stores :: accesses) after

theorem Access.Accounts.trans {D : Declarations} {type : String} {accesses accesses' : List Access}
    {before between after : List Action} (one : Access.Accounts D type before accesses between)
    (two : Access.Accounts D type between accesses' after) :
    Access.Accounts D type before (accesses ++ accesses') after := by
  induction one with
  | done => exact two
  | other untouched _ ih => exact .other untouched (ih two)
  | touch _ ih => exact .touch (ih two)
  | call calls _ ih => exact .call calls (ih two)

structure Build.Mediates (D : Declarations) (type : String) (accesses : List Access)
    (b b' : Build) : Prop where
  granted : ∀ access ∈ accesses, access.Granted D type
  accounted : Access.Accounts D type b.graph.actions accesses b'.graph.actions

theorem Build.actions_append (b : Build) (ctx : Context) (action : Action) (ends : Ends) :
    (b.append ctx action ends).graph.actions = b.graph.actions ++ [action] :=
  Graph.actions_append ..

namespace Build.Mediates

variable {D : Declarations} {type : String} {accesses accesses' : List Access} {b b₁ b' : Build}

theorem same (drawn : b'.graph.actions = b.graph.actions) : Mediates D type [] b b' :=
  ⟨by simp, drawn ▸ .done⟩

theorem trans (one : Mediates D type accesses b b₁) (two : Mediates D type accesses' b₁ b') :
    Mediates D type (accesses ++ accesses') b b' :=
  ⟨List.forall_mem_append.mpr ⟨one.granted, two.granted⟩, one.accounted.trans two.accounted⟩

theorem after (rest : Mediates D type accesses b₁ b')
    (drawn : b₁.graph.actions = b.graph.actions) : Mediates D type accesses b b' :=
  (same drawn).trans rest

theorem before (start : Mediates D type accesses b b₁)
    (drawn : b'.graph.actions = b₁.graph.actions) : Mediates D type accesses b b' := by
  simpa using start.trans (same drawn)

theorem mark (ctx : Context) (action : Action) (ends : Ends) (untouched : action.store? = none) :
    Mediates D type [] b (b.append ctx action ends) :=
  ⟨by simp, actions_append b ctx action ends ▸ .other untouched .done⟩

theorem enter {ctx : Context} {action : Action} {ends : Ends}
    (rest : Mediates D type accesses (b.append ctx action ends) b')
    (untouched : action.store? = none) : Mediates D type accesses b b' :=
  (mark ctx action ends untouched).trans rest

theorem leave {ctx : Context} {action : Action} {ends : Ends}
    (start : Mediates D type accesses b b') (untouched : action.store? = none) :
    Mediates D type accesses b (b'.append ctx action ends) := by
  simpa using start.trans (mark ctx action ends untouched)

theorem touch {ctx : Context} {action : StoreAction} {store : String} {t : Term}
    {binds : List String} {ends : Ends} (granted : (Access.touch action store).Granted D type) :
    Mediates D type [.touch action store] b (b.append ctx (action.node store t binds) ends) :=
  ⟨by simpa using granted, actions_append b ctx (action.node store t binds) ends ▸ .touch .done⟩

theorem call {f : String} {stores : List String} (granted : (Access.call f stores).Granted D type)
    (calls : D.Calls type f stores b.graph.actions b'.graph.actions) :
    Mediates D type [.call f stores] b b' :=
  ⟨by simpa using granted, .call calls .done⟩

end Build.Mediates

namespace Policy

variable {P : Policy} {position declaration : Option String}

theorem allows_of_require {subject : String} {object : Option String} {operation : String}
    (required : P.require subject object operation position declaration = .ok ()) :
    P.allows subject object operation = true := by
  simp only [require] at required
  split at required
  next allowed => exact allowed
  next => simp at required

theorem exists_of_requireAttack {subjects : List String} {attack : String}
    (required : P.requireAttack subjects attack position declaration = .ok ()) :
    ∃ subject ∈ subjects, P.allowsAttack subject attack = true := by
  simp only [requireAttack] at required
  split at required
  next allowed => exact List.any_eq_true.mp allowed
  next => simp at required

end Policy

theorem Builder.exists_of_forM {α : Type} {xs : List α} {step : α → Builder Unit} {b b' : Build}
    (done : xs.forM step b = .ok ((), b')) {x : α} (member : x ∈ xs) :
    ∃ b₁ b₂, step x b₁ = .ok ((), b₂) := by
  induction xs generalizing b with
  | nil => simp at member
  | cons y ys ih =>
    have done : (step y >>= fun _ => ys.forM step) b = .ok ((), b') := done
    rw [Builder.bind_eq_ok_iff] at done
    obtain ⟨⟨⟩, b₁, first, rest⟩ := done
    rcases List.mem_cons.mp member with rfl | later
    · exact ⟨b, b₁, first⟩
    · exact ih rest later

namespace Context

variable {ctx : Context} {D : Declarations} {type : String} {b b' : Build}

theorem IsBody.enter (body : ctx.IsBody D type) (segment : String) :
    (ctx.enter segment).IsBody D type := ⟨body.decls, body.type, body.outside⟩

theorem objects_eq {args : List Argument} {objects : List String}
    (typed : ctx.objectTypes args b = .ok (objects, b')) :
    objects = ctx.decls.typesOf (args.filterMap Argument.store?) := by
  induction args generalizing b objects with
  | nil =>
    obtain ⟨rfl, -⟩ : [] = objects ∧ b = b' := by simpa [objectTypes] using typed
    rfl
  | cons arg rest ih =>
    cases arg with
    | value t => exact ih typed
    | store name =>
      simp only [objectTypes, Builder.bind_eq_ok_iff, check_eq_ok_iff,
        Builder.pure_apply] at typed
      obtain ⟨decl, b₁, ⟨got, rfl⟩, others, b₂, later, ⟨⟩⟩ := typed
      have found := Registry.find?_of_get got
      rw [ih later]
      cases typed : decl.type <;>
        simp [Declarations.typesOf, Argument.store?, found, typed]

theorem granted_of_permit {action : StoreAction} {store : StoreDecl} (body : ctx.IsBody D type)
    (permitted : ctx.permit action store b = .ok ((), b')) :
    D.policy.allows type store.type action.word = true := by
  obtain ⟨rfl, rfl, outside⟩ := body
  simp only [permit, outside, Option.isNone_none, if_true, Builder.bind_eq_ok_iff,
    check_eq_ok_iff] at permitted
  obtain ⟨⟨⟩, b₁, ⟨required, -⟩, -⟩ := permitted
  exact Policy.allows_of_require required

theorem granted_of_authorise {d : Definition} {args : List Argument} {objects : List String}
    (body : ctx.IsBody D type) (known : D.callables.find? d.name = some d)
    (free : d.role.target? = none) (typed : ctx.objectTypes args b = .ok (objects, b))
    (authorised : ctx.authorise d objects b = .ok ((), b)) :
    (Access.call d.name (args.filterMap Argument.store?)).Granted D type := by
  obtain ⟨rfl, rfl, outside⟩ := body
  obtain rfl := objects_eq typed
  refine ⟨d, known, fun target active => by simp [active, Role.target?] at free, ?_⟩
  simp only [authorise, outside, Option.isSome_none, Bool.false_eq_true, if_false,
    Builder.ite_apply] at authorised
  split at authorised
  next passive =>
    simp only [check_eq_ok_iff] at authorised
    rw [if_pos passive]
    exact Policy.exists_of_requireAttack authorised.1
  next other =>
    rw [if_neg other]
    split at authorised
    next none =>
      rw [List.isEmpty_iff] at none
      simp only [check_eq_ok_iff] at authorised
      exact ⟨by simp [none], fun _ => Policy.allows_of_require authorised.1⟩
    next some =>
      rw [List.isEmpty_iff] at some
      refine ⟨fun object member => ?_, fun none => absurd none some⟩
      obtain ⟨_, _, required⟩ := Builder.exists_of_forM authorised member
      simp only [check_eq_ok_iff] at required
      exact Policy.allows_of_require required.1

end Context

def Judgement.Mediated (D : Declarations) (type : String) : Judgement → Prop
  | .command c ctx flow b flow' b' => ctx.IsBody D type →
      Build.Mediates D type (c.accesses D (flow.scope.names D)) b b' ∧
        flow'.scope.names D = (flow.scope.names D).hide c.binds
  | .sequence cs _ ctx flow b flow' b' => ctx.IsBody D type →
      Build.Mediates D type (Command.accessesAll D cs (flow.scope.names D)) b b' ∧
        flow'.scope.names D = (flow.scope.names D).hide (Command.bindsAll cs)
  | .arms as _ ctx _ scope _ b _ b' => ctx.IsBody D type →
      Build.Mediates D type (Arm.accessesAll D as (scope.names D)) b b'
  | .bind x value ctx flow b flow' b' => ctx.IsBody D type →
      Build.Mediates D type (value.accesses D (flow.scope.names D)) b b' ∧
        flow'.scope.names D = (flow.scope.names D).hide [x]
  | .term e ctx scope _ b _ _ b' => ctx.IsBody D type →
      Build.Mediates D type (e.accesses D (scope.names D)) b b'
  | .terms es ctx scope _ b _ _ b' => ctx.IsBody D type →
      Build.Mediates D type (Expr.accessesAll D (scope.names D) es) b b'
  | .arguments es ctx scope _ b args _ b' => ctx.IsBody D type →
      Build.Mediates D type (Expr.accessesAll D (scope.names D) es) b b' ∧
        args.filterMap Argument.store? = es.filterMap (Expr.store? (scope.names D))
  | .call f args ctx scope _ _ b _ b' => ctx.IsBody D type →
      Build.Mediates D type (Expr.accessesAll D (scope.names D) args ++
        [.call f (args.filterMap (Expr.store? (scope.names D)))]) b b'
  | .invoke d args ctx _ _ _ _ _ => ctx.IsBody D type →
      D.callables.find? d.name = some d → d.role.target? = none →
      (Access.call d.name (args.filterMap Argument.store?)).Granted D type
  -- Inside a definition nothing is checked.
  | .alternatives .. | .inlined .. | .params .. => True

theorem Elaborates.mediated {D : Declarations} {type : String} (decls : D.Sound)
    (callables : D.callables.Sound)
    (apart : ∀ x, D.constants.contains x = true → D.stores.contains x = false) {J : Judgement}
    (derived : Elaborates J) : J.Mediated D type := by
  -- The names of the syntax are the names in scope, so what is listed for the parts of a piece of
  -- code lines up with the nodes that the parts draw.
  induction derived with
  | skip => exact fun _ => ⟨.same rfl, by simp [Command.binds]⟩
  | seq _ ih => exact ih
  | bind _ ih => exact ih
  | new declared => exact fun _ => ⟨.leave (.same rfl) rfl, Scope.names_declare_value declared⟩
  | branch _ ih => exact fun body => ⟨.enter (ih body) rfl, by simp [Command.binds]⟩
  | loop _ _ ih ih' =>
    intro body
    obtain ⟨ran, bound⟩ := ih (body.enter _)
    have tried := ih' (body.enter _)
    simp only [bound, Scope.names_child] at ran tried
    have drawn := (ran.enter rfl).trans (tried.enter rfl)
    exact ⟨(drawn.leave rfl).before (Graph.actions_connect ..), by simp [Command.binds]⟩
  | call _ ih => exact fun body => ⟨ih body, by simp [Command.binds]⟩
  | emit _ ih =>
    exact fun body => ⟨((ih body).leave rfl).before rfl, by simp [Command.binds]⟩
  | put puts resolved permitted _ ih =>
    intro body
    have allowed := Context.granted_of_permit body permitted
    obtain rfl := body.decls
    have found := Context.find?_name_of_resolveStore decls resolved
    simp only [Command.accesses, Context.names_of_resolveStore decls resolved]
    exact ⟨(ih body).trans (.touch ⟨_, found, allowed⟩), by simp [Command.binds]⟩
  | @take action target e _ ctx flow _ _ _ _ _ _ takes resolved permitted read declared =>
    intro body
    have allowed := Context.granted_of_permit body permitted
    obtain rfl := body.decls
    have found := Context.find?_name_of_resolveStore decls resolved
    -- A pattern calls nothing, so there is no access but the one of the command itself.
    obtain ⟨uncalled, free⟩ := Context.accesses_of_plain (flow.scope.names ctx.decls) read
    have reads := Context.reads_plain read
    rw [Command.accesses, Context.names_of_resolveStore decls resolved, uncalled]
    refine ⟨.after (.touch ⟨_, found, allowed⟩) (by rw [reads.graph]), ?_⟩
    rw [Scope.names_declareAll (free (by simp [Context.Free, Table.empty])) declared]
    simp [Command.binds]
  | retValue inside _ _ _ =>
    -- Only a definition returns.
    intro body
    simp [body.outside] at inside
  | retNothing inside _ _ _ =>
    intro body
    simp [body.outside] at inside
  | last => exact fun _ => ⟨.same rfl, by simp [Command.bindsAll]⟩
  | next _ _ ih ih' =>
    intro body
    obtain ⟨first, bound⟩ := ih (body.enter _)
    obtain ⟨rest, bound'⟩ := ih' body
    rw [bound] at rest bound'
    exact ⟨first.trans rest, by simp [bound', Command.bindsAll]⟩
  | noArm | str | ident _ | noTerm => exact fun _ => .same rfl
  | dropArm never _ ih =>
    intro body
    have reads := Context.reads_conditions never
    -- Literals decide against the arm in the syntax as well, which leaves it out.
    have dead := (Context.isSome_conditions never).symm
    simp only [Option.isSome_none] at dead
    simp only [Arm.accessesAll, dead]
    exact (ih body).after (by simp [Build.note, reads.graph])
  | @takeArm _ _ _ _ ctx _ scope _ _ _ _ _ _ _ _ guarded _ _ ih ih' =>
    intro body
    obtain ⟨ran, -⟩ := ih (body.enter _)
    have reads := Context.reads_conditions guarded
    have live := (Context.isSome_conditions guarded).symm
    obtain rfl := body.decls
    have uncalled := Context.accesses_of_conditions (scope.names ctx.decls) guarded
    rw [Option.isSome_some] at live
    rw [Scope.names_child] at ran
    rw [Context.decls_enter] at uncalled
    rw [Arm.accessesAll, if_pos live, uncalled]
    exact ((ran.enter rfl).trans (ih' body)).after (by rw [reads.graph])
  | bindCall _ callable _ declared ih =>
    intro body
    obtain rfl := body.decls
    have noSymbol := (Bool.and_eq_true_iff.mp callable).1
    rw [Bool.not_eq_true'] at noSymbol
    refine ⟨?_, Scope.names_declare_value declared⟩
    rw [Expr.accesses, if_neg (by simp [noSymbol])]
    exact (ih body).after rfl
  | bindTerm _ _ _ declared ih =>
    intro body
    exact ⟨.leave (.before (ih body) rfl) rfl, Scope.names_declare_value declared⟩
  | tuple _ _ ih => exact ih
  | symbol arity _ ih =>
    intro body
    obtain rfl := body.decls
    rw [Expr.accesses, if_pos (by simp [Theory.hasSymbol, Table.contains, arity]),
      List.append_nil]
    exact ih body
  | callTerm free _ _ ih =>
    intro body
    obtain rfl := body.decls
    rw [Expr.accesses, if_neg (by simp [Theory.hasSymbol, Table.contains, free])]
    exact (ih body).after rfl
  | someTerms _ _ ih ih' => exact fun body => (ih body).trans (ih' body)
  | noArgument => exact fun _ => ⟨.same rfl, rfl⟩
  | storeArgument named _ ih =>
    intro body
    obtain rfl := body.decls
    obtain ⟨rest, stores⟩ := ih body
    rw [Context.storeNamed?_eq apart] at named
    rw [Expr.accessesAll, Expr.accesses_of_store? named]
    exact ⟨rest, by simp [Argument.store?, named, stores]⟩
  | valueArgument unnamed _ _ ih ih' =>
    intro body
    obtain rfl := body.decls
    obtain ⟨rest, stores⟩ := ih' body
    rw [Context.storeNamed?_eq apart] at unnamed
    exact ⟨(ih body).trans rest,
      by rw [List.filterMap_cons_none rfl, List.filterMap_cons_none unnamed, stores]⟩
  | callee found passing invoked ih ih' =>
    intro body
    obtain ⟨known, free, -⟩ := Context.callee_eq_ok found
    rw [body.decls] at known
    obtain rfl := callables.named _ _ known
    obtain ⟨passed, stores⟩ := ih body
    -- What the call adds may touch anything: it is accounted for as a whole.
    have granted := ih' body known free
    rw [stores] at granted
    exact passed.trans
      (.call granted ⟨_, _, _, _, _, _, _, _, body, known, stores, invoked, rfl, rfl⟩)
  | direct typed authorised _ _ _ | site typed authorised _ _ _ _
  | deadSite typed authorised _ _ _ =>
    exact fun body known free => Context.granted_of_authorise body known free typed authorised
  | noAlternative | someAlternatives _ _ _ _ | inline _ _ _ _ _ | noParam | storeParam _ _ _
  | valueParam _ _ _ => trivial

theorem Context.names_bindChannels {ctx : Context} (decls : ctx.decls.Sound)
    {channels : Table String String} {params : List Param} {scope scope' : Scope} {b b' : Build}
    (done : ctx.bindChannels channels params scope b = .ok (scope', b')) (x : String) :
    scope'.names ctx.decls x =
      if x ∈ params.map (·.name) then channels.find? x else scope.names ctx.decls x := by
  induction params generalizing scope b with
  | nil =>
    obtain ⟨rfl, -⟩ : scope = scope' ∧ b = b' := by simpa [bindChannels] using done
    simp
  | cons param rest ih =>
    unfold bindChannels at done
    cases passed : channels.find? param.name with
    | none => simp [passed] at done
    | some name =>
      simp only [passed, Builder.bind_eq_ok_iff, check_eq_ok_iff, ite_flaw_eq_ok_iff,
        declare_eq_ok_iff] at done
      obtain ⟨decl, b₁, ⟨got, rfl⟩, -, scope₁, b₂, ⟨declared, rfl⟩, others⟩ := done
      have named := (decls.store (Registry.find?_of_get got)).named
      rw [ih others, Scope.names_declare_store declared, Function.update_apply, named]
      grind

/-- Whatever the body of a process does with stores and definitions is granted to its type, and
every node of an instance that touches a store comes from that. -/
theorem elaborate_mediated {budget : Int} {M : Model} {D : Declarations}
    (made : Declarations.ofModel budget M = .ok D) {template : Template} {name : String}
    {channels : Table String String} {first : Nat} {e : Elaborated}
    (done : elaborate D template name channels first = .ok e) :
    (∀ access ∈ template.accesses D channels, access.Granted D template.type) ∧
      Access.Accounts D template.type [] (template.accesses D channels) e.inst.graph.actions := by
  have decls := Declarations.sound_of_ofModel made
  have callables := Callables.sound_of_ofModel made
  have apart (x : String) : D.constants.contains x = true → D.stores.contains x = false :=
    Declarations.apart_of_ofModel made
  obtain ⟨b, ran, -⟩ := exists_build_of_elaborate done
  obtain ⟨scope, flow, flow', b₁, b₂, channelled, vars, main, closed, inst⟩ := template.derives ran
  have outer : (template.context D name).IsBody D template.type := ⟨rfl, rfl, rfl⟩
  have names : scope.names D = template.names D channels :=
    funext fun x => Context.names_bindChannels decls channelled x
  obtain ⟨bound, hidden⟩ := vars.mediated decls callables apart (outer.enter _)
  obtain ⟨drawn, -⟩ := main.mediated decls callables apart (outer.enter _)
  rw [hidden, names] at drawn
  rw [names] at bound
  have ended : Build.Mediates D template.type [] b₂ b := by
    rw [closed, Build.close]
    split
    next => exact .same rfl
    next => exact .mark _ _ _ rfl
  have mediates := ((bound.enter rfl).trans drawn).trans ended
  rw [List.append_nil] at mediates
  rw [inst]
  exact ⟨mediates.granted, mediates.accounted⟩

def Template.relay : Template where
  name := "Relay"
  type := "host_t"
  params := [{ name := "c", type := "net_t" }]
  main := .seq
    [.bind "x" (.apply "recv" [.ident "c" none] none),
     .store .insert "c" (.apply "h" [.apply "stamp" [.ident "x" none] none] none) none,
     .call "leak" [.ident "x" none] none,
     .branch
      -- Nothing may be taken out, but this arm is never taken.
      [.guarded [{ left := .str "in", right := .str "out", negated := false }]
        (.store .remove "c" (.ident "x" none) none),
       .guarded [] (.emit { tag := "Passed", args := [.ident "x" none] })]]

def Model.relayed : Model where
  functions := [{ name := "h", arity := 1 }]
  types := [{ name := "host_t", kind := .process }, { name := "net_t", kind := .channel }]
  grants := [{ subject := "host_t", object := some "net_t", operations := ["recv", "insert"] },
    { subject := "host_t", object := none, operations := ["stamp"] }]
  attackerGrants := [{ subject := "host_t", attacks := ["leak"] }]
  syscalls := [{ name := "stamp", params := ["v"],
                 body := .ret (.tuple [.ident "v" none, .str "now"]) none }]
  attacks := [{ name := "leak", params := ["v"], target := none,
                body := .store .insert attackerStore (.ident "v" none) none }]
  channels := [{ name := "net", type := "net_t" }]
  processes := [.relay]
  system := some
    { instances := [{ template := "Relay", args := ["net"], name := some "r" }]
      lemmas := [{ name := "passes", kind := .reachable,
                   events := [{ tag := "Passed", args := [.ident "y" none] }] }] }

theorem elaborate_relay_mediated : ∃ D e accesses,
    Declarations.ofModel 64 .relayed = .ok D ∧
    elaborate D .relay "r" (.ofList [("c", "net")]) 0 = .ok e ∧
    accesses = [.call "recv" ["net"], .call "stamp" [], .touch .insert "net", .call "leak" []] ∧
    (∀ access ∈ accesses, access.Granted D "host_t") ∧
    Access.Accounts D "host_t" [] accesses e.inst.graph.actions ∧
    e.inst.graph.actions.filterMap Action.store? = ["net", "net", attackerStore] ∧
    ¬ (Access.touch .insert attackerStore).Granted D "host_t" := by
  have computed : (do
      let D ← Declarations.ofModel 64 .relayed
      let e ← elaborate D .relay "r" (.ofList [("c", "net")]) 0
      return (Template.relay.accesses D (.ofList [("c", "net")]),
        e.inst.graph.actions.filterMap Action.store?,
        (D.stores.stores.find? attackerStore).map fun decl =>
          D.policy.allows "host_t" decl.type StoreAction.insert.word) :
        Result (List Access × List String × Option Bool)) =
      .ok ([.call "recv" ["net"], .call "stamp" [], .touch .insert "net", .call "leak" []],
        ["net", "net", attackerStore], some false) := by
    decide +kernel
  simp only [Result.bind_eq_ok_iff, Result.pure_eq_ok_iff, Prod.mk.injEq,
    Option.map_eq_some_iff] at computed
  obtain ⟨D, made, e, done, listed, touched, decl, found, refused⟩ := computed
  obtain ⟨granted, accounts⟩ := elaborate_mediated made done
  rw [listed] at granted accounts
  refine ⟨D, e, _, made, done, rfl, granted, accounts, touched, ?_⟩
  rintro ⟨other, found', allowed⟩
  obtain rfl := Option.some.inj (found'.symm.trans found)
  simp [refused] at allowed

end ThreatModel
