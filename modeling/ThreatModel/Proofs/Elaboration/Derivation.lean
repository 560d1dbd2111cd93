import Mathlib
import ThreatModel.Proofs.Result
import ThreatModel.Proofs.Elaboration.Rules

set_option autoImplicit false

namespace ThreatModel

namespace Builder

variable {α β : Type}

theorem bind_eq_ok_iff {m : Builder α} {f : α → Builder β} {b : Build} {r : β × Build} :
    (m >>= f) b = .ok r ↔ ∃ a b₁, m b = .ok (a, b₁) ∧ f a b₁ = .ok r := by
  change (Except.bind (m b) fun p => f p.1 p.2) = .ok r ↔ _
  cases m b with
  | error fault => simp [Except.bind]
  | ok p => exact ⟨fun done => ⟨p.1, p.2, rfl, done⟩, by rintro ⟨a, b₁, ⟨⟩, done⟩; exact done⟩

@[simp] theorem pure_apply (a : α) (b : Build) : (pure a : Builder α) b = .ok (a, b) := rfl

theorem lift_eq_ok_iff {x : Result α} {b b' : Build} {a : α} :
    (liftM x : Builder α) b = .ok (a, b') ↔ x = .ok a ∧ b' = b := by
  change (Except.bind x fun a => .ok (a, b)) = .ok (a, b') ↔ _
  cases x <;> simp [Except.bind, eq_comm]

theorem ite_apply {c : Prop} [Decidable c] (m m' : Builder α) (b : Build) :
    (if c then m else m') b = if c then m b else m' b := by
  split <;> rfl

@[simp] theorem freshVar_apply (name : String) (b : Build) :
    freshVar name b = .ok (b.varFor name, b.takeVar name) := rfl

@[simp] theorem nonce_apply (b : Build) : nonce b = .ok (b.nextNonce, b.takeNonce) := rfl

@[simp] theorem connect_apply (source target : Nat) (b : Build) :
    connect source target b = .ok ((), b.connect source target) := rfl

@[simp] theorem get_apply (b : Build) : (get : Builder Build) b = .ok (b, b) := rfl

@[simp] theorem modify_apply (f : Build → Build) (b : Build) :
    (modify f : Builder Unit) b = .ok ((), f b) := rfl

@[simp] theorem throw_apply (fault : Fault) (b : Build) :
    (throw fault : Builder α) b = .error fault := rfl

def Leaves (m : Builder α) : Prop := ∀ b a b', m b = .ok (a, b') → b' = b

theorem Leaves.pure {a : α} : (pure a : Builder α).Leaves := by
  intro b a' b' done
  obtain ⟨-, rfl⟩ : a = a' ∧ b = b' := by simpa using done
  rfl

theorem Leaves.bind {m : Builder α} {f : α → Builder β} (first : m.Leaves)
    (second : ∀ a, (f a).Leaves) : (m >>= f).Leaves := by
  intro b r b' done
  obtain ⟨a, b₁, here, later⟩ := bind_eq_ok_iff.mp done
  rw [second a b₁ r b' later, first b a b₁ here]

theorem Leaves.ite {c : Prop} [Decidable c] {m m' : Builder α} (yes : m.Leaves) (no : m'.Leaves) :
    (if c then m else m').Leaves := by
  split <;> assumption

theorem Leaves.run {m : Builder α} (leaves : m.Leaves) {b b' : Build} {a : α}
    (done : m b = .ok (a, b')) : b' = b ∧ m b = .ok (a, b) := by
  obtain rfl := leaves b a b' done
  exact ⟨rfl, done⟩

end Builder

namespace Context

variable {α β : Type} {ctx : Context} {b b' : Build} {location : Option Location} {cause : Cause}
  {scope : Scope} {x : String}

@[simp] theorem append_apply (ctx : Context) (action : Action) (ends : Ends) (b : Build) :
    ctx.append action ends b = .ok (b.graph.size, b.append ctx action ends) := rfl

@[simp] theorem note_apply (ctx : Context) (text : String) (b : Build) :
    ctx.note text b = .ok ((), b.note ctx text) := rfl

theorem check_eq_ok_iff {x : Except Diagnostic α} {a : α} :
    ctx.check x b = .ok (a, b') ↔ x = .ok a ∧ b' = b := by
  cases x <;> simp [check, eq_comm]

@[simp] theorem flaw_ne_ok {r : α × Build} : (ctx.flaw cause location : Builder α) b ≠ .ok r := by
  simp [flaw, check]

@[simp] theorem flaw_bind_ne_ok {f : α → Builder β} {r : β × Build} :
    (ctx.flaw cause location >>= f) b ≠ .ok r := by
  simp [Builder.bind_eq_ok_iff]

theorem ite_flaw_eq_ok_iff {c : Prop} [Decidable c] {f : α → Builder β} {m : Builder β}
    {r : β × Build} :
    (if c then ctx.flaw cause location >>= f else m) b = .ok r ↔ ¬ c ∧ m b = .ok r := by
  split <;> simp_all

theorem declare_eq_ok_iff {scope' : Scope} {binding : Binding} :
    ctx.declare scope x binding b = .ok (scope', b') ↔
      scope.declare x binding = .ok scope' ∧ b' = b := by
  unfold declare
  cases scope.declare x binding with
  | ok made => simp [eq_comm]
  | error cause => simp

theorem leaves_check {x : Except Diagnostic α} : (ctx.check x).Leaves :=
  fun _ _ _ done => (check_eq_ok_iff.mp done).2

theorem leaves_flaw : (ctx.flaw cause location : Builder α).Leaves :=
  fun _ _ _ done => absurd done flaw_ne_ok

theorem leaves_declare {binding : Binding} : (ctx.declare scope x binding).Leaves :=
  fun _ _ _ done => (declare_eq_ok_iff.mp done).2

theorem leaves_known {binds : Table String String} : (ctx.known scope binds x).Leaves := by
  unfold known
  repeat' split
  all_goals first | exact leaves_flaw | exact .pure

theorem leaves_resolveStore {target : String} : (ctx.resolveStore scope target).Leaves := by
  unfold resolveStore
  repeat' split
  all_goals first | exact leaves_flaw | exact leaves_check | exact .pure

theorem leaves_permit {action : StoreAction} {store : StoreDecl} :
    (ctx.permit action store).Leaves := by
  unfold permit
  repeat' first
    | exact leaves_flaw
    | exact leaves_check
    | exact .pure
    | apply Builder.Leaves.ite
    | refine Builder.Leaves.bind ?_ fun _ => ?_

theorem leaves_declareAll {entries : List (String × String)} :
    (ctx.declareAll scope entries).Leaves := by
  induction entries generalizing scope with
  | nil => exact .pure
  | cons entry rest ih => exact .bind leaves_declare fun _ => ih

theorem leaves_objectTypes {args : List Argument} : (ctx.objectTypes args).Leaves := by
  induction args with
  | nil => exact .pure
  | cons arg rest ih =>
    cases arg with
    | value t => exact ih
    | store name => exact .bind leaves_check fun _ => .bind ih fun _ => .pure

theorem leaves_authorise {d : Definition} {objects : List String} :
    (ctx.authorise d objects).Leaves := by
  have each : (objects.forM fun object => ctx.check
      (ctx.decls.policy.require ctx.type (some object) d.name (some ctx.position) none)).Leaves := by
    induction objects with
    | nil => exact .pure
    | cons object rest ih => exact .bind leaves_check fun _ => ih
  exact .ite .pure (.ite leaves_check (.ite leaves_check each))

theorem leaves_callee {name : String} {got : Nat} : (ctx.callee name got).Leaves := by
  unfold callee
  split
  next => exact leaves_flaw
  next =>
    split
    next => exact leaves_flaw
    next => exact .bind leaves_check fun _ => .ite leaves_flaw .pure

def Inlines (inline : Inline) : Prop :=
  ∀ {ctx : Context} {d : Definition} {args : List Argument} {ends ends' : Ends}
    {result : Option String} {b b' : Build}, inline ctx d args ends result b = .ok (ends', b') →
    Elaborates (.inlined d args ctx ends result b ends' b')

section Expressions

variable {inline : Inline} {result : Option String} {ctx : Context} {b' b : Build} {ends : Ends}

theorem derives_alternatives (inlines : Inlines inline) {args : List Argument} {site : Nat}
    {plan : List Callables.Alternative}
    (done : alternatives inline ctx args result site plan b = .ok (ends, b')) :
    Elaborates (.alternatives plan args ctx result site b ends b') := by
  induction plan generalizing b ends with
  | nil =>
    obtain ⟨rfl, rfl⟩ : [] = ends ∧ b = b' := by simpa [alternatives] using done
    exact .noAlternative
  | cons alternative rest ih =>
    simp only [alternatives, Builder.bind_eq_ok_iff, append_apply, Builder.pure_apply] at done
    obtain ⟨entry, b₁, ⟨⟩, here, b₂, first, later, b₃, others, ⟨⟩⟩ := done
    exact .someAlternatives (inlines first) (ih others)

theorem derives_invoke (inlines : Inlines inline) {d : Definition} {args : List Argument}
    {ends' : Ends} (done : invoke inline ctx d args ends result b = .ok (ends', b')) :
    Elaborates (.invoke d args ctx ends result b ends' b') := by
  simp only [invoke, Builder.bind_eq_ok_iff] at done
  obtain ⟨objects, b₁, typed, ⟨⟩, b₂, authorised, done⟩ := done
  obtain ⟨rfl, typed⟩ := leaves_objectTypes.run typed
  obtain ⟨rfl, authorised⟩ := leaves_authorise.run authorised
  rw [Builder.ite_apply] at done
  split at done
  next single => exact .direct typed authorised single (inlines done)
  next several =>
    -- Several definitions may run here; control goes on if one of them comes back.
    simp only [Builder.bind_eq_ok_iff, append_apply] at done
    obtain ⟨site, b₃, ⟨⟩, out, b₄, tried, done⟩ := done
    have sides := derives_alternatives inlines tried
    cases out with
    | nil =>
      obtain ⟨rfl, rfl⟩ : [] = ends' ∧ b₄ = b' := by simpa using done
      exact .deadSite typed authorised several sides
    | cons first others =>
      simp only [List.isEmpty_cons, Bool.false_eq_true, if_false, Builder.bind_eq_ok_iff,
        append_apply, Builder.pure_apply] at done
      obtain ⟨join, b₅, ⟨⟩, ⟨⟩⟩ := done
      exact .site typed authorised several sides (by simp)

mutual

theorem derives_term (inlines : Inlines inline) {ctx : Context} {scope : Scope} :
    ∀ {e : Expr} {ends ends' : Ends} {b b' : Build} {t : Term},
    term inline ctx scope e ends b = .ok ((t, ends'), b') →
    Elaborates (.term e ctx scope ends b t ends' b')
  | .str s, ends, ends', b, b', t, done => by
    simp only [term, Builder.pure_apply] at done
    cases done
    exact .str
  | .ident x loc, ends, ends', b, b', t, done => by
    simp only [term, Builder.bind_eq_ok_iff] at done
    obtain ⟨found, b₁, known, done⟩ := done
    obtain ⟨rfl, known⟩ := leaves_known.run known
    cases found with
    | none => simp at done
    | some value =>
      simp only [Builder.pure_apply] at done
      cases done
      exact .ident known
  | .tuple items, ends, ends', b, b', t, done => by
    simp only [term, Builder.bind_eq_ok_iff, Builder.lift_eq_ok_iff, Builder.pure_apply] at done
    obtain ⟨⟨ts, ends₁⟩, b₁, each, made, b₂, ⟨tupled, rfl⟩, ⟨⟩⟩ := done
    exact .tuple (derives_terms inlines each) tupled
  | .apply f args loc, ends, ends', b, b', t, done => by
    cases declared : ctx.decls.theory.symbols.find? f with
    | some arity =>
      simp only [term, declared, Builder.ite_apply] at done
      split at done
      next => simp at done
      next same =>
        simp only [Builder.bind_eq_ok_iff, Builder.pure_apply] at done
        obtain ⟨⟨ts, ends₁⟩, b₁, each, ⟨⟩⟩ := done
        obtain rfl : arity = args.length := by simpa using same
        exact .symbol declared (derives_terms inlines each)
    | none =>
      simp only [term, declared, Builder.ite_apply] at done
      split at done
      next callable =>
        simp only [Builder.bind_eq_ok_iff, Builder.freshVar_apply, Builder.pure_apply] at done
        obtain ⟨x, b₁, ⟨⟩, d, b₂, found, ⟨passed, ends₁⟩, b₃, passing, ends₂, b₄, invoked, ⟨⟩⟩ :=
          done
        obtain ⟨rfl, found⟩ := leaves_callee.run found
        exact .callTerm declared callable
          (.callee found (derives_arguments inlines passing) (derives_invoke inlines invoked))
      next => simp at done
  | .unsupported loc, ends, ends', b, b', t, done => by simp [term] at done

theorem derives_terms (inlines : Inlines inline) {ctx : Context} {scope : Scope} :
    ∀ {es : List Expr} {ends ends' : Ends} {b b' : Build} {ts : List Term},
    terms inline ctx scope es ends b = .ok ((ts, ends'), b') →
    Elaborates (.terms es ctx scope ends b ts ends' b')
  | [], ends, ends', b, b', ts, done => by
    simp only [terms, Builder.pure_apply] at done
    cases done
    exact .noTerm
  | e :: es, ends, ends', b, b', ts, done => by
    simp only [terms, Builder.bind_eq_ok_iff, Builder.pure_apply] at done
    obtain ⟨⟨t, ends₁⟩, b₁, first, ⟨others, ends₂⟩, b₂, rest, ⟨⟩⟩ := done
    exact .someTerms (derives_term inlines first) (derives_terms inlines rest)

theorem derives_arguments (inlines : Inlines inline) {ctx : Context} {scope : Scope} :
    ∀ {es : List Expr} {ends ends' : Ends} {b b' : Build} {args : List Argument},
    arguments inline ctx scope es ends b = .ok ((args, ends'), b') →
    Elaborates (.arguments es ctx scope ends b args ends' b')
  | [], ends, ends', b, b', args, done => by
    simp only [arguments, Builder.pure_apply] at done
    cases done
    exact .noArgument
  | e :: es, ends, ends', b, b', args, done => by
    cases named : ctx.storeNamed? scope e with
    | some name =>
      simp only [arguments, named, Builder.bind_eq_ok_iff, Builder.pure_apply] at done
      obtain ⟨⟨others, ends₁⟩, b₁, rest, ⟨⟩⟩ := done
      exact .storeArgument named (derives_arguments inlines rest)
    | none =>
      simp only [arguments, named, Builder.bind_eq_ok_iff, Builder.pure_apply] at done
      obtain ⟨⟨t, ends₁⟩, b₁, first, ⟨others, ends₂⟩, b₂, rest, ⟨⟩⟩ := done
      exact .valueArgument named (derives_term inlines first) (derives_arguments inlines rest)

end

theorem derives_call (inlines : Inlines inline) {f : String} {args : List Expr} {scope : Scope}
    {ends' : Ends} (done : call inline ctx scope f args ends result b = .ok (ends', b')) :
    Elaborates (.call f args ctx scope ends result b ends' b') := by
  simp only [call, Builder.bind_eq_ok_iff] at done
  obtain ⟨d, b₁, found, ⟨passed, ends₁⟩, b₂, passing, invoked⟩ := done
  obtain ⟨rfl, found⟩ := leaves_callee.run found
  exact .callee found (derives_arguments inlines passing) (derives_invoke inlines invoked)

theorem derives_bindTerm (inlines : Inlines inline) {x : String} {value : Expr} {ctx : Context}
    {flow flow' : Flow} {b b' : Build} (new : flow.scope.own.contains x = false)
    (uncalled : ∀ f args loc, value = .apply f args loc →
      (!ctx.decls.theory.hasSymbol f && ctx.decls.callables.contains f) = false)
    (done : (do
      let (t, ends) ← term inline ctx flow.scope value flow.ends
      let y ← Builder.freshVar x
      let place ← ctx.append (.assign y t) ends
      return { flow with ends := [place], scope := ← ctx.declare flow.scope x (.value y) } :
        Builder Flow) b = .ok (flow', b')) :
    Elaborates (.bind x value ctx flow b flow' b') := by
  simp only [Builder.bind_eq_ok_iff, Builder.freshVar_apply, append_apply, declare_eq_ok_iff,
    Builder.pure_apply] at done
  obtain ⟨⟨t, ends⟩, b₁, evaluated, y, b₂, ⟨⟩, place, b₃, ⟨⟩, scope, b₄, ⟨declared, rfl⟩, ⟨⟩⟩ := done
  exact .bindTerm new uncalled (derives_term inlines evaluated) declared

theorem derives_bind (inlines : Inlines inline) {x : String} {value : Expr} {flow flow' : Flow}
    (done : bind inline ctx x value flow b = .ok (flow', b')) :
    Elaborates (.bind x value ctx flow b flow' b') := by
  simp only [bind, ite_flaw_eq_ok_iff] at done
  obtain ⟨new, done⟩ := done
  have new : flow.scope.own.contains x = false := by simpa using new
  cases value with
  | apply f args loc =>
    by_cases callable : (!ctx.decls.theory.hasSymbol f && ctx.decls.callables.contains f) = true
    · simp only [callable, if_true, Builder.bind_eq_ok_iff, Builder.freshVar_apply,
        declare_eq_ok_iff, Builder.pure_apply] at done
      obtain ⟨y, b₁, ⟨⟩, ends, b₂, called, scope, b₃, ⟨declared, rfl⟩, ⟨⟩⟩ := done
      exact .bindCall new callable (derives_call inlines called) declared
    · simp only [callable, Bool.false_eq_true, if_false] at done
      refine derives_bindTerm inlines new ?_ done
      rintro _ _ _ ⟨⟩
      simpa using callable
  | str s | ident y loc | tuple items | unsupported loc =>
    exact derives_bindTerm inlines new (by simp) done

end Expressions

section Commands

variable {inline : Inline} {ctx : Context} {b' b : Build} {flow' flow : Flow}
  {loc : Option Location}

theorem derives_emit (inlines : Inlines inline) {event : EventExpr}
    (done : emit inline ctx event flow b = .ok (flow', b')) :
    Elaborates (.command (.emit event) ctx flow b flow' b') := by
  simp only [emit, Builder.bind_eq_ok_iff, Builder.get_apply, append_apply, Builder.modify_apply,
    Builder.pure_apply] at done
  obtain ⟨⟨ts, ends⟩, b₁, each, current, b₂, ⟨⟩, place, b₃, ⟨⟩, ⟨⟩, b₄, ⟨⟩, ⟨⟩⟩ := done
  exact .emit (derives_terms inlines each)

theorem derives_touch (inlines : Inlines inline) {action : StoreAction} {target : String} {e : Expr}
    (done : touch inline ctx action target e flow b = .ok (flow', b')) :
    Elaborates (.command (.store action target e loc) ctx flow b flow' b') := by
  simp only [touch, Builder.bind_eq_ok_iff] at done
  obtain ⟨store, b₁, resolved, ⟨⟩, b₂, permitted, done⟩ := done
  obtain ⟨rfl, resolved⟩ := leaves_resolveStore.run resolved
  obtain ⟨rfl, permitted⟩ := leaves_permit.run permitted
  cases action with
  | insert =>
    simp only [Builder.bind_eq_ok_iff, append_apply, Builder.pure_apply] at done
    obtain ⟨⟨t, ends⟩, b₃, value, place, b₄, ⟨⟩, ⟨⟩⟩ := done
    exact .put (.inl rfl) resolved permitted (derives_term inlines value)
  | remove =>
    simp only [Builder.bind_eq_ok_iff, append_apply, Builder.pure_apply] at done
    obtain ⟨⟨t, ends⟩, b₃, value, place, b₄, ⟨⟩, ⟨⟩⟩ := done
    exact .put (.inr rfl) resolved permitted (derives_term inlines value)
  | consume =>
    simp only [Builder.bind_eq_ok_iff, append_apply, Builder.pure_apply] at done
    obtain ⟨⟨pattern, binds⟩, b₃, read, place, b₄, ⟨⟩, scope, b₅, declared, ⟨⟩⟩ := done
    obtain ⟨rfl, declared⟩ := leaves_declareAll.run declared
    exact .take (.inl rfl) resolved permitted read declared
  | read =>
    simp only [Builder.bind_eq_ok_iff, append_apply, Builder.pure_apply] at done
    obtain ⟨⟨pattern, binds⟩, b₃, read, place, b₄, ⟨⟩, scope, b₅, declared, ⟨⟩⟩ := done
    obtain ⟨rfl, declared⟩ := leaves_declareAll.run declared
    exact .take (.inr rfl) resolved permitted read declared

theorem derives_ret (inlines : Inlines inline) {e : Expr}
    (done : command inline (.ret e loc) ctx flow b = .ok (flow', b')) :
    Elaborates (.command (.ret e loc) ctx flow b flow' b') := by
  simp only [command, ite_flaw_eq_ok_iff, Builder.bind_eq_ok_iff] at done
  obtain ⟨inside, ⟨t, ends⟩, b₁, value, done⟩ := done
  have inside : ctx.frame.definition.isSome = true := by
    cases found : ctx.frame.definition <;> simp_all
  cases result : ctx.frame.result with
  | some x =>
    simp only [result, Builder.bind_eq_ok_iff, append_apply, Builder.pure_apply] at done
    obtain ⟨place, b₂, ⟨⟩, ⟨⟩⟩ := done
    exact .retValue inside result (derives_term inlines value)
  | none =>
    simp only [result, Builder.pure_apply] at done
    cases done
    exact .retNothing inside result (derives_term inlines value)

mutual

theorem derives_command (inlines : Inlines inline) : ∀ {c : Command} {ctx : Context}
    {flow flow' : Flow} {b b' : Build}, command inline c ctx flow b = .ok (flow', b') →
    Elaborates (.command c ctx flow b flow' b')
  | .skip, ctx, flow, flow', b, b', done => by
    simp only [command, Builder.pure_apply] at done
    cases done
    exact .skip
  | .seq cs, ctx, flow, flow', b, b', done => by
    simp only [command] at done
    exact .seq (derives_sequence inlines done)
  | .bind x value, ctx, flow, flow', b, b', done => by
    simp only [command] at done
    exact .bind (derives_bind inlines done)
  | .new x, ctx, flow, flow', b, b', done => by
    simp only [command, Builder.bind_eq_ok_iff, Builder.freshVar_apply, Builder.nonce_apply,
      append_apply, declare_eq_ok_iff, Builder.pure_apply] at done
    obtain ⟨y, b₁, ⟨⟩, id, b₂, ⟨⟩, place, b₃, ⟨⟩, scope, b₄, ⟨declared, rfl⟩, ⟨⟩⟩ := done
    exact .new declared
  | .branch as, ctx, flow, flow', b, b', done => by
    simp only [command, Builder.bind_eq_ok_iff, append_apply, Builder.pure_apply] at done
    obtain ⟨choice, b₁, ⟨⟩, out, b₂, arms, ⟨⟩⟩ := done
    exact .branch (derives_arms inlines arms)
  | .loop body as, ctx, flow, flow', b, b', done => by
    simp only [command, Builder.bind_eq_ok_iff, append_apply, Builder.connect_apply,
      Builder.pure_apply] at done
    obtain ⟨head, b₁, ⟨⟩, inner, b₂, repeated, choice, b₃, ⟨⟩, out, b₄, arms, again, b₅, ⟨⟩, ⟨⟩, b₆,
      ⟨⟩, ⟨⟩⟩ := done
    exact .loop (derives_command inlines repeated) (derives_arms inlines arms)
  | .call f args loc, ctx, flow, flow', b, b', done => by
    simp only [command, Builder.bind_eq_ok_iff, Builder.pure_apply] at done
    obtain ⟨ends, b₁, called, ⟨⟩⟩ := done
    exact .call (derives_call inlines called)
  | .emit event, ctx, flow, flow', b, b', done => by
    simp only [command] at done
    exact derives_emit inlines done
  | .store action target e loc, ctx, flow, flow', b, b', done => by
    simp only [command] at done
    exact derives_touch inlines done
  | .ret e loc, ctx, flow, flow', b, b', done => derives_ret inlines done
  | .unsupported loc, ctx, flow, flow', b, b', done => by simp [command] at done

theorem derives_sequence (inlines : Inlines inline) : ∀ {cs : List Command} {i : Nat}
    {ctx : Context} {flow flow' : Flow} {b b' : Build},
    sequence inline cs i ctx flow b = .ok (flow', b') →
    Elaborates (.sequence cs i ctx flow b flow' b')
  | [], i, ctx, flow, flow', b, b', done => by
    simp only [sequence, Builder.pure_apply] at done
    cases done
    exact .last
  | c :: cs, i, ctx, flow, flow', b, b', done => by
    simp only [sequence, Builder.bind_eq_ok_iff] at done
    obtain ⟨flow₁, b₁, first, rest⟩ := done
    exact .next (derives_command inlines first) (derives_sequence inlines rest)

theorem derives_arms (inlines : Inlines inline) : ∀ {as : List Arm} {i : Nat} {ctx : Context}
    {choice : Nat} {scope : Scope} {sofar out : Arms} {b b' : Build},
    armsFrom inline as i ctx choice scope sofar b = .ok (out, b') →
    Elaborates (.arms as i ctx choice scope sofar b out b')
  | [], i, ctx, choice, scope, sofar, out, b, b', done => by
    simp only [armsFrom, Builder.pure_apply] at done
    cases done
    exact .noArm
  | .guarded comparisons body :: as, i, ctx, choice, scope, sofar, out, b, b', done => by
    simp only [armsFrom, Builder.bind_eq_ok_iff] at done
    obtain ⟨conditions, b₁, guarded, done⟩ := done
    cases conditions with
    | none =>
      simp only [Builder.bind_eq_ok_iff, note_apply] at done
      obtain ⟨⟨⟩, b₂, ⟨⟩, rest⟩ := done
      exact .dropArm guarded (derives_arms inlines rest)
    | some group =>
      simp only [Builder.bind_eq_ok_iff, append_apply] at done
      obtain ⟨place, b₂, ⟨⟩, inner, b₃, chosen, rest⟩ := done
      exact .takeArm guarded (derives_command inlines chosen) (derives_arms inlines rest)

end

theorem derives_params {pairs : List (String × Argument)} {scope scope' : Scope} {ends ends' : Ends}
    (done : bindParams ctx pairs scope ends b = .ok ((scope', ends'), b')) :
    Elaborates (.params pairs ctx scope ends b scope' ends' b') := by
  induction pairs generalizing scope ends b with
  | nil =>
    simp only [bindParams, Builder.pure_apply] at done
    cases done
    exact .noParam
  | cons pair rest ih =>
    obtain ⟨x, _ | _⟩ := pair
    next name =>
      simp only [bindParams, Builder.bind_eq_ok_iff, declare_eq_ok_iff] at done
      obtain ⟨scope₁, b₁, ⟨declared, rfl⟩, others⟩ := done
      exact .storeParam declared (ih others)
    next t =>
      simp only [bindParams, Builder.bind_eq_ok_iff, Builder.freshVar_apply, append_apply,
        declare_eq_ok_iff] at done
      obtain ⟨y, b₁, ⟨⟩, place, b₂, ⟨⟩, scope₁, b₃, ⟨declared, rfl⟩, others⟩ := done
      exact .valueParam declared (ih others)

theorem inlines_inlineWith (inlines : Inlines inline) : Inlines (inlineWith (command inline)) := by
  intro ctx d args ends ends' result b b' done
  simp only [inlineWith, Builder.bind_eq_ok_iff, ite_flaw_eq_ok_iff, Builder.pure_apply] at done
  obtain ⟨⟨scope, ends₁⟩, b₁, params, flow, b₂, body, returned, ⟨⟩⟩ := done
  refine .inline (derives_params params) (derives_command inlines body) ?_
  intro wanted
  simpa [wanted] using returned

end Commands

theorem inlines_inlineUpTo (depth : Nat) : Inlines (inlineUpTo depth) := by
  induction depth with
  | zero =>
    intro ctx d args ends ends' result b b' done
    simp [inlineUpTo] at done
  | succ depth ih => exact inlines_inlineWith ih

theorem leaves_bindChannels {channels : Table String String} {params : List Param} :
    (ctx.bindChannels channels params scope).Leaves := by
  induction params generalizing scope with
  | nil => exact .pure
  | cons param rest ih =>
    unfold bindChannels
    cases channels.find? param.name with
    | none => intro b a b' done; simp at done
    | some name =>
      exact .bind leaves_check fun _ =>
        .ite (.bind leaves_flaw fun _ => .bind leaves_declare fun _ => ih)
          (.bind leaves_declare fun _ => ih)

theorem derives_vars {inline : Inline} (inlines : Inlines inline) {vars : List VarDecl} {i : Nat}
    {flow flow' : Flow} (done : bindVars inline ctx vars i flow b = .ok (flow', b')) :
    Elaborates (.sequence (vars.map fun v => .bind v.name v.init) i ctx flow b flow' b') := by
  induction vars generalizing i flow b with
  | nil =>
    simp only [bindVars, Builder.pure_apply] at done
    cases done
    exact .last
  | cons v rest ih =>
    -- Declared variables are bound like the commands of a sequence.
    simp only [bindVars, Builder.bind_eq_ok_iff] at done
    obtain ⟨flow₁, b₁, bound, others⟩ := done
    exact .next (.bind (derives_bind inlines bound)) (ih others)

end Context

def Template.context (template : Template) (D : Declarations) (name : String) : Context :=
  { decls := D, owner := name, type := template.type }

def Build.close (b : Build) (ctx : Context) (ends : Ends) : Build :=
  if ends.isEmpty then b else b.append ctx .finish ends

theorem Template.derives {template : Template} {D : Declarations} {name : String}
    {channels : Table String String} {b b' : Build} {inst : ProcessInstance}
    (done : template.elaborate D name channels b = .ok (inst, b')) :
    ∃ scope flow flow' b₁ b₂,
      (template.context D name).bindChannels channels template.params {} b = .ok (scope, b) ∧
      Elaborates (.sequence (template.vars.map fun v => .bind v.name v.init) 0
        ((template.context D name).enter "vars") { ends := [b.graph.size], scope }
        (b.append (template.context D name) .start []) flow b₁) ∧
      Elaborates (.command template.main ((template.context D name).enter "main") flow b₁ flow' b₂) ∧
      b' = b₂.close (template.context D name) flow'.ends ∧
      inst = { name, template := template.name, type := template.type, channels, graph := b'.graph,
               events := b'.events } := by
  have inlines : Context.Inlines (Context.inlineUpTo D.callables.definitions.size) :=
    Context.inlines_inlineUpTo _
  simp only [elaborate, Builder.bind_eq_ok_iff, Context.append_apply] at done
  obtain ⟨scope, b₀, channelled, start, b₁, ⟨⟩, flow, b₂, bound, flow', b₃, main, done⟩ := done
  obtain ⟨rfl, channelled⟩ := Context.leaves_bindChannels.run channelled
  refine ⟨scope, flow, flow', b₂, b₃, channelled, Context.derives_vars inlines bound,
    Context.derives_command inlines main, ?_⟩
  rw [Builder.ite_apply] at done
  split at done
  next leaves =>
    simp only [Builder.bind_eq_ok_iff, Context.append_apply, Builder.get_apply,
      Builder.pure_apply] at done
    obtain ⟨place, b₄, ⟨⟩, current, b₅, ⟨⟩, ⟨⟩⟩ := done
    have leaves : flow'.ends.isEmpty = false := by simpa using leaves
    simp [Build.close, leaves, Template.context]
  next stays =>
    simp only [Builder.bind_eq_ok_iff, Builder.get_apply, Builder.pure_apply] at done
    obtain ⟨current, b₄, ⟨⟩, ⟨⟩⟩ := done
    have stays : flow'.ends.isEmpty = true := by simpa using stays
    simp [Build.close, stays]

end ThreatModel
