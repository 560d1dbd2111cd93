import Mathlib
import ThreatModel.Proofs.Elaboration.Scoping

set_option autoImplicit false

namespace ThreatModel

def Action.isFresh : Action → Bool
  | .fresh .. => true
  | _ => false

namespace Context

def draw (ctx : Context) (x : String) (ends : Ends) : Builder Nat := do
  ctx.append (.fresh x (← Builder.nonce)) ends

def log (ctx : Context) (tag : String) (args : List Term) (ends : Ends) : Builder Nat := do
  let index := (← get).events.length
  let place ← ctx.append (.emit (.app tag args) index) ends
  modify fun b => b.addEvent
    { owner := ctx.owner, index, node := place, tag, arity := args.length, term := .app tag args }
  return place

theorem draw_apply (ctx : Context) (x : String) (ends : Ends) (b : Build) :
    ctx.draw x ends b =
      .ok (b.graph.size, b.takeNonce.append ctx (.fresh x b.nextNonce) ends) := rfl

theorem log_apply (ctx : Context) (tag : String) (args : List Term) (ends : Ends) (b : Build) :
    ctx.log tag args ends b =
      .ok (b.graph.size, (b.append ctx (.emit (.app tag args) b.events.length) ends).addEvent
        { owner := ctx.owner, index := b.events.length, node := b.graph.size, tag,
          arity := args.length, term := .app tag args }) := rfl

end Context

namespace Builder

variable {α β : Type} {P : Fault → Prop}

def Returns (m : Builder α) (a : α) : Prop := ∃ b b', m b = .ok (a, b')

/-- Done by primitive steps, one after another; the faults that it may end in are among `P`. -/
inductive Stepwise (P : Fault → Prop) : {α : Type} → Builder α → Prop
  | pure {α : Type} (a : α) : Stepwise P (Pure.pure a : Builder α)
  | fail {α : Type} {fault : Fault} (allowed : P fault) : Stepwise P (throw fault : Builder α)
  | bind {α β : Type} {m : Builder α} {f : α → Builder β} (first : Stepwise P m)
      (later : ∀ a, m.Returns a → Stepwise P (f a)) : Stepwise P (m >>= f)
  | freshVar (name : String) : Stepwise P (freshVar name)
  | append (ctx : Context) {action : Action} (ends : Ends) (plain : action.isFresh = false) :
      Stepwise P (ctx.append action ends)
  | draw (ctx : Context) (x : String) (ends : Ends) : Stepwise P (ctx.draw x ends)
  | log (ctx : Context) (tag : String) (args : List Term) (ends : Ends) :
      Stepwise P (ctx.log tag args ends)
  | connect (source target : Nat) : Stepwise P (connect source target)
  | note (ctx : Context) (text : String) : Stepwise P (ctx.note text)

theorem Stepwise.ite {c : Prop} [Decidable c] {m n : Builder α} (yes : m.Stepwise P)
    (no : n.Stepwise P) : (if c then m else n).Stepwise P := by
  split <;> assumption

theorem Stepwise.allowed {m : Builder α} (steps : m.Stepwise P) {b : Build} {fault : Fault}
    (failed : m b = .error fault) : P fault := by
  induction steps generalizing b with
  | fail allowed => exact Except.error.inj failed ▸ allowed
  | @bind α β m f first later ihFirst ihLater =>
    -- Either the first part failed, or it returned and what came after it failed.
    change (Except.bind (m b) fun p => f p.1 p.2) = .error fault at failed
    cases ran : m b with
    | error earlier =>
      rw [ran] at failed
      exact ihFirst (Except.error.inj failed ▸ ran)
    | ok p =>
      rw [ran] at failed
      exact ihLater p.1 ⟨b, p.2, ran⟩ failed
  | _ => cases failed

/-- Two ways of computing the same thing are compared step by step: what is done by primitive steps
compares to itself, and sequences compare if their parts do. -/
structure Respects (P : Fault → Prop) (R : (α : Type) → Builder α → Builder α → Prop) : Prop where
  steps : ∀ {α : Type} {m : Builder α}, m.Stepwise P → R α m m
  bind : ∀ {α β : Type} {m m' : Builder α} {f f' : α → Builder β}, R α m m' →
    (∀ a, m.Returns a → R β (f a) (f' a)) → R β (m >>= f) (m' >>= f')

theorem Respects.pure {R : (α : Type) → Builder α → Builder α → Prop} (respects : Respects P R)
    (a : α) : R α (Pure.pure a) (Pure.pure a) := respects.steps (.pure a)

theorem Respects.ite {R : (α : Type) → Builder α → Builder α → Prop} (_ : Respects P R) {c : Prop}
    [Decidable c] {m m' n n' : Builder α} (yes : c → R α m m') (no : ¬ c → R α n n') :
    R α (if c then m else n) (if c then m' else n') := by
  split
  next holds => exact yes holds
  next fails => exact no fails

def Alike (P : Fault → Prop) (m m' : Builder α) : Prop := m.Stepwise P ∧ m' = m

theorem Stepwise.alike {m : Builder α} (steps : m.Stepwise P) : m.Alike P m := ⟨steps, rfl⟩

theorem Alike.bind {m m' : Builder α} {f f' : α → Builder β} (first : m.Alike P m')
    (later : ∀ a, m.Returns a → (f a).Alike P (f' a)) : (m >>= f).Alike P (m' >>= f') := by
  obtain ⟨steps, rfl⟩ := first
  refine ⟨.bind steps fun a returned => (later a returned).1, funext fun b => ?_⟩
  change (Except.bind (m' b) fun p => f' p.1 p.2) = Except.bind (m' b) fun p => f p.1 p.2
  cases ran : m' b with
  | error fault => rfl
  | ok p => exact congrFun (later p.1 ⟨b, p.2, ran⟩).2 p.2

theorem respects_alike (P : Fault → Prop) : Respects P fun _ => Alike P :=
  ⟨Stepwise.alike, Alike.bind⟩

end Builder

def Diagnostic.Recurses (d : Diagnostic) : Prop := ∃ chain, d.cause = .recursiveCalls chain

theorem Callables.of_mem_plan {C : Callables} {d : Definition} {subjects : List String} {P : Policy}
    {intercept : Bool} {a : Alternative} (member : a ∈ C.plan d subjects P intercept) :
    a.definition = d ∨ intercept = true ∧ a.definition ∈ C.overridesOf d.name ∧
      ∃ subject, P.allowsAttack subject a.definition.name = true := by
  simp only [plan, List.mem_cons, List.mem_map] at member
  rcases member with rfl | ⟨attack, among, rfl⟩
  · exact .inl rfl
  · right
    split at among
    next => simp at among
    next intercepted =>
      obtain ⟨listed, granted⟩ := List.mem_filter.mp among
      obtain ⟨subject, -, allowed⟩ := List.any_eq_true.mp granted
      exact ⟨by grind, listed, subject, allowed⟩

def Policy.regrant (P Q : Policy) : Policy := { P with grants := Q.grants, rights := Q.rights }

def Declarations.within (D : Declarations) (s : SystemDecl) : Declarations := { D with system := s }

def Declarations.amend (D : Declarations) (Q : Policy → Policy) (s : SystemDecl) : Declarations :=
  { D with policy := D.policy.regrant (Q D.policy), system := s }

namespace Context

variable {α : Type} {P : Fault → Prop} {ctx : Context} {scope : Scope} {s : SystemDecl}

def within (ctx : Context) (s : SystemDecl) : Context := { ctx with decls := ctx.decls.within s }

def amend (ctx : Context) (Q : Policy → Policy) (s : SystemDecl) : Context :=
  { ctx with decls := ctx.decls.amend Q s }

section Checks

variable (flaws : ∀ d : Diagnostic, ¬ d.Recurses → P (.flaw d))

include flaws

theorem stepwise_check {x : Except Diagnostic α} (plain : ∀ d, x = .error d → ¬ d.Recurses) :
    (ctx.check x).Stepwise P := by
  cases x with
  | ok a => exact .pure a
  | error d => exact .fail (flaws _ (plain d rfl))

theorem stepwise_flaw {cause : Cause} {location : Option Location}
    (plain : ∀ chain, cause ≠ .recursiveCalls chain) :
    (ctx.flaw cause location : Builder α).Stepwise P := by
  refine stepwise_check flaws fun d failed => ?_
  rw [← Except.error.inj failed]
  exact fun ⟨chain, same⟩ => plain chain same

theorem stepwise_require {object : Option String} {operation : String}
    {position declaration : Option String} :
    (ctx.check (ctx.decls.policy.require ctx.type object operation position
      declaration)).Stepwise P := by
  refine stepwise_check flaws fun d failed => ?_
  simp only [Policy.require] at failed
  split at failed
  next => simp at failed
  next =>
    rw [← Except.error.inj failed]
    simp [Diagnostic.Recurses]

theorem stepwise_get {name : String} : (ctx.check (ctx.decls.stores.get name)).Stepwise P := by
  refine stepwise_check flaws fun d failed => ?_
  simp only [Registry.get] at failed
  split at failed
  next => simp at failed
  next =>
    rw [← Except.error.inj failed]
    simp [Diagnostic.Recurses]

theorem stepwise_declare {x : String} {binding : Binding} :
    (ctx.declare scope x binding).Stepwise P := by
  unfold declare
  cases made : scope.declare x binding with
  | ok scope' => exact .pure scope'
  | error cause =>
    simp only [Scope.declare] at made
    split at made
    next =>
      rw [← Except.error.inj made]
      exact stepwise_flaw flaws (by simp)
    next => simp at made

theorem stepwise_known {binds : Table String String} {x : String} :
    (ctx.known scope binds x).Stepwise P := by
  unfold known
  repeat' split
  all_goals first | exact stepwise_flaw flaws (by simp) | exact .pure _

theorem stepwise_resolveStore {target : String} : (ctx.resolveStore scope target).Stepwise P := by
  unfold resolveStore
  repeat' split
  all_goals
    first | exact stepwise_flaw flaws (by simp) | exact stepwise_get flaws | exact .pure _

theorem stepwise_objectTypes (args : List Argument) : (ctx.objectTypes args).Stepwise P := by
  induction args with
  | nil => exact .pure _
  | cons arg rest ih =>
    cases arg with
    | value t => exact ih
    | store name => exact .bind (stepwise_get flaws) fun _ _ => .bind ih fun _ _ => .pure _

end Checks

theorem not_mem_calls_of_callee {f : String} {got : Nat} {d : Definition} {b b' : Build}
    (done : ctx.callee f got b = .ok (d, b')) : f ∉ ctx.frame.calls := by
  obtain ⟨found, free, -⟩ := callee_eq_ok done
  intro again
  simp [callee, found, free, again, Builder.bind_eq_ok_iff] at done

def MayRun (ctx : Context) (f : String) (d : Definition) : Prop :=
  f ∉ ctx.frame.calls ∧ ∃ callee subjects, ctx.decls.callables.find? f = some callee ∧
    callee.role.target? = none ∧
    ∃ a ∈ ctx.decls.callables.plan callee subjects ctx.decls.policy ctx.frame.intercept,
      a.definition = d

structure Reasons (P : Fault → Prop) (C : Context → Part → Prop) : Prop where
  flaws : ∀ d : Diagnostic, ¬ d.Recurses → P (.flaw d)
  empty : ∀ ctx, C ctx (.expr (.tuple [])) → P .emptyTuple
  again : ∀ ctx part f d, C ctx part → part.callee? = some f →
    ctx.decls.callables.contains f = true → f ∈ ctx.frame.calls →
    d.cause = .recursiveCalls (ctx.frame.calls ++ [f]) → P (.flaw d)
  enter : ∀ ctx part segment, C ctx part → C (ctx.enter segment) part

structure Relates (P : Fault → Prop) (R : (α : Type) → Builder α → Builder α → Prop)
    (C : Context → Part → Prop) (Q : Policy → Policy) (s : SystemDecl) (inline inline' : Inline) :
    Prop extends Reasons P C, Builder.Respects P R where
  asks : ∀ ctx part object operation, C ctx part →
    R Unit
      (ctx.check (ctx.decls.policy.require ctx.type object operation (some ctx.position) none))
      ((ctx.amend Q s).check ((ctx.amend Q s).decls.policy.require ctx.type object operation
        (some ctx.position) none))
  inlines : ∀ ctx part f d args ends result, C ctx part → part.callee? = some f → ctx.MayRun f d →
    R Ends (inline ctx d args ends result) (inline' (ctx.amend Q s) d args ends result)

structure Admits (P : Fault → Prop) (C : Context → Part → Prop) (s : SystemDecl)
    (inline inline' : Inline) : Prop extends Reasons P C where
  inlines : ∀ ctx part f d args ends result, C ctx part → part.callee? = some f → ctx.MayRun f d →
    (inline ctx d args ends result).Alike P (inline' (ctx.within s) d args ends result)

theorem Admits.relates {C : Context → Part → Prop} {inline inline' : Inline}
    (admits : Admits P C s inline inline') :
    Relates P (fun _ => Builder.Alike P) C id s inline inline' where
  toReasons := admits.toReasons
  toRespects := Builder.respects_alike P
  asks _ _ _ _ _ := (stepwise_require admits.flaws).alike
  inlines := admits.inlines

section Walk

variable {C : Context → Part → Prop} {R : (α : Type) → Builder α → Builder α → Prop}
  {Q : Policy → Policy} {inline inline' : Inline}

theorem length_of_plains {isPattern : Bool} {es : List Expr} {binds : Table String String}
    {r : List Term × Table String String} (done : (ctx.plains scope isPattern es binds).Returns r) :
    r.1.length = es.length := by
  obtain ⟨b, b', done⟩ := done
  induction es generalizing binds r b with
  | nil =>
    simp only [plains, Builder.pure_apply] at done
    cases done
    rfl
  | cons e es ih =>
    simp only [plains, Builder.bind_eq_ok_iff, Builder.pure_apply] at done
    obtain ⟨first, b₁, -, later, b₂, rest, ⟨⟩⟩ := done
    simp [ih b₁ rest]

theorem length_of_terms {es : List Expr} {ends : Ends} {r : List Term × Ends}
    (done : (terms inline ctx scope es ends).Returns r) : r.1.length = es.length := by
  obtain ⟨b, b', done⟩ := done
  induction es generalizing ends r b with
  | nil =>
    simp only [terms, Builder.pure_apply] at done
    cases done
    rfl
  | cons e es ih =>
    simp only [terms, Builder.bind_eq_ok_iff, Builder.pure_apply] at done
    obtain ⟨first, b₁, -, later, b₂, rest, ⟨⟩⟩ := done
    simp [ih b₁ rest]

variable (relates : Relates P R C Q s inline inline') {part : Part} {f : String}

include relates

theorem Relates.flaw {cause : Cause} {location : Option Location}
    (plain : ∀ chain, cause ≠ .recursiveCalls chain) :
    R α (ctx.flaw cause location) (ctx.flaw cause location) :=
  relates.steps (stepwise_flaw relates.flaws plain)

theorem Relates.declare {x : String} {binding : Binding} :
    R _ (ctx.declare scope x binding) (ctx.declare scope x binding) :=
  relates.steps (stepwise_declare relates.flaws)

theorem stepwise_tuple {items : List Expr} {ts : List Term} (holds : C ctx (.expr (.tuple items)))
    (same : ts.length = items.length) : (liftM (Term.tuple ts) : Builder Term).Stepwise P := by
  unfold Term.tuple
  cases made : Term.tuple? ts with
  | some t => exact .pure t
  | none =>
    obtain rfl := Term.tuple?_eq_none made
    obtain rfl := List.length_eq_zero_iff.mp same.symm
    exact .fail (relates.empty ctx holds)

mutual

theorem related_plain (isPattern : Bool) : ∀ (e : Expr) (binds : Table String String),
    (∀ part ∈ e.parts, C ctx part) →
    R _ (ctx.plain scope isPattern e binds) ((ctx.amend Q s).plain scope isPattern e binds)
  | .str _, _, _ => relates.pure _
  | .ident x _, _, _ => by
    unfold plain
    refine relates.bind (relates.steps (stepwise_known relates.flaws)) fun found _ => ?_
    cases found with
    | some t => exact relates.pure _
    | none =>
      refine relates.ite (fun _ => ?_) fun _ => relates.flaw (by simp)
      exact relates.bind (relates.steps (.freshVar x)) fun y _ => relates.pure _
  | .tuple items, binds, holds => by
    obtain ⟨here, inner⟩ := List.forall_mem_cons.mp holds
    unfold plain
    refine relates.bind (related_plains isPattern items binds inner) fun r returned => ?_
    have tuple := stepwise_tuple relates here (length_of_plains returned)
    exact relates.bind (relates.steps tuple) fun t _ => relates.pure _
  | .apply f args _, binds, holds => by
    have same : (ctx.amend Q s).decls.theory.symbols.find? f =
      ctx.decls.theory.symbols.find? f := rfl
    cases declared : ctx.decls.theory.symbols.find? f with
    | some arity =>
      simp only [plain, same, declared]
      refine relates.ite (fun _ => relates.flaw (by simp)) fun _ => ?_
      exact relates.bind
        (related_plains isPattern args binds (List.forall_mem_cons.mp holds).2)
        fun _ _ => relates.pure _
    | none =>
      simp only [plain, same, declared]
      exact relates.ite (fun _ => relates.flaw (by simp)) fun _ => relates.flaw (by simp)
  | .unsupported _, _, _ => relates.flaw (by simp)

theorem related_plains (isPattern : Bool) : ∀ (es : List Expr) (binds : Table String String),
    (∀ part ∈ Expr.partsAll es, C ctx part) →
    R _ (ctx.plains scope isPattern es binds) ((ctx.amend Q s).plains scope isPattern es binds)
  | [], _, _ => relates.pure _
  | e :: es, binds, holds => by
    obtain ⟨here, others⟩ := List.forall_mem_append.mp holds
    unfold plains
    refine relates.bind (related_plain isPattern e binds here) fun first _ => ?_
    exact relates.bind (related_plains isPattern es _ others) fun _ _ => relates.pure _

end

theorem stepwise_callee {got : Nat} (holds : C ctx part) (calls : part.callee? = some f) :
    (ctx.callee f got).Stepwise P := by
  unfold callee
  split
  next => exact stepwise_flaw relates.flaws (by simp)
  next d found =>
    have known : ctx.decls.callables.contains f = true :=
      Table.contains_iff.mpr (Table.exists_find?_iff.mp ⟨d, found⟩)
    split
    next => exact stepwise_flaw relates.flaws (by simp)
    next =>
      refine .bind (stepwise_check relates.flaws fun d' failed => ?_) fun _ _ => ?_
      · simp only [Callables.checkArity] at failed
        split at failed
        next => simp at failed
        next =>
          rw [← Except.error.inj failed]
          simp [Diagnostic.Recurses]
      · split
        next again => exact .fail (relates.again ctx part f _ holds calls known again rfl)
        next => exact .pure d

theorem related_permit (holds : C ctx part) (action : StoreAction) (store : StoreDecl) :
    R _ (ctx.permit action store) ((ctx.amend Q s).permit action store) := by
  unfold permit
  refine relates.ite (fun _ => relates.bind (relates.asks ctx part _ _ holds) fun _ _ => ?_)
    fun _ => ?_
  all_goals
    refine relates.steps (.ite (.bind (stepwise_flaw relates.flaws (by simp)) fun _ _ => ?_) ?_)
    all_goals exact .ite (stepwise_flaw relates.flaws (by simp)) (.pure _)

theorem related_authorise (holds : C ctx part) (d : Definition) (objects : List String) :
    R _ (ctx.authorise d objects) ((ctx.amend Q s).authorise d objects) := by
  have each : R _ (objects.forM fun object => ctx.check
      (ctx.decls.policy.require ctx.type (some object) d.name (some ctx.position) none))
      (objects.forM fun object => (ctx.amend Q s).check ((ctx.amend Q s).decls.policy.require
        ctx.type (some object) d.name (some ctx.position) none)) := by
    induction objects with
    | nil => exact relates.pure _
    | cons object rest ih => exact relates.bind (relates.asks ctx part _ _ holds) fun _ _ => ih
  have attacks : (ctx.check (ctx.decls.policy.requireAttack (ctx.type :: objects) d.name
      (some ctx.position) none)).Stepwise P := by
    refine stepwise_check relates.flaws fun d failed => ?_
    simp only [Policy.requireAttack] at failed
    split at failed
    next => simp at failed
    next =>
      rw [← Except.error.inj failed]
      simp [Diagnostic.Recurses]
  refine relates.ite (fun _ => relates.pure _) fun _ => ?_
  refine relates.ite (fun _ => relates.steps attacks) fun _ => ?_
  exact relates.ite (fun _ => relates.asks ctx part _ _ holds) fun _ => each

theorem related_alternatives (args : List Argument) (result : Option String) (site : Nat)
    (plan : List Callables.Alternative)
    (each : ∀ a ∈ plan, ∀ ends : Ends,
      R _ (inline (ctx.enter a.tag) a.definition args ends result)
        (inline' ((ctx.amend Q s).enter a.tag) a.definition args ends result)) :
    R _ (alternatives inline ctx args result site plan)
      (alternatives inline' (ctx.amend Q s) args result site plan) := by
  induction plan with
  | nil => exact relates.pure _
  | cons a rest ih =>
    refine relates.bind (relates.steps (.append (ctx.enter a.tag) [site] rfl)) fun entry _ => ?_
    refine relates.bind (each a (by simp) [entry]) fun here _ => ?_
    exact relates.bind (ih fun a member => each a (by simp [member])) fun _ _ => relates.pure _

theorem related_invoke {d : Definition} (holds : C ctx part) (calls : part.callee? = some f)
    (fresh : f ∉ ctx.frame.calls) (found : ctx.decls.callables.find? f = some d)
    (free : d.role.target? = none) (args : List Argument) (ends : Ends) (result : Option String) :
    R _ (invoke inline ctx d args ends result)
      (invoke inline' (ctx.amend Q s) d args ends result) := by
  have types : (ctx.amend Q s).objectTypes args = ctx.objectTypes args := by
    induction args with
    | nil => rfl
    | cons arg rest ih =>
      cases arg with
      | value t => exact ih
      | store name =>
        simp only [objectTypes, ih]
        rfl
  have runs (subjects : List String) : ∀ a ∈ ctx.decls.callables.plan d subjects ctx.decls.policy
      ctx.frame.intercept, ctx.MayRun f a.definition := fun a member =>
    ⟨fresh, d, subjects, found, free, a, member, rfl⟩
  unfold invoke
  rw [types]
  refine relates.bind (relates.steps (stepwise_objectTypes relates.flaws args)) fun objects _ => ?_
  refine relates.bind (related_authorise relates holds d objects) fun _ _ => ?_
  -- The plan of a call is made from attacker grants, which stay as they are.
  refine relates.ite (fun _ => ?_) fun _ => ?_
  · -- The first alternative of a plan is the call itself.
    exact relates.inlines ctx part f d args ends result holds calls
      (runs (ctx.type :: objects) ⟨"normal", d⟩ List.mem_cons_self)
  · refine relates.bind (relates.steps (.append ctx ends rfl)) fun site _ => ?_
    refine relates.bind (related_alternatives relates args result site _ fun a member ends => ?_)
      fun out _ => ?_
    · exact relates.inlines (ctx.enter a.tag) part f a.definition args ends result
        (relates.enter ctx part a.tag holds) calls (runs _ a member)
    · refine relates.ite (fun _ => relates.pure _) fun _ => ?_
      exact relates.bind (relates.steps (.append ctx out rfl)) fun _ _ => relates.pure _

mutual

theorem related_term : ∀ (e : Expr) (ends : Ends), (∀ part ∈ e.parts, C ctx part) →
    R _ (term inline ctx scope e ends) (term inline' (ctx.amend Q s) scope e ends)
  | .str _, _, _ => relates.pure _
  | .ident x _, ends, _ => by
    unfold term
    refine relates.bind (relates.steps (stepwise_known relates.flaws)) fun found _ => ?_
    cases found with
    | some t => exact relates.pure _
    | none => exact relates.flaw (by simp)
  | .tuple items, ends, holds => by
    obtain ⟨here, inner⟩ := List.forall_mem_cons.mp holds
    unfold term
    refine relates.bind (related_terms items ends inner) fun r returned => ?_
    have tuple := stepwise_tuple relates here (length_of_terms returned)
    exact relates.bind (relates.steps tuple) fun t _ => relates.pure _
  | .apply f args loc, ends, holds => by
    have same : (ctx.amend Q s).decls.theory.symbols.find? f =
      ctx.decls.theory.symbols.find? f := rfl
    obtain ⟨here, inner⟩ := List.forall_mem_cons.mp holds
    cases declared : ctx.decls.theory.symbols.find? f with
    | some arity =>
      simp only [term, same, declared]
      refine relates.ite (fun _ => relates.flaw (by simp)) fun _ => ?_
      exact relates.bind (related_terms args ends inner) fun _ _ => relates.pure _
    | none =>
      simp only [term, same, declared]
      refine relates.ite (fun _ => ?_) fun _ => relates.flaw (by simp)
      refine relates.bind (relates.steps (.freshVar _)) fun x _ => ?_
      -- The arguments are elaborated only for a callee that was found and is not running.
      refine relates.bind (relates.steps (stepwise_callee relates here rfl))
        fun d returned => ?_
      obtain ⟨_, _, ran⟩ := returned
      obtain ⟨found, free, -⟩ := callee_eq_ok ran
      refine relates.bind (related_arguments args ends inner) fun passed _ => ?_
      exact relates.bind (related_invoke relates here rfl (not_mem_calls_of_callee ran) found
        free _ _ _) fun _ _ => relates.pure _
  | .unsupported _, _, _ => relates.flaw (by simp)

theorem related_terms : ∀ (es : List Expr) (ends : Ends),
    (∀ part ∈ Expr.partsAll es, C ctx part) →
    R _ (terms inline ctx scope es ends) (terms inline' (ctx.amend Q s) scope es ends)
  | [], _, _ => relates.pure _
  | e :: es, ends, holds => by
    obtain ⟨here, others⟩ := List.forall_mem_append.mp holds
    unfold terms
    refine relates.bind (related_term e ends here) fun first _ => ?_
    exact relates.bind (related_terms es _ others) fun _ _ => relates.pure _

theorem related_arguments : ∀ (es : List Expr) (ends : Ends),
    (∀ part ∈ Expr.partsAll es, C ctx part) →
    R _ (arguments inline ctx scope es ends) (arguments inline' (ctx.amend Q s) scope es ends)
  | [], _, _ => relates.pure _
  | e :: es, ends, holds => by
    have same : (ctx.amend Q s).storeNamed? scope e = ctx.storeNamed? scope e := rfl
    obtain ⟨here, others⟩ := List.forall_mem_append.mp holds
    cases named : ctx.storeNamed? scope e with
    | some name =>
      simp only [arguments, same, named]
      exact relates.bind (related_arguments es ends others) fun _ _ => relates.pure _
    | none =>
      simp only [arguments, same, named]
      refine relates.bind (related_term e ends here) fun first _ => ?_
      exact relates.bind (related_arguments es _ others) fun _ _ => relates.pure _

end

theorem related_call (here : C ctx part) (calls : part.callee? = some f) {args : List Expr}
    (inner : ∀ part ∈ Expr.partsAll args, C ctx part) (ends : Ends) (result : Option String) :
    R _ (call inline ctx scope f args ends result)
      (call inline' (ctx.amend Q s) scope f args ends result) := by
  unfold call
  refine relates.bind (relates.steps (stepwise_callee relates here calls)) fun d returned => ?_
  obtain ⟨_, _, ran⟩ := returned
  obtain ⟨found, free, -⟩ := callee_eq_ok ran
  refine relates.bind (related_arguments relates args ends inner) fun _ _ => ?_
  exact related_invoke relates here calls (not_mem_calls_of_callee ran) found free _ _ _

theorem related_bind (x : String) (value : Expr) (flow : Flow)
    (holds : ∀ part ∈ value.parts, C ctx part) :
    R _ (bind inline ctx x value flow) (bind inline' (ctx.amend Q s) x value flow) := by
  have assigned : R _ (do
      let r ← term inline ctx flow.scope value flow.ends
      let y ← Builder.freshVar x
      let place ← ctx.append (.assign y r.1) r.2
      return { flow with ends := [place], scope := ← ctx.declare flow.scope x (.value y) } :
        Builder Flow) (do
      let r ← term inline' (ctx.amend Q s) flow.scope value flow.ends
      let y ← Builder.freshVar x
      let place ← (ctx.amend Q s).append (.assign y r.1) r.2
      return { flow with
        ends := [place], scope := ← (ctx.amend Q s).declare flow.scope x (.value y) }) := by
    refine relates.bind (related_term relates value flow.ends holds) fun r _ => ?_
    refine relates.bind (relates.steps (.freshVar x)) fun y _ => ?_
    refine relates.bind (relates.steps (.append ctx r.2 rfl)) fun place _ => ?_
    exact relates.bind relates.declare fun _ _ => relates.pure _
  -- A name that is bound twice is a flaw, whatever would have come after it.
  have twice {m m' : Unit → Builder Flow} (rest : R _ (m ()) (m' ())) :
      R _ (if flow.scope.own.contains x then ctx.flaw (.boundTwice x) >>= m else m ())
        (if flow.scope.own.contains x then (ctx.amend Q s).flaw (.boundTwice x) >>= m'
          else m' ()) :=
    relates.ite (fun _ => relates.bind (relates.flaw (by simp)) fun _ _ => rest) fun _ => rest
  cases value with
  | apply f args loc =>
    have same : (!(ctx.amend Q s).decls.theory.hasSymbol f &&
      (ctx.amend Q s).decls.callables.contains f) =
        (!ctx.decls.theory.hasSymbol f && ctx.decls.callables.contains f) := rfl
    cases callable : !ctx.decls.theory.hasSymbol f && ctx.decls.callables.contains f with
    | true =>
      obtain ⟨here, inner⟩ := List.forall_mem_cons.mp holds
      simp only [bind, same, callable, if_true]
      refine twice (relates.bind (relates.steps (.freshVar x)) fun y _ => ?_)
      refine relates.bind (related_call relates here rfl inner flow.ends (some y))
        fun ends _ => ?_
      exact relates.bind relates.declare fun _ _ => relates.pure _
    | false =>
      simp only [bind, same, callable, Bool.false_eq_true, if_false]
      exact twice assigned
  | _ =>
    simp only [bind]
    exact twice assigned

theorem related_conditions : ∀ comparisons : List Comparison,
    (∀ part ∈ comparisons.flatMap Comparison.parts, C ctx part) →
    R _ (ctx.conditions scope comparisons) ((ctx.amend Q s).conditions scope comparisons)
  | [], _ => relates.pure _
  | c :: rest, holds => by
    obtain ⟨whole, others⟩ := List.forall_mem_append.mp holds
    obtain ⟨here, here'⟩ := List.forall_mem_append.mp (List.forall_mem_cons.mp whole).2
    have others := related_conditions rest others
    unfold conditions
    refine relates.bind (related_plain relates false c.left .empty here) fun left _ => ?_
    refine relates.bind (related_plain relates false c.right .empty here') fun right _ => ?_
    dsimp only
    split
    next => exact relates.ite (fun _ => relates.pure _) fun _ => others
    next => exact relates.bind others fun _ _ => relates.pure _

theorem related_emit (event : EventExpr) (flow : Flow)
    (holds : ∀ part ∈ Expr.partsAll event.args, C ctx part) :
    R _ (emit inline ctx event flow) (emit inline' (ctx.amend Q s) event flow) := by
  unfold emit
  refine relates.bind (related_terms relates event.args flow.ends holds) fun r _ => ?_
  have logged : (do
      let place ← ctx.log event.tag r.1 r.2
      return { flow with ends := [place] } : Builder Flow).Stepwise P :=
    .bind (.log ctx event.tag r.1 r.2) fun _ _ => .pure _
  exact relates.steps logged

theorem related_declareAll : ∀ (entries : List (String × String)) (scope : Scope),
    R _ (ctx.declareAll scope entries) ((ctx.amend Q s).declareAll scope entries)
  | [], _ => relates.pure _
  | (x, y) :: rest, scope => by
    unfold declareAll
    exact relates.bind relates.declare fun _ _ => related_declareAll rest _

theorem related_touch (here : C ctx part) (action : StoreAction) (target : String) (e : Expr)
    (flow : Flow) (holds : ∀ part ∈ e.parts, C ctx part) :
    R _ (touch inline ctx action target e flow)
      (touch inline' (ctx.amend Q s) action target e flow) := by
  unfold touch
  refine relates.bind (relates.steps (stepwise_resolveStore relates.flaws)) fun store _ => ?_
  refine relates.bind (related_permit relates here action store) fun _ _ => ?_
  cases action with
  | insert | remove =>
    refine relates.bind (related_term relates e flow.ends holds) fun r _ => ?_
    exact relates.bind (relates.steps (.append ctx r.2 rfl)) fun _ _ => relates.pure _
  | consume | read =>
    refine relates.bind (related_plain relates true e .empty holds) fun r _ => ?_
    refine relates.bind (relates.steps (.append ctx flow.ends rfl)) fun place _ => ?_
    exact relates.bind (related_declareAll relates _ flow.scope) fun _ _ => relates.pure _

mutual

theorem related_command : ∀ (c : Command) (ctx : Context) (flow : Flow),
    (∀ part ∈ c.parts, C ctx part) →
    R _ (command inline c ctx flow) (command inline' c (ctx.amend Q s) flow)
  | .skip, _, _, _ => relates.pure _
  | .seq cs, ctx, flow, holds => by
    unfold command
    exact related_sequence cs 0 ctx flow (List.forall_mem_cons.mp holds).2
  | .bind x value, ctx, flow, holds => by
    unfold command
    exact related_bind relates x value flow (List.forall_mem_cons.mp holds).2
  | .new x, ctx, flow, _ => by
    have drawn : (do
        let y ← Builder.freshVar x
        let place ← ctx.draw y flow.ends
        return { flow with ends := [place], scope := ← ctx.declare flow.scope x (.value y) } :
          Builder Flow).Stepwise P :=
      .bind (.freshVar x) fun y _ => .bind (.draw ctx y flow.ends) fun _ _ =>
        .bind (stepwise_declare relates.flaws) fun _ _ => .pure _
    exact relates.steps drawn
  | .branch arms, ctx, flow, holds => by
    unfold command
    refine relates.bind (relates.steps (.append ctx flow.ends rfl)) fun choice _ => ?_
    exact relates.bind (related_arms arms 0 ctx choice flow.scope _
      (List.forall_mem_cons.mp holds).2) fun _ _ => relates.pure _
  | .loop body arms, ctx, flow, holds => by
    obtain ⟨inside, after⟩ := List.forall_mem_append.mp (List.forall_mem_cons.mp holds).2
    unfold command
    refine relates.bind (relates.steps (.append ctx flow.ends rfl)) fun head _ => ?_
    refine relates.bind (related_command body (ctx.enter "body") _ fun part member =>
      relates.enter ctx part "body" (inside part member)) fun inner _ => ?_
    refine relates.bind (relates.steps (.append (ctx.enter "until") inner.ends rfl))
      fun choice _ => ?_
    refine relates.bind (related_arms arms 0 (ctx.enter "until") choice inner.scope _
      fun part member => relates.enter ctx part "until" (after part member)) fun out _ => ?_
    refine relates.bind (relates.steps (.append (ctx.enter "again") [choice] rfl))
      fun again _ => ?_
    exact relates.bind (relates.steps (.connect again head)) fun _ _ => relates.pure _
  | .call f args loc, ctx, flow, holds => by
    obtain ⟨here, inner⟩ := List.forall_mem_cons.mp holds
    unfold command
    exact relates.bind (related_call relates here rfl inner flow.ends none)
      fun _ _ => relates.pure _
  | .emit event, ctx, flow, holds => by
    unfold command
    exact related_emit relates event flow
      (List.forall_mem_cons.mp (List.forall_mem_cons.mp holds).2).2
  | .store action target e loc, ctx, flow, holds => by
    obtain ⟨here, inner⟩ := List.forall_mem_cons.mp holds
    unfold command
    exact related_touch relates here action target e flow inner
  | .ret value loc, ctx, flow, holds => by
    have same : (ctx.amend Q s).frame.result = ctx.frame.result := rfl
    have value : R _ (term inline ctx flow.scope value flow.ends)
        (term inline' (ctx.amend Q s) flow.scope value flow.ends) :=
      related_term relates value flow.ends (List.forall_mem_cons.mp holds).2
    unfold command
    refine relates.ite (fun _ => relates.bind (relates.flaw (by simp)) fun _ _ =>
      relates.bind value fun r _ => ?_) fun _ => relates.bind value fun r _ => ?_
    all_goals
      rw [same]
      cases ctx.frame.result with
      | some x =>
        exact relates.bind (relates.steps (.append ctx r.2 rfl)) fun _ _ => relates.pure _
      | none => exact relates.pure _
  | .unsupported loc, ctx, flow, _ => relates.flaw (by simp)

theorem related_sequence : ∀ (cs : List Command) (i : Nat) (ctx : Context) (flow : Flow),
    (∀ part ∈ Command.partsAll cs, C ctx part) →
    R _ (sequence inline cs i ctx flow) (sequence inline' cs i (ctx.amend Q s) flow)
  | [], _, _, _, _ => relates.pure _
  | c :: rest, i, ctx, flow, holds => by
    obtain ⟨here, others⟩ := List.forall_mem_append.mp holds
    unfold sequence
    refine relates.bind (related_command c (ctx.enter (toString i)) flow fun part inside =>
      relates.enter ctx part _ (here part inside)) fun flow' _ => ?_
    exact related_sequence rest (i + 1) ctx flow' others

theorem related_arms : ∀ (arms : List Arm) (i : Nat) (ctx : Context) (choice : Nat)
    (scope : Scope) (sofar : Arms), (∀ part ∈ Arm.partsAll arms, C ctx part) →
    R _ (armsFrom inline arms i ctx choice scope sofar)
      (armsFrom inline' arms i (ctx.amend Q s) choice scope sofar)
  | [], _, _, _, _, _, _ => relates.pure _
  | .guarded comparisons body :: rest, i, ctx, choice, scope, sofar, holds => by
    obtain ⟨here, others⟩ := List.forall_mem_append.mp holds
    have arm : ∀ part ∈ (Arm.guarded comparisons body).parts, C (ctx.enter s!"arm{i}") part :=
      fun part inside => relates.enter ctx part _ (here part inside)
    obtain ⟨guards, inside⟩ := List.forall_mem_append.mp (List.forall_mem_cons.mp arm).2
    unfold armsFrom
    refine relates.bind (related_conditions relates comparisons guards) fun found _ => ?_
    cases found with
    | none =>
      refine relates.bind (relates.steps (.note (ctx.enter s!"arm{i}") _)) fun _ _ => ?_
      exact related_arms rest (i + 1) ctx choice scope sofar others
    | some group =>
      refine relates.bind (relates.steps (.append (ctx.enter s!"arm{i}") [choice] rfl))
        fun guard _ => ?_
      refine relates.bind (related_command body (ctx.enter s!"arm{i}") _ inside)
        fun inner _ => ?_
      exact related_arms rest (i + 1) ctx choice scope _ others

end

theorem related_bindParams : ∀ (pairs : List (String × Argument)) (scope : Scope) (ends : Ends),
    R _ (ctx.bindParams pairs scope ends) ((ctx.amend Q s).bindParams pairs scope ends)
  | [], _, _ => relates.pure _
  | (_, .store _) :: rest, scope, ends => by
    unfold bindParams
    exact relates.bind relates.declare fun scope' _ => related_bindParams rest scope' ends
  | (param, .value t) :: rest, scope, ends => by
    unfold bindParams
    refine relates.bind (relates.steps (.freshVar param)) fun x _ => ?_
    refine relates.bind (relates.steps (.append ctx ends rfl)) fun place _ => ?_
    exact relates.bind relates.declare fun scope' _ => related_bindParams rest scope' [place]

theorem related_inlineWith {d : Definition} {result : Option String}
    (holds : ∀ part ∈ d.body.parts, C (ctx.inside d result) part) (args : List Argument)
    (ends : Ends) :
    R _ (inlineWith (command inline) ctx d args ends result)
      (inlineWith (command inline') (ctx.amend Q s) d args ends result) := by
  unfold inlineWith
  refine relates.bind (related_bindParams relates _ {} ends) fun bound _ => ?_
  refine relates.bind (related_command relates d.body (ctx.inside d result) _ holds)
    fun flow _ => ?_
  exact relates.ite (fun _ => relates.bind (relates.flaw (by simp)) fun _ _ => relates.pure _)
    fun _ => relates.pure _

theorem related_bindVars : ∀ (vars : List VarDecl) (i : Nat) (flow : Flow),
    (∀ v ∈ vars, ∀ part ∈ v.init.parts, C ctx part) →
    R _ (bindVars inline ctx vars i flow) (bindVars inline' (ctx.amend Q s) vars i flow)
  | [], _, _, _ => relates.pure _
  | v :: rest, i, flow, holds => by
    unfold bindVars
    refine relates.bind (related_bind relates v.name v.init flow fun part inside =>
      relates.enter ctx part _ (holds v (by simp) part inside)) fun flow' _ => ?_
    exact related_bindVars rest (i + 1) flow' fun v member => holds v (by simp [member])

theorem related_bindChannels (channels : Table String String) :
    ∀ (params : List Param) (scope : Scope),
    (∀ param ∈ params, channels.find? param.name = none → P (.missing param.name)) →
    R _ (ctx.bindChannels channels params scope)
      ((ctx.amend Q s).bindChannels channels params scope)
  | [], _, _ => relates.pure _
  | param :: rest, scope, given => by
    have later (scope : Scope) := related_bindChannels channels rest scope fun param member =>
      given param (by simp [member])
    unfold bindChannels
    cases named : channels.find? param.name with
    | none => exact relates.steps (.fail (given param (by simp) named))
    | some name =>
      refine relates.bind (relates.steps (stepwise_get relates.flaws)) fun store _ => ?_
      refine relates.ite (fun _ => relates.bind (relates.flaw (by simp)) fun _ _ => ?_)
        fun _ => ?_
      all_goals exact relates.bind relates.declare fun scope' _ => later scope'

end Walk

theorem alike_inlineWith {C : Context → Part → Prop} {inline inline' : Inline}
    (admits : Admits P C s inline inline') {d : Definition} {result : Option String}
    (holds : ∀ part ∈ d.body.parts, C (ctx.inside d result) part) (args : List Argument)
    (ends : Ends) :
    (inlineWith (command inline) ctx d args ends result).Alike P
      (inlineWith (command inline') (ctx.within s) d args ends result) :=
  related_inlineWith admits.relates holds args ends

/-- `C` lets parts stand at a place from which calls may be nested so much deeper; what it lets
stand in a body follows from what it lets stand at the call. -/
structure Sustains (P : Fault → Prop) (C : Nat → Context → Part → Prop) : Prop where
  reasons : ∀ depth, Reasons P (C depth)
  deep : ∀ ctx part f d, C 0 ctx part → part.callee? = some f → ctx.MayRun f d → P .tooDeep
  inside : ∀ depth ctx part f d result, C (depth + 1) ctx part → part.callee? = some f →
    ctx.MayRun f d → ∀ part' ∈ d.body.parts, C depth (ctx.inside d result) part'

theorem Sustains.admits {C : Nat → Context → Part → Prop} (sustains : Sustains P C)
    (s : SystemDecl) (depth : Nat) :
    Admits P (C depth) s (inlineUpTo depth) (inlineUpTo depth) := by
  induction depth with
  | zero =>
    refine ⟨sustains.reasons 0, fun ctx part f d args ends result holds calls runs => ?_⟩
    exact (Builder.Stepwise.fail (sustains.deep ctx part f d holds calls runs)).alike
  | succ depth ih =>
    -- What stands in the body is let stand at one depth less, where the hypothesis applies.
    refine ⟨sustains.reasons (depth + 1), fun ctx part f d args ends result holds calls runs =>
      ?_⟩
    have body := sustains.inside depth ctx part f d result holds calls runs
    exact alike_inlineWith ih body args ends

end Context

namespace Template

variable {P : Fault → Prop} {template : Template} {D : Declarations} {name : String}
  {channels : Table String String}

def elaborateBy (inline : Inline) (template : Template) (D : Declarations) (name : String)
    (channels : Table String String) : Builder ProcessInstance := do
  let ctx := template.context D name
  let scope ← ctx.bindChannels channels template.params {}
  let start ← ctx.append .start []
  let flow ← Context.bindVars inline (ctx.enter "vars") template.vars 0 { ends := [start], scope }
  let flow ← Context.command inline template.main (ctx.enter "main") flow
  if !flow.ends.isEmpty then
    let _ ← ctx.append .finish flow.ends
  let done ← get
  return { name, template := template.name, type := template.type, channels, graph := done.graph,
           events := done.events }

def buildBy (inline : Inline) (template : Template) (D : Declarations) (name : String)
    (channels : Table String String) : Builder Unit := do
  let ctx := template.context D name
  let scope ← ctx.bindChannels channels template.params {}
  let start ← ctx.append .start []
  let flow ← Context.bindVars inline (ctx.enter "vars") template.vars 0 { ends := [start], scope }
  let flow ← Context.command inline template.main (ctx.enter "main") flow
  if flow.ends.isEmpty then return () else
    let _ ← ctx.append .finish flow.ends

def build (template : Template) (D : Declarations) (name : String)
    (channels : Table String String) : Builder Unit :=
  template.buildBy (Context.inlineUpTo D.callables.definitions.size) D name channels

theorem elaborateBy_eq_buildBy (inline : Inline) :
    template.elaborateBy inline D name channels = (do
      template.buildBy inline D name channels
      let done ← get
      return { name, template := template.name, type := template.type, channels,
               graph := done.graph, events := done.events }) := by
  unfold elaborateBy buildBy
  simp only [bind_assoc, context]
  refine bind_congr fun scope => bind_congr fun start => bind_congr fun flow =>
    bind_congr fun flow' => ?_
  cases flow'.ends.isEmpty with
  | true => simp
  | false => simp

theorem elaborate_eq_build : template.elaborate D name channels = (do
    template.build D name channels
    let done ← get
    return { name, template := template.name, type := template.type, channels,
             graph := done.graph, events := done.events }) :=
  elaborateBy_eq_buildBy _

theorem related_buildBy {C : Context → Part → Prop} {R : (α : Type) → Builder α → Builder α → Prop}
    {Q : Policy → Policy} {s : SystemDecl} {inline inline' : Inline}
    (relates : Context.Relates P R C Q s inline inline')
    (given : ∀ param ∈ template.params, channels.find? param.name = none → P (.missing param.name))
    (vars : ∀ v ∈ template.vars, ∀ part ∈ v.init.parts, C (template.context D name) part)
    (main : ∀ part ∈ template.main.parts, C (template.context D name) part) :
    R _ (template.buildBy inline D name channels)
      (template.buildBy inline' (D.amend Q s) name channels) := by
  unfold buildBy
  refine relates.bind (Context.related_bindChannels relates channels _ _ given) fun scope _ => ?_
  refine relates.bind (relates.steps (.append (template.context D name) [] rfl)) fun start _ => ?_
  refine relates.bind (Context.related_bindVars relates template.vars 0 _ fun v member part inside =>
    relates.enter _ part "vars" (vars v member part inside)) fun flow _ => ?_
  refine relates.bind (Context.related_command relates template.main _ flow fun part inside =>
    relates.enter _ part "main" (main part inside)) fun flow' _ => ?_
  refine relates.ite (fun _ => relates.pure _) fun _ => ?_
  exact relates.bind (relates.steps (.append (template.context D name) flow'.ends rfl))
    fun _ _ => relates.pure _

theorem alike_build {C : Nat → Context → Part → Prop} (sustains : Context.Sustains P C)
    (s : SystemDecl)
    (given : ∀ param ∈ template.params, channels.find? param.name = none → P (.missing param.name))
    (vars : ∀ v ∈ template.vars, ∀ part ∈ v.init.parts,
      C D.callables.definitions.size (template.context D name) part)
    (main : ∀ part ∈ template.main.parts,
      C D.callables.definitions.size (template.context D name) part) :
    (template.build D name channels).Alike P (template.build (D.within s) name channels) :=
  related_buildBy (sustains.admits s D.callables.definitions.size).relates given vars main

end Template

end ThreatModel
