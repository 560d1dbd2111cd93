import Mathlib
import ThreatModel.Proofs.Callable.Overrides
import ThreatModel.Proofs.Elaboration.Depth
import ThreatModel.Proofs.Elaboration.Parts

set_option autoImplicit false

namespace ThreatModel

def Frame.Orderly (frame : Frame) (C : Callables) : Prop :=
  frame.calls.Nodup ∧ (∀ f ∈ frame.calls, f ∈ C.definitions.keys) ∧
    frame.calls.length ≤ C.definitions.size

instance (frame : Frame) (C : Callables) : Decidable (frame.Orderly C) :=
  inferInstanceAs (Decidable (_ ∧ _ ∧ _))

namespace Context

variable {D : Declarations} {ctx : Context} {depth : Nat} {alarm : Fault} {inline : Inline}

theorem Nested.orderly (nested : ctx.Nested D depth) : ctx.frame.Orderly D.callables := by
  refine ⟨nested.distinct, nested.known, ?_⟩
  simpa [Table.keys, Table.size] using (nested.distinct.subperm nested.known).length_le

/-- The recursion that inlining is: a body is elaborated in place of the call, and calls in it are
inlined by the same rule, however deep. Where the definitions being inlined would not be in order,
it raises an alarm. -/
def Watches (D : Declarations) (alarm : Fault) (inline : Inline) : Prop :=
  ∀ ctx d args ends result, ctx.decls = D → inline ctx d args ends result =
    if (ctx.inside d result).frame.Orderly D.callables then
      inlineWith (command inline) ctx d args ends result
    else throw alarm

def watchUpTo (D : Declarations) (alarm : Fault) : (depth : Nat) → Inline
  | 0 => fun _ _ _ _ _ => throw alarm
  | depth + 1 => fun ctx d args ends result =>
    if (ctx.inside d result).frame.Orderly D.callables then
      inlineWith (command (watchUpTo D alarm depth)) ctx d args ends result
    else throw alarm

theorem within_of_decls (here : ctx.decls = D) : ctx.within D.system = ctx := by
  subst here
  rfl

theorem reasons_of_decls : Reasons (fun _ => True) fun ctx _ => ctx.decls = D where
  flaws _ _ := trivial
  empty _ _ := trivial
  again _ _ _ _ _ _ _ _ _ := trivial
  enter _ _ _ here := here

theorem admits_watchUpTo (D : Declarations) (alarm : Fault) (depth : Nat) :
    Admits (fun _ => True) (fun ctx _ => ctx.decls = D) D.system (watchUpTo D alarm depth)
      (watchUpTo D alarm depth) := by
  induction depth with
  | zero =>
    exact ⟨reasons_of_decls, fun _ _ _ _ _ _ _ _ _ _ => (Builder.Stepwise.fail trivial).alike⟩
  | succ depth ih =>
    refine ⟨reasons_of_decls, fun ctx part f d args ends result here _ _ => ?_⟩
    have body : (inlineWith (command (watchUpTo D alarm depth)) ctx d args ends result).Alike _
        (inlineWith (command (watchUpTo D alarm depth)) (ctx.within D.system) d args ends
          result) :=
      alike_inlineWith ih (fun _ _ => here) args ends
    rw [within_of_decls here] at body ⊢
    exact (Builder.respects_alike _).ite (fun _ => body) fun _ =>
      (Builder.Stepwise.fail trivial).alike

def watch (D : Declarations) (alarm : Fault) : Inline := fun ctx =>
  watchUpTo D alarm (D.callables.definitions.size + 1 - ctx.frame.calls.length) ctx

theorem admits_watch (n : Nat) :
    Admits (fun _ => True) (fun ctx _ => ctx.decls = D ∧ ctx.frame.calls.length = n) D.system
      (watchUpTo D alarm (D.callables.definitions.size + 1 - n)) (watch D alarm) where
  flaws _ _ := trivial
  empty _ _ := trivial
  again _ _ _ _ _ _ _ _ _ := trivial
  enter _ _ _ here := here
  inlines ctx part f d args ends result here calls runs := by
    obtain ⟨decls, rfl⟩ := here
    have steps := (admits_watchUpTo D alarm
      (D.callables.definitions.size + 1 - ctx.frame.calls.length)).inlines ctx part f d args ends
      result decls calls runs
    refine ⟨steps.1, ?_⟩
    rw [within_of_decls decls, watch]

theorem watches_watch (D : Declarations) (alarm : Fault) : Watches D alarm (watch D alarm) := by
  intro ctx d args ends result here
  by_cases room : ctx.frame.calls.length ≤ D.callables.definitions.size
  · -- One body further in there is one definition less, and that is all that the depth counts.
    have deeper : D.callables.definitions.size + 1 - ctx.frame.calls.length =
        D.callables.definitions.size + 1 - (ctx.frame.calls.length + 1) + 1 := by omega
    have body : (inlineWith (command (watchUpTo D alarm _)) ctx d args ends result).Alike _
        (inlineWith (command (watch D alarm)) (ctx.within D.system) d args ends result) :=
      alike_inlineWith (admits_watch (ctx.frame.calls.length + 1))
        (fun _ _ => ⟨here, by simp [inside]⟩) args ends
    rw [within_of_decls here] at body
    rw [watch, deeper, watchUpTo, body.2]
  · have none : D.callables.definitions.size + 1 - ctx.frame.calls.length = 0 := by omega
    have crowded : ¬ (ctx.inside d result).frame.Orderly D.callables := by
      rintro ⟨-, -, short⟩
      simp only [inside, List.length_append, List.length_singleton] at short
      omega
    rw [if_neg crowded, watch, none, watchUpTo]

theorem Watches.admits (registered : D.callables.Registered) (watches : Watches D alarm inline)
    (depth : Nat) :
    Admits (· ≠ .tooDeep) (fun ctx _ => ctx.Nested D depth) D.system (inlineUpTo depth) inline := by
  have reasons (depth : Nat) : Reasons (· ≠ .tooDeep) fun ctx _ => ctx.Nested D depth :=
    { flaws := by simp
      empty := by simp
      again := by simp
      enter := fun _ _ _ nested => nested.of_frame rfl rfl }
  induction depth with
  | zero =>
    refine ⟨reasons 0, fun ctx part f d args ends result nested _ runs => ?_⟩
    exact absurd runs (nested.not_mayRun registered)
  | succ depth ih =>
    refine ⟨reasons (depth + 1), fun ctx part f d args ends result nested _ runs => ?_⟩
    have deeper := nested.inside registered runs result
    rw [within_of_decls nested.decls, watches ctx d args ends result nested.decls,
      if_pos deeper.orderly]
    have body : (inlineWith (command (inlineUpTo depth)) ctx d args ends result).Alike _
        (inlineWith (command inline) (ctx.within D.system) d args ends result) :=
      alike_inlineWith ih (fun _ _ => deeper) args ends
    rwa [within_of_decls nested.decls] at body

end Context

def Judgement.Enters : Judgement → Prop
  | .invoke d _ ctx _ _ _ _ _ => d.name ∉ ctx.frame.calls ∧
      ctx.decls.callables.find? d.name = some d ∧ d.role.target? = none
  | .alternatives plan _ ctx _ _ _ _ _ => ∀ a ∈ plan, ∃ f, ctx.MayRun f a.definition
  | .inlined d _ ctx _ _ _ _ _ => ∃ f, ctx.MayRun f d
  | _ => True

structure Judgement.Nests (J : Judgement) (D : Declarations) : Prop where
  nested : ∃ depth, J.context.Nested D depth
  enters : J.Enters

namespace Judgement

variable {D : Declarations} {J K : Judgement} {Ks : List Judgement}

theorem Nests.of_frame (nests : J.Nests D) (decls : K.context.decls = J.context.decls)
    (frame : K.context.frame = J.context.frame) (enters : K.Enters) : K.Nests D :=
  ⟨nests.nested.imp fun _ nested => nested.of_frame decls frame, enters⟩

theorem Premises.nests (registered : D.callables.Registered) (rule : J.Premises Ks)
    (nests : J.Nests D) (member : K ∈ Ks) : K.Nests D := by
  cases rule with
  | seq | bind | branch | call | emit | put | retValue | retNothing | dropArm | bindCall | bindTerm
  | tuple | symbol | callTerm | storeArgument | storeParam | valueParam =>
    obtain rfl := List.mem_singleton.mp member
    exact nests.of_frame rfl rfl trivial
  | loop | next | takeArm | someTerms | valueArgument =>
    rcases List.mem_pair.mp member with rfl | rfl
    all_goals exact nests.of_frame rfl rfl trivial
  | callee found =>
    rcases List.mem_pair.mp member with rfl | rfl
    · exact nests.of_frame rfl rfl trivial
    · obtain ⟨known, free, -⟩ := Context.callee_eq_ok found
      obtain ⟨depth, nested⟩ := nests.nested
      have named := registered.named _ _ (nested.decls ▸ known)
      have absent := Context.not_mem_calls_of_callee found
      rw [← named] at known absent
      exact nests.of_frame rfl rfl ⟨absent, known, free⟩
  | direct =>
    obtain rfl := List.mem_singleton.mp member
    obtain ⟨absent, found, free⟩ := nests.enters
    exact nests.of_frame rfl rfl ⟨_, absent, _, [], found, free, _, List.mem_cons_self, rfl⟩
  | site | deadSite =>
    obtain rfl := List.mem_singleton.mp member
    obtain ⟨absent, found, free⟩ := nests.enters
    exact nests.of_frame rfl rfl fun a among => ⟨_, absent, _, _, found, free, a, among, rfl⟩
  | someAlternatives =>
    rcases List.mem_pair.mp member with rfl | rfl
    · exact nests.of_frame rfl rfl (nests.enters _ List.mem_cons_self)
    · exact nests.of_frame rfl rfl fun a among => nests.enters a (List.mem_cons_of_mem _ among)
  | inline =>
    obtain ⟨⟨depth, nested⟩, f, runs⟩ := nests
    have deeper := nested.succ.inside registered runs
    rcases List.mem_pair.mp member with rfl | rfl
    all_goals exact ⟨⟨depth, deeper _⟩, trivial⟩

theorem Within.nests (registered : D.callables.Registered) (within : K.Within J)
    (nests : J.Nests D) : K.Nests D := by
  induction within with
  | refl => exact nests
  | step rule _ member _ ih => exact ih (rule.nests registered nests member)

end Judgement

theorem Template.Derivation.Meets.nests {template : Template} {D : Declarations} {name : String}
    {channels : Table String String} {b : Build} {g : Graph} {K : Judgement}
    {u : template.Derivation D name channels b g} (registered : D.callables.Registered)
    (meets : u.Meets K) : K.Nests D := by
  have outermost : (template.context D name).Nested D D.callables.definitions.size :=
    Context.nested_outermost
  rcases meets with inVars | inMain
  · exact inVars.nests registered ⟨⟨_, outermost.of_frame rfl rfl⟩, trivial⟩
  · exact inMain.nests registered ⟨⟨_, outermost.of_frame rfl rfl⟩, trivial⟩

section Termination

variable {D : Declarations} {template : Template} {name : String} {channels : Table String String}
  {alarm : Fault} {inline : Inline}

theorem alike_build_of_watches (registered : D.callables.Registered)
    (watches : Context.Watches D alarm inline) :
    (template.build D name channels).Alike (· ≠ .tooDeep)
      (template.buildBy inline D name channels) :=
  Template.related_buildBy (watches.admits registered D.callables.definitions.size).relates
    (by simp) (fun _ _ _ _ => Context.nested_outermost) fun _ _ => Context.nested_outermost

theorem elaborateBy_eq_of_watches (registered : D.callables.Registered)
    (watches : Context.Watches D alarm inline) :
    template.elaborateBy inline D name channels = template.elaborate D name channels := by
  rw [Template.elaborateBy_eq_buildBy, Template.elaborate_eq_build,
    (alike_build_of_watches registered watches).2]

theorem elaborate_ne_tooDeep (registered : D.callables.Registered) (template : Template)
    (name : String) (channels : Table String String) (first : Nat) :
    elaborate D template name channels first ≠ .error .tooDeep := by
  intro failed
  have steps : (template.build D name channels).Stepwise (· ≠ .tooDeep) :=
    (alike_build_of_watches registered (Context.watches_watch D .tooDeep)).1
  exact elaborate_allowed steps failed rfl

/-- Inlining as an unbounded recursion, which raises an alarm if a definition comes inside itself,
has a solution, and with any solution elaboration is what it is, whatever the alarm. -/
theorem elaborate_terminates {requests : List Callables.Request}
    (filled : D.callables = Callables.after requests) :
    (∀ alarm : Fault, (∃ inline, Context.Watches D alarm inline) ∧
      ∀ inline, Context.Watches D alarm inline → ∀ (template : Template) name channels,
        template.elaborateBy inline D name channels = template.elaborate D name channels) ∧
    (∀ (template : Template) name channels first e,
      elaborate D template name channels first = .ok e →
      ∃ u : template.Derivation D name channels { nextNonce := first } e.inst.graph,
        ∀ K, u.Meets K → K.context.frame.Orderly D.callables) ∧
    ∀ template name channels first,
      (∃ e, elaborate D template name channels first = .ok e) ∨
        ∃ fault, fault ≠ .tooDeep ∧ elaborate D template name channels first = .error fault := by
  have registered : D.callables.Registered := by
    rw [filled]
    exact (Callables.indexed_after requests).registered
  refine ⟨fun alarm => ⟨⟨_, Context.watches_watch D alarm⟩, fun inline watches template name
    channels => elaborateBy_eq_of_watches registered watches⟩, ?_, ?_⟩
  · intro template name channels first e done
    obtain ⟨u⟩ := exists_derivation done
    refine ⟨u, fun K meets => ?_⟩
    obtain ⟨depth, nested⟩ := (meets.nests registered).nested
    exact nested.orderly
  · intro template name channels first
    have bounded := elaborate_ne_tooDeep registered template name channels first
    cases ran : elaborate D template name channels first with
    | ok e => exact .inl ⟨e, rfl⟩
    | error fault =>
        refine .inr ⟨fault, ?_, rfl⟩
        rintro rfl
        exact bounded ran

end Termination

def Callables.Request.echoing : List Callables.Request :=
  [.syscall { name := "ping", params := ["m"], body := .call "pong" [.ident "m" none] none },
   .syscall { name := "pong", params := ["m"], body := .call "ping" [.ident "m" none] none },
   .attack { name := "echo", params := ["m"], target := some "pong",
             body := .call "ping" [.ident "m" none] none }]

def Declarations.echoing : Declarations where
  theory := { budget := 64 }
  policy := { rights := .ofList [(("host_t", none), ["ping"])]
              attackerRights := .ofList [("host_t", ["echo"])] }
  callables := .after Callables.Request.echoing

def Template.pinging : Template where
  name := "Pinging"
  type := "host_t"
  params := []
  main := .call "ping" [.str "m"] none

def Diagnostic.pingAgain : Diagnostic where
  cause := .recursiveCalls ["ping", "pong", "ping"]
  declaration := some "p"
  position := some "p/main.ping.normal.pong"

theorem elaborate_terminates_echoing :
    Declarations.echoing.callables.checkRecursion.map (·.cause) =
      [.recursiveCalls ["ping", "pong", "ping"]] ∧
    (elaborate .echoing .pinging "p" .empty 1).map (fun _ => ()) =
      .error (.flaw .pingAgain) ∧
    ∀ alarm, ∃ inline, Context.Watches .echoing alarm inline ∧
      Template.pinging.elaborateBy inline .echoing "p" .empty =
        Template.pinging.elaborate .echoing "p" .empty := by
  refine ⟨by decide +kernel, by decide +kernel, fun alarm => ?_⟩
  obtain ⟨⟨inline, watches⟩, same⟩ := (elaborate_terminates (D := .echoing) rfl).1 alarm
  exact ⟨inline, watches, same inline watches .pinging "p" .empty⟩

end ThreatModel
