import Mathlib
import ThreatModel.Proofs.Term.Names
import ThreatModel.Proofs.Elaboration.Drawn

set_option autoImplicit false

namespace ThreatModel

namespace Build

variable {b b₁ b' : Build} {x : String}

def Took (b : Build) (x : String) : Prop :=
  ∃ (name : String) (k : Nat), x = s!"{name}.{k}" ∧ k < b.taken name

theorem Took.mono (took : b.Took x) (counts : b.Counts b') : b'.Took x := by
  obtain ⟨name, k, rfl, before⟩ := took
  exact ⟨name, k, rfl, before.trans_le (counts.1 name)⟩

theorem took_takeVar (b : Build) (name : String) : (b.takeVar name).Took (b.varFor name) :=
  ⟨name, b.taken name, rfl, by simp [taken_takeVar]⟩

theorem not_took_varFor (b : Build) (name : String) : ¬ b.Took (b.varFor name) := by
  rintro ⟨name', k, same, before⟩
  obtain ⟨rfl, rfl⟩ := numbered_injective same
  exact lt_irrefl _ before

inductive Binds : Build → Table String String → List String → Build → Table String String → Prop
  | refl (b : Build) (binds : Table String String) : Binds b binds [] b binds
  | head {b b' : Build} {binds binds' : Table String String} {x : String} {xs : List String}
      (new : binds.find? x = none)
      (rest : Binds (b.takeVar x) (binds.insert x (b.varFor x)) xs b' binds') :
      Binds b binds (x :: xs) b' binds'

namespace Binds

variable {binds binds₁ binds' : Table String String} {xs ys : List String}

theorem trans (one : b.Binds binds xs b₁ binds₁) (two : b₁.Binds binds₁ ys b' binds') :
    b.Binds binds (xs ++ ys) b' binds' := by
  induction one with
  | refl => exact two
  | head new _ ih => exact .head new (ih two)

theorem counts (binds : b.Binds binds xs b' binds') : b.Counts b' := by
  induction binds with
  | refl => exact .refl _
  | head _ _ ih => exact (Counts.takeVar _ _).trans ih

theorem values (bound : b.Binds binds xs b' binds') {first : Build} (counts : first.Counts b)
    (before : binds.values.Nodup ∧ ∀ y ∈ binds.values, ¬ first.Took y ∧ b.Took y) :
    binds'.values.Nodup ∧ ∀ y ∈ binds'.values, ¬ first.Took y ∧ b'.Took y := by
  induction bound with
  | refl => exact before
  | @head b b' binds binds' x xs new rest ih =>
    obtain ⟨once, each⟩ := before
    refine ih (counts.trans (.takeVar _ _)) ?_
    have added : (binds.insert x (b.varFor x)).values = binds.values ++ [b.varFor x] := by
      simp [Table.values, Table.entries_insert_of_not_mem _ (Table.find?_eq_none_iff.mp new)]
    rw [added]
    refine ⟨List.nodup_append'.mpr ⟨once, List.nodup_singleton _, ?_⟩, ?_⟩
    · simpa using fun old => b.not_took_varFor x (each _ old).2
    · intro y member
      rcases List.mem_append.mp member with old | last
      · exact ⟨(each y old).1, (each y old).2.mono (.takeVar _ _)⟩
      · obtain rfl := List.mem_singleton.mp last
        exact ⟨fun took => b.not_took_varFor x (took.mono counts), b.took_takeVar x⟩

end Binds

end Build

namespace Context

variable {ctx : Context} {scope : Scope} {isPattern : Bool}

theorem Reading.binds {es : List Expr} {ts : List Term} {binds binds' : Table String String}
    {b b' : Build} (reading : ctx.Reading scope isPattern es binds b ts binds' b') :
    ∃ xs, b.Binds binds xs b' binds' ∧ (isPattern = false → xs = []) ∧
      ∀ x ∈ xs, ∃ loc, .expr (.ident x loc) ∈ Expr.partsAll es := by
  induction reading with
  | nil => exact ⟨[], .refl _ _, fun _ => rfl, by simp⟩
  | str _ ih | known _ _ ih =>
    obtain ⟨xs, bound, guard, named⟩ := ih
    exact ⟨xs, bound, guard, fun x member =>
      (named x member).imp fun loc inside => List.mem_append_right _ inside⟩
  | @fresh x loc _ _ _ _ _ _ pattern unknown _ ih =>
    obtain ⟨xs, bound, -, named⟩ := ih
    refine ⟨x :: xs, .head unknown.untaken bound, by simp [pattern], ?_⟩
    refine List.forall_mem_cons.mpr ⟨⟨loc, by simp [Expr.partsAll, Expr.parts]⟩, ?_⟩
    exact fun y member =>
      (named y member).imp fun loc inside => List.mem_append_right _ inside
  | tuple _ _ _ ih ih' | symbol _ _ _ ih ih' =>
    obtain ⟨xs, bound, guard, named⟩ := ih
    obtain ⟨ys, bound', guard', named'⟩ := ih'
    refine ⟨xs ++ ys, bound.trans bound', fun closed => by simp [guard closed, guard' closed], ?_⟩
    intro x member
    rcases List.mem_append.mp member with early | late
    · exact (named x early).imp fun loc inside =>
        List.mem_append_left _ (List.mem_cons_of_mem _ inside)
    · exact (named' x late).imp fun loc inside => List.mem_append_right _ inside

theorem leaves_conditions {comparisons : List Comparison} {group : Option (List Condition)}
    {b b' : Build} (done : ctx.conditions scope comparisons b = .ok (group, b')) : b' = b := by
  have leaves {e : Expr} {t : Term} {binds : Table String String} {b b' : Build}
      (read : ctx.plain scope false e .empty b = .ok ((t, binds), b')) : b' = b := by
    obtain ⟨xs, bound, guard, -⟩ := (reading_of_plain read).binds
    obtain rfl := guard rfl
    cases bound
    rfl
  have compared := compares_of_conditions done
  clear done
  induction compared with
  | nil => rfl
  | never left right _ => exact (leaves right).trans (leaves left)
  | always left right _ _ ih | keep left right _ _ ih =>
    exact ih.trans ((leaves right).trans (leaves left))

end Context

namespace Build

/-- What the nodes define that are drawn from one build to the other: variables taken on the way, or
the one for a result. Where two of them define the same variable, it is that for the result or
`calls` tells how it came about. -/
structure Writes (calls : String → Nat → Nat → Prop) (result : Option String) (b b' : Build) :
    Prop where
  counts : b.Counts b'
  draws : Draws (fun _ action => action.defines.Nodup ∧
    ∀ x ∈ action.defines, (¬ b.Took x ∧ b'.Took x) ∨ result = some x) b b'
  apart : ∀ (p q : Nat) (action action' : Action) (x : String), b.graph.size ≤ p → p < q →
    b'.graph.actions[p]? = some action → b'.graph.actions[q]? = some action' →
      x ∈ action.defines → x ∈ action'.defines → result = some x ∨ calls x p q

namespace Writes

variable {calls calls' : String → Nat → Nat → Prop} {result : Option String} {b b₁ b' : Build}
  {ctx : Context} {action : Action} {ends : Ends}

theorem quiet (counts : b.Counts b') (same : b'.graph = b.graph) : Writes calls result b b' where
  counts := counts
  draws := (Draws.refl b).before same
  apart := by
    intro p q action action' x new later here there
    have inside := Graph.lt_size_of_actions there
    rw [same] at inside
    omega

theorem refl (b : Build) : Writes calls result b b := quiet (.refl b) rfl

theorem trans (one : Writes calls result b b₁) (two : Writes calls result b₁ b') :
    Writes calls result b b' where
  counts := one.counts.trans two.counts
  draws := by
    refine (one.draws.mono fun i action defined => ?_).trans
      (two.draws.mono fun i action defined => ?_)
    · exact ⟨defined.1, fun x member => (defined.2 x member).imp_left fun new =>
        ⟨new.1, new.2.mono two.counts⟩⟩
    · exact ⟨defined.1, fun x member => (defined.2 x member).imp_left fun new =>
        ⟨fun took => new.1 (took.mono one.counts), new.2⟩⟩
  apart := by
    intro p q action action' x new later here there first second
    rcases Nat.lt_or_ge q b₁.graph.size with old | late
    · rw [two.draws.stands (later.trans old)] at here
      rw [two.draws.stands old] at there
      exact one.apart p q action action' x new later here there first second
    · rcases Nat.lt_or_ge p b₁.graph.size with old | late'
      · -- What the first part took the second part does not take again.
        rw [two.draws.stands old] at here
        rcases (one.draws.new p action new here).2 x first with taken | given
        · rcases (two.draws.new q action' late there).2 x second with taken' | given
          · exact absurd taken.2 taken'.1
          · exact .inl given
        · exact .inl given
      · exact two.apart p q action action' x late' later here there first second

theorem after (rest : Writes calls result b₁ b') (counts : b.Counts b₁)
    (same : b₁.graph = b.graph) : Writes calls result b b' :=
  (quiet counts same).trans rest

theorem before (start : Writes calls result b b₁) (counts : b₁.Counts b')
    (same : b'.graph = b₁.graph) : Writes calls result b b' :=
  start.trans (quiet counts same)

theorem node (counts : b.Counts b₁) (same : b₁.graph = b.graph) (once : action.defines.Nodup)
    (each : ∀ x ∈ action.defines, (¬ b.Took x ∧ b₁.Took x) ∨ result = some x) :
    Writes calls result b (b₁.append ctx action ends) where
  counts := counts
  draws := (Draws.append ctx ends ⟨once, each⟩).after same
  apart := by
    intro p q action action' x new later here there
    have inside := Graph.lt_size_of_actions there
    rw [size_append, same] at inside
    omega

theorem define {name : String} (counts : (b.takeVar name).Counts b₁) (same : b₁.graph = b.graph)
    (defines : action.defines = [b.varFor name]) :
    Writes calls result b (b₁.append ctx action ends) := by
  refine node ((Counts.takeVar b name).trans counts) same (by simp [defines]) ?_
  rw [defines, List.forall_mem_singleton]
  exact .inl ⟨b.not_took_varFor name, (b.took_takeVar name).mono counts⟩

theorem pattern {scope : Scope} {e : Expr} {action : StoreAction} {store : String} {t : Term}
    {binds : Table String String} (takes : action = .consume ∨ action = .read)
    (read : ctx.plain scope true e .empty b = .ok ((t, binds), b₁)) :
    Writes calls result b (b₁.append ctx (action.node store t binds.values) ends) := by
  obtain ⟨xs, bound, -⟩ := (Context.reading_of_plain read).binds
  obtain ⟨once, each⟩ := bound.values (.refl b) (by simp [Table.values, Table.empty])
  have same := (Context.reads_plain read).graph
  have defines : (action.node store t binds.values).defines = binds.values := by
    rcases takes with rfl | rfl <;> rfl
  refine node bound.counts same ?_ ?_ <;> rw [defines]
  · exact once
  · exact fun y member => .inl (each y member)

theorem mark (none : action.defines = []) : Writes calls result b (b.append ctx action ends) :=
  node (.refl b) rfl (by simp [none]) (by simp [none])

theorem enter (rest : Writes calls result (b.append ctx action ends) b')
    (none : action.defines = []) : Writes calls result b b' :=
  (mark none).trans rest

theorem leave (start : Writes calls result b b') (none : action.defines = []) :
    Writes calls result b (b'.append ctx action ends) :=
  start.trans (mark none)

theorem connect (writes : Writes calls result b b') (source target : Nat) :
    Writes calls result b (b'.connect source target) where
  counts := writes.counts
  draws := writes.draws.connect source target
  apart := by simpa [Build.connect] using writes.apart

theorem mono (writes : Writes calls result b b') (wider : ∀ x p q, calls x p q → calls' x p q) :
    Writes calls' result b b' :=
  { writes with
    apart := by
      intro p q action action' x new later here there first second
      have known := writes.apart p q action action' x new later here there first second
      exact known.imp_right (wider x p q) }

theorem weaken (writes : Writes calls none b b') (result : Option String) :
    Writes calls result b b' where
  counts := writes.counts
  draws := writes.draws.mono fun i action defined =>
    ⟨defined.1, fun x member => .inl ((defined.2 x member).resolve_right (by simp))⟩
  apart := by
    intro p q action action' x new later here there first second
    have known := writes.apart p q action action' x new later here there first second
    exact .inr (known.resolve_left (by simp))

theorem settle {name : String} (writes : Writes calls (some (b.varFor name)) (b.takeVar name) b')
    (own : ∀ p q, b.graph.size ≤ p → q < b'.graph.size → calls (b.varFor name) p q) :
    Writes calls none b b' where
  counts := (Counts.takeVar b name).trans writes.counts
  draws := by
    refine Draws.after (writes.draws.mono fun i action defined => ?_) rfl
    refine ⟨defined.1, fun x member => .inl ?_⟩
    rcases defined.2 x member with new | same
    · exact ⟨fun took => new.1 (took.mono (.takeVar b name)), new.2⟩
    · obtain rfl := Option.some.inj same
      exact ⟨b.not_took_varFor name, (b.took_takeVar name).mono writes.counts⟩
  apart := by
    intro p q action action' x new later here there first second
    rcases writes.apart p q action action' x new later here there first second with same | other
    · obtain rfl := Option.some.inj same
      exact .inr (own p q new (Graph.lt_size_of_actions there))
    · exact .inr other

end Writes

end Build

namespace Judgement

def result : Judgement → Option String
  | .command _ ctx _ _ _ _ | .sequence _ _ ctx _ _ _ _ | .arms _ _ ctx _ _ _ _ _ _ =>
    ctx.frame.result
  | .call _ _ _ _ _ result _ _ _ | .invoke _ _ _ _ result _ _ _
  | .alternatives _ _ _ result _ _ _ _ | .inlined _ _ _ _ result _ _ _ => result
  | .bind .. | .term .. | .terms .. | .arguments .. | .params .. => none

def SameCall (J : Judgement) (x : String) (p q : Nat) : Prop :=
  ∃ f args ctx scope ends b ends' b', (call f args ctx scope ends (some x) b ends' b').Within J ∧
    b.Took x ∧ b.graph.size ≤ p ∧ q < b'.graph.size

variable {J K : Judgement} {b b' : Build}

theorem SameCall.mono {x : String} {p q : Nat} (same : K.SameCall x p q) (within : K.Within J) :
    J.SameCall x p q := by
  obtain ⟨f, args, ctx, scope, ends, b, ends', b', inside, rest⟩ := same
  exact ⟨f, args, ctx, scope, ends, b, ends', b', inside.trans within, rest⟩

theorem Within.writes {result : Option String} (within : K.Within J)
    (writes : Build.Writes K.SameCall result b b') : Build.Writes J.SameCall result b b' :=
  writes.mono fun _ _ _ same => same.mono within

theorem Within.writes_call {f name : String} {args : List Expr} {ctx : Context} {scope : Scope}
    {ends ends' : Ends}
    (within : (call f args ctx scope ends (some (b.varFor name)) (b.takeVar name) ends'
      b').Within J)
    (writes : Build.Writes (call f args ctx scope ends (some (b.varFor name)) (b.takeVar name) ends'
      b').SameCall (some (b.varFor name)) (b.takeVar name) b') :
    Build.Writes J.SameCall none b b' :=
  (within.writes writes).settle fun _ _ new inside =>
    ⟨f, args, ctx, scope, ends, b.takeVar name, ends', b', within, b.took_takeVar name, new, inside⟩

end Judgement

open Judgement in
theorem Elaborates.writes {J : Judgement} (derived : Elaborates J) :
    Build.Writes J.SameCall J.result J.before J.after := by
  induction derived with
  | skip | last | noArm | str | ident | noTerm | noArgument | noAlternative | noParam =>
    exact .refl _
  | seq body ih => exact (Premises.seq.only body).writes ih
  | bind bound ih => exact ((Premises.bind.only bound).writes ih).weaken _
  | @new x ctx flow b _ declared =>
    exact .define (.takeNonce (b.takeVar x)) rfl rfl
  | branch arms ih => exact ((Premises.branch.only arms).writes ih).enter rfl
  | loop repeated arms ih ih' =>
    have inBody := ((Premises.loop.first repeated arms).writes ih).enter rfl
    have inArms := ((Premises.loop.second repeated arms).writes ih').enter rfl
    exact ((inBody.trans inArms).leave rfl).connect _ _
  | call called ih => exact ((Premises.call.only called).writes ih).weaken _
  | emit each ih =>
    exact (((Premises.emit.only each).writes ih |>.weaken _).leave rfl).before (.refl _) rfl
  | put puts _ _ value ih =>
    exact (((Premises.put puts).only value).writes ih |>.weaken _).leave
      (by rcases puts with rfl | rfl <;> rfl)
  | take takes _ _ read _ => exact .pattern takes read
  | retValue _ result value ih =>
    refine (((Premises.retValue result).only value).writes ih |>.weaken _).trans ?_
    refine .node (.refl _) rfl (by simp [Action.defines]) ?_
    simp [Action.defines, Judgement.result, result]
  | retNothing _ result value ih =>
    exact ((Premises.retNothing result).only value).writes ih |>.weaken _
  | next first rest ih ih' =>
    exact ((Premises.next.first first rest).writes ih).trans
      ((Premises.next.second first rest).writes ih')
  | dropArm never rest ih =>
    obtain rfl := Context.leaves_conditions never
    exact (((Premises.dropArm never).only rest).writes ih).after (.refl _) rfl
  | takeArm guarded chosen rest ih ih' =>
    obtain rfl := Context.leaves_conditions guarded
    have inBody := ((Premises.takeArm guarded).first chosen rest).writes ih
    have later := ((Premises.takeArm guarded).second chosen rest).writes ih'
    exact (inBody.trans later).enter rfl
  | bindCall _ callable called _ ih =>
    -- The variable is taken here, so the call may write it as often as it returns.
    exact ((Premises.bindCall callable).only called).writes_call ih
  | bindTerm _ uncalled evaluated _ ih =>
    exact (((Premises.bindTerm uncalled).only evaluated).writes ih).trans
      (.define (.refl _) rfl rfl)
  | tuple each made ih => exact ((Premises.tuple made).only each).writes ih
  | symbol arity each ih => exact ((Premises.symbol arity).only each).writes ih
  | callTerm free _ called ih => exact ((Premises.callTerm free).only called).writes_call ih
  | someTerms first rest ih ih' =>
    exact ((Premises.someTerms.first first rest).writes ih).trans
      ((Premises.someTerms.second first rest).writes ih')
  | storeArgument named rest ih => exact ((Premises.storeArgument named).only rest).writes ih
  | valueArgument unnamed first rest ih ih' =>
    exact (((Premises.valueArgument unnamed).first first rest).writes ih).trans
      (((Premises.valueArgument unnamed).second first rest).writes ih')
  | callee found passing invoked ih ih' =>
    exact (((Premises.callee found).first passing invoked).writes ih |>.weaken _).trans
      (((Premises.callee found).second passing invoked).writes ih')
  | direct typed _ single inlined ih =>
    exact ((Premises.direct typed single).only inlined).writes ih
  | site typed _ several alternatives goesOn ih =>
    have tried := ((Premises.site typed several goesOn).only alternatives).writes ih
    exact (tried.enter rfl).leave rfl
  | deadSite typed _ several alternatives ih =>
    exact (((Premises.deadSite typed several).only alternatives).writes ih).enter rfl
  | someAlternatives first rest ih ih' =>
    have here := (Premises.someAlternatives.first first rest).writes ih
    have later := (Premises.someAlternatives.second first rest).writes ih'
    exact (here.trans later).enter rfl
  | inline params body returned ih ih' =>
    exact ((Premises.inline.first params body).writes ih |>.weaken _).trans
      ((Premises.inline.second params body).writes ih')
  | storeParam declared rest ih => exact ((Premises.storeParam declared).only rest).writes ih
  | valueParam declared rest ih =>
    exact .trans (.define (.refl _) rfl rfl)
      (((Premises.valueParam declared).only rest).writes ih)

end ThreatModel
