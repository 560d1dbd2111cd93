import Mathlib
import ThreatModel.Proofs.Elaboration.Drawn
import ThreatModel.Proofs.Elaboration.Scoping

set_option autoImplicit false

namespace ThreatModel

@[simp] theorem StoreAction.store?_node (action : StoreAction) (store : String) (t : Term)
    (binds : List String) : (action.node store t binds).store? = some store := by
  cases action <;> rfl

theorem Elaborates.larger {J : Judgement} (derived : Elaborates J) :
    J.before.graph.size ≤ J.after.graph.size := by
  simpa using derived.drawn.kept.length_le

namespace Judgement

variable {J K : Judgement} {Ks : List Judgement}

theorem Premises.decls (rule : J.Premises Ks) (member : K ∈ Ks) :
    K.context.decls = J.context.decls := by
  cases rule with
  | loop | next | takeArm | someTerms | valueArgument | callee | someAlternatives | inline =>
    rcases List.mem_pair.mp member with rfl | rfl
    all_goals rfl
  | _ =>
    obtain rfl := List.mem_singleton.mp member
    rfl

theorem Within.keeps {D : Declarations} {P : Judgement → Prop}
    (step : ∀ J Ks K, J.Premises Ks → (∀ L ∈ Ks, Elaborates L) → K ∈ Ks →
      J.context.decls = D → P J → P K)
    (within : K.Within J) (decls : J.context.decls = D) (here : P J) : P K := by
  induction within with
  | refl => exact here
  | step rule each member _ ih =>
    exact ih ((rule.decls member).trans decls) (step _ _ _ rule each member decls here)

def Spans (J K : Judgement) : Prop :=
  J.before.graph.size ≤ K.before.graph.size ∧ K.after.graph.size ≤ J.after.graph.size

theorem Premises.spans (rule : J.Premises Ks) (each : ∀ L ∈ Ks, Elaborates L) (member : K ∈ Ks) :
    J.Spans K := by
  cases rule with
  | dropArm never =>
    obtain rfl := List.mem_singleton.mp member
    have same := (Context.reads_conditions never).graph
    simp [Spans, before, after, Build.note, same]
  | takeArm guarded =>
    have same := (Context.reads_conditions guarded).graph
    obtain ⟨one, two⟩ := both_of_pair each
    have one := one.larger
    have two := two.larger
    rcases List.mem_pair.mp member with rfl | rfl <;>
      simp only [Spans, before, after, Build.size_append, same] at * <;> omega
  | loop | next | someTerms | valueArgument | callee | someAlternatives | inline =>
    obtain ⟨one, two⟩ := both_of_pair each
    have one := one.larger
    have two := two.larger
    rcases List.mem_pair.mp member with rfl | rfl <;>
      simp only [Spans, before, after, Build.size_append, Build.size_connect] at * <;> omega
  | _ =>
    obtain rfl := List.mem_singleton.mp member
    simp [Spans, before, after]

theorem Within.spans (within : K.Within J) : J.Spans K := by
  induction within with
  | refl => exact ⟨le_rfl, le_rfl⟩
  | step rule each member _ ih =>
    have first := rule.spans each member
    exact ⟨first.1.trans ih.1, ih.2.trans first.2⟩

theorem Within.decls (within : K.Within J) : K.context.decls = J.context.decls := by
  induction within with
  | refl => rfl
  | step rule _ member _ ih => exact ih.trans (rule.decls member)

theorem Adds.of_store {i : Nat} {action : Action} {store : String} (adds : K.Adds i action)
    (touched : action.store? = some store) :
    ∃ kind target e loc ctx flow b flow' b' decl t binds,
      K = command (.store kind target e loc) ctx flow b flow' b' ∧
      ctx.resolveStore flow.scope target b = .ok (decl, b) ∧
      action = kind.node store t binds ∧ decl.name = store := by
  cases adds with
  | put puts resolved value | take takes resolved read =>
    obtain rfl : _ = store := by simpa using touched
    exact ⟨_, _, _, _, _, _, _, _, _, _, _, _, rfl, resolved, rfl, rfl⟩
  | _ => simp [Action.store?] at touched

def Names : Judgement → String → String → Prop
  | .command _ _ flow _ _ _, x, s | .sequence _ _ _ flow _ _ _, x, s
  | .bind _ _ _ flow _ _ _, x, s => flow.scope.find? x = some (.store s)
  | .arms _ _ _ _ scope _ _ _ _, x, s | .term _ _ scope _ _ _ _ _, x, s
  | .terms _ _ scope _ _ _ _ _, x, s | .arguments _ _ scope _ _ _ _ _, x, s
  | .call _ _ _ scope _ _ _ _ _, x, s => scope.find? x = some (.store s)
  | .params pairs _ scope _ _ _ _ _, x, s =>
    scope.find? x = some (.store s) ∨ (x, .store s) ∈ pairs
  | _, _, _ => False

def NamesOn : Judgement → String → String → Prop
  | .command _ _ _ _ flow' _, x, s | .sequence _ _ _ _ _ flow' _, x, s
  | .bind _ _ _ _ _ flow' _, x, s => flow'.scope.find? x = some (.store s)
  | .params _ _ _ _ _ scope' _ _, x, s => scope'.find? x = some (.store s)
  | _, _, _ => False

end Judgement

namespace Scope

variable {scope scope' : Scope} {x y s : String}

theorem find?_store_of_declare {z : String} (declared : scope.declare x (.value z) = .ok scope')
    (found : scope'.find? y = some (.store s)) : scope.find? y = some (.store s) := by
  rw [find?_declare declared] at found
  split at found
  next => simp at found
  next => exact found

theorem find?_store_of_declareAll {ctx : Context} {entries : List (String × String)} {b b' : Build}
    (declared : ctx.declareAll scope entries b = .ok (scope', b'))
    (found : scope'.find? y = some (.store s)) : scope.find? y = some (.store s) := by
  induction entries generalizing scope b with
  | nil =>
    obtain ⟨rfl, -⟩ : scope = scope' ∧ b = b' := by simpa [Context.declareAll] using declared
    exact found
  | cons entry rest ih =>
    simp only [Context.declareAll, Builder.bind_eq_ok_iff, Context.declare_eq_ok_iff] at declared
    obtain ⟨scope₁, b₁, ⟨first, -⟩, declared⟩ := declared
    exact find?_store_of_declare first (ih declared)

end Scope

namespace Judgement

variable {J K : Judgement} {Ks : List Judgement} {x s : String}

theorem Names.of_storeParam {name y : String} {pairs : List (String × Argument)} {ctx : Context}
    {scope scope₁ scope' : Scope} {ends ends' : Ends} {b b' : Build}
    (declared : scope.declare x (.store name) = .ok scope₁)
    (named : (params pairs ctx scope₁ ends b scope' ends' b').Names y s) :
    (params ((x, .store name) :: pairs) ctx scope ends b scope' ends' b').Names y s := by
  rcases named with bound | passed
  · rw [Scope.find?_declare declared] at bound
    split at bound
    next same =>
      obtain rfl : name = s := by simpa using bound
      exact .inr (same ▸ List.mem_cons_self)
    next => exact .inl bound
  · exact .inr (List.mem_cons_of_mem _ passed)

theorem names_of_namesOn (derived : Elaborates J) (named : J.NamesOn x s) : J.Names x s := by
  induction derived with
  | skip | branch | loop | call | emit | put | retValue | retNothing | last => exact named
  | seq _ ih | bind _ ih => exact ih named
  | new declared | bindCall _ _ _ declared | bindTerm _ _ _ declared =>
    exact Scope.find?_store_of_declare declared named
  | take _ _ _ _ declared => exact Scope.find?_store_of_declareAll declared named
  | next _ _ ih ih' => exact ih (ih' named)
  | noParam => exact .inl named
  | storeParam declared _ ih => exact .of_storeParam declared (ih named)
  | valueParam declared _ ih =>
    exact (ih named).imp (Scope.find?_store_of_declare declared) (List.mem_cons_of_mem _)
  | _ => exact named.elim

def SameBody (J K : Judgement) : Prop :=
  K.context.frame = J.context.frame ∧ ∀ x s, K.Names x s → J.Names x s

def InBody (d : Definition) (args : List Argument) (K : Judgement) : Prop :=
  K.context.frame.definition = some d ∧ ∀ x s, K.Names x s → (x, .store s) ∈ d.params.zip args

theorem Premises.stays (rule : J.Premises Ks) (each : ∀ L ∈ Ks, Elaborates L) (member : K ∈ Ks) :
    J.SameBody K ∨ ∃ d args ctx ends result b ends' b',
      J = inlined d args ctx ends result b ends' b' ∧ InBody d args K := by
  cases rule with
  | inline =>
    refine .inr ⟨_, _, _, _, _, _, _, _, rfl, ?_⟩
    obtain ⟨params, -⟩ := both_of_pair each
    rcases List.mem_pair.mp member with rfl | rfl
    · exact ⟨rfl, fun x s named => named.resolve_left (by simp [Scope.find?])⟩
    · refine ⟨rfl, fun x s named => ?_⟩
      exact (names_of_namesOn params named).resolve_left (by simp [Scope.find?])
  | loop =>
    obtain ⟨body, -⟩ := both_of_pair each
    rcases List.mem_pair.mp member with rfl | rfl
    · exact .inl ⟨rfl, fun x s named => by simpa [Names, Scope.find?_child] using named⟩
    · refine .inl ⟨rfl, fun x s named => ?_⟩
      have entered := names_of_namesOn body named
      simpa [Names, Scope.find?_child] using entered
  | next =>
    obtain ⟨first, -⟩ := both_of_pair each
    rcases List.mem_pair.mp member with rfl | rfl
    · exact .inl ⟨rfl, fun _ _ => id⟩
    · refine .inl ⟨rfl, fun x s named => ?_⟩
      have entered := names_of_namesOn first named
      exact entered
  | takeArm =>
    rcases List.mem_pair.mp member with rfl | rfl
    · exact .inl ⟨rfl, fun x s named => by simpa [Names, Scope.find?_child] using named⟩
    · exact .inl ⟨rfl, fun _ _ => id⟩
  | storeParam declared =>
    obtain rfl := List.mem_singleton.mp member
    exact .inl ⟨rfl, fun _ _ => .of_storeParam declared⟩
  | valueParam declared =>
    obtain rfl := List.mem_singleton.mp member
    exact .inl ⟨rfl, fun x s named => named.imp (Scope.find?_store_of_declare declared)
      (List.mem_cons_of_mem _)⟩
  | callee =>
    rcases List.mem_pair.mp member with rfl | rfl
    · exact .inl ⟨rfl, fun _ _ => id⟩
    · exact .inl ⟨rfl, fun _ _ => False.elim⟩
  | someTerms | valueArgument | someAlternatives =>
    rcases List.mem_pair.mp member with rfl | rfl
    all_goals exact .inl ⟨rfl, fun _ _ => id⟩
  | _ =>
    obtain rfl := List.mem_singleton.mp member
    exact .inl ⟨rfl, fun _ _ => id⟩

/-- Node `i` is drawn in a copy of the definition, which is called with these arguments. -/
def Inlines (J : Judgement) (i : Nat) (d : Definition) (args : List Argument) : Prop :=
  ∃ ctx ends result b ends' b', (inlined d args ctx ends result b ends' b').Within J ∧
    b.graph.size ≤ i ∧ i < b'.graph.size

theorem Inlines.mono {i : Nat} {d : Definition} {args : List Argument} (within : K.Within J)
    (inlines : K.Inlines i d args) : J.Inlines i d args := by
  obtain ⟨ctx, ends, result, b, ends', b', inside, among⟩ := inlines
  exact ⟨ctx, ends, result, b, ends', b', inside.trans within, among⟩

theorem Within.copied (within : K.Within J) (derived : Elaborates J) : J.SameBody K ∨
    ∃ d args, InBody d args K ∧
      ∀ i, K.before.graph.size ≤ i → i < K.after.graph.size → J.Inlines i d args := by
  induction within with
  | refl => exact .inl ⟨rfl, fun _ _ => id⟩
  | @step L J Ks rule each member inside ih =>
    have whole := inside.spans
    rcases ih (each L member) with same | ⟨d, args, body, inlines⟩
    · rcases rule.stays each member with up | ⟨d, args, ctx, ends, result, b, ends', b', rfl, up⟩
      · exact .inl ⟨same.1.trans up.1, fun x s named => up.2 x s (same.2 x s named)⟩
      · refine .inr ⟨d, args, ⟨same.1 ▸ up.1, fun x s named => up.2 x s (same.2 x s named)⟩, ?_⟩
        intro i low high
        have around := rule.spans each member
        exact ⟨ctx, ends, result, b, ends', b', .refl derived,
          (around.1.trans whole.1).trans low, high.trans_le (whole.2.trans around.2)⟩
    · refine .inr ⟨d, args, body, fun i low high => ?_⟩
      exact (inlines i low high).mono (.step rule each member (.refl (each L member)))

end Judgement

end ThreatModel
