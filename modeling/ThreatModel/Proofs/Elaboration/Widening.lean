import Mathlib
import ThreatModel.Proofs.Elaboration.Pairing

set_option autoImplicit false

namespace ThreatModel

structure Declarations.Widens (D D' : Declarations) : Prop where
  same : D' = { D with policy := D'.policy }
  attacks : ∀ subject attack, D.policy.allowsAttack subject attack = true →
    D'.policy.allowsAttack subject attack = true

namespace Declarations.Widens

variable {D D' : Declarations}

theorem theory (wider : D.Widens D') : D'.theory = D.theory := by rw [wider.same]

theorem callables (wider : D.Widens D') : D'.callables = D.callables := by rw [wider.same]

theorem stores (wider : D.Widens D') : D'.stores = D.stores := by rw [wider.same]

theorem constants (wider : D.Widens D') : D'.constants = D.constants := by rw [wider.same]

theorem plan (wider : D.Widens D') (d : Definition) (subjects : List String) (intercept : Bool) :
    (D.callables.plan d subjects D.policy intercept).Sublist
      (D'.callables.plan d subjects D'.policy intercept) := by
  rw [wider.callables]
  refine List.Sublist.cons_cons _ (List.Sublist.map _ ?_)
  split
  · exact List.Sublist.refl _
  · refine List.monotone_filter_right _ fun attack granted => ?_
    obtain ⟨subject, member, allowed⟩ := List.any_eq_true.mp granted
    exact List.any_eq_true.mpr ⟨subject, member, wider.attacks _ _ allowed⟩

end Declarations.Widens

structure Context.Widens (D : Declarations) (P : Pairing) (ctx ctx' : Context) : Prop where
  decls : ctx.decls = D
  wider : D.Widens ctx'.decls
  type : ctx'.type = ctx.type
  definition : ctx'.frame.definition = ctx.frame.definition
  intercept : ctx'.frame.intercept = ctx.frame.intercept
  result : P.Results ctx.frame.result ctx'.frame.result

variable {D : Declarations} {P Q : Pairing} {ctx ctx' : Context} {scope scope' : Scope}
  {b b₁ b' b₁' : Build}

namespace Context.Widens

theorem enter (widens : ctx.Widens D P ctx') (segment segment' : String) :
    (ctx.enter segment).Widens D P (ctx'.enter segment') :=
  ⟨widens.decls, widens.wider, widens.type, widens.definition, widens.intercept, widens.result⟩

theorem enter_alone (widens : ctx.Widens D P ctx') (segment : String) :
    ctx.Widens D P (ctx'.enter segment) :=
  ⟨widens.decls, widens.wider, widens.type, widens.definition, widens.intercept, widens.result⟩

theorem onward (widens : ctx.Widens D P ctx') (onward : P.Onward b' Q b₁') : ctx.Widens D Q ctx' :=
  { widens with result := onward.results widens.result }

theorem inside (widens : ctx.Widens D P ctx') (d : Definition) {result result' : Option String}
    (results : P.Results result result') : (ctx.inside d result).Widens D P (ctx'.inside d result') :=
  ⟨widens.decls, widens.wider, widens.type, rfl, by simp [Context.inside, widens.intercept], results⟩

end Context.Widens

namespace Pairing

theorem scopes_empty : P.Scopes {} {} := fun _ => .none

theorem Scopes.child (scopes : P.Scopes scope scope') : P.Scopes scope.child scope'.child := by
  intro x
  simpa only [Scope.find?_child] using scopes x

theorem Scopes.declare {scope₁ scope₁' : Scope} (scopes : P.Scopes scope scope') {x : String}
    {binding binding' : Binding} (alike : P.Bindings binding binding')
    (declared : scope.declare x binding = .ok scope₁)
    (declared' : scope'.declare x binding' = .ok scope₁') : P.Scopes scope₁ scope₁' := by
  intro y
  rw [Scope.find?_declare declared, Scope.find?_declare declared']
  split
  · exact .some alike
  · exact scopes y

theorem Binds.onward {binds binds' : Table String String} (alike : P.Binds binds binds')
    (onward : P.Onward b' Q b₁') : Q.Binds binds binds' :=
  List.Forall₂.imp (fun _ _ pair => ⟨pair.1, onward.vars pair.2⟩) alike

theorem Binds.values {binds binds' : Table String String} (alike : P.Binds binds binds')
    {ρ : String → String} {f : Nat → Nat} (respects : P.Respects ρ f) :
    binds.values.map ρ = binds'.values := by
  obtain ⟨entries⟩ := binds
  obtain ⟨entries'⟩ := binds'
  simp only [Binds, Table.Alike, Table.values, List.map_map] at alike ⊢
  induction alike with
  | nil => rfl
  | cons pair _ ih => simpa using ⟨respects.vars _ pair.2, ih⟩

theorem TermLists.cons {t t' : Term} {ts ts' : List Term} (rest : P.TermLists ts ts')
    (first : P.Terms t t') : P.TermLists (t :: ts) (t' :: ts') := by
  intro ρ f respects
  rw [List.map_cons, first ρ f respects, rest ρ f respects]

theorem TermLists.app {ts ts' : List Term} (alike : P.TermLists ts ts') (g : String) :
    P.Terms (.app g ts) (.app g ts') := by
  intro ρ f respects
  rw [Term.recast_app, alike ρ f respects]

theorem tuple?_map (ρ : String → String) (ts : List Term) :
    Term.tuple? (ts.map (Term.recast ρ id)) = (Term.tuple? ts).map (Term.recast ρ id) := by
  induction ts with
  | nil => rfl
  | cons t rest ih =>
    cases rest with
    | nil => rfl
    | cons t' rest =>
      simp only [List.map_cons, Term.tuple?] at ih ⊢
      rw [ih]
      cases Term.tuple? (t' :: rest) <;> simp [Term.pair]

theorem TermLists.tuple {ts ts' : List Term} {t t' : Term} (alike : P.TermLists ts ts')
    (made : Term.tuple ts = .ok t) (made' : Term.tuple ts' = .ok t') : P.Terms t t' := by
  intro ρ f respects
  have whole := tuple?_map ρ ts
  rw [alike ρ f respects, Term.tuple_eq_ok made, Term.tuple_eq_ok made'] at whole
  exact (Option.some.inj whole).symm

end Pairing

namespace Context.Widens

open Pairing

theorem known (widens : ctx.Widens D P ctx') (paired : Paired D.shared P b b')
    (scopes : P.Scopes scope scope') {binds binds' : Table String String} (alike : P.Binds binds binds')
    {x : String} {found found' : Option Term} (done : ctx.known scope binds x b = .ok (found, b))
    (done' : ctx'.known scope' binds' x b' = .ok (found', b')) :
    Option.Rel P.Terms found found' := by
  simp only [Context.known, widens.wider.constants, widens.wider.stores, widens.wider.theory,
    widens.decls] at done done'
  have bound := scopes x
  have taken : P.Results (binds.find? x) (binds'.find? x) := Table.Alike.find? alike x
  generalize scope.find? x = binding, scope'.find? x = binding' at bound done done'
  generalize binds.find? x = y, binds'.find? x = y' at taken done done'
  cases bound with
  | @some binding binding' same =>
    cases binding with
    | store s => simp at done
    | value y =>
      cases binding' with
      | store s => exact same.elim
      | value y' =>
        obtain rfl : some (Term.var y) = found := by simpa using done
        obtain rfl : some (Term.var y') = found' := by simpa using done'
        exact .some fun ρ f respects => by simp [respects.vars _ same]
  | none =>
    cases taken with
    | @some y y' pair =>
      obtain rfl : some (Term.var y) = found := by simpa using done
      obtain rfl : some (Term.var y') = found' := by simpa using done'
      exact .some fun ρ f respects => by simp [respects.vars _ pair]
    | none =>
      cases constant : D.constants.find? x with
      | some fresh =>
        cases fresh with
        | true =>
          obtain rfl : some (Term.var (freshConstantVar x)) = found := by
            simpa [constant] using done
          obtain rfl : some (Term.var (freshConstantVar x)) = found' := by
            simpa [constant] using done'
          have common := paired.held _ ⟨x, constant, rfl⟩
          exact .some fun ρ f respects => by simp [respects.vars _ common]
        | false =>
          obtain rfl : some (Term.const x) = found := by simpa [constant] using done
          obtain rfl : some (Term.const x) = found' := by simpa [constant] using done'
          exact .some fun ρ f respects => by simp
      | none =>
        simp only [constant, Builder.ite_apply] at done done'
        split at done
        next => simp at done
        next free =>
          simp only [free, Bool.false_eq_true, if_false] at done'
          split at done
          next symbol =>
            obtain rfl : some (Term.app x []) = found := by simpa using done
            obtain rfl : some (Term.app x []) = found' := by simpa [symbol] using done'
            exact .some fun ρ f respects => by simp
          next other =>
            obtain rfl : none = found := by simpa using done
            obtain rfl : none = found' := by simpa [other] using done'
            exact .none

theorem reading (apart : Untaken D.shared) {isPattern : Bool} {es : List Expr} {ts : List Term}
    {binds binds₁ : Table String String}
    (read : ctx.Reading scope isPattern es binds b ts binds₁ b₁) :
    ∀ {P : Pairing} {binds' binds₁' : Table String String} {b' b₁' : Build} {ts' : List Term},
    ctx.Widens D P ctx' → Paired D.shared P b b' → P.Scopes scope scope' → P.Binds binds binds' →
    ctx'.Reading scope' isPattern es binds' b' ts' binds₁' b₁' →
    ∃ Q, P.Onward b' Q b₁' ∧ Paired D.shared Q b₁ b₁' ∧ Q.TermLists ts ts' ∧
      Q.Binds binds₁ binds₁' := by
  induction read with
  | nil =>
    intro P binds' binds₁' b' b₁' ts' widens paired scopes alike read'
    cases read'
    exact ⟨P, .refl P _, paired, fun ρ f respects => rfl, alike⟩
  | str _ ih =>
    intro P binds' binds₁' b' b₁' ts' widens paired scopes alike read'
    cases read' with
    | str rest' =>
      obtain ⟨Q, onward, paired, terms, alike⟩ := ih widens paired scopes alike rest'
      exact ⟨Q, onward, paired, terms.cons fun ρ f respects => by simp, alike⟩
  | known found _ ih =>
    intro P binds' binds₁' b' b₁' ts' widens paired scopes alike read'
    cases read' with
    | known found' rest' =>
      cases widens.known paired scopes alike (found.known _) (found'.known _) with
      | some term =>
        obtain ⟨Q, onward, paired, terms, alike⟩ := ih widens paired scopes alike rest'
        exact ⟨Q, onward, paired, terms.cons (onward.terms term), alike⟩
    | fresh _ unknown' _ =>
      cases widens.known paired scopes alike (found.known _) (unknown'.known _)
  | @fresh x _ _ _ b _ _ _ pattern unknown _ ih =>
    intro P binds' binds₁' b' b₁' ts' widens paired scopes alike read'
    cases read' with
    | known found' _ => cases widens.known paired scopes alike (unknown.known _) (found'.known _)
    | fresh _ unknown' rest' =>
      -- The name is new to both patterns, and both take a variable for it.
      have here : P.Onward b' (P.bind (b.varFor x) (b'.varFor x)) (b'.takeVar x) :=
        .bind P _ _ (.refl _)
      have pair : (b.varFor x, b'.varFor x) ∈ (P.bind (b.varFor x) (b'.varFor x)).vars :=
        List.mem_cons_self
      obtain ⟨Q, onward, paired, terms, alike⟩ := ih (widens.onward here)
        (paired.takeVar apart x) (here.scopes scopes)
        (Table.Alike.insert (alike.onward here) pair) rest'
      have term : (P.bind (b.varFor x) (b'.varFor x)).Terms (.var (b.varFor x))
          (.var (b'.varFor x)) := fun ρ f respects => by simp [respects.vars _ pair]
      exact ⟨Q, here.trans onward, paired, terms.cons (onward.terms term), alike⟩
  | tuple _ made _ ih ih' =>
    intro P binds' binds₁' b' b₁' ts' widens paired scopes alike read'
    cases read' with
    | tuple each' made' rest' =>
      obtain ⟨Q, onward, paired, terms, alike⟩ := ih widens paired scopes alike each'
      obtain ⟨R, onward', paired, others, alike⟩ :=
        ih' (widens.onward onward) paired (onward.scopes scopes) alike rest'
      exact ⟨R, onward.trans onward', paired,
        others.cons (onward'.terms (terms.tuple made made')), alike⟩
  | symbol _ _ _ ih ih' =>
    intro P binds' binds₁' b' b₁' ts' widens paired scopes alike read'
    cases read' with
    | symbol _ each' rest' =>
      obtain ⟨Q, onward, paired, terms, alike⟩ := ih widens paired scopes alike each'
      obtain ⟨R, onward', paired, others, alike⟩ :=
        ih' (widens.onward onward) paired (onward.scopes scopes) alike rest'
      exact ⟨R, onward.trans onward', paired, others.cons (onward'.terms (terms.app _)), alike⟩

theorem plain (apart : Untaken D.shared) {isPattern : Bool} {e : Expr} {t t' : Term}
    {binds binds₁ binds' binds₁' : Table String String} (widens : ctx.Widens D P ctx')
    (paired : Paired D.shared P b b') (scopes : P.Scopes scope scope')
    (alike : P.Binds binds binds')
    (done : ctx.plain scope isPattern e binds b = .ok ((t, binds₁), b₁))
    (done' : ctx'.plain scope' isPattern e binds' b' = .ok ((t', binds₁'), b₁')) :
    ∃ Q, P.Onward b' Q b₁' ∧ Paired D.shared Q b₁ b₁' ∧ Q.Terms t t' ∧ Q.Binds binds₁ binds₁' := by
  obtain ⟨Q, onward, paired, terms, alike⟩ :=
    reading apart (reading_of_plain done) widens paired scopes alike (reading_of_plain done')
  exact ⟨Q, onward, paired, fun ρ f respects => by simpa using terms ρ f respects, alike⟩

theorem conditions (apart : Untaken D.shared) {comparisons : List Comparison}
    {group group' : Option (List Condition)} (widens : ctx.Widens D P ctx')
    (paired : Paired D.shared P b b') (scopes : P.Scopes scope scope')
    (done : ctx.conditions scope comparisons b = .ok (group, b₁))
    (done' : ctx'.conditions scope' comparisons b' = .ok (group', b₁')) :
    ∃ Q, P.Onward b' Q b₁' ∧ Paired D.shared Q b₁ b₁' ∧ Option.Rel Q.Conditions group group' := by
  induction comparisons generalizing P b b' group group' with
  | nil =>
    simp only [Context.conditions, Builder.pure_apply] at done done'
    cases done
    cases done'
    exact ⟨P, .refl P _, paired, .some fun ρ f respects => rfl⟩
  | cons c rest ih =>
    simp only [Context.conditions, Builder.bind_eq_ok_iff] at done done'
    obtain ⟨⟨left, _⟩, b₂, leftRead, ⟨right, _⟩, b₃, rightRead, done⟩ := done
    obtain ⟨⟨left', _⟩, b₂', leftRead', ⟨right', _⟩, b₃', rightRead', done'⟩ := done'
    obtain ⟨Q, onward, paired, lefts, -⟩ :=
      plain apart widens paired scopes .nil leftRead leftRead'
    obtain ⟨R, onward', paired, rights, -⟩ := plain apart (widens.onward onward) paired
      (onward.scopes scopes) .nil rightRead rightRead'
    have lefts := onward'.terms lefts
    have onward := onward.trans onward'
    have later {group group' : Option (List Condition)}
        (done : ctx.conditions scope rest b₃ = .ok (group, b₁))
        (done' : ctx'.conditions scope' rest b₃' = .ok (group', b₁')) :=
      ih (widens.onward onward) paired (onward.scopes scopes) done done'
    -- The conditions are kept on both sides, or two literals decide on both.
    have kept (done : (do
          return (← ctx.conditions scope rest).map ({ left, right, equal := !c.negated } :: ·) :
            Builder (Option (List Condition))) b₃ = .ok (group, b₁))
        (done' : (do
          return (← ctx'.conditions scope' rest).map
            ({ left := left', right := right', equal := !c.negated } :: ·) :
              Builder (Option (List Condition))) b₃' = .ok (group', b₁')) :
        ∃ Q, P.Onward b' Q b₁' ∧ Paired D.shared Q b₁ b₁' ∧
          Option.Rel Q.Conditions group group' := by
      simp only [Builder.bind_eq_ok_iff, Builder.pure_apply] at done done'
      obtain ⟨others, b₄, read, ⟨⟩⟩ := done
      obtain ⟨others', b₄', read', ⟨⟩⟩ := done'
      obtain ⟨S, onward'', paired, groups⟩ := later read read'
      refine ⟨S, onward.trans onward'', paired, ?_⟩
      cases groups with
      | none => exact .none
      | some alike =>
        refine .some fun ρ f respects => ?_
        have here := onward''.respects respects
        rw [List.map_cons, alike ρ f respects, Condition.recast, lefts ρ f here, rights ρ f here]
    obtain ⟨ρ, f, respects⟩ := paired.exists_respects
    have leftSame := lefts ρ f respects
    have rightSame := rights ρ f respects
    cases left with
    | lit a =>
      cases right with
      | lit a' =>
        obtain rfl : Term.lit a = left' := by simpa using leftSame
        obtain rfl : Term.lit a' = right' := by simpa using rightSame
        simp only [Builder.ite_apply] at done done'
        split at done
        next decided =>
          simp only [decided, if_true, Builder.pure_apply] at done done'
          cases done
          cases done'
          exact ⟨R, onward, paired, .none⟩
        next decided =>
          rw [if_neg decided] at done'
          obtain ⟨S, onward'', paired, groups⟩ := later done done'
          exact ⟨S, onward.trans onward'', paired, groups⟩
      | _ =>
        obtain rfl := leftSame
        obtain rfl := rightSame
        exact kept done (by simpa using done')
    | _ =>
      obtain rfl := leftSame
      obtain rfl := rightSame
      exact kept done (by simpa using done')

theorem resolveStore (widens : ctx.Widens D P ctx') (scopes : P.Scopes scope scope')
    {target : String} {store store' : StoreDecl}
    (resolved : ctx.resolveStore scope target b = .ok (store, b))
    (resolved' : ctx'.resolveStore scope' target b' = .ok (store', b')) : store = store' := by
  have bound := scopes target
  have here := resolveStore_eq_ok resolved
  have there := resolveStore_eq_ok resolved'
  rw [widens.wider.stores, ← widens.decls] at there
  generalize scope.find? target = binding, scope'.find? target = binding' at bound here there
  cases bound with
  | none => simp_all
  | @some binding binding' alike =>
    obtain ⟨name, rfl, found⟩ : ∃ name, binding = .store name ∧
        ctx.decls.stores.stores.find? name = some store := by simpa using here
    obtain ⟨name', rfl, found'⟩ : ∃ name, binding' = .store name ∧
        ctx.decls.stores.stores.find? name = some store' := by simpa using there
    obtain rfl : name = name' := alike
    exact Option.some.inj (found.symm.trans found')

theorem storeNamed? (widens : ctx.Widens D P ctx') (scopes : P.Scopes scope scope') (e : Expr) :
    ctx'.storeNamed? scope' e = ctx.storeNamed? scope e := by
  cases e with
  | ident x loc =>
    simp only [Context.storeNamed?, widens.wider.stores, widens.wider.constants, widens.decls]
    have bound := scopes x
    generalize scope.find? x = binding, scope'.find? x = binding' at bound
    cases bound with
    | none => rfl
    | @some binding binding' alike =>
      cases binding <;> cases binding' <;> first | rfl | exact alike.elim | simp_all [Bindings]
  | _ => rfl

theorem callee (widens : ctx.Widens D P ctx') {f : String} {got : Nat} {d d' : Definition}
    (found : ctx.callee f got b = .ok (d, b)) (found' : ctx'.callee f got b' = .ok (d', b')) :
    d = d' := by
  have here := (callee_eq_ok found).1
  have there := (callee_eq_ok found').1
  rw [widens.wider.callables, ← widens.decls, here] at there
  exact Option.some.inj there

theorem objectTypes (widens : ctx.Widens D P ctx') {args args' : List Argument}
    (alike : List.Forall₂ P.Arguments args args') {objects objects' : List String}
    (typed : ctx.objectTypes args b = .ok (objects, b))
    (typed' : ctx'.objectTypes args' b' = .ok (objects', b')) : objects = objects' := by
  induction alike generalizing objects objects' with
  | nil =>
    obtain rfl : [] = objects := by simpa [Context.objectTypes] using typed
    obtain rfl : [] = objects' := by simpa [Context.objectTypes] using typed'
    rfl
  | @cons arg arg' rest rest' same _ ih =>
    cases arg with
    | value t =>
      cases arg' with
      | value t' => exact ih typed typed'
      | store s => exact same.elim
    | store s =>
      cases arg' with
      | value t => exact same.elim
      | store s' =>
        obtain rfl : s = s' := same
        simp only [Context.objectTypes, Builder.bind_eq_ok_iff, check_eq_ok_iff,
          Builder.pure_apply] at typed typed'
        obtain ⟨store, b₂, ⟨got, rfl⟩, others, b₃, later, ⟨⟩⟩ := typed
        obtain ⟨store', b₂', ⟨got', rfl⟩, others', b₃', later', ⟨⟩⟩ := typed'
        rw [widens.wider.stores, ← widens.decls] at got'
        obtain rfl := Except.ok.inj (got.symm.trans got')
        rw [ih later later']

theorem declareAll {entries entries' : List (String × String)} {scope₁ scope₁' : Scope}
    (scopes : P.Scopes scope scope')
    (alike : List.Forall₂ (fun e e' => e.1 = e'.1 ∧ (e.2, e'.2) ∈ P.vars) entries entries')
    (declared : ctx.declareAll scope entries b = .ok (scope₁, b))
    (declared' : ctx'.declareAll scope' entries' b' = .ok (scope₁', b')) :
    P.Scopes scope₁ scope₁' := by
  induction alike generalizing scope scope' with
  | nil =>
    obtain rfl : scope = scope₁ := by simpa [Context.declareAll] using declared
    obtain rfl : scope' = scope₁' := by simpa [Context.declareAll] using declared'
    exact scopes
  | @cons e e' rest rest' same _ ih =>
    obtain ⟨x, y⟩ := e
    obtain ⟨x', y'⟩ := e'
    obtain ⟨rfl, pair⟩ : x = x' ∧ (y, y') ∈ P.vars := same
    simp only [Context.declareAll, Builder.bind_eq_ok_iff, declare_eq_ok_iff] at declared declared'
    obtain ⟨scope₂, b₂, ⟨first, rfl⟩, others⟩ := declared
    obtain ⟨scope₂', b₂', ⟨first', rfl⟩, others'⟩ := declared'
    have bound : P.Bindings (.value y) (.value y') := pair
    exact ih (scopes.declare bound first first') others others'

end Context.Widens

theorem Context.Widens.callable (widens : ctx.Widens D P ctx') (f : String) :
    (!ctx'.decls.theory.hasSymbol f && ctx'.decls.callables.contains f) =
      (!ctx.decls.theory.hasSymbol f && ctx.decls.callables.contains f) := by
  rw [widens.wider.theory, widens.wider.callables, widens.decls]

theorem Context.Widens.plan (widens : ctx.Widens D P ctx') (d : Definition) (objects : List String) :
    (ctx.plan d objects).Sublist (ctx'.plan d objects) := by
  rw [Context.plan, Context.plan, widens.decls, widens.type, widens.intercept]
  exact widens.wider.plan d _ _

end ThreatModel
