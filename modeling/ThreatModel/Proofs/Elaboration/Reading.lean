import Mathlib
import ThreatModel.Proofs.Elaboration.Derivation

set_option autoImplicit false

namespace ThreatModel

namespace Context

inductive Finds (ctx : Context) (scope : Scope) (binds : Table String String) (x : String) :
    Option Term → Prop
  | value {y : String} (bound : scope.find? x = some (.value y)) :
      Finds ctx scope binds x (some (.var y))
  | pattern {y : String} (unbound : scope.find? x = none) (taken : binds.find? x = some y) :
      Finds ctx scope binds x (some (.var y))
  | constant {fresh : Bool} (unbound : scope.find? x = none) (untaken : binds.find? x = none)
      (constant : ctx.decls.constants.find? x = some fresh) :
      Finds ctx scope binds x (some (if fresh then .var (freshConstantVar x) else .const x))
  | symbol (unbound : scope.find? x = none) (untaken : binds.find? x = none)
      (other : ctx.decls.constants.find? x = none) (unstored : ctx.decls.stores.contains x = false)
      (symbol : ctx.decls.theory.symbols.find? x = some 0) :
      Finds ctx scope binds x (some (.app x []))
  | nothing (unbound : scope.find? x = none) (untaken : binds.find? x = none)
      (other : ctx.decls.constants.find? x = none) (unstored : ctx.decls.stores.contains x = false)
      (noSymbol : ctx.decls.theory.symbols.find? x ≠ some 0) : Finds ctx scope binds x none

inductive Reading (ctx : Context) (scope : Scope) (isPattern : Bool) :
    List Expr → Table String String → Build → List Term → Table String String → Build → Prop
  | nil {binds : Table String String} {b : Build} :
      Reading ctx scope isPattern [] binds b [] binds b
  | str {es : List Expr} {binds binds' : Table String String} {b b' : Build} {ts : List Term}
      {s : String} (rest : Reading ctx scope isPattern es binds b ts binds' b') :
      Reading ctx scope isPattern (.str s :: es) binds b (.lit s :: ts) binds' b'
  | known {binds binds' : Table String String} {x : String} {t : Term} {es : List Expr}
      {b b' : Build} {ts : List Term} {loc : Option Location}
      (found : ctx.Finds scope binds x (some t))
      (rest : Reading ctx scope isPattern es binds b ts binds' b') :
      Reading ctx scope isPattern (.ident x loc :: es) binds b (t :: ts) binds' b'
  | fresh {x : String} {loc : Option Location} {binds binds' : Table String String} {b b' : Build}
      {es : List Expr} {ts : List Term} (pattern : isPattern = true)
      (unknown : ctx.Finds scope binds x none)
      (rest : Reading ctx scope isPattern es (binds.insert x (b.varFor x)) (b.takeVar x) ts
        binds' b') :
      Reading ctx scope isPattern (.ident x loc :: es) binds b (.var (b.varFor x) :: ts) binds' b'
  | tuple {items es : List Expr} {binds binds₁ binds' : Table String String} {b b₁ b' : Build}
      {us ts : List Term} {t : Term} (each : Reading ctx scope isPattern items binds b us binds₁ b₁)
      (made : Term.tuple us = .ok t)
      (rest : Reading ctx scope isPattern es binds₁ b₁ ts binds' b') :
      Reading ctx scope isPattern (.tuple items :: es) binds b (t :: ts) binds' b'
  | symbol {f : String} {args es : List Expr} {binds binds₁ binds' : Table String String}
      {b b₁ b' : Build} {us ts : List Term} {loc : Option Location}
      (arity : ctx.decls.theory.symbols.find? f = some args.length)
      (each : Reading ctx scope isPattern args binds b us binds₁ b₁)
      (rest : Reading ctx scope isPattern es binds₁ b₁ ts binds' b') :
      Reading ctx scope isPattern (.apply f args loc :: es) binds b (.app f us :: ts) binds' b'

inductive Compares (ctx : Context) (scope : Scope) :
    List Comparison → Build → Option (List Condition) → Build → Prop
  | nil {b : Build} : Compares ctx scope [] b (some []) b
  | never {b b₁ b₂ : Build} {u v : String} {binds binds' : Table String String} {c : Comparison}
      {rest : List Comparison}
      (left : ctx.plain scope false c.left .empty b = .ok ((.lit u, binds), b₁))
      (right : ctx.plain scope false c.right .empty b₁ = .ok ((.lit v, binds'), b₂))
      (decided : ((u == v) == c.negated) = true) : Compares ctx scope (c :: rest) b none b₂
  | always {b b₁ b₂ b' : Build} {u v : String} {binds binds' : Table String String}
      {rest : List Comparison} {group : Option (List Condition)} {c : Comparison}
      (left : ctx.plain scope false c.left .empty b = .ok ((.lit u, binds), b₁))
      (right : ctx.plain scope false c.right .empty b₁ = .ok ((.lit v, binds'), b₂))
      (decided : ((u == v) == c.negated) = false) (later : Compares ctx scope rest b₂ group b') :
      Compares ctx scope (c :: rest) b group b'
  | keep {b b₁ b₂ b' : Build} {l r : Term} {binds binds' : Table String String}
      {rest : List Comparison} {group : Option (List Condition)} {c : Comparison}
      (left : ctx.plain scope false c.left .empty b = .ok ((l, binds), b₁))
      (right : ctx.plain scope false c.right .empty b₁ = .ok ((r, binds'), b₂))
      (undecided : ∀ u v, l = .lit u → r ≠ .lit v) (later : Compares ctx scope rest b₂ group b') :
      Compares ctx scope (c :: rest) b
        (group.map ({ left := l, right := r, equal := !c.negated } :: ·)) b'

variable {ctx : Context} {scope : Scope} {isPattern : Bool} {binds binds' : Table String String}
  {b b' : Build}

theorem finds_of_known {x : String} {found : Option Term}
    (done : ctx.known scope binds x b = .ok (found, b')) : ctx.Finds scope binds x found := by
  simp only [known] at done
  cases bound : scope.find? x with
  | some binding =>
    cases binding with
    | store s => simp [bound] at done
    | value y =>
      obtain ⟨rfl, -⟩ : some (Term.var y) = found ∧ b = b' := by simpa [bound] using done
      exact .value bound
  | none =>
    cases taken : binds.find? x with
    | some y =>
      obtain ⟨rfl, -⟩ : some (Term.var y) = found ∧ b = b' := by simpa [bound, taken] using done
      exact .pattern bound taken
    | none =>
      cases constant : ctx.decls.constants.find? x with
      | some fresh =>
        simp only [bound, taken, constant, Builder.pure_apply] at done
        cases done
        exact .constant bound taken constant
      | none =>
        simp only [bound, taken, constant, Builder.ite_apply] at done
        split at done
        next => simp at done
        next unstored =>
          have unstored := Bool.eq_false_iff.mpr unstored
          split at done
          next symbol =>
            obtain ⟨rfl, -⟩ : some (Term.app x []) = found ∧ b = b' := by simpa using done
            exact .symbol bound taken constant unstored symbol
          next noSymbol =>
            obtain ⟨rfl, -⟩ : none = found ∧ b = b' := by simpa using done
            exact .nothing bound taken constant unstored noSymbol

theorem Finds.known {x : String} {found : Option Term} (finds : ctx.Finds scope binds x found)
    (b : Build) : ctx.known scope binds x b = .ok (found, b) := by
  cases finds <;> simp_all [Context.known]

mutual

theorem Reading.of_plain : ∀ (e : Expr) {es : List Expr} {binds binds₁ binds' : Table String String}
    {b b₁ b' : Build} {t : Term} {ts : List Term},
    ctx.plain scope isPattern e binds b = .ok ((t, binds₁), b₁) →
    ctx.Reading scope isPattern es binds₁ b₁ ts binds' b' →
    ctx.Reading scope isPattern (e :: es) binds b (t :: ts) binds' b'
  | .str s, _, _, _, _, _, _, _, _, _, done, rest => by
    simp only [plain, Builder.pure_apply] at done
    cases done
    exact .str rest
  | .ident x loc, _, _, _, _, _, _, _, _, _, done, rest => by
    simp only [plain, Builder.bind_eq_ok_iff] at done
    obtain ⟨found, b₂, here, done⟩ := done
    obtain ⟨rfl, here⟩ := leaves_known.run here
    cases found with
    | some u =>
      simp only [Builder.pure_apply] at done
      cases done
      exact .known (finds_of_known here) rest
    | none =>
      cases isPattern with
      | false => simp at done
      | true =>
        simp only [if_true, Builder.bind_eq_ok_iff, Builder.freshVar_apply,
          Builder.pure_apply] at done
        obtain ⟨y, b₃, ⟨⟩, ⟨⟩⟩ := done
        exact .fresh rfl (finds_of_known here) rest
  | .tuple items, _, _, _, _, _, _, _, _, _, done, rest => by
    simp only [plain, Builder.bind_eq_ok_iff, Builder.lift_eq_ok_iff, Builder.pure_apply] at done
    obtain ⟨⟨ts, binds₁⟩, b₂, each, made, b₃, ⟨tupled, rfl⟩, ⟨⟩⟩ := done
    exact .tuple (.of_plains items each) tupled rest
  | .apply f args loc, _, _, _, _, _, _, _, _, _, done, rest => by
    cases declared : ctx.decls.theory.symbols.find? f with
    | some arity =>
      simp only [plain, declared, Builder.ite_apply] at done
      split at done
      next => simp at done
      next same =>
        simp only [Builder.bind_eq_ok_iff, Builder.pure_apply] at done
        obtain ⟨⟨us, binds₁⟩, b₂, each, ⟨⟩⟩ := done
        exact .symbol (by rw [declared, not_not.mp same]) (.of_plains args each) rest
    | none =>
      simp only [plain, declared, Builder.ite_apply] at done
      split at done <;> simp at done
  | .unsupported loc, _, _, _, _, _, _, _, _, _, done, _ => by simp [plain] at done

theorem Reading.of_plains : ∀ (es : List Expr) {binds binds' : Table String String} {b b' : Build}
    {ts : List Term}, ctx.plains scope isPattern es binds b = .ok ((ts, binds'), b') →
    ctx.Reading scope isPattern es binds b ts binds' b'
  | [], _, _, _, _, _, done => by
    simp only [plains, Builder.pure_apply] at done
    cases done
    exact .nil
  | e :: es, _, _, _, _, _, done => by
    simp only [plains, Builder.bind_eq_ok_iff, Builder.pure_apply] at done
    obtain ⟨⟨t, binds₁⟩, b₁, first, ⟨others, binds₂⟩, b₂, rest, ⟨⟩⟩ := done
    exact .of_plain e first (.of_plains es rest)

end

theorem reading_of_plain {e : Expr} {t : Term}
    (done : ctx.plain scope isPattern e binds b = .ok ((t, binds'), b')) :
    ctx.Reading scope isPattern [e] binds b [t] binds' b' :=
  .of_plain e done .nil

theorem compares_of_conditions {comparisons : List Comparison} {group : Option (List Condition)}
    (done : ctx.conditions scope comparisons b = .ok (group, b')) :
    ctx.Compares scope comparisons b group b' := by
  induction comparisons generalizing b group with
  | nil =>
    simp only [conditions, Builder.pure_apply] at done
    cases done
    exact .nil
  | cons c rest ih =>
    simp only [conditions, Builder.bind_eq_ok_iff] at done
    obtain ⟨⟨l, binds⟩, b₁, left, ⟨r, binds'⟩, b₂, right, done⟩ := done
    have keep (undecided : ∀ u v, l = .lit u → r ≠ .lit v) (done : (do
        return (← ctx.conditions scope rest).map
          ({ left := l, right := r, equal := !c.negated } :: ·) :
            Builder (Option (List Condition))) b₂ = .ok (group, b')) :
        ctx.Compares scope (c :: rest) b group b' := by
      simp only [Builder.bind_eq_ok_iff, Builder.pure_apply] at done
      obtain ⟨others, b₃, later, ⟨⟩⟩ := done
      exact .keep left right undecided (ih later)
    cases l with
    | lit u =>
      cases r with
      | lit v =>
        simp only [Builder.ite_apply] at done
        split at done
        next decided =>
          simp only [Builder.pure_apply] at done
          cases done
          exact .never left right decided
        next decided => exact .always left right (Bool.eq_false_iff.mpr decided) (ih done)
      | _ => exact keep (by simp) done
    | _ => exact keep (by simp) done

end Context

end ThreatModel
