import Mathlib
import ThreatModel.Proofs.Declarations.Stages
import ThreatModel.Proofs.Elaboration.Branching
import ThreatModel.Proofs.Elaboration.Files

set_option autoImplicit false

namespace ThreatModel

abbrev Names := String → Option String

def Names.hide (names : Names) (xs : List String) : Names := fun y =>
  if y ∈ xs then none else names y

inductive Access where
  | touch (action : StoreAction) (store : String)
  | call (callee : String) (stores : List String)
  deriving DecidableEq, Repr

namespace Expr

def store? (names : Names) : Expr → Option String
  | .ident x _ => names x
  | _ => none

mutual

def accesses (D : Declarations) (names : Names) : Expr → List Access
  | .tuple items => accessesAll D names items
  | .apply f args _ =>
    accessesAll D names args ++
      if D.theory.hasSymbol f then [] else [.call f (args.filterMap (store? names))]
  | _ => []

def accessesAll (D : Declarations) (names : Names) : List Expr → List Access
  | [] => []
  | e :: es => accesses D names e ++ accessesAll D names es

end

theorem accesses_of_store? {D : Declarations} {names : Names} {e : Expr} {store : String}
    (named : e.store? names = some store) : e.accesses D names = [] := by
  cases e with
  | ident x loc => rfl
  | _ => simp [store?] at named

end Expr

def Comparison.accesses (D : Declarations) (names : Names) (c : Comparison) : List Access :=
  c.left.accesses D names ++ c.right.accesses D names

mutual

def Command.binds : Command → List String
  | .bind x _ | .new x => [x]
  | .seq commands => Command.bindsAll commands
  | _ => []

def Command.bindsAll : List Command → List String
  | [] => []
  | c :: cs => c.binds ++ Command.bindsAll cs

end

mutual

def Command.accesses (D : Declarations) : Command → Names → List Access
  | .seq commands, names => Command.accessesAll D commands names
  | .bind _ value, names => value.accesses D names
  | .branch arms, names => Arm.accessesAll D arms names
  | .loop body arms, names =>
    body.accesses D names ++ Arm.accessesAll D arms (names.hide body.binds)
  | .call f args _, names =>
    Expr.accessesAll D names args ++ [.call f (args.filterMap (Expr.store? names))]
  | .emit event, names => Expr.accessesAll D names event.args
  | .store action target e _, names =>
    e.accesses D names ++ (names target).toList.map (.touch action)
  | .ret value _, names => value.accesses D names
  | _, _ => []

def Command.accessesAll (D : Declarations) : List Command → Names → List Access
  | [], _ => []
  | c :: cs, names => c.accesses D names ++ Command.accessesAll D cs (names.hide c.binds)

def Arm.accessesAll (D : Declarations) : List Arm → Names → List Access
  | [], _ => []
  -- An arm that is never taken is not drawn.
  | .guarded comparisons body :: rest, names =>
    (if comparisons.all fun c => !c.isNever then
      comparisons.flatMap (·.accesses D names) ++ body.accesses D names else []) ++
      Arm.accessesAll D rest names

end

def Declarations.names (D : Declarations) : Names := fun x =>
  if D.stores.contains x then some x else none

namespace Template

def names (template : Template) (D : Declarations) (channels : Table String String) : Names :=
  fun x => if x ∈ template.params.map (·.name) then channels.find? x else D.names x

def accesses (template : Template) (D : Declarations) (channels : Table String String) :
    List Access :=
  let vars := template.vars.map fun v => Command.bind v.name v.init
  Command.accessesAll D vars (template.names D channels) ++
    template.main.accesses D ((template.names D channels).hide (Command.bindsAll vars))

end Template

def Declarations.typesOf (D : Declarations) (stores : List String) : List String :=
  stores.filterMap fun store => (D.stores.stores.find? store).bind (·.type)

def Access.Granted (D : Declarations) (type : String) : Access → Prop
  | .touch action store => ∃ decl, D.stores.stores.find? store = some decl ∧
      D.policy.allows type decl.type action.word = true
  | .call f stores => ∃ d, D.callables.find? f = some d ∧ (∀ target, d.role ≠ .active target) ∧
      if d.role = .passive then
        ∃ subject ∈ type :: D.typesOf stores, D.policy.allowsAttack subject f = true
      else
        (∀ object ∈ D.typesOf stores, D.policy.allows type (some object) f = true) ∧
          (D.typesOf stores = [] → D.policy.allows type none f = true)

namespace Names

variable {names : Names}

@[simp] theorem hide_nil : names.hide [] = names := by
  funext y
  simp [hide]

@[simp] theorem hide_hide (xs ys : List String) :
    (names.hide xs).hide ys = names.hide (xs ++ ys) := by
  funext y
  simp only [hide, List.mem_append]
  grind

end Names

namespace Scope

variable {D : Declarations} {scope scope' : Scope}

def names (scope : Scope) (D : Declarations) : Names := fun x =>
  match scope.find? x with
  | some (.store s) => some s
  | some (.value _) => none
  | none => D.names x

@[simp] theorem names_child : scope.child.names D = scope.names D := by
  funext y
  simp only [names, find?_child]

theorem names_declare_value {x y : String} (declared : scope.declare x (.value y) = .ok scope') :
    scope'.names D = (scope.names D).hide [x] := by
  funext z
  simp only [names, find?_declare declared, Names.hide, List.mem_singleton]
  grind

theorem names_declare_store {x s : String} (declared : scope.declare x (.store s) = .ok scope') :
    scope'.names D = Function.update (scope.names D) x (some s) := by
  funext z
  simp only [names, find?_declare declared, Function.update_apply]
  grind

theorem names_declareAll {ctx : Context} {entries : List (String × String)} {b b' : Build}
    (free : ∀ entry ∈ entries, scope.names D entry.1 = none)
    (declared : ctx.declareAll scope entries b = .ok (scope', b')) :
    scope'.names D = scope.names D := by
  induction entries generalizing scope b with
  | nil =>
    obtain ⟨rfl, -⟩ : scope = scope' ∧ b = b' := by simpa [Context.declareAll] using declared
    rfl
  | cons entry rest ih =>
    obtain ⟨here, others⟩ := List.forall_mem_cons.mp free
    simp only [Context.declareAll, Builder.bind_eq_ok_iff, Context.declare_eq_ok_iff] at declared
    obtain ⟨scope₁, b₁, ⟨first, rfl⟩, declared⟩ := declared
    -- The name stood for no store before it was bound, and a value is none either.
    have same : scope₁.names D = scope.names D := by
      rw [names_declare_value first]
      funext y
      simp only [Names.hide, List.mem_singleton]
      split
      next bound => rw [bound, here]
      next => rfl
    rw [ih (same ▸ others) declared, same]

end Scope

namespace Context

variable {ctx : Context} {scope : Scope} {b b' : Build}

theorem storeNamed?_eq (apart : ∀ x, ctx.decls.constants.contains x = true →
    ctx.decls.stores.contains x = false) (e : Expr) :
    ctx.storeNamed? scope e = e.store? (scope.names ctx.decls) := by
  cases e with
  | ident x loc =>
    simp only [storeNamed?, Expr.store?, Scope.names, Declarations.names]
    cases scope.find? x with
    | some binding => cases binding <;> rfl
    | none =>
      cases constant : ctx.decls.constants.contains x with
      | false => simp
      | true => simp [apart x constant]
  | _ => rfl

theorem names_of_resolveStore {target : String} {store : StoreDecl} (decls : ctx.decls.Sound)
    (resolved : ctx.resolveStore scope target b = .ok (store, b')) :
    scope.names ctx.decls target = some store.name := by
  rcases resolveStore_eq_ok resolved with ⟨name, bound, found⟩ | ⟨unbound, found⟩
  · simp [Scope.names, bound, (decls.store found).named]
  · simp [Scope.names, Declarations.names, unbound, Registry.contains_of_find? found,
      (decls.store found).named]

theorem Finds.unnamed {binds : Table String String} {x : String}
    (finds : ctx.Finds scope binds x none) : scope.names ctx.decls x = none := by
  cases finds with
  | nothing unbound _ _ unstored => simp [Scope.names, Declarations.names, unbound, unstored]

section Plain

variable {isPattern : Bool}

def Free (ctx : Context) (scope : Scope) (binds : Table String String) : Prop :=
  ∀ entry ∈ binds.entries, scope.names ctx.decls entry.1 = none

theorem Reading.accesses (names : Names) {es : List Expr} {ts : List Term}
    {binds binds' : Table String String}
    (reading : ctx.Reading scope isPattern es binds b ts binds' b') :
    Expr.accessesAll ctx.decls names es = [] ∧ (ctx.Free scope binds → ctx.Free scope binds') := by
  induction reading with
  | nil => exact ⟨rfl, id⟩
  | str _ ih | known _ _ ih => exact ih
  | fresh _ unknown _ ih =>
    refine ⟨ih.1, fun free => ih.2 ?_⟩
    rintro ⟨z, w⟩ member
    rcases Table.mem_write member with new | old
    · rw [(Prod.mk.inj new).1]
      exact unknown.unnamed
    · exact free (z, w) old
  | tuple _ _ _ ih ih' =>
    exact ⟨by rw [Expr.accessesAll, Expr.accesses, ih.1, ih'.1, List.append_nil], ih'.2 ∘ ih.2⟩
  | @symbol f _ _ _ _ _ _ _ _ _ _ _ arity _ _ ih ih' =>
    have symbol : ctx.decls.theory.hasSymbol f = true := by
      simp [Theory.hasSymbol, Table.contains, arity]
    exact ⟨by simp [Expr.accessesAll, Expr.accesses, symbol, ih.1, ih'.1], ih'.2 ∘ ih.2⟩

theorem accesses_of_plain (names : Names) {e : Expr} {binds binds' : Table String String} {t : Term}
    (done : ctx.plain scope isPattern e binds b = .ok ((t, binds'), b')) :
    e.accesses ctx.decls names = [] ∧ (ctx.Free scope binds → ctx.Free scope binds') := by
  simpa [Expr.accessesAll] using (reading_of_plain done).accesses names

theorem accesses_of_conditions (names : Names) {comparisons : List Comparison}
    {group : List Condition} (done : ctx.conditions scope comparisons b = .ok (some group, b')) :
    comparisons.flatMap (·.accesses ctx.decls names) = [] := by
  have compared := compares_of_conditions done
  clear done
  -- Unless two literals decide against the arm, all of its comparisons are read.
  have live : (some group).isSome = true := rfl
  generalize some group = found at compared live
  induction compared with
  | nil => rfl
  | never => simp at live
  | always left right _ _ ih | keep left right _ _ ih =>
    rw [List.flatMap_cons, ih (by simpa using live), Comparison.accesses,
      (accesses_of_plain names left).1, (accesses_of_plain names right).1]
    rfl

end Plain

end Context

end ThreatModel
