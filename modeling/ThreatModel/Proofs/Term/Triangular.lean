import Mathlib
import ThreatModel.Term.Unification
import ThreatModel.Proofs.Result
import ThreatModel.Proofs.Term.Substitution

set_option autoImplicit false

open Relation

namespace ThreatModel

namespace Subst

-- From binding to binding, for as long as it takes.
inductive Walks (σ : Subst) : Term → Term → Prop
  | follows {x : String} {u v : Term} (bound : σ.find? x = some u) (later : Walks σ u v) :
      Walks σ (.var x) v
  | stays {t : Term} (free : ∀ x, t = .var x → σ.find? x = none) : Walks σ t t

-- No bound variable is left, at any depth.
inductive Resolves (σ : Subst) : Term → Term → Prop
  | atom {t u : Term} (walks : σ.Walks t u) (plain : u.isApp = false) : Resolves σ t u
  | app {t : Term} {f : String} {args args' : List Term} (walks : σ.Walks t (.app f args))
      (each : List.Forall₂ (Resolves σ) args args') : Resolves σ t (.app f args')

def Needs (σ : Subst) (x y : String) : Prop := ∃ u, σ.find? x = some u ∧ y ∈ u.vars

/-- No variable is inside its own value, however far one follows the bindings. -/
def Acyclic (σ : Subst) : Prop := ∃ level : String → Nat, ∀ x y, σ.Needs x y → level y < level x

def Grows (σ σ' : Subst) : Prop := ∀ x u, σ.find? x = some u → σ'.find? x = some u

variable {σ σ' τ : Subst} {g : String → Term} {s t u v w : Term} {x y z : String}

theorem Grows.refl : σ.Grows σ := fun _ _ bound => bound

theorem Grows.trans (first : σ.Grows σ') (rest : σ'.Grows τ) : σ.Grows τ :=
  fun x u bound => rest x u (first x u bound)

section Walking

theorem Walks.free (walks : σ.Walks t u) : ∀ x, u = .var x → σ.find? x = none := by
  induction walks with
  | follows _ _ ih => exact ih
  | stays free => exact free

theorem Walks.unique (walks : σ.Walks t u) (walks' : σ.Walks t v) : u = v := by
  induction walks with
  | @follows x u w bound later ih =>
    cases walks' with
    | @follows x u' v bound' later' =>
      obtain rfl : u = u' := Option.some.inj (bound ▸ bound')
      exact ih later'
    | stays free => simp [free x rfl] at bound
  | @stays t free =>
    cases walks' with
    | @follows x u v bound later => simp [free x rfl] at bound
    | stays _ => rfl

/-- Whoever gives every bound variable what its value comes to sees no difference. -/
def Solved (σ : Subst) (g : String → Term) : Prop := ∀ x u, σ.find? x = some u → g x = u.under g

theorem Walks.under (walks : σ.Walks t u) (solved : σ.Solved g) : u.under g = t.under g := by
  induction walks with
  | @follows x u v bound later ih => rw [ih, Term.under_var, solved x u bound]
  | stays => rfl

theorem Walks.reaches (walks : σ.Walks t u) (inside : x ∈ t.vars)
    (path : ReflTransGen σ.Needs x y) (free : σ.find? y = none) :
    ∃ z ∈ u.vars, ReflTransGen σ.Needs z y := by
  induction walks generalizing x with
  | @follows x' u v bound later ih =>
    obtain rfl : x = x' := by simpa using inside
    rcases path.cases_head with rfl | ⟨z, ⟨u', bound', inside'⟩, rest⟩
    · simp [free] at bound
    · obtain rfl : u = u' := Option.some.inj (bound ▸ bound')
      exact ih inside' rest
  | stays => exact ⟨x, inside, path⟩

theorem Walks.mono (walks : σ.Walks t u) (grown : σ.Grows σ') (rest : σ'.Walks u v) :
    σ'.Walks t v := by
  induction walks with
  | follows bound _ ih => exact .follows (grown _ _ bound) (ih rest)
  | stays => exact rest

end Walking

section Resolving

@[elab_as_elim] theorem Resolves.induct {P : (t u : Term) → σ.Resolves t u → Prop}
    (atom : ∀ {t u} (walks : σ.Walks t u) (plain : u.isApp = false), P t u (.atom walks plain))
    (app : ∀ {t f args args'} (walks : σ.Walks t (.app f args))
      (each : List.Forall₂ (fun a b => ∃ resolves, P a b resolves) args args'),
      P t (.app f args') (.app walks (each.imp fun _ _ one => one.1)))
    {t u : Term} (resolves : σ.Resolves t u) : P t u resolves :=
  @Resolves.rec σ P (fun ts us _ => List.Forall₂ (fun a b => ∃ resolves, P a b resolves) ts us)
    atom (fun walks _ each => app walks each) .nil
    (fun first _ one others => .cons ⟨first, one⟩ others) t u resolves

theorem Resolves.of_walks (walks : σ.Walks t u) (grown : σ.Grows σ')
    (resolves : σ'.Resolves u w) : σ'.Resolves t w := by
  cases resolves with
  | atom walks' plain => exact .atom (walks.mono grown walks') plain
  | app walks' each => exact .app (walks.mono grown walks') each

theorem Resolves.unique (resolves : σ.Resolves t u) (resolves' : σ.Resolves t v) : u = v := by
  induction resolves using Resolves.induct generalizing v with
  | @atom t u walks plain =>
    cases resolves' with
    | atom walks' _ => exact walks.unique walks'
    | app walks' _ => simp [walks.unique walks', Term.isApp] at plain
  | @app t f args args' walks each =>
    cases resolves' with
    | atom walks' plain => simp [← walks.unique walks', Term.isApp] at plain
    | @app _ f' ts ts' walks' each' =>
      obtain ⟨rfl, rfl⟩ := Term.app.inj (walks.unique walks')
      clear walks walks'
      congr 1
      induction each generalizing ts' with
      | nil =>
        cases each'
        rfl
      | cons one _ ih =>
        cases each' with
        | cons one' others' => rw [one.2 one', ih others']

theorem Resolves.under (resolves : σ.Resolves t u) (solved : σ.Solved g) :
    u.under g = t.under g := by
  induction resolves using Resolves.induct with
  | atom walks _ => exact walks.under solved
  | @app t f args args' walks each =>
    rw [← walks.under solved, Term.under_app, Term.under_app]
    congr 1
    clear walks
    induction each with
    | nil => rfl
    | cons one _ ih => rw [List.map_cons, List.map_cons, one.2, ih]

theorem Resolves.free (resolves : σ.Resolves t u) : ∀ x ∈ u.vars, σ.find? x = none := by
  induction resolves using Resolves.induct with
  | @atom t u walks plain =>
    intro x inside
    cases u with
    | var y =>
      obtain rfl : x = y := by simpa using inside
      exact walks.free x rfl
    | app f args => simp [Term.isApp] at plain
    | const | lit | name => simp at inside
  | @app t f args args' walks each =>
    intro x inside
    obtain ⟨u, member, inside⟩ : ∃ u ∈ args', x ∈ u.vars := by simpa using inside
    obtain ⟨a, -, _, free⟩ := Result.exists_of_forall₂ each.flip member
    exact free x inside

theorem Resolves.reaches (resolves : σ.Resolves t u) (inside : x ∈ t.vars)
    (path : ReflTransGen σ.Needs x y) (free : σ.find? y = none) : y ∈ u.vars := by
  induction resolves using Resolves.induct generalizing x with
  | @atom t u walks plain =>
    obtain ⟨z, inside', path'⟩ := walks.reaches inside path free
    cases u with
    | var z' =>
      obtain rfl : z = z' := by simpa using inside'
      rcases path'.cases_head with rfl | ⟨_, ⟨_, bound, -⟩, -⟩
      · exact inside'
      · simp [walks.free z rfl] at bound
    | app f args => simp [Term.isApp] at plain
    | const | lit | name => simp at inside'
  | @app t f args args' walks each =>
    obtain ⟨z, inside', path'⟩ := walks.reaches inside path free
    obtain ⟨a, member, within⟩ : ∃ a ∈ args, z ∈ a.vars := by simpa using inside'
    obtain ⟨b, member', _, reaches⟩ := Result.exists_of_forall₂ each member
    simpa using ⟨b, member', reaches within path'⟩

end Resolving

section Acyclicity

open Classical in
noncomputable def rank (σ : Subst) (x : String) : Nat :=
  (σ.keys.toFinset.filter (ReflTransGen σ.Needs x)).card

theorem rank_le_size (σ : Subst) (x : String) : σ.rank x ≤ σ.size := by
  classical
  calc σ.rank x ≤ σ.keys.toFinset.card := Finset.card_filter_le _ _
    _ ≤ σ.keys.length := List.toFinset_card_le _
    _ = σ.size := by simp [Table.keys, Table.size]

theorem find?_eq_none_of_rank (zero : σ.rank x = 0) : σ.find? x = none := by
  rw [Table.find?_eq_none_iff]
  intro bound
  have nothing := Finset.card_eq_zero.mp zero
  exact Finset.eq_empty_iff_forall_notMem.mp nothing x (by simp [bound, ReflTransGen.refl])

theorem acyclic_empty : Acyclic .empty := by
  refine ⟨fun _ => 0, ?_⟩
  rintro x y ⟨u, bound, -⟩
  simp at bound

theorem Acyclic.not_back (acyclic : σ.Acyclic) (needs : σ.Needs x y) :
    ¬ ReflTransGen σ.Needs y x := by
  obtain ⟨level, falls⟩ := acyclic
  have lower (z : String) (path : ReflTransGen σ.Needs y z) : level z ≤ level y := by
    induction path with
    | refl => exact le_rfl
    | tail _ last ih => exact (falls _ _ last).le.trans ih
  exact fun path => (falls x y needs).not_ge (lower x path)

theorem Acyclic.rank_lt (acyclic : σ.Acyclic) (needs : σ.Needs x y) : σ.rank y < σ.rank x := by
  classical
  apply Finset.card_lt_card
  rw [Finset.ssubset_iff_of_subset]
  · have known : x ∈ σ.keys := Table.exists_find?_iff.mp (needs.imp fun _ => And.left)
    exact ⟨x, by simp [known, ReflTransGen.refl], by simp [acyclic.not_back needs]⟩
  · intro z inside
    obtain ⟨known, path⟩ := Finset.mem_filter.mp inside
    exact Finset.mem_filter.mpr ⟨known, .head needs path⟩

theorem Acyclic.insert (acyclic : σ.Acyclic) (free : σ.find? x = none) (resolves : σ.Resolves t u)
    (absent : x ∉ u.vars) : Acyclic (σ.insert x t) := by
  classical
  obtain ⟨level, falls⟩ := acyclic
  have apart (y : String) (inside : y ∈ t.vars) : ¬ ReflTransGen σ.Needs y x :=
    fun path => absent (resolves.reaches inside path free)
  -- Whatever leads to the new binding is lifted above all that the binding leads to.
  let lift := (t.vars.map level).sum + 1
  refine ⟨fun y => if ReflTransGen σ.Needs y x then level y + lift else level y, ?_⟩
  rintro y z ⟨v, bound, inside⟩
  beta_reduce
  rw [Table.find?_insert] at bound
  split at bound
  next same =>
    subst same
    obtain rfl := Option.some.inj bound
    have below : level z ≤ (t.vars.map level).sum :=
      List.single_le_sum (by simp) _ (List.mem_map_of_mem inside)
    rw [if_neg (apart z inside), if_pos .refl]
    omega
  next other =>
    have lower := falls y z ⟨v, bound, inside⟩
    by_cases leads : ReflTransGen σ.Needs z x
    · rw [if_pos leads, if_pos (.head ⟨v, bound, inside⟩ leads)]
      omega
    · rw [if_neg leads]
      split <;> omega

theorem Acyclic.walks_walkUpTo (acyclic : σ.Acyclic) {steps : Nat}
    (enough : ∀ x ∈ t.vars, σ.rank x ≤ steps) : σ.Walks t (σ.walkUpTo steps t) := by
  induction steps generalizing t with
  | zero =>
    refine .stays fun x same => find?_eq_none_of_rank (Nat.le_zero.mp (enough x ?_))
    simp [same]
  | succ steps ih =>
    cases t with
    | var x =>
      rw [walkUpTo]
      cases bound : σ.find? x with
      | none => exact .stays fun y same => Term.var.inj same ▸ bound
      | some u =>
        refine .follows bound (ih fun y inside => ?_)
        have lower := acyclic.rank_lt ⟨u, bound, inside⟩
        have top := enough x (by simp)
        omega
    | app | const | lit | name => exact .stays (by simp)

theorem Acyclic.walks (acyclic : σ.Acyclic) (t : Term) : σ.Walks t (σ.walk t) :=
  acyclic.walks_walkUpTo fun x _ => σ.rank_le_size x

theorem resolveAllWith_eq_map (next : Term → Term) (ts : List Term) :
    σ.resolveAllWith next ts = ts.map (σ.resolveWith next) := by
  induction ts with
  | nil => rfl
  | cons t ts ih => simp [resolveAllWith, ih]

theorem Acyclic.rank_lt_of_walks (acyclic : σ.Acyclic) (walks : σ.Walks t u) (inside : y ∈ u.vars) :
    u = t ∨ ∃ x ∈ t.vars, σ.rank y < σ.rank x := by
  induction walks with
  | @follows x u v bound later ih =>
    refine .inr ⟨x, by simp, ?_⟩
    rcases ih inside with rfl | ⟨z, within, lower⟩
    · exact acyclic.rank_lt ⟨v, bound, inside⟩
    · exact lower.trans (acyclic.rank_lt ⟨u, bound, within⟩)
  | stays => exact .inl rfl

theorem resolves_self (free : ∀ x ∈ t.vars, σ.find? x = none) : σ.Resolves t t := by
  induction t using Term.induct with
  | var x => exact .atom (.stays fun y same => free y (by simp [same])) rfl
  | const | lit | name => exact .atom (.stays (by simp)) rfl
  | app f args ih =>
    refine .app (.stays (by simp)) (List.forall₂_same.mpr fun a member => ih a member ?_)
    exact fun x inside => free x (by simpa using ⟨a, member, inside⟩)

theorem Acyclic.resolves_resolveUpTo (acyclic : σ.Acyclic) {depth : Nat}
    (enough : ∀ x ∈ t.vars, σ.rank x ≤ depth) : σ.Resolves t (σ.resolveUpTo depth t) := by
  induction depth generalizing t with
  | zero =>
    exact resolves_self fun x inside => find?_eq_none_of_rank (Nat.le_zero.mp (enough x inside))
  | succ depth ih =>
    rw [resolveUpTo]
    induction t using Term.induct with
    | var x =>
      have walks := acyclic.walks (.var x)
      rw [resolveWith]
      split
      next f args ends =>
        rw [ends] at walks
        refine .of_walks walks .refl (ih fun y inside => ?_)
        obtain ⟨z, within, lower⟩ := (acyclic.rank_lt_of_walks walks inside).resolve_left (by simp)
        have top := enough z within
        omega
      next other =>
        refine .atom walks ?_
        cases ends : σ.walk (.var x) with
        | app f args => exact absurd ends (other f args)
        | var | const | lit | name => rfl
    | const | lit | name => exact .atom (.stays (by simp)) rfl
    | app f args each =>
      rw [resolveWith, resolveAllWith_eq_map]
      refine .app (.stays (by simp)) (List.forall₂_map_right_iff.mpr (List.forall₂_same.mpr ?_))
      exact fun a member => each a member fun x inside =>
        enough x (by simpa using ⟨a, member, inside⟩)

theorem Acyclic.resolves (acyclic : σ.Acyclic) (t : Term) : σ.Resolves t (σ.resolve t) :=
  acyclic.resolves_resolveUpTo fun x _ => σ.rank_le_size x

theorem Acyclic.resolve_of_walks (acyclic : σ'.Acyclic) (grown : σ.Grows σ')
    (walks : σ.Walks t u) : σ'.resolve t = σ'.resolve u :=
  (acyclic.resolves t).unique (.of_walks walks grown (acyclic.resolves u))

theorem Acyclic.resolve_app (acyclic : σ.Acyclic) (f : String) (args : List Term) :
    σ.resolve (.app f args) = .app f (args.map σ.resolve) := by
  refine (acyclic.resolves _).unique (.app (.stays (by simp)) ?_)
  exact List.forall₂_map_right_iff.mpr (List.forall₂_same.mpr fun a _ => acyclic.resolves a)

end Acyclicity

section Size

theorem Walks.mem_values (walks : σ.Walks t u) : u = t ∨ u ∈ σ.values := by
  induction walks with
  | follows bound _ ih =>
    rcases ih with rfl | member
    · exact .inr (List.mem_map_of_mem (Table.mem_entries_of_find? bound))
    · exact .inr member
  | stays => exact .inl rfl

-- Each level of bindings can make a term larger by the factor of the largest value.
theorem Acyclic.size_resolveUpTo_le (acyclic : σ.Acyclic) {bound : Nat}
    (values : ∀ u ∈ σ.values, u.size ≤ bound) (positive : 0 < bound) (depth : Nat) (t : Term) :
    (σ.resolveUpTo depth t).size ≤ t.size * bound ^ depth := by
  induction depth generalizing t with
  | zero => simp [resolveUpTo]
  | succ depth ih =>
    have factor : 1 ≤ bound ^ (depth + 1) := Nat.one_le_pow _ _ positive
    rw [resolveUpTo]
    induction t using Term.induct with
    | var x =>
      rw [resolveWith]
      have walks := acyclic.walks (.var x)
      split
      next f args ends =>
        rw [ends] at walks
        have small := values _ (walks.mem_values.resolve_left (by simp))
        calc (σ.resolveUpTo depth (.app f args)).size
            ≤ (Term.app f args).size * bound ^ depth := ih _
          _ ≤ bound * bound ^ depth := Nat.mul_le_mul_right _ small
          _ = (Term.var x).size * bound ^ (depth + 1) := by simp [Term.size, pow_succ']
      next other =>
        have single : (σ.walk (.var x)).size = 1 := by
          cases ends : σ.walk (.var x) with
          | app f args => exact absurd ends (other f args)
          | var | const | lit | name => rfl
        simpa [single, Term.size] using factor
    | const | lit | name => simpa [resolveWith, Term.size] using factor
    | app f args each =>
      rw [resolveWith, resolveAllWith_eq_map, Term.size, Term.size, Term.sizeAll_eq_sum,
        Term.sizeAll_eq_sum, List.map_map, add_mul, one_mul, ← List.sum_map_mul_right]
      exact Nat.add_le_add (List.sum_le_sum each) factor

end Size

end Subst

end ThreatModel
