import Mathlib
import ThreatModel.Proofs.Term.Triangular

set_option autoImplicit false

namespace ThreatModel

namespace Term

section Occurrence

theorem size_lt_app {f : String} {t : Term} {ts : List Term} (member : t ∈ ts) :
    t.size < (Term.app f ts).size := by
  have part : t.size ≤ (ts.map size).sum :=
    List.single_le_sum (by simp) _ (List.mem_map_of_mem member)
  rw [size, sizeAll_eq_sum]
  omega

theorem size_le_of_mem_vars {g : String → Term} {x : String} {t : Term} (inside : x ∈ t.vars) :
    (g x).size ≤ (t.under g).size := by
  induction t using Term.induct with
  | var y =>
    obtain rfl : x = y := by simpa using inside
    simp
  | const | lit | name => simp at inside
  | app f args ih =>
    obtain ⟨t, member, inside⟩ : ∃ t ∈ args, x ∈ t.vars := by simpa using inside
    rw [under_app]
    calc (g x).size
        ≤ (t.under g).size := ih t member inside
      _ ≤ (Term.app f (args.map (under g))).size :=
        (size_lt_app (List.mem_map_of_mem member)).le

theorem not_mem_vars_of_solved {g : String → Term} {x : String} {t : Term}
    (solved : g x = t.under g) (proper : t ≠ .var x) : x ∉ t.vars := by
  intro inside
  cases t with
  | var y =>
    obtain rfl : x = y := by simpa using inside
    exact proper rfl
  | const | lit | name => simp at inside
  | app f args =>
    obtain ⟨t, member, inside⟩ : ∃ t ∈ args, x ∈ t.vars := by simpa using inside
    -- The variable's value would be as large as a term that has it inside.
    have smaller : (g x).size < (Term.app f (args.map (under g))).size :=
      (size_le_of_mem_vars inside).trans_lt (size_lt_app (List.mem_map_of_mem member))
    rw [solved, under_app] at smaller
    exact absurd smaller (lt_irrefl _)

end Occurrence

-- The pairs that a substitution makes equal.
def Equal (g : String → Term) (work : List (Term × Term)) : Prop :=
  ∀ p ∈ work, p.1.under g = p.2.under g

theorem equal_append {g : String → Term} {work work' : List (Term × Term)} :
    Equal g (work ++ work') ↔ Equal g work ∧ Equal g work' :=
  List.forall_mem_append

theorem equal_cons {g : String → Term} {s t : Term} {work : List (Term × Term)} :
    Equal g ((s, t) :: work) ↔ s.under g = t.under g ∧ Equal g work :=
  List.forall_mem_cons

theorem equal_zip {g : String → Term} {ss ts : List Term} (arity : ss.length = ts.length) :
    Equal g (ss.zip ts).reverse ↔ ss.map (under g) = ts.map (under g) := by
  induction ss generalizing ts with
  | nil =>
    obtain rfl : ts = [] := by simpa using arity.symm
    simp [Equal]
  | cons s ss ih =>
    cases ts with
    | nil => simp at arity
    | cons t ts =>
      simp only [List.length_cons, Nat.add_right_cancel_iff] at arity
      rw [List.zip_cons_cons, List.reverse_cons, equal_append, ih arity, List.map_cons,
        List.map_cons, List.cons.injEq, and_comm]
      simp [Equal]

end Term

namespace Subst

variable {σ σ' θ : Subst} {g : String → Term} {s t u v w : Term} {x y z : String}
  {pairs work : List (Term × Term)}

def Absorbed (θ : Subst) (g : String → Term) : Prop := ∀ x, (θ.value x).under g = g x

-- No variable that has a value occurs in a value.
def Idempotent (θ : Subst) : Prop := ∀ u ∈ θ.values, ∀ x ∈ u.vars, x ∉ θ.keys

theorem Absorbed.under_subst (absorbed : θ.Absorbed g) (u : Term) :
    (u.subst θ).under g = u.under g := by
  rw [Term.subst_eq_under, Term.under_under]
  exact Term.under_congr fun x _ => absorbed x

theorem Idempotent.absorbed (idempotent : θ.Idempotent) : θ.Absorbed θ.value := by
  intro x
  cases found : θ.find? x with
  | none => rw [value_of_none found, Term.under_var, value_of_none found]
  | some u =>
    rw [value_of_find? found]
    conv_rhs => rw [← u.under_var_self]
    have among : u ∈ θ.values := List.mem_map_of_mem (Table.mem_entries_of_find? found)
    exact Term.under_congr fun y inside =>
      value_of_none (Table.find?_eq_none_iff.mpr (idempotent u among y inside))

/-- Two terms that walks have ended in: what is left to do for them, and the bindings then. -/
inductive Meets (σ : Subst) : Term → Term → Option (List (Term × Term) × Subst) → Prop
  | same (t : Term) : Meets σ t t (some ([], σ))
  | circular {x : String} {t u : Term} (other : t ≠ .var x) (resolves : σ.Resolves t u)
      (occurs : x ∈ u.vars) : Meets σ (.var x) t none
  | bind {x : String} {t u : Term} (other : t ≠ .var x) (resolves : σ.Resolves t u)
      (absent : x ∉ u.vars) : Meets σ (.var x) t (some ([], σ.insert x t))
  | swap {s : Term} {y : String} (compound : ∀ x, s ≠ .var x) :
      Meets σ s (.var y) (some ([(.var y, s)], σ))
  | split {f : String} {ss ts : List Term} (other : ss ≠ ts) (arity : ss.length = ts.length) :
      Meets σ (.app f ss) (.app f ts) (some ((ss.zip ts).reverse, σ))
  | clash {s t : Term} (left : ∀ x, s ≠ .var x) (right : ∀ y, t ≠ .var y) (other : s ≠ t)
      (apart : ∀ f ss ts, s = .app f ss → t = .app f ts → ss.length ≠ ts.length) :
      Meets σ s t none

theorem Acyclic.meets (acyclic : σ.Acyclic) (s t : Term) : σ.Meets s t (σ.meet? s t) := by
  unfold meet?
  split
  next same => exact same ▸ .same s
  next other =>
    cases s with
    | var x =>
      dsimp only
      split
      next occurs => exact .circular (Ne.symm other) (acyclic.resolves t) occurs
      next absent => exact .bind (Ne.symm other) (acyclic.resolves t) absent
    | app f ss =>
      cases t with
      | var y => exact .swap (by simp)
      | app g ts =>
        dsimp only
        split
        next agree =>
          obtain ⟨rfl, arity⟩ := agree
          exact .split (fun same => other (by rw [same])) arity
        next differ =>
          refine .clash (by simp) (by simp) other fun h ss' ts' left right arity => differ ?_
          cases left
          cases right
          exact ⟨rfl, arity⟩
      | const | lit | name => exact .clash (by simp) (by simp) (by simp) (by simp)
    | const | lit | name =>
      cases t with
      | var y => exact .swap (by simp)
      | app | const | lit | name => exact .clash (by simp) (by simp) other (by simp)

theorem Meets.eq_meet? {outcome : Option (List (Term × Term) × Subst)} (acyclic : σ.Acyclic)
    (meets : σ.Meets s t outcome) : outcome = σ.meet? s t := by
  unfold meet?
  cases meets with
  | same => simp
  | circular other resolves occurs =>
    rw [if_neg (Ne.symm other)]
    simp [← resolves.unique (acyclic.resolves _), occurs]
  | bind other resolves absent =>
    rw [if_neg (Ne.symm other)]
    simp [← resolves.unique (acyclic.resolves _), absent]
  | @swap s y compound =>
    rw [if_neg (compound y)]
    cases s with
    | var x => exact absurd rfl (compound x)
    | app | const | lit | name => rfl
  | split other arity => simp [other, arity]
  | @clash s t left right other apart =>
    rw [if_neg other]
    cases s with
    | var x => exact absurd rfl (left x)
    | app f ss =>
      cases t with
      | var y => exact absurd rfl (right y)
      | app g ts =>
        refine (if_neg ?_).symm
        rintro ⟨rfl, arity⟩
        exact apart f ss ts rfl rfl arity
      | const | lit | name => rfl
    | const | lit | name =>
      cases t with
      | var y => exact absurd rfl (right y)
      | app | const | lit | name => rfl

theorem Meets.acyclic (acyclic : σ.Acyclic) (free : ∀ x, s = .var x → σ.find? x = none)
    (meets : σ.Meets s t (some (pairs, σ'))) : σ'.Acyclic := by
  cases meets with
  | same | swap | split => exact acyclic
  | bind other resolves absent => exact acyclic.insert (free _ rfl) resolves absent

theorem Meets.grown (free : ∀ x, s = .var x → σ.find? x = none)
    (meets : σ.Meets s t (some (pairs, σ'))) : σ.Grows σ' := by
  cases meets with
  | same | swap | split => exact .refl
  | @bind y =>
    intro x u bound
    rw [Table.find?_insert_of_ne, bound]
    rintro rfl
    simp [free y rfl] at bound

theorem solved_insert_iff (free : σ.find? x = none) :
    Solved (σ.insert x t) g ↔ σ.Solved g ∧ g x = t.under g := by
  constructor
  · intro solved
    refine ⟨fun y u bound => solved y u ?_, solved x t (by simp)⟩
    rw [Table.find?_insert_of_ne, bound]
    rintro rfl
    simp [free] at bound
  · rintro ⟨solved, equal⟩ y u bound
    rw [Table.find?_insert] at bound
    split at bound
    next same => exact same ▸ Option.some.inj bound ▸ equal
    next => exact solved y u bound

theorem Meets.solved_iff (meets : σ.Meets s t (some (pairs, σ')))
    (free : ∀ x, s = .var x → σ.find? x = none) :
    σ'.Solved g ∧ Term.Equal g pairs ↔ σ.Solved g ∧ s.under g = t.under g := by
  cases meets with
  | same => simp [Term.Equal]
  | @bind x =>
    rw [solved_insert_iff (free x rfl)]
    simp [Term.Equal]
  | swap => simp [Term.Equal, eq_comm]
  | split other arity => rw [Term.equal_zip arity, Term.under_app, Term.under_app, Term.app.injEq,
      eq_self, true_and]

theorem Meets.ne (meets : σ.Meets s t none) (free : ∀ x, t = .var x → σ.find? x = none)
    (solved : σ.Solved g) : s.under g ≠ t.under g := by
  cases meets with
  | @circular x t u other resolves occurs =>
    intro equal
    have proper : u ≠ .var x := by
      rintro rfl
      cases resolves with
      | atom walks _ => exact other (walks.unique (.stays free)).symm
    rw [Term.under_var, ← resolves.under solved] at equal
    exact Term.not_mem_vars_of_solved equal proper occurs
  | clash left right other apart =>
    intro equal
    cases s with
    | var x => exact left x rfl
    | app f ss =>
      cases t with
      | var y => exact right y rfl
      | app f' ts =>
        rw [Term.under_app, Term.under_app, Term.app.injEq] at equal
        obtain ⟨rfl, args⟩ := equal
        exact apart f ss ts rfl rfl (by simpa using congrArg List.length args)
      | const | lit | name => simp at equal
    | const | lit | name =>
      cases t with
      | var y => exact right y rfl
      | app | const | lit | name => simp_all

section Resolved

variable (alike : σ.Alike (fun _ => σ.Resolves) θ)

include alike

theorem resolves_subst (t : Term) : σ.Resolves t (t.subst θ) := by
  rw [Term.subst_eq_under]
  induction t using Term.induct with
  | var x =>
    have related := alike.find? x
    rw [Term.under_var, value]
    generalize found : σ.find? x = before at related
    generalize θ.find? x = after at related
    cases related with
    | none => exact .atom (.stays fun y same => Term.var.inj same ▸ found) rfl
    | some resolves =>
      cases resolves with
      | atom walks plain => exact .atom (.follows found walks) plain
      | app walks each => exact .app (.follows found walks) each
  | const | lit | name => exact .atom (.stays (by simp)) rfl
  | app f args ih =>
    rw [Term.under_app]
    exact .app (.stays (by simp)) (List.forall₂_map_right_iff.mpr (List.forall₂_same.mpr ih))

theorem idempotent_of_resolved : θ.Idempotent := by
  intro u member x inside known
  obtain ⟨⟨y, u⟩, entry, rfl⟩ := List.mem_map.mp member
  obtain ⟨⟨y', v⟩, -, -, resolves⟩ := Result.exists_of_forall₂ alike.flip entry
  have related := alike.find? x
  rw [resolves.free x inside] at related
  obtain ⟨w, found⟩ := Table.exists_find?_iff.mpr known
  rw [found] at related
  cases related

theorem absorbed_iff_of_resolved : θ.Absorbed g ↔ σ.Solved g := by
  constructor
  · intro absorbed x u bound
    have related := alike.find? x
    rw [bound] at related
    generalize found : θ.find? x = after at related
    cases related with
    | @some _ w resolves =>
      calc g x = w.under g := by rw [← absorbed x, value_of_find? found]
        _ = (u.subst θ).under g := by rw [resolves.unique (resolves_subst alike u)]
        _ = u.under g := absorbed.under_subst u
  · intro solved x
    have related := alike.find? x
    generalize found : σ.find? x = before at related
    generalize found' : θ.find? x = after at related
    cases related with
    | none => rw [value_of_none found', Term.under_var]
    | @some u w resolves => rw [value_of_find? found', resolves.under solved, solved x u found]

end Resolved

end Subst

namespace Term

-- The last pair is taken first.
inductive Unifying : List (Term × Term) → Subst → Option Subst → Prop
  | done {σ θ : Subst} (resolved : σ.Alike (fun _ => σ.Resolves) θ) : Unifying [] σ (some θ)
  | fail {s t u v : Term} {work : List (Term × Term)} {σ : Subst} (left : σ.Walks s u)
      (right : σ.Walks t v) (meets : σ.Meets u v none) : Unifying ((s, t) :: work) σ none
  | next {s t u v : Term} {pairs work : List (Term × Term)} {σ σ' : Subst} {outcome : Option Subst}
      (left : σ.Walks s u) (right : σ.Walks t v) (meets : σ.Meets u v (some (pairs, σ')))
      (later : Unifying (pairs ++ work) σ' outcome) : Unifying ((s, t) :: work) σ outcome

variable {s t u v : Term} {work pairs : List (Term × Term)} {σ σ' θ : Subst} {g : String → Term}

theorem Unifying.not_equal (unifying : Unifying work σ none) (acyclic : σ.Acyclic)
    (solved : σ.Solved g) : ¬ Equal g work := by
  generalize failed : (none : Option Subst) = outcome at unifying
  induction unifying with
  | done => cases failed
  | fail left right meets =>
    rw [equal_cons, ← left.under solved, ← right.under solved]
    exact fun equal => meets.ne right.free solved equal.1
  | next left right meets later ih =>
    rw [equal_cons, ← left.under solved, ← right.under solved]
    rintro ⟨equal, rest⟩
    obtain ⟨solved', now⟩ := (meets.solved_iff left.free).mpr ⟨solved, equal⟩
    exact ih (meets.acyclic acyclic left.free) solved' failed (equal_append.mpr ⟨now, rest⟩)

theorem Unifying.absorbed_iff (unifying : Unifying work σ (some θ)) :
    θ.Idempotent ∧ ∀ g, θ.Absorbed g ↔ σ.Solved g ∧ Equal g work := by
  generalize found : some θ = outcome at unifying
  induction unifying with
  | done alike =>
    obtain rfl := Option.some.inj found
    refine ⟨Subst.idempotent_of_resolved alike, fun g => ?_⟩
    simp [Subst.absorbed_iff_of_resolved alike, Equal]
  | fail => cases found
  | next left right meets later ih =>
    obtain ⟨idempotent, general⟩ := ih found
    refine ⟨idempotent, fun g => ?_⟩
    rw [general, equal_append, ← and_assoc, meets.solved_iff left.free, equal_cons, ← and_assoc]
    refine and_congr_left fun _ => and_congr_right fun solved => ?_
    rw [left.under solved, right.under solved]

theorem Unifying.eq_solve? {outcome : Option Subst} (unifying : Unifying work σ outcome)
    (acyclic : σ.Acyclic) : ∃ least, ∀ rounds ≥ least, solve? rounds work σ = outcome := by
  induction unifying with
  | @done σ θ alike =>
    refine ⟨0, fun rounds _ => ?_⟩
    have resolved : σ.map σ.resolve = θ :=
      alike.eq_map fun _ u w resolves => (acyclic.resolves u).unique resolves
    cases rounds <;> simp [solve?, resolved]
  | @fail s t u v work σ left right meets =>
    refine ⟨1, fun rounds more => ?_⟩
    obtain ⟨rounds, rfl⟩ := Nat.exists_eq_add_of_le' more
    rw [solve?, (acyclic.walks s).unique left, (acyclic.walks t).unique right,
      ← meets.eq_meet? acyclic]
  | @next s t u v pairs work σ σ' outcome left right meets later ih =>
    obtain ⟨least, enough⟩ := ih (meets.acyclic acyclic left.free)
    refine ⟨least + 1, fun rounds more => ?_⟩
    obtain ⟨rounds, rfl⟩ := Nat.exists_eq_add_of_le' more
    rw [← add_assoc, solve?, (acyclic.walks s).unique left, (acyclic.walks t).unique right,
      ← meets.eq_meet? acyclic]
    exact enough _ (by omega)

section Rounds

variable {vars : List String} {bound : Nat}

def Fits (vars : List String) (bound : Nat) (t : Term) : Prop := t.vars ⊆ vars ∧ t.size ≤ bound

-- Bindings only move terms about: none is larger than at the start, and none has new variables.
structure Confined (vars : List String) (bound : Nat) (work : List (Term × Term)) (σ : Subst) :
    Prop where
  acyclic : σ.Acyclic
  distinct : σ.keys.Nodup
  known : σ.keys ⊆ vars
  values : ∀ u ∈ σ.values, u.Fits vars bound
  pending : ∀ p ∈ work, p.1.Fits vars bound ∧ p.2.Fits vars bound

theorem Fits.arg {f : String} {args : List Term} (fits : (Term.app f args).Fits vars bound)
    (member : t ∈ args) : t.Fits vars bound := by
  refine ⟨fun x inside => fits.1 (by simpa using ⟨t, member, inside⟩), ?_⟩
  exact (size_lt_app member).le.trans fits.2

theorem Confined.walks (confined : Confined vars bound work σ) (fits : s.Fits vars bound)
    (walks : σ.Walks s u) : u.Fits vars bound := by
  rcases walks.mem_values with rfl | member
  · exact fits
  · exact confined.values u member

theorem Confined.next (confined : Confined vars bound ((s, t) :: work) σ) (left : σ.Walks s u)
    (right : σ.Walks t v) (meets : σ.Meets u v (some (pairs, σ'))) :
    Confined vars bound (pairs ++ work) σ' := by
  have acyclic := meets.acyclic confined.acyclic left.free
  obtain ⟨first, others⟩ := List.forall_mem_cons.mp confined.pending
  have fits := confined.walks first.1 left
  have fits' := confined.walks first.2 right
  cases meets with
  | same => exact { confined with pending := others }
  | @bind x v u' other resolves absent =>
    have member : x ∈ vars := fits.1 (by simp)
    refine ⟨acyclic, Table.nodup_keys_insert x v confined.distinct, fun y known => ?_, ?_, others⟩
    · rcases Table.mem_keys_insert.mp known with rfl | old
      · exact member
      · exact confined.known old
    · intro w value
      rcases Table.mem_values_insert value with rfl | old
      · exact fits'
      · exact confined.values w old
  | swap => exact { confined with pending := List.forall_mem_cons.mpr ⟨⟨fits', fits⟩, others⟩ }
  | split other arity =>
    refine { confined with pending := List.forall_mem_append.mpr ⟨fun p member => ?_, others⟩ }
    obtain ⟨member, member'⟩ := List.of_mem_zip (List.mem_reverse.mp member)
    exact ⟨fits.arg member, fits'.arg member'⟩

theorem one_le_size (t : Term) : 1 ≤ t.size := by
  cases t <;> simp [size]

def weight (σ : Subst) (work : List (Term × Term)) : Nat :=
  (work.map fun p => (σ.resolve p.1).size + (σ.resolve p.2).size).sum

theorem weight_cons (σ : Subst) (s t : Term) (work : List (Term × Term)) :
    weight σ ((s, t) :: work) = (σ.resolve s).size + (σ.resolve t).size + weight σ work := by
  simp [weight]

theorem weight_append (σ : Subst) (work work' : List (Term × Term)) :
    weight σ (work ++ work') = weight σ work + weight σ work' := by
  simp [weight]

theorem weight_zip {ss ts : List Term} (arity : ss.length = ts.length) :
    weight σ (ss.zip ts).reverse =
      sizeAll (ss.map σ.resolve) + sizeAll (ts.map σ.resolve) := by
  rw [weight, List.map_reverse, List.sum_reverse]
  induction ss generalizing ts with
  | nil =>
    obtain rfl : ts = [] := by simpa using arity.symm
    simp [sizeAll]
  | cons s ss ih =>
    cases ts with
    | nil => simp at arity
    | cons t ts =>
      simp only [List.length_cons, Nat.add_right_cancel_iff] at arity
      simp only [List.zip_cons_cons, List.map_cons, List.sum_cons, sizeAll, ih arity]
      omega

-- A pair that was turned round has its variable in front, so the next round does not turn it back.
def Turned (σ : Subst) (work : List (Term × Term)) : Prop :=
  ∃ y s rest, work = (.var y, s) :: rest ∧ σ.find? y = none

/-- A round takes something off the weight, or it turns a pair round. -/
theorem weight_next {τ : Subst} (acyclic : τ.Acyclic) (left : σ.Walks s u) (right : σ.Walks t v)
    (meets : σ.Meets u v (some (pairs, σ'))) (grown : σ.Grows τ) (work : List (Term × Term)) :
    weight τ (pairs ++ work) + 2 ≤ weight τ ((s, t) :: work) ∨
      weight τ (pairs ++ work) = weight τ ((s, t) :: work) ∧ Turned σ' (pairs ++ work) ∧
        ¬ Turned σ ((s, t) :: work) := by
  rw [weight_append, weight_cons, acyclic.resolve_of_walks grown left,
    acyclic.resolve_of_walks grown right]
  have positive := one_le_size (τ.resolve u)
  have positive' := one_le_size (τ.resolve v)
  cases meets with
  | same | bind =>
    left
    simp only [weight, List.map_nil, List.sum_nil]
    omega
  | @swap u y compound =>
    refine .inr ⟨?_, ⟨y, u, work, rfl, right.free y rfl⟩, ?_⟩
    · simp only [weight, List.map_cons, List.map_nil, List.sum_cons, List.sum_nil]
      omega
    · rintro ⟨x, s', rest, same, free⟩
      obtain ⟨⟨rfl, rfl⟩, rfl⟩ : (s = .var x ∧ t = s') ∧ work = rest := by simpa using same
      exact compound x (left.unique (.stays fun z same => Term.var.inj same ▸ free))
  | split other arity =>
    left
    rw [weight_zip arity, acyclic.resolve_app, acyclic.resolve_app, size, size]
    omega

theorem unifying_nil (acyclic : σ.Acyclic) (rounds : Nat) :
    Unifying [] σ (solve? rounds [] σ) := by
  have resolved : Unifying [] σ (some (σ.map σ.resolve)) :=
    .done (Table.alike_map fun _ u => acyclic.resolves u)
  cases rounds <;> simpa only [solve?] using resolved

theorem Confined.unifying_or_le_weight (confined : Confined vars bound work σ) (rounds : Nat) :
    Unifying work σ (solve? rounds work σ) ∨
      ∃ τ : Subst, Confined vars bound [] τ ∧ σ.Grows τ ∧
        rounds ≤ weight τ work + 1 ∧ (Turned σ work → rounds ≤ weight τ work) := by
  induction rounds generalizing work σ with
  | zero =>
    exact .inr ⟨σ, { confined with pending := by simp }, .refl, by omega, by omega⟩
  | succ rounds ih =>
    cases work with
    | nil => exact .inl (unifying_nil confined.acyclic _)
    | cons p work =>
      obtain ⟨s, t⟩ := p
      have left := confined.acyclic.walks s
      have right := confined.acyclic.walks t
      have meets := confined.acyclic.meets (σ.walk s) (σ.walk t)
      rw [solve?]
      cases outcome : σ.meet? (σ.walk s) (σ.walk t) with
      | none => exact .inl (.fail left right (outcome ▸ meets))
      | some found =>
        obtain ⟨pairs, σ'⟩ := found
        rw [outcome] at meets
        rcases ih (confined.next left right meets) with unifying | ⟨τ, confined', grown, less, turned⟩
        · exact .inl (.next left right meets unifying)
        · have grown' := (meets.grown left.free).trans grown
          refine .inr ⟨τ, confined', grown', ?_⟩
          rcases weight_next confined'.acyclic left right meets grown' work with
            lighter | ⟨same, now, before⟩
          · exact ⟨by omega, fun _ => by omega⟩
          · exact ⟨by have := turned now; omega, fun turned => absurd turned before⟩

theorem Confined.weight_le (confined : Confined vars bound [] σ) (positive : 0 < bound) (s t : Term) :
    weight σ [(s, t)] ≤ (s.size + t.size) * bound ^ vars.eraseDups.length := by
  have fewer : σ.size ≤ vars.eraseDups.length := by
    have known : σ.keys ⊆ vars.eraseDups := fun x member => by simpa using confined.known member
    simpa [Table.keys, Table.size] using (confined.distinct.subperm known).length_le
  have each (t : Term) : (σ.resolve t).size ≤ t.size * bound ^ vars.eraseDups.length :=
    calc (σ.resolve t).size
        ≤ t.size * bound ^ σ.size := confined.acyclic.size_resolveUpTo_le
          (fun u member => (confined.values u member).2) positive σ.size t
      _ ≤ t.size * bound ^ vars.eraseDups.length :=
        Nat.mul_le_mul_left _ (Nat.pow_le_pow_right positive fewer)
  simpa [weight, add_mul] using Nat.add_le_add (each s) (each t)

theorem unifying_unify? (s t : Term) : Unifying [(s, t)] .empty (unify? s t) := by
  have confined : Confined (s.vars ++ t.vars) (s.size + t.size) [(s, t)] .empty := by
    refine ⟨Subst.acyclic_empty, by simp [Table.keys, Table.empty],
      by simp [Table.keys, Table.empty], by simp [Table.values, Table.empty], ?_⟩
    simp [Fits]
  rcases confined.unifying_or_le_weight (roundsFor s t) with unifying | ⟨τ, confined', -, less, -⟩
  · exact unifying
  · have positive := one_le_size s
    have heavy := confined'.weight_le (by omega) s t
    rw [← pow_succ'] at heavy
    rw [roundsFor, Nat.pow_eq] at less
    omega

end Rounds

theorem unifying_iff (s t : Term) (outcome : Option Subst) :
    Unifying [(s, t)] .empty outcome ↔ outcome = unify? s t := by
  constructor
  · intro unifying
    obtain ⟨least, enough⟩ := unifying.eq_solve? Subst.acyclic_empty
    obtain ⟨least', enough'⟩ := (unifying_unify? s t).eq_solve? Subst.acyclic_empty
    rw [← enough (max least least') (le_max_left _ _), enough' _ (le_max_right _ _)]
  · rintro rfl
    exact unifying_unify? s t

section Unifiers

theorem absorbed_unify?_iff (found : unify? s t = some θ) :
    θ.Idempotent ∧ ∀ g, θ.Absorbed g ↔ s.under g = t.under g := by
  obtain ⟨idempotent, general⟩ := (found ▸ unifying_unify? s t).absorbed_iff
  exact ⟨idempotent, fun g => by simp [general, Subst.Solved, Equal]⟩

theorem under_ne_of_unify? (failed : unify? s t = none) (g : String → Term) :
    s.under g ≠ t.under g := by
  have apart := (failed ▸ unifying_unify? s t).not_equal Subst.acyclic_empty (g := g)
    (by simp [Subst.Solved])
  simpa [Equal] using apart

theorem unifiable_of_unifier (same : s.under g = t.under g) : unifiable s t = true := by
  rw [unifiable]
  cases outcome : unify? s t with
  | none => exact absurd same (under_ne_of_unify? outcome g)
  | some θ => rfl

/-- Unification comes to an end by itself, in one outcome. It finds nothing exactly if no
substitution makes the terms equal; what it finds makes them equal, gives no value to a variable
that occurs in a value, and every other unifier factors through it. -/
theorem unify?_mostGeneral (s t : Term) :
    (∀ outcome, Unifying [(s, t)] .empty outcome ↔ outcome = unify? s t) ∧
    (unify? s t = none ↔ ∀ σ : Subst, s.subst σ ≠ t.subst σ) ∧
    ∀ θ, unify? s t = some θ →
      s.subst θ = t.subst θ ∧ (∀ u ∈ θ.values, ∀ x ∈ u.vars, x ∉ θ.keys) ∧
        ∀ τ : Subst, s.subst τ = t.subst τ → ∀ u : Term, (u.subst θ).subst τ = u.subst τ := by
  have unifies (θ : Subst) (outcome : unify? s t = some θ) : s.subst θ = t.subst θ := by
    obtain ⟨idempotent, general⟩ := absorbed_unify?_iff outcome
    rw [subst_eq_under, subst_eq_under]
    exact (general θ.value).mp idempotent.absorbed
  refine ⟨unifying_iff s t, ⟨fun failed σ => ?_, fun never => ?_⟩, fun θ outcome => ?_⟩
  · rw [subst_eq_under, subst_eq_under]
    exact under_ne_of_unify? failed σ.value
  · by_contra succeeded
    obtain ⟨θ, outcome⟩ := Option.ne_none_iff_exists'.mp succeeded
    exact never θ (unifies θ outcome)
  · obtain ⟨idempotent, general⟩ := absorbed_unify?_iff outcome
    refine ⟨unifies θ outcome, idempotent, fun τ same u => ?_⟩
    rw [subst_eq_under, subst_eq_under] at same
    rw [subst_eq_under τ, subst_eq_under τ]
    exact ((general τ.value).mpr same).under_subst u

theorem unify?_mostGeneral_pairs :
    let s := pair (.var "x") (pair (.var "y") (.app "h" [.var "x"]))
    let t := pair (.app "k" [.var "y", .var "z"]) (pair (.var "z") (.var "w"))
    ∃ θ, Unifying [(s, t)] .empty (some θ) ∧ s.subst θ = t.subst θ ∧ θ.keys = ["w", "y", "x"] ∧
      (∀ u ∈ θ.values, ∀ x ∈ u.vars, x ∉ θ.keys) := by
  have ran : (unify? (pair (.var "x") (pair (.var "y") (.app "h" [.var "x"])))
      (pair (.app "k" [.var "y", .var "z"]) (pair (.var "z") (.var "w")))).map Table.keys =
        some ["w", "y", "x"] := by decide +kernel
  obtain ⟨θ, outcome, keys⟩ := Option.map_eq_some_iff.mp ran
  have runs := ((unify?_mostGeneral _ _).1 (some θ)).mpr outcome.symm
  obtain ⟨equal, idempotent, -⟩ := (unify?_mostGeneral _ _).2.2 θ outcome
  exact ⟨θ, runs, equal, keys, idempotent⟩

end Unifiers

theorem mark_injective (mark : String) : Function.Injective (mark ++ ·) :=
  fun _ _ equal => (String.append_right_inj mark).mp equal

theorem unifiable_rename {g h : String → Term} {s t : Term} {mark other : String}
    (apart : ∀ x y, mark ++ x ≠ other ++ y) (same : s.under g = t.under h) :
    (s.rename mark).unifiable (t.rename other) = true := by
  -- Marked variables take their values from the one side or from the other.
  let k := Function.extend (mark ++ ·) g (Function.extend (other ++ ·) h Term.var)
  have left (x : String) : k (mark ++ x) = g x := (mark_injective mark).extend_apply g _ x
  have right (y : String) : k (other ++ y) = h y := by
    rw [← (mark_injective other).extend_apply h Term.var y]
    exact Function.extend_apply' _ _ _ fun ⟨x, equal⟩ => apart x y equal
  apply unifiable_of_unifier (g := k)
  simpa only [rename, mapVars_eq_under, under_under, under_var, left, right] using same

theorem unifiable_rename_ground {g : String → Term} {s t : Term} (mark : String)
    (ground : t.vars = []) (same : s.under g = t) : (s.rename mark).unifiable t = true := by
  have marked (x : String) : Function.extend (mark ++ ·) g Term.var (mark ++ x) = g x :=
    (mark_injective mark).extend_apply g _ x
  apply unifiable_of_unifier (g := Function.extend (mark ++ ·) g Term.var)
  rw [under_of_ground _ ground]
  simpa only [rename, mapVars_eq_under, under_under, under_var, marked] using same

end Term

end ThreatModel
