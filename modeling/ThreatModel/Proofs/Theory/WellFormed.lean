import Mathlib
import ThreatModel.Proofs.Result
import ThreatModel.Proofs.Term.Names
import ThreatModel.Proofs.Theory.NormalForm

set_option autoImplicit false

namespace ThreatModel

def Term.head? : Term → Option String
  | .app f _ => some f
  | _ => none

structure Equation.Oriented (e : Equation) : Prop where
  applied : e.lhs.isApp = true
  bound : e.Bound

theorem Equation.Oriented.exists_app {e : Equation} (oriented : e.Oriented) :
    ∃ f ps, e.lhs = .app f ps := by
  have applied := oriented.applied
  cases head : e.lhs with
  | app f ps => exact ⟨f, ps, rfl⟩
  | _ => simp [head, Term.isApp] at applied

structure Equation.WellFormed (e : Equation) : Prop extends e.Oriented where
  nameless : e.lhs.names = [] ∧ e.rhs.names = []

theorem Equation.Bound.reduct {e : Equation} (bound : e.Bound) {t r : Term}
    (rewritten : e.reduct? t = some r) :
    ∃ σ : Subst, r = e.rhs.subst σ ∧
      ∀ x ∈ e.rhs.vars, ∃ u, σ.find? x = some u ∧ u ∈ t.subterms := by
  obtain ⟨σ, met, rfl⟩ : ∃ σ, e.lhs.match? t = some σ ∧ e.rhs.subst σ = r := by
    simpa [Equation.reduct?] using rewritten
  obtain ⟨found, -⟩ := Term.extend?_sound met
  refine ⟨σ, rfl, ?_⟩
  intro x inside
  obtain ⟨u, hu⟩ := found.covers x (bound x inside)
  exact ⟨u, hu, (found.of_empty (Table.mem_entries_of_find? hu)).2⟩

theorem Rewriting.kept_vars {equations : List Equation} (bound : ∀ e ∈ equations, e.Bound)
    (known : String → Prop) : Kept equations fun t => ∀ x ∈ t.vars, known x where
  argument := by
    intro f ts holds t member x inside
    exact holds x (by simpa using ⟨t, member, inside⟩)
  rebuild := by
    intro f ts ts' _ _ each x inside
    obtain ⟨t, member, inside⟩ : ∃ t ∈ ts', x ∈ t.vars := by simpa using inside
    exact each t member x inside
  reduct := by
    intro e member t r holds rewritten y inside
    obtain ⟨σ, rfl, pieces⟩ := (bound e member).reduct rewritten
    rw [Term.subst_eq_under, Term.mem_vars_under] at inside
    obtain ⟨x, hx, hy⟩ := inside
    obtain ⟨u, hu, piece⟩ := pieces x hx
    rw [Subst.value_of_find? hu] at hy
    exact holds y (Term.mem_vars_of_subterm piece hy)

def Term.Uses (allowed : String → Nat → Prop) (t : Term) : Prop :=
  ∀ f args, Term.app f args ∈ t.subterms → allowed f args.length

section Uses

variable {allowed : String → Nat → Prop}

theorem Term.uses_app {f : String} {args : List Term} :
    (Term.app f args).Uses allowed ↔ allowed f args.length ∧ ∀ t ∈ args, t.Uses allowed := by
  simp only [Term.Uses, Term.subterms_app, List.mem_cons, List.mem_flatMap]
  constructor
  · intro each
    exact ⟨each f args (.inl rfl), fun t member g ts inside => each g ts (.inr ⟨t, member, inside⟩)⟩
  · rintro ⟨root, inner⟩ g ts (same | ⟨t, member, inside⟩)
    · obtain ⟨rfl, rfl⟩ := Term.app.inj same
      exact root
    · exact inner t member g ts inside

theorem Term.Uses.under {g : String → Term} {t : Term} (uses : t.Uses allowed)
    (values : ∀ x ∈ t.vars, (g x).Uses allowed) : (t.under g).Uses allowed := by
  induction t using Term.induct with
  | var x => exact values x (by simp)
  | const | lit | name => exact uses
  | app f args ih =>
    obtain ⟨root, inner⟩ := Term.uses_app.mp uses
    rw [Term.under_app, Term.uses_app, List.length_map, List.forall_mem_map]
    refine ⟨root, fun t member => ih t member (inner t member) fun x inside => values x ?_⟩
    simpa using ⟨t, member, inside⟩

theorem Rewriting.kept_uses {equations : List Equation} (bound : ∀ e ∈ equations, e.Bound)
    (results : ∀ e ∈ equations, e.rhs.Uses allowed) : Kept equations (Term.Uses allowed) where
  argument f ts uses := (Term.uses_app.mp uses).2
  rebuild f ts ts' uses length each := Term.uses_app.mpr ⟨length ▸ (Term.uses_app.mp uses).1, each⟩
  reduct := by
    intro e member t r uses rewritten
    obtain ⟨σ, rfl, pieces⟩ := (bound e member).reduct rewritten
    -- The reduct is the right-hand side with pieces of the term for its variables.
    rw [Term.subst_eq_under]
    refine (results e member).under fun x inside => ?_
    obtain ⟨u, found, piece⟩ := pieces x inside
    rw [Subst.value_of_find? found]
    exact fun f args deeper => uses f args (Term.subterms_trans deeper piece)

end Uses

namespace Theory

variable {T : Theory} {t r : Term} {f : String}

def Normal (T : Theory) (t : Term) : Prop := Rewriting.Irreducible T.equations t

def Oriented (T : Theory) : Prop := ∀ e ∈ T.equations, e.Oriented

def WellFormed (T : Theory) : Prop := ∀ e ∈ T.equations, e.WellFormed

theorem WellFormed.oriented (sound : T.WellFormed) : T.Oriented :=
  fun e member => (sound e member).toOriented

theorem normalize_of_normal (normal : T.Normal t) : T.normalize t = .ok t := by
  simp [normalize, Rewriting.evaluate_of_irreducible _ _ normal]

theorem normalize_eq_ok (done : T.normalize t = .ok r) :
    ∃ left, Rewriting.evaluate T.equations (T.limitFor t).toNat (T.limitFor t).toNat t
      = .ok (r, left) := by
  simp only [normalize] at done
  split at done
  next r' left evaluated =>
    obtain rfl : r' = r := by simpa using done
    exact ⟨left, evaluated⟩
  next => simp at done

theorem value_of_normalize (done : T.normalize t = .ok r) : Rewriting.Value T.equations t r := by
  obtain ⟨left, evaluated⟩ := normalize_eq_ok done
  exact Rewriting.value_of_evaluate evaluated

theorem normal_of_normalize (done : T.normalize t = .ok r) : T.Normal r :=
  (value_of_normalize done).irreducible

theorem normalize_normalize (done : T.normalize t = .ok r) : T.normalize r = .ok r :=
  normalize_of_normal (normal_of_normalize done)

theorem normalize_eq_error {d : Diagnostic} (failed : T.normalize t = .error d) :
    ∃ limit last, d.cause = .diverged limit last := by
  simp only [normalize] at failed
  split at failed
  next => simp at failed
  next last _ =>
    obtain rfl := Except.error.inj failed
    exact ⟨_, last, rfl⟩

theorem kept_of_normalize {P : Term → Prop} (kept : Rewriting.Kept T.equations P) (holds : P t)
    (done : T.normalize t = .ok r) : P r :=
  kept.value (value_of_normalize done) holds

theorem WellFormed.kept_vars (sound : T.WellFormed) (known : String → Prop) :
    Rewriting.Kept T.equations fun t => ∀ x ∈ t.vars, known x :=
  Rewriting.kept_vars (fun e member => (sound e member).bound) known

theorem WellFormed.kept_names (sound : T.WellFormed) (known : String → Prop) :
    Rewriting.Kept T.equations fun t => ∀ n ∈ t.names, known n where
  argument := by
    intro f ts holds t member n inside
    exact holds n (by simpa using ⟨t, member, inside⟩)
  rebuild := by
    intro f ts ts' _ _ each n inside
    obtain ⟨t, member, inside⟩ : ∃ t ∈ ts', n ∈ t.names := by simpa using inside
    exact each t member n inside
  reduct := by
    intro e member t r holds rewritten n inside
    obtain ⟨σ, rfl, pieces⟩ := (sound e member).bound.reduct rewritten
    -- No name is written down in an equation, so each came with a value.
    rw [Term.subst_eq_under, Term.mem_names_under, (sound e member).nameless.2] at inside
    rcases inside with own | ⟨x, hx, hn⟩
    · simp at own
    · obtain ⟨u, hu, piece⟩ := pieces x hx
      rw [Subst.value_of_find? hu] at hn
      exact holds n (Term.mem_names_of_subterm piece hn)

theorem WellFormed.ground (sound : T.WellFormed) (closed : t.vars = [])
    (done : T.normalize t = .ok r) : r.vars = [] := by
  have none_left := kept_of_normalize (sound.kept_vars fun _ => False) (by simp [closed]) done
  exact List.eq_nil_iff_forall_not_mem.mpr none_left

theorem WellFormed.names (sound : T.WellFormed) (done : T.normalize t = .ok r) :
    ∀ n ∈ r.names, n ∈ t.names :=
  kept_of_normalize (sound.kept_names (· ∈ t.names)) (fun _ h => h) done

def Defines (T : Theory) (f : String) : Prop :=
  ∃ e ∈ T.equations, ∃ args, e.lhs = .app f args

def Constructor (T : Theory) (t : Term) : Prop :=
  ∀ f args, Term.app f args ∈ t.subterms → ¬ T.Defines f

theorem Constructor.arg {args : List Term} (built : T.Constructor (.app f args))
    (member : t ∈ args) : T.Constructor t :=
  fun g us inside => built g us (Term.subterms_of_arg member inside)

instance (T : Theory) (f : String) : Decidable (T.Defines f) :=
  decidable_of_iff (∃ e ∈ T.equations, ∃ g ∈ e.lhs.head?, g = f) (by
    simp only [Defines]
    refine exists_congr fun e => and_congr_right fun _ => ?_
    cases e.lhs <;> simp [Term.head?])

instance (T : Theory) (t : Term) : Decidable (T.Constructor t) :=
  decidable_of_iff (∀ s ∈ t.subterms, ∀ f ∈ s.head?, ¬ T.Defines f) (by
    constructor
    · exact fun each f args inside => each (.app f args) inside f rfl
    · intro each s inside f heads
      cases s with
      | app g args =>
        obtain rfl : g = f := by simpa [Term.head?] using heads
        exact each g args inside
      | _ => simp [Term.head?] at heads)

theorem Oriented.normal_iff (oriented : T.Oriented) :
    T.Normal t ↔ ∀ s ∈ t.subterms, ∀ e ∈ T.equations, ∀ σ : Subst, s ≠ e.lhs.subst σ := by
  constructor
  · intro normal s inside e member σ same
    -- A left-hand side is an application, and so is an instance of it.
    obtain ⟨f, ps, head⟩ := (oriented e member).exists_app
    have applied : s = .app f (Term.substAll σ ps) := by rw [same, head, Term.subst]
    exact Rewriting.rewriteRoot?_eq_none_iff.mp (normal f _ (applied ▸ inside)) e member σ
      (applied.symm.trans same)
  · intro apart f args inside
    exact Rewriting.rewriteRoot?_eq_none_iff.mpr fun e member σ => apart _ inside e member σ

theorem WellFormed.normal_iff (sound : T.WellFormed) :
    T.Normal t ↔ ∀ s ∈ t.subterms, ∀ e ∈ T.equations, ∀ σ : Subst, s ≠ e.lhs.subst σ :=
  sound.oriented.normal_iff

theorem Oriented.rewriteRoot?_eq_none (oriented : T.Oriented) (undefined : ¬ T.Defines f)
    (args : List Term) : rewriteRoot? T.equations (.app f args) = none := by
  simp only [rewriteRoot?, List.findSome?_eq_none_iff, Equation.reduct?, Option.map_eq_none_iff]
  intro e member
  obtain ⟨g, ps, head⟩ := (oriented e member).exists_app
  have other : g ≠ f := by
    rintro rfl
    exact undefined ⟨e, member, ps, head⟩
  simp [head, Term.match?, Term.extend?, other]

theorem WellFormed.normal_under (sound : T.WellFormed) {g : String → Term} (built : T.Constructor t)
    (values : ∀ x ∈ t.vars, T.Normal (g x)) : T.Normal (t.under g) := by
  induction t using Term.induct with
  | var x => simpa using values
  | const | lit | name => exact Rewriting.irreducible_atom (by simp [Term.isApp])
  | app f args ih =>
    rw [Term.under_app]
    refine Rewriting.irreducible_app.mpr ⟨?_, ?_⟩
    · exact sound.oriented.rewriteRoot?_eq_none (built f args (by simp)) _
    · intro t' member
      obtain ⟨t, inside, rfl⟩ := List.mem_map.mp member
      exact ih t inside (built.arg inside) fun x hx => values x (by simpa using ⟨t, inside, hx⟩)

theorem WellFormed.normalize_constructor (sound : T.WellFormed) (built : T.Constructor t) :
    T.normalize t = .ok t := by
  apply normalize_of_normal
  rw [← t.under_var_self]
  exact sound.normal_under built fun x _ => Rewriting.irreducible_atom rfl

theorem WellFormed.normalize_subst (sound : T.WellFormed) {σ : Subst} (built : T.Constructor t)
    (values : ∀ x u, σ.find? x = some u → T.Normal u) :
    T.normalize (t.subst σ) = .ok (t.subst σ) := by
  apply normalize_of_normal
  rw [Term.subst_eq_under]
  refine sound.normal_under built fun x _ => ?_
  cases found : σ.find? x with
  | none =>
    rw [Subst.value_of_none found]
    exact Rewriting.irreducible_atom rfl
  | some u =>
    rw [Subst.value_of_find? found]
    exact values x u found

def Redex (T : Theory) (f : String) (args : List Term) : Prop :=
  ∃ e ∈ T.equations, ∃ ps, e.lhs = .app f ps ∧ ∃ σ : Subst, args = ps.map (·.subst σ)

theorem WellFormed.redex_iff (sound : T.WellFormed) {args : List Term} :
    T.Redex f args ↔ rewriteRoot? T.equations (.app f args) ≠ none := by
  simp only [ne_eq, Rewriting.rewriteRoot?_eq_none_iff, not_forall, not_not]
  constructor
  · rintro ⟨e, member, ps, head, σ, rfl⟩
    exact ⟨e, member, σ, by simp [head, Term.subst, Term.substAll_eq_map]⟩
  · rintro ⟨e, member, σ, same⟩
    obtain ⟨g, ps, head⟩ := (sound.oriented e member).exists_app
    obtain ⟨rfl, rfl⟩ : f = g ∧ args = ps.map (·.subst σ) := by
      simpa [head, Term.subst, Term.substAll_eq_map] using same
    exact ⟨e, member, ps, head, σ, rfl⟩

theorem WellFormed.normalize_app (sound : T.WellFormed) {ts : List Term}
    (done : T.normalize (.app f ts) = .ok r) :
    ∃ args, List.Forall₂ (Rewriting.Value T.equations) ts args ∧
      (r = .app f args ↔ ¬ T.Redex f args) := by
  have normal : T.Normal r := normal_of_normalize done
  cases value_of_normalize done with
  | atom plain => simp [Term.isApp] at plain
  | @built _ _ args each stands =>
    exact ⟨args, each, by simp [sound.redex_iff, stands]⟩
  | @rewritten _ _ args t _ each rewrites later =>
    refine ⟨args, each, ?_⟩
    have redex : T.Redex f args := sound.redex_iff.mpr (by simp [rewrites])
    simp only [redex, not_true_eq_false, iff_false]
    -- What comes out in the end is no redex, so it cannot be this one.
    rintro rfl
    simp [(Rewriting.irreducible_app.mp normal).1] at rewrites

end Theory

def Fault.Diverges (fault : Fault) : Prop :=
  ∃ d limit last, fault = .flaw d ∧ d.cause = .diverged limit last

theorem Fault.diverges_of_normalize {T : Theory} {t : Term} {d : Diagnostic}
    (failed : T.normalize t = .error d) : (Fault.flaw d).Diverges := by
  obtain ⟨limit, last, cause⟩ := Theory.normalize_eq_error failed
  exact ⟨d, limit, last, rfl, cause⟩

end ThreatModel
