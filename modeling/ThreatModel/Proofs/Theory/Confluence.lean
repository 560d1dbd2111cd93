import Mathlib
import ThreatModel.Proofs.Theory.Normalization

set_option autoImplicit false

namespace ThreatModel

namespace Rewriting

variable {equations : List Equation} {s t u v : Term}

def Confluent (equations : List Equation) : Prop :=
  ∀ t u v, RewritesTo equations t u → RewritesTo equations t v →
    Relation.Join (RewritesTo equations) u v

abbrev Convertible (equations : List Equation) : Term → Term → Prop :=
  Relation.EqvGen (Rewrites equations)

theorem RewritesTo.convertible (path : RewritesTo equations s t) : Convertible equations s t :=
  Relation.EqvGen.reflTransGen_le_eqvGen _ s t path

theorem Confluent.join (confluent : Confluent equations) (convertible : Convertible equations s t) :
    Relation.Join (RewritesTo equations) s t := by
  have joined : Relation.EqvGen (Relation.Join (RewritesTo equations)) s t :=
    convertible.mono fun u v step => ⟨v, .single step, .refl⟩
  exact (Relation.equivalence_join confluent).eqvGen_iff.mp joined

/-- It is enough to name, for every term, one that it can be rewritten to and that stays the same
for whatever the term is rewritten to. -/
theorem confluent_of_invariant (value : Term → Term)
    (reached : ∀ t, RewritesTo equations t (value t))
    (kept : ∀ s t, Rewrites equations s t → value s = value t) : Confluent equations := by
  have same {s t : Term} (path : RewritesTo equations s t) : value s = value t := by
    induction path with
    | refl => rfl
    | tail _ step ih => exact ih.trans (kept _ _ step)
  intro t u v left right
  -- Both come to what the term they started from comes to.
  refine ⟨value t, ?_, ?_⟩
  · exact same left ▸ reached u
  · exact same right ▸ reached v

mutual

/-- At every place at most one rewrite, from the inside out. -/
def sweep (equations : List Equation) : Term → Term
  | .app f args =>
    (rewriteRoot? equations (.app f (sweepAll equations args))).getD
      (.app f (sweepAll equations args))
  | t => t

def sweepAll (equations : List Equation) : List Term → List Term
  | [] => []
  | t :: ts => sweep equations t :: sweepAll equations ts

end

theorem sweepAll_eq_map (ts : List Term) : sweepAll equations ts = ts.map (sweep equations) := by
  induction ts with
  | nil => rfl
  | cons t ts ih => simp [sweepAll, ih]

theorem sweep_app (f : String) (args : List Term) :
    sweep equations (.app f args) =
      (rewriteRoot? equations (.app f (args.map (sweep equations)))).getD
        (.app f (args.map (sweep equations))) := by
  rw [sweep, sweepAll_eq_map]

theorem rewritesTo_sweep (t : Term) : RewritesTo equations t (sweep equations t) := by
  induction t using Term.induct with
  | var | const | lit | name => exact .refl
  | app f args ih =>
    have inner : RewritesTo equations (.app f args) (.app f (args.map (sweep equations))) :=
      .app (List.forall₂_map_right_iff.mpr (List.forall₂_same.mpr ih)) f
    rw [sweep_app]
    cases root : rewriteRoot? equations (.app f (args.map (sweep equations))) with
    | none => exact inner
    | some r => exact inner.tail (rewritesFirst_of_rewriteRoot? root).rewrites

theorem confluent_of_sweep (sides : ∀ e ∈ equations, ∀ σ : Subst,
    sweep equations (e.lhs.subst σ) = sweep equations (e.rhs.subst σ)) : Confluent equations := by
  refine confluent_of_invariant (sweep equations) rewritesTo_sweep fun s t step => ?_
  induction step with
  | @root e s t member σ left right => rw [left, right, sides e member σ]
  | inside f before after _ ih => simp only [sweep_app, List.map_append, List.map_cons, ih]

end Rewriting

def Term.args : Term → List Term
  | .app _ args => args
  | _ => []

theorem Term.head?_under {t : Term} (applied : t.isApp = true) (g : String → Term) :
    (t.under g).head? = t.head? := by
  cases t <;> simp_all [Term.isApp, Term.head?]

namespace Theory

open Rewriting Result

variable {T : Theory}

/-- Every equation takes apart what constructors have built and gives what constructors build, and
no symbol has two equations. -/
structure Destructs (T : Theory) : Prop where
  patterns : ∀ e ∈ T.equations, ∀ p ∈ e.lhs.args, T.Constructor p
  results : ∀ e ∈ T.equations, T.Constructor e.rhs
  distinct : (T.equations.map (·.lhs.head?)).Nodup

theorem Oriented.sweep_under (oriented : T.Oriented) {t : Term} (built : T.Constructor t)
    (g : String → Term) :
    sweep T.equations (t.under g) = t.under fun x => sweep T.equations (g x) := by
  induction t using Term.induct with
  | var | const | lit | name => rfl
  | app f args ih =>
    have undefined : ¬ T.Defines f := built f args (by simp)
    have inner : (args.map (Term.under g)).map (sweep T.equations) =
        args.map (Term.under fun x => sweep T.equations (g x)) := by
      rw [List.map_map]
      exact List.map_congr_left fun t member => ih t member (built.arg member)
    rw [Term.under_app, sweep_app, inner, oriented.rewriteRoot?_eq_none undefined,
      Option.getD_none, Term.under_app]

theorem Destructs.rewriteRoot?_under (destructs : T.Destructs) (oriented : T.Oriented)
    {e : Equation} (member : e ∈ T.equations) (g : String → Term) :
    rewriteRoot? T.equations (e.lhs.under g) = some (e.rhs.under g) := by
  obtain ⟨before, after, split⟩ := List.append_of_mem member
  -- The equations before it are for other symbols, so none of them applies.
  have distinct := destructs.distinct
  rw [split, List.map_append, List.map_cons, List.nodup_append] at distinct
  have passed : before.findSome? (·.reduct? (e.lhs.under g)) = none := by
    rw [List.findSome?_eq_none_iff]
    intro d earlier
    refine Equation.reduct?_eq_none_iff.mpr fun σ same => ?_
    have heads := congrArg Term.head? same
    rw [Term.subst_eq_under, Term.head?_under (oriented e member).applied,
      Term.head?_under (oriented d (by simp [split, earlier])).applied] at heads
    exact distinct.2.2 _ (List.mem_map_of_mem earlier) _ (by simp) heads.symm
  have applied := (oriented e member).bound.reduct?_under g
  simp [rewriteRoot?, split, List.findSome?_append, passed, applied]

theorem Destructs.confluent (destructs : T.Destructs) (oriented : T.Oriented) :
    Confluent T.equations := by
  refine confluent_of_sweep fun e member σ => ?_
  rw [Term.subst_eq_under, Term.subst_eq_under, oriented.sweep_under (destructs.results e member)]
  have root := destructs.rewriteRoot?_under oriented member fun x => sweep T.equations (σ.value x)
  obtain ⟨f, ps, head⟩ := (oriented e member).exists_app
  -- The patterns are built by constructors: a sweep goes through them to the values.
  have inner : (ps.map (Term.under σ.value)).map (sweep T.equations) =
      ps.map (Term.under fun x => sweep T.equations (σ.value x)) := by
    rw [List.map_map]
    refine List.map_congr_left fun p among => oriented.sweep_under ?_ σ.value
    exact destructs.patterns e member p (by simpa [head, Term.args] using among)
  rw [head, Term.under_app] at root ⊢
  rw [sweep_app, inner, root, Option.getD_some]

theorem Oriented.eq_of_convertible (oriented : T.Oriented) (confluent : Confluent T.equations)
    {u v : Term} (left : T.Normal u) (right : T.Normal v)
    (convertible : Convertible T.equations u v) : u = v := by
  obtain ⟨w, fromLeft, fromRight⟩ := confluent.join convertible
  exact (oriented.eq_of_rewritesTo left fromLeft).symm.trans
    (oriented.eq_of_rewritesTo right fromRight)

theorem convertible_of_normalize {t r : Term} (done : T.normalize t = .ok r) :
    Convertible T.equations t r :=
  (rewritesTo_of_normalize done).convertible

theorem exists_of_equal {a b : Term} {verdict : Bool} (done : T.equal a b = .ok verdict) :
    ∃ a' b', T.normalize a = .ok a' ∧ T.normalize b = .ok b' ∧ (verdict = true ↔ a' = b') := by
  simp only [equal, bind_eq_ok_iff, pure_eq_ok_iff] at done
  obtain ⟨a', left, b', right, rfl⟩ := done
  exact ⟨a', b', left, right, by simp⟩

/-- Terms that are found equal are equal by the equations. In a confluent theory the verdict, where
there is one, is whether they are. -/
theorem equal_iff_convertible (oriented : T.Oriented) (a b : Term) :
    (T.equal a b = .ok true → Relation.EqvGen (Rewrites T.equations) a b) ∧
    (Confluent T.equations → ∀ verdict, T.equal a b = .ok verdict →
      (verdict = true ↔ Relation.EqvGen (Rewrites T.equations) a b)) := by
  have sound {verdict : Bool} (judged : T.equal a b = .ok verdict) (holds : verdict = true) :
      Convertible T.equations a b := by
    obtain ⟨a', b', left, right, iff⟩ := exists_of_equal judged
    obtain rfl := iff.mp holds
    exact .trans _ _ _ (convertible_of_normalize left) (.symm _ _ (convertible_of_normalize right))
  refine ⟨fun judged => sound judged rfl, fun confluent verdict judged => ⟨sound judged, ?_⟩⟩
  intro convertible
  obtain ⟨a', b', left, right, iff⟩ := exists_of_equal judged
  -- Equal terms have equal normal forms, and these can only be the same.
  have ends : Convertible T.equations a' b' :=
    .trans _ _ _ (.symm _ _ (convertible_of_normalize left))
      (.trans _ _ _ convertible (convertible_of_normalize right))
  exact iff.mpr (oriented.eq_of_convertible confluent (normal_of_normalize left)
    (normal_of_normalize right) ends)

theorem destructs_ciphers : ciphers.Destructs :=
  ⟨by decide +kernel, by decide +kernel, by decide +kernel⟩

theorem equal_ciphers_iff_convertible :
    ciphers.Declared ∧ Confluent ciphers.equations ∧
    Relation.EqvGen (Rewrites ciphers.equations)
      (.app "dec" [.app "enc" [.pair (.var "x") (.const "k"), .const "k"], .const "k"])
      (.pair (.app "fst" [.pair (.var "x") (.var "y")]) (.const "k")) ∧
    ¬ Relation.EqvGen (Rewrites ciphers.equations)
      (.app "dec" [.app "enc" [.var "x", .const "k"], .const "l"]) (.var "x") := by
  have oriented := declared_ciphers.oriented
  have confluent := destructs_ciphers.confluent oriented
  refine ⟨declared_ciphers, confluent, ?_, ?_⟩
  · exact (equal_iff_convertible oriented _ _).1 (by decide +kernel)
  · have wrongKey := (equal_iff_convertible oriented
      (.app "dec" [.app "enc" [.var "x", .const "k"], .const "l"]) (.var "x")).2 confluent false
    exact fun convertible => absurd ((wrongKey (by decide +kernel)).mpr convertible) (by decide)

theorem exists_of_matchOrFail {p t : Term} {σ σ' : Subst}
    (met : T.matchOrFail p t σ = .ok σ') :
    ∃ p' t', T.normalize p = .ok p' ∧ T.normalize t = .ok t' ∧ p'.match? t' σ = some σ' := by
  simp only [matchOrFail, match?, bind_eq_ok_iff, pure_eq_ok_iff] at met
  obtain ⟨found, ⟨p', left, t', right, rfl⟩, met⟩ := met
  refine ⟨p', t', left, right, ?_⟩
  cases matched : p'.match? t' σ with
  | none => simp [matched] at met
  | some found => simpa [matched] using met

/-- In a confluent theory a match keeps the values it was given and makes the normal form of the
pattern that of the term; and so does the pattern as it was written, if it has a normal form once
the values are put in. -/
theorem matchOrFail_sound (oriented : T.Oriented) (confluent : Confluent T.equations)
    {p t : Term} {σ σ' : Subst} (met : T.matchOrFail p t σ = .ok σ') :
    (∀ x u, σ.find? x = some u → σ'.find? x = some u) ∧
    ∃ p' t', T.normalize p = .ok p' ∧ T.normalize t = .ok t' ∧ p'.subst σ' = t' ∧
      ∀ r, T.normalize (p.subst σ') = .ok r → r = t' := by
  obtain ⟨p', t', left, right, matched⟩ := exists_of_matchOrFail met
  obtain ⟨found, same⟩ := Term.extend?_sound matched
  refine ⟨found.keeps, p', t', left, right, same, fun r done => ?_⟩
  -- Putting in the values first or last, the same term is reached in the end.
  have first : Convertible T.equations (p.subst σ') t' :=
    same ▸ ((rewritesTo_of_normalize left).subst σ').convertible
  exact oriented.eq_of_convertible confluent (normal_of_normalize done) (normal_of_normalize right)
    (.trans _ _ _ (.symm _ _ (convertible_of_normalize done)) first)

theorem matchOrFail_ciphers_sound :
    ciphers.Declared ∧ Confluent ciphers.equations ∧
    ciphers.matchOrFail
      (.app "fst" [.pair (.var "x") (.app "dec" [.var "y", .const "k"])]) (.const "a")
      (.single "y" (.app "enc" [.const "b", .const "k"])) =
      .ok ⟨[("y", .app "enc" [.const "b", .const "k"]), ("x", .const "a")]⟩ ∧
    (ciphers.normalize (.app "fst" [.pair (.const "a")
      (.app "dec" [.app "enc" [.const "b", .const "k"], .const "k"])])).isOk = true ∧
    ∀ r, ciphers.normalize (.app "fst" [.pair (.const "a")
      (.app "dec" [.app "enc" [.const "b", .const "k"], .const "k"])]) = .ok r → r = .const "a" := by
  have oriented := declared_ciphers.oriented
  have confluent := destructs_ciphers.confluent oriented
  have met : ciphers.matchOrFail
      (.app "fst" [.pair (.var "x") (.app "dec" [.var "y", .const "k"])]) (.const "a")
      (.single "y" (.app "enc" [.const "b", .const "k"])) =
      .ok ⟨[("y", .app "enc" [.const "b", .const "k"]), ("x", .const "a")]⟩ := by decide +kernel
  obtain ⟨-, p', t', -, right, -, unique⟩ := matchOrFail_sound oriented confluent met
  obtain rfl : t' = .const "a" := by
    rw [normalize_of_normal (normal_const ciphers "a")] at right
    exact (Except.ok.inj right).symm
  exact ⟨declared_ciphers, confluent, met, by decide +kernel, unique⟩

end Theory

end ThreatModel
