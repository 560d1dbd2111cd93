import Mathlib
import ThreatModel.Proofs.Term.Constants
import ThreatModel.Proofs.Theory.Extension

set_option autoImplicit false

namespace ThreatModel

def Equation.Plain (e : Equation) : Prop := ∀ c ∈ e.lhs.consts, ∀ i : Nat, c ≠ s!"$sk{i}"

def Restores (h : String → Term) : Prop :=
  ∀ c : String, (∀ i : Nat, c ≠ s!"$sk{i}") → h c = .const c

theorem skolem_injective {i j : Nat} (same : s!"$sk{i}" = s!"$sk{j}") : i = j := by
  have digits : Nat.toDigits 10 i = Nat.toDigits 10 j := by
    simpa [toString] using congrArg String.toList same
  rw [← Nat.repr_inj, Nat.repr_eq_ofList_toDigits, Nat.repr_eq_ofList_toDigits, digits]

namespace Rewriting

variable {equations : List Equation} {h : String → Term} {t : Term}

theorem reduct?_of_fill {e : Equation} (restores : Restores h) (plain : e.Plain)
    (unmet : e.reduct? (t.fill h) = none) : e.reduct? t = none := by
  rw [Equation.reduct?_eq_none_iff] at unmet ⊢
  rintro σ rfl
  obtain ⟨σ', values⟩ := Subst.exists_value e.lhs.vars fun x => (σ.value x).fill h
  refine unmet σ' ?_
  rw [Term.subst_eq_under, Term.fill_under fun c inside => restores c (plain c inside),
    Term.subst_eq_under]
  exact Term.under_congr fun x inside => (values x inside).symm

theorem rewriteRoot?_of_fill (restores : Restores h) (plain : ∀ e ∈ equations, e.Plain)
    (stands : rewriteRoot? equations (t.fill h) = none) : rewriteRoot? equations t = none := by
  rw [rewriteRoot?, List.findSome?_eq_none_iff] at stands ⊢
  exact fun e member => reduct?_of_fill restores (plain e member) (stands e member)

theorem Irreducible.of_fill (restores : Restores h) (plain : ∀ e ∈ equations, e.Plain)
    (irreducible : Irreducible equations (t.fill h)) : Irreducible equations t := by
  intro f args inside
  have filled := Term.fill_mem_subterms (h := h) inside
  rw [Term.fill_app] at filled
  refine rewriteRoot?_of_fill restores plain ?_
  rw [Term.fill_app]
  exact irreducible f _ filled

def selected? (equations : List Equation) (t : Term) : Option Nat :=
  equations.findIdx? fun e => (e.reduct? t).isSome

theorem rewriteRoot?_eq_selected? (equations : List Equation) (t : Term) :
    rewriteRoot? equations t =
      (selected? equations t).bind fun i => (equations[i]?).bind (·.reduct? t) := by
  induction equations with
  | nil => rfl
  | cons e rest ih =>
    cases applied : e.reduct? t with
    | none =>
      have passed : rewriteRoot? (e :: rest) t = rewriteRoot? rest t := by
        simp [rewriteRoot?, applied]
      rw [passed, ih]
      simp [selected?, List.findIdx?_cons, applied, Option.bind_map]
    | some r => simp [rewriteRoot?, selected?, List.findIdx?_cons, applied]

theorem selected?_append_iff {e : Equation} :
    selected? (equations ++ [e]) t = some equations.length ↔
      rewriteRoot? equations t = none ∧ e.reduct? t ≠ none := by
  have passed : rewriteRoot? equations t = none ↔ selected? equations t = none := by
    simp [rewriteRoot?, selected?]
  rw [passed, selected?, List.findIdx?_append, ← selected?]
  cases earlier : selected? equations t with
  | none =>
    cases applies : e.reduct? t with
    | none => simp [List.findIdx?_cons, applies]
    | some r => simp [List.findIdx?_cons, applies]
  | some i =>
    have within : i < equations.length := (List.findIdx?_eq_some_iff_findIdx_eq.mp earlier).1
    simpa using within.ne

end Rewriting

theorem Equation.mem_keys_skolem {e : Equation} {x : String} (inside : x ∈ e.lhs.vars) :
    x ∈ e.skolem.keys := by
  obtain ⟨i, within, rfl⟩ := List.getElem_of_mem ((Sorted.mem_ofList x e.lhs.vars).mpr inside)
  exact List.mem_map.mpr ⟨_, List.mem_mapIdx.mpr ⟨i, within, rfl⟩, rfl⟩

theorem Equation.exists_restores (e : Equation) (g : String → Term) :
    ∃ h, Restores h ∧ ∀ x ∈ e.lhs.vars, (e.skolem.value x).fill h = g x := by
  classical
  let xs := Sorted.ofList e.lhs.vars
  refine ⟨fun c => if sk : ∃ i : Nat, c = s!"$sk{i}" then (xs[sk.choose]?).elim (.const c) g
    else .const c, ?_, ?_⟩
  · intro c other
    exact dif_neg (by simpa using other)
  · intro x inside
    obtain ⟨u, found⟩ := Table.exists_find?_iff.mpr (Equation.mem_keys_skolem inside)
    obtain ⟨i, within, entry⟩ := List.mem_mapIdx.mp (Table.mem_entries_of_find? found)
    obtain ⟨rfl, rfl⟩ := Prod.mk.inj entry
    have sk : ∃ j : Nat, s!"$sk{i}" = s!"$sk{j}" := ⟨i, rfl⟩
    have place : sk.choose = i := (skolem_injective sk.choose_spec).symm
    rw [Subst.value_of_find? found, Term.fill, dif_pos sk, place]
    simp [xs, within]

namespace Theory

open Rewriting Result

variable {T : Theory} {e : Equation} {location : Option Location} {t right left : Term}
  {d : Diagnostic}

theorem misuse?_ne_neverFires {cause : Cause} (misused : T.misuse? t = some cause) (text : String)
    (left right : Term) : cause ≠ .neverFires text left right := by
  rintro rfl
  obtain ⟨s, -, found⟩ := List.exists_of_findSome?_eq_some misused
  cases s with
  | app f args =>
    cases known : T.symbols.find? f with
    | none => simp [known] at found
    | some arity => simp [known] at found
  | _ => simp at found

theorem checkTerm_ne_neverFires {declaration : Option String}
    (refused : T.checkTerm t declaration location = .error d) (text : String) (left right : Term) :
    d.cause ≠ .neverFires text left right := by
  rw [checkTerm] at refused
  cases misused : T.misuse? t with
  | none => simp [misused] at refused
  | some cause =>
    obtain rfl : { cause, declaration, location } = d := by simpa [misused] using refused
    exact misuse?_ne_neverFires misused text left right

theorem normalize_ne_neverFires (failed : T.normalize t = .error d) (text : String)
    (left right : Term) : d.cause ≠ .neverFires text left right := by
  obtain ⟨limit, last, cause⟩ := normalize_eq_error failed
  simp [cause]

theorem exists_of_fires_eq_error {declaration text : String}
    (failed : T.fires e declaration location = .error d)
    (never : d.cause = .neverFires text left right) :
    T.normalize (e.lhs.subst e.skolem) = .ok left ∧
      T.normalize (e.rhs.subst e.skolem) = .ok right ∧ left ≠ right := by
  simp only [fires, bind_eq_error_iff] at failed
  rcases failed with diverged | ⟨left', one, diverged | ⟨right', other, differ⟩⟩
  · exact absurd never (normalize_ne_neverFires diverged text left right)
  · exact absurd never (normalize_ne_neverFires diverged text left right)
  · split at differ
    next => cases differ
    next apart =>
      obtain rfl := throw_eq_error_iff.mp differ
      obtain ⟨-, rfl, rfl⟩ := Cause.neverFires.inj never
      exact ⟨one, other, apart⟩

theorem exists_of_neverFires {text : String}
    (refused : T.declareEquation e.lhs e.rhs location = .error (.flaw d))
    (never : d.cause = .neverFires text left right) :
    e.lhs.isApp = true ∧ e.Bound ∧
      (T.register e).normalize (e.lhs.subst e.skolem) = .ok left ∧
      (T.register e).normalize (e.rhs.subst e.skolem) = .ok right ∧ left ≠ right := by
  simp only [declareEquation, throw_bind] at refused
  split at refused
  next => cases refused
  next =>
    simp only [bind_eq_error_iff, lift_eq_error_iff, lift_eq_ok_iff] at refused
    rcases refused with ⟨d', misused, same⟩ | ⟨_, -, ⟨d', misused, same⟩ | ⟨_, -, refused⟩⟩
    · obtain rfl := Fault.flaw.inj same
      exact absurd never (checkTerm_ne_neverFires misused text left right)
    · obtain rfl := Fault.flaw.inj same
      exact absurd never (checkTerm_ne_neverFires misused text left right)
    · split at refused
      next =>
        obtain rfl := Fault.flaw.inj (throw_eq_error_iff.mp refused)
        cases never
      next applied =>
        split at refused
        next =>
          obtain rfl := Fault.flaw.inj (throw_eq_error_iff.mp refused)
          cases never
        next bound =>
          simp only [bind_eq_error_iff, lift_eq_error_iff, pure_ne_error, and_false, exists_false,
            or_false] at refused
          obtain ⟨d', failed, same⟩ := refused
          obtain rfl := Fault.flaw.inj same
          refine ⟨by simpa using applied, ?_, exists_of_fires_eq_error failed never⟩
          simpa [Equation.Bound, List.isEmpty_iff] using bound

theorem eq_of_selected (applied : e.lhs.isApp = true) (bound : e.Bound)
    (plain : ∀ d ∈ (T.register e).equations, d.Plain)
    (one : (T.register e).normalize (e.lhs.subst e.skolem) = .ok left)
    (other : (T.register e).normalize (e.rhs.subst e.skolem) = .ok right) {f : String}
    {args : List Term} (normal : ∀ a ∈ args, (T.register e).Normal a)
    (passed : rewriteRoot? T.equations (.app f args) = none) {σ : Subst}
    (met : .app f args = e.lhs.subst σ) : left = right := by
  obtain ⟨g, ps, head⟩ := Equation.Oriented.exists_app ⟨applied, bound⟩
  obtain ⟨h, restores, values⟩ := e.exists_restores σ.value
  -- The application is what becomes of the instance that was tried.
  have tried : e.lhs.subst e.skolem = .app g (ps.map (Term.under e.skolem.value)) := by
    rw [Term.subst_eq_under, head, Term.under_app]
  have restored : (e.lhs.subst e.skolem).fill h = .app f args := by
    have fixed : ∀ c ∈ e.lhs.consts, h c = .const c := fun c inside =>
      restores c (plain e (by simp [register]) c inside)
    rw [met, Term.subst_eq_under, Term.subst_eq_under, Term.fill_under fixed]
    exact Term.under_congr values
  rw [tried, Term.fill_app] at restored
  obtain ⟨rfl, rfl⟩ := Term.app.inj restored
  -- So there the arguments are normal as well, and no earlier equation applies.
  have inner : ∀ q ∈ ps.map (Term.under e.skolem.value), Irreducible (T.register e).equations q :=
    fun q member => .of_fill restores plain (normal _ (List.mem_map_of_mem member))
  have stands : rewriteRoot? T.equations (e.lhs.subst e.skolem) = none := by
    refine rewriteRoot?_of_fill restores (fun d member => plain d (by simp [register, member])) ?_
    rw [tried, Term.fill_app]
    exact passed
  have fired : e.reduct? (e.lhs.subst e.skolem) = some (e.rhs.subst e.skolem) := by
    rw [Term.subst_eq_under, Term.subst_eq_under]
    exact bound.reduct?_under e.skolem.value
  have root : rewriteRoot? (T.register e).equations (e.lhs.subst e.skolem) =
      some (e.rhs.subst e.skolem) := by
    rw [register, rewriteRoot?_append, stands]
    simp [rewriteRoot?, fired]
  have value : Value (T.register e).equations (e.lhs.subst e.skolem) right := by
    rw [tried] at root ⊢
    exact .rewritten (List.forall₂_same.mpr fun q member => (inner q member).value) root
      (value_of_normalize other)
  exact (value_of_normalize one).unique value

theorem normal_register_iff
    (apart : ∀ f args, (∀ a ∈ args, (T.register e).Normal a) →
      rewriteRoot? (T.register e).equations (.app f args) =
        rewriteRoot? T.equations (.app f args)) (t : Term) :
    (T.register e).Normal t ↔ T.Normal t := by
  induction t using Term.induct with
  | var | const | lit | name =>
    exact iff_of_true (irreducible_atom rfl) (irreducible_atom rfl)
  | app f args ih =>
    have inner : (∀ a ∈ args, (T.register e).Normal a) ↔ ∀ a ∈ args, T.Normal a :=
      forall₂_congr ih
    simp only [Normal, irreducible_app] at inner ⊢
    constructor
    · rintro ⟨root, each⟩
      exact ⟨apart f args each ▸ root, inner.mp each⟩
    · rintro ⟨root, each⟩
      exact ⟨(apart f args (inner.mpr each)).trans root, inner.mpr each⟩

/-- An equation that is refused because it can never fire would never have been used: not at an
application whose arguments are in normal form, and so at no step of any evaluation. -/
theorem neverFires_sound (plain : ∀ d ∈ T.equations ++ [e], d.Plain) {d : Diagnostic}
    {text : String} {left right : Term}
    (refused : T.declareEquation e.lhs e.rhs location = .error (.flaw d))
    (never : d.cause = .neverFires text left right) :
    let extended : Theory := { T with equations := T.equations ++ [e] }
    (∀ f args, (∀ a ∈ args, extended.Normal a) →
      selected? extended.equations (.app f args) ≠ some T.equations.length ∧
      rewriteRoot? extended.equations (.app f args) = rewriteRoot? T.equations (.app f args)) ∧
    (∀ t, extended.Normal t ↔ T.Normal t) ∧
    ∀ depth rewrites t,
      evaluate extended.equations depth rewrites t = evaluate T.equations depth rewrites t := by
  intro extended
  obtain ⟨applied, bound, one, other, differ⟩ := exists_of_neverFires refused never
  have apart (f : String) (args : List Term) (normal : ∀ a ∈ args, extended.Normal a)
      (passed : rewriteRoot? T.equations (.app f args) = none) :
      e.reduct? (.app f args) = none :=
    Equation.reduct?_eq_none_iff.mpr fun σ met =>
      differ (eq_of_selected applied bound plain one other normal passed met)
  have step (f : String) (args : List Term) (normal : ∀ a ∈ args, extended.Normal a) :
      rewriteRoot? extended.equations (.app f args) = rewriteRoot? T.equations (.app f args) := by
    rw [rewriteRoot?_append]
    cases passed : rewriteRoot? T.equations (.app f args) with
    | none => simp [rewriteRoot?, apart f args normal passed]
    | some r => rfl
  have normal_iff := normal_register_iff step
  refine ⟨fun f args normal => ⟨?_, step f args normal⟩, normal_iff, fun depth rewrites t => ?_⟩
  · rw [ne_eq, selected?_append_iff]
    rintro ⟨passed, applies⟩
    exact applies (apart f args normal passed)
  · refine evaluate_append depth rewrites fun u visits stands => ?_
    obtain ⟨f, args, rfl, normal⟩ := visits.exists_app
    have none := apart f args (fun a member => (normal_iff a).mpr (normal a member)) stands
    simp [rewriteRoot?, none]

def exposing : Theory :=
  [Request.symbol "enc" 2 none, .symbol "dec" 2 none, .equation ofEncryption none].foldl
    Request.serve (pairs 2 [ofFirst, ofSecond])

theorem declared_exposing : exposing.Declared :=
  (Declared.start (ofBudget_eq_ok (by decide))).serveAll _

theorem exposing_neverFires_sound :
    exposing.Declared ∧
    exposing.declareEquation ofDecryption.lhs ofDecryption.rhs = .error (.flaw
      { cause := .neverFires ofDecryption.text
          (.app "dec" [.pair (.const "$sk1") (.const "$sk0"), .const "$sk0"]) (.const "$sk1"),
        declaration := some ofDecryption.text }) ∧
    ∀ depth rewrites t, evaluate (exposing.equations ++ [ofDecryption]) depth rewrites t =
      evaluate exposing.equations depth rewrites t := by
  have refused : exposing.declareEquation ofDecryption.lhs ofDecryption.rhs = .error (.flaw
      { cause := .neverFires ofDecryption.text
          (.app "dec" [.pair (.const "$sk1") (.const "$sk0"), .const "$sk0"]) (.const "$sk1"),
        declaration := some ofDecryption.text }) := by decide +kernel
  have constantless : ∀ d ∈ exposing.equations ++ [ofDecryption], d.lhs.consts = [] := by
    decide +kernel
  have plain : ∀ d ∈ exposing.equations ++ [ofDecryption], d.Plain := fun d member => by
    simp [Equation.Plain, constantless d member]
  obtain ⟨-, -, unused⟩ := neverFires_sound plain refused rfl
  exact ⟨declared_exposing, refused, unused⟩

end Theory

end ThreatModel
