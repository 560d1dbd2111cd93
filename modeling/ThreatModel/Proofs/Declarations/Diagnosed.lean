import Mathlib
import ThreatModel.Proofs.Declarations.Stages
import ThreatModel.Proofs.Theory.Budget

set_option autoImplicit false

namespace ThreatModel

open Result

def Fault.IsFlaw (fault : Fault) : Prop := ∃ d, fault = .flaw d

def Result.Diagnosed {α : Type} (r : Result α) : Prop := ∀ fault, r = .error fault → fault.IsFlaw

namespace Result.Diagnosed

variable {α β : Type} {x : Result α} {f : α → Result β}

theorem ok (a : α) : Diagnosed (.ok a) := by simp [Diagnosed]

protected theorem pure (a : α) : Diagnosed (Pure.pure a) := ok a

theorem flaw (d : Diagnostic) : Diagnosed (α := α) (.error (.flaw d)) := by
  intro fault failed
  exact ⟨d, (Except.error.inj failed).symm⟩

theorem lift (x : Except Diagnostic α) : (liftM x : Result α).Diagnosed := by
  intro fault failed
  obtain ⟨d, -, rfl⟩ := lift_eq_error_iff.mp failed
  exact ⟨d, rfl⟩

theorem bind (first : x.Diagnosed) (later : ∀ a, x = .ok a → (f a).Diagnosed) :
    (x >>= f).Diagnosed := by
  intro fault failed
  rcases bind_eq_error_iff.mp failed with here | ⟨a, done, there⟩
  · exact first fault here
  · exact later a done fault there

theorem ite {c : Prop} [Decidable c] {x y : Result α} (yes : c → x.Diagnosed)
    (no : ¬ c → y.Diagnosed) : (if c then x else y).Diagnosed := by
  split
  next holds => exact yes holds
  next fails => exact no fails

end Result.Diagnosed

def Part.Filled (parts : List Part) : Prop := Part.expr (.tuple []) ∉ parts

theorem Part.Filled.mono {parts fewer : List Part} (filled : Part.Filled parts)
    (inside : ∀ part ∈ fewer, part ∈ parts) : Part.Filled fewer :=
  fun empty => filled (inside _ empty)

theorem Term.diagnosed_tuple {ts : List Term} (some : ts ≠ []) : (Term.tuple ts).Diagnosed := by
  unfold Term.tuple
  split
  next t _ => exact .ok t
  next none => exact absurd (Term.tuple?_eq_none none) some

structure Expr.Reads (term : Expr → Result Term) (terms : List Expr → Result (List Term)) :
    Prop where
  nil : terms [] = .ok []
  cons : ∀ e es, terms (e :: es) = do return (← term e) :: (← terms es)
  tuple : ∀ items, term (.tuple items) = do Term.tuple (← terms items)
  str : ∀ s, (term (.str s)).Diagnosed
  ident : ∀ x location, (term (.ident x location)).Diagnosed
  apply : ∀ f args location, (terms args).Diagnosed → (term (.apply f args location)).Diagnosed
  unsupported : ∀ location, (term (.unsupported location)).Diagnosed

namespace Expr.Reads

variable {term : Expr → Result Term} {terms : List Expr → Result (List Term)}

theorem length_eq (reads : Reads term terms) {es : List Expr} {ts : List Term}
    (done : terms es = .ok ts) : ts.length = es.length := by
  induction es generalizing ts with
  | nil =>
    obtain rfl : [] = ts := by simpa [reads.nil] using done
    rfl
  | cons e es ih =>
    simp only [reads.cons, bind_eq_ok_iff, pure_eq_ok_iff] at done
    obtain ⟨t, -, rest, others, rfl⟩ := done
    simp [ih others]

mutual

theorem diagnosed (reads : Reads term terms) : ∀ e : Expr, Part.Filled e.parts →
    (term e).Diagnosed
  | .str s, _ => reads.str s
  | .ident x location, _ => reads.ident x location
  | .unsupported location, _ => reads.unsupported location
  | .apply f args location, filled => by
    refine reads.apply f args location (reads.diagnosed_all args (filled.mono ?_))
    intro part member
    simp [Expr.parts, member]
  | .tuple items, filled => by
    rw [reads.tuple]
    refine .bind (reads.diagnosed_all items (filled.mono ?_)) fun ts done => ?_
    · intro part member
      simp [Expr.parts, member]
    · refine Term.diagnosed_tuple fun none => filled ?_
      have length := reads.length_eq done
      obtain rfl : items = [] := List.length_eq_zero_iff.mp (by simp [← length, none])
      simp [Expr.parts]

theorem diagnosed_all (reads : Reads term terms) : ∀ es : List Expr,
    Part.Filled (Expr.partsAll es) → (terms es).Diagnosed
  | [], _ => by
    rw [reads.nil]
    exact .ok []
  | e :: es, filled => by
    rw [reads.cons]
    refine .bind (reads.diagnosed e (filled.mono ?_)) fun t _ => ?_
    · intro part member
      simp [Expr.partsAll, member]
    · refine .bind (reads.diagnosed_all es (filled.mono ?_)) fun ts _ => .pure _
      intro part member
      simp [Expr.partsAll, member]

end

end Expr.Reads

theorem Expr.reads_equationTerm : Expr.Reads Expr.equationTerm Expr.equationTerms where
  nil := rfl
  cons _ _ := rfl
  tuple _ := rfl
  str _ := .ok _
  ident _ _ := .ok _
  apply _ _ _ inner := .bind inner fun _ _ => .pure _
  unsupported _ := .flaw _

theorem Declarations.reads_content (D : Declarations) (owner : String) :
    Expr.Reads (D.content owner) (D.contents owner) where
  nil := rfl
  cons _ _ := rfl
  tuple _ := rfl
  str _ := .ok _
  ident x location := by
    unfold content
    split
    next => exact .ok _
    next => exact .flaw _
  apply _ _ _ inner := .bind inner fun _ _ => .bind (.lift _) fun _ _ => .pure _
  unsupported _ := .flaw _

def Declarations.Unsealed (D : Declarations) : Prop := D.theory.closed = false

namespace Draft

variable {α : Type} {d : Draft} {next : Draft → Result Draft}

theorem exists_attempt (d : Draft) (declare : Declarations → Result Declarations)
    (diagnosed : (declare d.decls).Diagnosed) : ∃ d', d.attempt declare = .ok d' := by
  unfold attempt
  cases made : declare d.decls with
  | ok decls => exact ⟨_, rfl⟩
  | error fault =>
    obtain ⟨flaw, rfl⟩ := diagnosed fault made
    exact ⟨_, rfl⟩

theorem exists_of_attemptAll {declare : Declarations → α → Result Declarations} {items : List α}
    (unsealed : d.decls.Unsealed)
    (diagnosed : ∀ D, ∀ x ∈ items, D.Unsealed → (declare D x).Diagnosed)
    (keeps : ∀ D x D', D.Unsealed → declare D x = .ok D' → D'.Unsealed)
    (later : ∀ d', d'.decls.Unsealed → ∃ last, next d' = .ok last) :
    ∃ last, d.attemptAll declare items >>= next = .ok last := by
  simp only [attemptAll]
  induction items generalizing d with
  | nil => exact later d unsealed
  | cons x rest ih =>
    obtain ⟨d₁, first⟩ := exists_attempt d (fun D => declare D x)
      (diagnosed d.decls x (by simp) unsealed)
    rw [List.foldlM_cons, first, ok_bind]
    exact ih (attempt_keeps unsealed (fun D' => keeps d.decls x D' unsealed) first)
      fun D x member => diagnosed D x (by simp [member])

theorem exists_of_attemptCallables {name : α → String} {location : α → Option Location}
    {declare : Callables → α → Except Diagnostic Callables} {items : List α}
    (unsealed : d.decls.Unsealed)
    (later : ∀ d', d'.decls.Unsealed → ∃ last, next d' = .ok last) :
    ∃ last, (items.foldlM (fun d x =>
      d.attemptCallable (name x) (location x) fun C => declare C x) d >>= next) = .ok last := by
  induction items generalizing d with
  | nil => exact later d unsealed
  | cons x rest ih =>
    -- The name is checked first, and the definition is looked at in any case.
    obtain ⟨d₁, named⟩ := exists_attempt d
      (fun D => do D.checkNotSymbol (name x) (location x); return D)
      (.bind (.lift _) fun _ _ => .pure _)
    obtain ⟨d₂, made⟩ := exists_attempt d₁
      (fun D => return { D with callables := ← declare D.callables x })
      (.bind (.lift _) fun _ _ => .pure _)
    have first : d.attemptCallable (name x) (location x) (fun C => declare C x) = .ok d₂ := by
      simp only [attemptCallable, bind_eq_ok_iff]
      exact ⟨d₁, named, made⟩
    rw [List.foldlM_cons, first, ok_bind]
    exact ih (attemptCallable_keeps (fun _ _ kept => kept) unsealed first)

end Draft

namespace Declarations

variable {D D' : Declarations}

theorem diagnosed_declareSymbol (unsealed : D.Unsealed) (f : FunctionDecl) :
    (D.theory.declareSymbol f.name f.arity f.loc).Diagnosed := by
  unfold Theory.declareSymbol
  rw [unsealed]
  split
  next => contradiction
  next =>
    split
    next => exact .flaw _
    next => exact .ite (fun _ => .flaw _) fun _ => .ok _

theorem diagnosed_declareEquation (unsealed : D.Unsealed) (lhs rhs : Term)
    (location : Option Location) : (D.theory.declareEquation lhs rhs location).Diagnosed := by
  simp only [Theory.declareEquation, throw_bind]
  refine .ite (fun sealed => ?_) fun _ => ?_
  · exact absurd (unsealed.symm.trans sealed) Bool.false_ne_true
  refine .bind (.lift _) fun _ _ => .bind (.lift _) fun _ _ => ?_
  refine .ite (fun _ => .flaw _) fun _ => .ite (fun _ => .flaw _) fun _ => ?_
  exact .bind (.lift _) fun _ _ => .pure _

theorem diagnosed_addEquation (unsealed : D.Unsealed) {e : EquationDecl}
    (left : Part.Filled e.lhs.parts) (right : Part.Filled e.rhs.parts) :
    (D.addEquation e).Diagnosed := by
  refine .bind (Expr.reads_equationTerm.diagnosed e.lhs left) fun lhs _ => ?_
  refine .bind (Expr.reads_equationTerm.diagnosed e.rhs right) fun rhs _ => ?_
  exact .bind (diagnosed_declareEquation unsealed lhs rhs e.loc) fun _ _ => .pure _

theorem diagnosed_addStore {name type : String} {expected : TypeKind}
    {initial : Result (List Term)} {location : Option Location} (facts : initial.Diagnosed) :
    (D.addStore name type expected initial location).Diagnosed := by
  unfold addStore
  refine .bind (.lift _) fun _ _ => ?_
  split
  next => exact .flaw _
  next kind _ =>
    simp only [throw_bind]
    refine .ite (fun _ => .flaw _) fun _ => ?_
    exact .bind facts fun _ _ => .bind (.lift _) fun _ _ => .pure _

theorem diagnosed_addTemplate (p : Template) : (D.addTemplate p).Diagnosed := by
  simp only [addTemplate, throw_bind]
  refine .ite (fun _ => .flaw _) fun _ => ?_
  split
  next => exact .flaw _
  next => exact .bind (.lift _) fun _ _ => .pure _
  next => exact .flaw _

theorem diagnosed_policy (D : Declarations) (x : Except Diagnostic Policy) :
    (do return { D with policy := ← x } : Result Declarations).Diagnosed :=
  .bind (.lift _) fun _ _ => .pure _

theorem unsealed_of_policy {x : Except Diagnostic Policy} (unsealed : D.Unsealed)
    (done : (do return { D with policy := ← x } : Result Declarations) = .ok D') :
    D'.Unsealed := by
  simp only [bind_eq_ok_iff, pure_eq_ok_iff] at done
  obtain ⟨P, -, rfl⟩ := done
  exact unsealed

theorem unsealed_of_addStore {name type : String} {expected : TypeKind}
    {initial : Result (List Term)} {location : Option Location} (unsealed : D.Unsealed)
    (done : D.addStore name type expected initial location = .ok D') : D'.Unsealed := by
  obtain ⟨-, -, facts, R, -, -, rfl⟩ := exists_of_addStore done
  exact unsealed

end Declarations

structure Model.Filled (M : Model) : Prop where
  equations : ∀ e ∈ M.equations, Part.Filled e.lhs.parts ∧ Part.Filled e.rhs.parts
  syscalls : ∀ s ∈ M.syscalls, Part.Filled s.body.parts
  attacks : ∀ a ∈ M.attacks, Part.Filled a.body.parts
  files : ∀ f ∈ M.files, Part.Filled f.content.parts
  processes : ∀ p ∈ M.processes, Part.Filled p.parts
  lemmas : ∀ l ∈ (M.system.getD {}).lemmas, Part.Filled l.parts

theorem Model.filled_of_parts {M : Model} (filled : Part.Filled M.parts) : M.Filled := by
  have written : ∀ part, part = Part.expr (.tuple []) → part ∉ M.parts := by
    rintro _ rfl
    exact filled
  simp only [parts, List.mem_append, List.mem_cons, List.mem_flatMap] at written
  constructor
  case lemmas =>
    cases stated : M.system with
    | none => simp
    | some system =>
      intro l member empty
      refine written _ rfl (.inr ⟨system, by simp [stated], ?_⟩)
      simp only [SystemDecl.parts, List.mem_append, List.mem_flatMap]
      exact .inr ⟨l, member, empty⟩
  all_goals grind [Part.Filled]

namespace Declarations

theorem exists_draft {budget : Int} {M : Model} (positive : 0 < budget) (filled : M.Filled) :
    ∃ d, draft budget M = .ok d := by
  unfold draft
  rw [Theory.ofBudget_eq_ok positive, ok_bind]
  refine Draft.exists_of_attemptAll rfl ?_ ?_ fun d₁ open₁ => ?_
  · exact fun D f _ unsealed => .bind (diagnosed_declareSymbol unsealed f) fun _ _ => .pure _
  · intro D f D' unsealed done
    simp only [bind_eq_ok_iff, pure_eq_ok_iff] at done
    obtain ⟨T, declared, rfl⟩ := done
    obtain ⟨-, rfl⟩ := Theory.exists_of_declareSymbol declared
    exact unsealed
  refine Draft.exists_of_attemptAll open₁ ?_ ?_ fun d₂ open₂ => ?_
  · intro D e member unsealed
    obtain ⟨left, right⟩ := filled.equations e member
    exact diagnosed_addEquation unsealed left right
  · intro D e D' unsealed done
    simp only [addEquation, bind_eq_ok_iff, pure_eq_ok_iff] at done
    obtain ⟨lhs, -, rhs, -, T, declared, rfl⟩ := done
    obtain ⟨rfl, -⟩ := Theory.exists_of_declareEquation declared
    exact unsealed
  refine Draft.exists_of_attemptAll open₂ (fun D _ _ _ => diagnosed_policy D _)
    (fun _ _ _ => unsealed_of_policy) fun d₃ open₃ => ?_
  refine Draft.exists_of_attemptAll open₃ (fun D _ _ _ => diagnosed_policy D _)
    (fun _ _ _ => unsealed_of_policy) fun d₄ open₄ => ?_
  refine Draft.exists_of_attemptAll open₄ (fun D _ _ _ => diagnosed_policy D _)
    (fun _ _ _ => unsealed_of_policy) fun d₅ open₅ => ?_
  refine Draft.exists_of_attemptCallables open₅ fun d₆ open₆ => ?_
  refine Draft.exists_of_attemptCallables open₆ fun d₇ open₇ => ?_
  refine Draft.exists_of_attemptAll open₇ ?_ ?_ fun d₈ open₈ => ?_
  · exact fun D c _ _ => .bind (.lift _) fun _ _ => .pure _
  · intro D c D' unsealed done
    simp only [addConstant, bind_eq_ok_iff, pure_eq_ok_iff] at done
    obtain ⟨-, -, rfl⟩ := done
    exact unsealed
  refine Draft.exists_of_attemptAll open₈ (fun _ _ _ _ => diagnosed_addStore (.ok []))
    (fun _ _ _ => unsealed_of_addStore) fun d₉ open₉ => ?_
  refine Draft.exists_of_attemptAll open₉ ?_ (fun _ _ _ => unsealed_of_addStore)
    fun d₁₀ open₁₀ => ?_
  · intro D f member _
    refine diagnosed_addStore ((D.reads_content f.name).diagnosed_all _ ?_)
    simpa [Expr.partsAll] using filled.files f member
  refine Draft.exists_of_attemptAll open₁₀ (fun D p _ _ => diagnosed_addTemplate p) ?_
    fun d₁₁ _ => ⟨_, rfl⟩
  intro D p D' unsealed done
  rw [exists_of_addTemplate done]
  exact unsealed

theorem ofModel_ok_or_rejected {budget : Int} {M : Model} (positive : 0 < budget)
    (filled : M.Filled) :
    (∃ D, ofModel budget M = .ok D) ∨
      ∃ d ds, ofModel budget M = .error (.rejected (d :: ds)) := by
  obtain ⟨d, drafted⟩ := exists_draft positive filled
  unfold ofModel
  rw [drafted, ok_bind]
  cases flaws : d.flaws with
  | nil => exact .inl ⟨_, rfl⟩
  | cons first rest => exact .inr ⟨first, rest, rfl⟩

end Declarations

end ThreatModel
