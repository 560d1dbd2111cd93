import Mathlib
import ThreatModel.Proofs.Declarations.Sound

set_option autoImplicit false

namespace ThreatModel

namespace Result

variable {ε α σ : Type}

theorem foldlM_keeps {P : σ → Prop} {f : σ → α → Except ε σ} {items : List α} {s s' : σ}
    (holds : P s) (step : ∀ s x s', x ∈ items → P s → f s x = .ok s' → P s')
    (done : items.foldlM f s = .ok s') : P s' := by
  induction items generalizing s with
  | nil =>
    obtain rfl : s = s' := by simpa using done
    exact holds
  | cons x rest ih =>
    simp only [List.foldlM_cons, bind_eq_ok_iff] at done
    obtain ⟨s₁, first, later⟩ := done
    exact ih (step s x s₁ (by simp) holds first)
      (fun s y s' member => step s y s' (by simp [member])) later

theorem foldlM_transfer {P : σ → Prop} {f : σ → α → Except ε σ} {g : σ → σ}
    {items : List α} {s s' : σ} (holds : P s)
    (step : ∀ s x s', P s → f s x = .ok s' → P s' ∧ f (g s) x = .ok (g s'))
    (done : items.foldlM f s = .ok s') : P s' ∧ items.foldlM f (g s) = .ok (g s') := by
  induction items generalizing s with
  | nil =>
    obtain rfl : s = s' := by simpa using done
    exact ⟨holds, rfl⟩
  | cons x rest ih =>
    simp only [List.foldlM_cons, bind_eq_ok_iff] at done ⊢
    obtain ⟨s₁, first, later⟩ := done
    obtain ⟨kept, first'⟩ := step s x s₁ holds first
    obtain ⟨kept', later'⟩ := ih kept later
    exact ⟨kept', g s₁, first', later'⟩

end Result

open Result

namespace Draft

variable {d d' : Draft} {α : Type}

theorem attempt_clean {declare : Declarations → Result Declarations}
    (done : d.attempt declare = .ok d') (clean : d'.flaws = []) :
    d.flaws = [] ∧ declare d.decls = .ok d'.decls := by
  simp only [attempt] at done
  split at done
  next D made =>
    obtain rfl := Except.ok.inj done
    exact ⟨clean, made⟩
  next =>
    obtain rfl := Except.ok.inj done
    simp [report] at clean
  next => simp at done

theorem attemptAll_clean {declare : Declarations → α → Result Declarations} {items : List α}
    (done : d.attemptAll declare items = .ok d') (clean : d'.flaws = []) :
    d.flaws = [] ∧ items.foldlM declare d.decls = .ok d'.decls := by
  simp only [attemptAll] at done
  induction items generalizing d with
  | nil =>
    obtain rfl : d = d' := by simpa using done
    exact ⟨clean, by simp⟩
  | cons x rest ih =>
    simp only [List.foldlM_cons, bind_eq_ok_iff] at done ⊢
    obtain ⟨d₁, first, later⟩ := done
    obtain ⟨clean₁, others⟩ := ih later
    obtain ⟨clean₀, made⟩ := attempt_clean first clean₁
    exact ⟨clean₀, d₁.decls, made, others⟩

theorem attemptCallable_clean {name : String} {location : Option Location}
    {declare : Callables → Except Diagnostic Callables}
    (done : d.attemptCallable name location declare = .ok d') (clean : d'.flaws = []) :
    d.flaws = [] ∧ d.decls.theory.hasSymbol name = false ∧
      ∃ C, declare d.decls.callables = .ok C ∧ d'.decls = { d.decls with callables := C } := by
  simp only [attemptCallable, bind_eq_ok_iff] at done
  obtain ⟨d₁, first, second⟩ := done
  obtain ⟨clean₁, made⟩ := attempt_clean second clean
  obtain ⟨clean₀, checked⟩ := attempt_clean first clean₁
  simp only [bind_eq_ok_iff, pure_eq_ok_iff, lift_eq_ok_iff] at checked made
  obtain ⟨⟨⟩, free, same⟩ := checked
  obtain ⟨C, declared, made⟩ := made
  have free : d.decls.theory.hasSymbol name = false := by
    simp only [Declarations.checkNotSymbol] at free
    split at free
    next => simp at free
    next unknown => simpa using unknown
  rw [same]
  exact ⟨clean₀, same ▸ free, C, declared, made.symm⟩

theorem attemptCallables_clean {name : α → String} {location : α → Option Location}
    {declare : Callables → α → Except Diagnostic Callables} {items : List α}
    (done : items.foldlM (fun d x =>
      d.attemptCallable (name x) (location x) fun C => declare C x) d = .ok d')
    (clean : d'.flaws = []) :
    d.flaws = [] ∧ (∀ x ∈ items, d.decls.theory.hasSymbol (name x) = false) ∧
      ∃ C, items.foldlM declare d.decls.callables = .ok C ∧
        d'.decls = { d.decls with callables := C } := by
  induction items generalizing d with
  | nil =>
    obtain rfl : d = d' := by simpa using done
    exact ⟨clean, by simp, d.decls.callables, by simp, rfl⟩
  | cons x rest ih =>
    simp only [List.foldlM_cons, bind_eq_ok_iff] at done ⊢
    obtain ⟨d₁, first, later⟩ := done
    obtain ⟨clean₁, free, C', others, whole⟩ := ih later
    obtain ⟨clean₀, new, C, made, part⟩ := attemptCallable_clean first clean₁
    rw [part] at others whole free
    exact ⟨clean₀, List.forall_mem_cons.mpr ⟨new, free⟩, C', ⟨C, made, others⟩, whole⟩

theorem attemptAll_of_foldlM {declare : Declarations → α → Result Declarations} {items : List α}
    {E : Declarations} (done : items.foldlM declare d.decls = .ok E) :
    d.attemptAll declare items = .ok { d with decls := E } := by
  simp only [attemptAll]
  induction items generalizing d with
  | nil =>
    obtain rfl : d.decls = E := by simpa using done
    rfl
  | cons x rest ih =>
    simp only [List.foldlM_cons, bind_eq_ok_iff] at done ⊢
    obtain ⟨D, first, later⟩ := done
    exact ⟨{ d with decls := D }, by simp [attempt, first], ih later⟩

theorem attemptCallables_of_foldlM {name : α → String} {location : α → Option Location}
    {declare : Callables → α → Except Diagnostic Callables} {items : List α} {C : Callables}
    (free : ∀ x ∈ items, d.decls.theory.hasSymbol (name x) = false)
    (done : items.foldlM declare d.decls.callables = .ok C) :
    items.foldlM (fun d x => d.attemptCallable (name x) (location x) fun C => declare C x) d =
      .ok { d with decls := { d.decls with callables := C } } := by
  induction items generalizing d with
  | nil =>
    obtain rfl : d.decls.callables = C := by simpa using done
    rfl
  | cons x rest ih =>
    simp only [List.foldlM_cons, bind_eq_ok_iff] at done ⊢
    obtain ⟨C₁, first, later⟩ := done
    obtain ⟨new, others⟩ := List.forall_mem_cons.mp free
    refine ⟨{ d with decls := { d.decls with callables := C₁ } }, ?_, ih others later⟩
    simp [attemptCallable, attempt, Declarations.checkNotSymbol, new, first]

end Draft

theorem Policy.kept_of_attackerGrants {grants : List AttackerGrantDecl} {P P' : Policy}
    (done : grants.foldlM
      (fun P g => P.declareAttackerGrant ⟨g.subject, g.attacks⟩ g.loc) P = .ok P') :
    P'.types = P.types ∧ P'.rights = P.rights := by
  refine foldlM_keeps (P := fun Q : Policy => Q.types = P.types ∧ Q.rights = P.rights) ⟨rfl, rfl⟩
    ?_ done
  intro Q g Q' _ kept done
  simp only [declareAttackerGrant, bind_eq_ok_iff, pure_eq_ok_iff] at done
  obtain ⟨_, -, rfl⟩ := done
  exact kept

def InstanceDecl.labels : Nat → List InstanceDecl → List String
  | _, [] => []
  | i, inst :: rest => inst.label i :: labels (i + 1) rest

namespace Declarations

variable {D E L D' : Declarations} {budget : Int} {M : Model} {location : Option Location}
  {initial : Result (List Term)} {name : String}

def early (budget : Int) (M : Model) : Result Declarations := do
  let D : Declarations := { theory := ← Theory.ofBudget budget }
  let D ← M.functions.foldlM (fun D f =>
    return { D with theory := ← D.theory.declareSymbol f.name f.arity f.loc }) D
  let D ← M.equations.foldlM addEquation D
  let D ← M.types.foldlM (fun D t =>
    return { D with policy := ← D.policy.declareType t.name t.kind t.loc }) D
  M.grants.foldlM (fun D g =>
    return { D with policy := ← D.policy.declareGrant ⟨g.subject, g.object, g.operations⟩ g.loc }) D

def late (D : Declarations) (M : Model) : Result Declarations := do
  let D ← M.constants.foldlM addConstant D
  let D ← M.channels.foldlM addChannel D
  let D ← M.files.foldlM addFile D
  M.processes.foldlM addTemplate D

theorem foldlM_policy {α : Type} (step : Policy → α → Except Diagnostic Policy) {items : List α} :
    items.foldlM (fun D x => (do return { D with policy := ← step D.policy x } :
        Result Declarations)) D = .ok E ↔
      ∃ P, items.foldlM step D.policy = .ok P ∧ E = { D with policy := P } := by
  induction items generalizing D with
  | nil =>
    constructor
    · intro done
      obtain rfl : D = E := by simpa using done
      exact ⟨D.policy, by simp, rfl⟩
    · rintro ⟨P, done, rfl⟩
      obtain rfl : D.policy = P := by simpa using done
      simp
  | cons x rest ih =>
    simp only [List.foldlM_cons, bind_eq_ok_iff, pure_eq_ok_iff, lift_eq_ok_iff]
    constructor
    · rintro ⟨_, ⟨P, first, rfl⟩, later⟩
      obtain ⟨P', others, same⟩ := ih.mp later
      exact ⟨P', ⟨P, first, others⟩, same⟩
    · rintro ⟨P', ⟨P, first, others⟩, same⟩
      exact ⟨_, ⟨P, first, rfl⟩, ih.mpr ⟨P', others, same⟩⟩

/-- Each list of a model without a flaw is declared as a whole. Attacker grants name attacks, no
call comes back to where it was made, no syscall or attack has the name of a symbol, and the
instances fit their templates. -/
theorem exists_stages (made : ofModel budget M = .ok D) : ∃ E P S C L,
    early budget M = .ok E ∧
    M.attackerGrants.foldlM
      (fun P g => P.declareAttackerGrant ⟨g.subject, g.attacks⟩ g.loc) E.policy = .ok P ∧
    M.syscalls.foldlM Callables.declareSyscall E.callables = .ok S ∧
    M.attacks.foldlM Callables.declareAttack S = .ok C ∧
    late { E with policy := P, callables := C } M = .ok L ∧
    D = { L with theory := L.theory.close, system := M.system.getD {} } ∧
    grantFlaws C M = [] ∧ C.checkRecursion = [] ∧
    (∀ s ∈ M.syscalls, E.theory.hasSymbol s.name = false) ∧
    (∀ a ∈ M.attacks, E.theory.hasSymbol a.name = false) ∧ L.systemFlaws M.system = [] := by
  simp only [ofModel, bind_eq_ok_iff] at made
  obtain ⟨d, drafted, made⟩ := made
  split at made
  next clean =>
    rw [List.isEmpty_iff] at clean
    simp only [draft, bind_eq_ok_iff, pure_eq_ok_iff] at drafted made
    obtain ⟨T, start, d₁, functions, d₂, equations, d₃, types, d₄, grants, d₅, attackers, d₆,
      syscalls, d₇, attacks, d₈, constants, d₉, channels, d₁₀, files, d₁₁, templates,
      rfl⟩ := drafted
    -- Flaws are never dropped, so a list of them that is empty in the end always was.
    obtain ⟨clean₁₁, system⟩ := List.append_eq_nil_iff.mp clean
    obtain ⟨clean₁₀, templates⟩ := Draft.attemptAll_clean templates clean₁₁
    obtain ⟨clean₉, files⟩ := Draft.attemptAll_clean files clean₁₀
    obtain ⟨clean₈, channels⟩ := Draft.attemptAll_clean channels clean₉
    obtain ⟨clean₇, constants⟩ := Draft.attemptAll_clean constants clean₈
    obtain ⟨clean₇, checked⟩ := List.append_eq_nil_iff.mp clean₇
    obtain ⟨grantsNamed, ordered⟩ := List.append_eq_nil_iff.mp checked
    obtain ⟨clean₆, freeAttacks, C, attacks, called⟩ := Draft.attemptCallables_clean attacks clean₇
    obtain ⟨clean₅, freeSyscalls, S, syscalls, called'⟩ :=
      Draft.attemptCallables_clean syscalls clean₆
    obtain ⟨clean₄, attackers⟩ := Draft.attemptAll_clean attackers clean₅
    obtain ⟨P, granted, allowed⟩ := (foldlM_policy fun P (g : AttackerGrantDecl) =>
      P.declareAttackerGrant ⟨g.subject, g.attacks⟩ g.loc).mp attackers
    obtain ⟨clean₃, grants⟩ := Draft.attemptAll_clean grants clean₄
    obtain ⟨clean₂, types⟩ := Draft.attemptAll_clean types clean₃
    obtain ⟨clean₁, equations⟩ := Draft.attemptAll_clean equations clean₂
    obtain ⟨-, functions⟩ := Draft.attemptAll_clean functions clean₁
    have early : early budget M = .ok d₄.decls := by
      simp only [Declarations.early, bind_eq_ok_iff]
      exact ⟨T, start, _, functions, _, equations, _, types, grants⟩
    have late : late d₇.decls M = .ok d₁₁.decls := by
      simp only [Declarations.late, bind_eq_ok_iff]
      exact ⟨_, constants, _, channels, _, files, templates⟩
    rw [allowed] at syscalls called' freeSyscalls
    rw [called'] at attacks called freeAttacks
    rw [called] at late grantsNamed ordered
    exact ⟨_, P, S, C, _, early, granted, syscalls, attacks, late, made.symm, grantsNamed, ordered,
      freeSyscalls, freeAttacks, system⟩
  next => simp at made

theorem ofModel_of_stages {P : Policy} {S C : Callables} (first : early budget M = .ok E)
    (granted : M.attackerGrants.foldlM
      (fun P g => P.declareAttackerGrant ⟨g.subject, g.attacks⟩ g.loc) E.policy = .ok P)
    (syscalls : M.syscalls.foldlM Callables.declareSyscall E.callables = .ok S)
    (attacks : M.attacks.foldlM Callables.declareAttack S = .ok C)
    (last : late { E with policy := P, callables := C } M = .ok L) (named : grantFlaws C M = [])
    (ordered : C.checkRecursion = [])
    (freeSyscalls : ∀ s ∈ M.syscalls, E.theory.hasSymbol s.name = false)
    (freeAttacks : ∀ a ∈ M.attacks, E.theory.hasSymbol a.name = false)
    (system : L.systemFlaws M.system = []) :
    ofModel budget M = .ok { L with theory := L.theory.close, system := M.system.getD {} } := by
  simp only [early, bind_eq_ok_iff] at first
  obtain ⟨T, start, D₁, functions, D₂, equations, D₃, types, grants⟩ := first
  simp only [late, bind_eq_ok_iff] at last
  obtain ⟨L₁, constants, L₂, channels, L₃, files, templates⟩ := last
  have drafted : draft budget M = .ok { decls := L } := by
    simp only [draft, bind_eq_ok_iff, pure_eq_ok_iff]
    refine ⟨T, start, _, Draft.attemptAll_of_foldlM functions,
      _, Draft.attemptAll_of_foldlM equations, _, Draft.attemptAll_of_foldlM types,
      _, Draft.attemptAll_of_foldlM grants, _, Draft.attemptAll_of_foldlM
        ((foldlM_policy fun P (g : AttackerGrantDecl) =>
          P.declareAttackerGrant ⟨g.subject, g.attacks⟩ g.loc).mpr ⟨P, granted, rfl⟩),
      _, Draft.attemptCallables_of_foldlM freeSyscalls syscalls,
      _, Draft.attemptCallables_of_foldlM freeAttacks attacks, ?_⟩
    simp only [named, ordered, List.append_nil, Draft.report]
    refine ⟨_, Draft.attemptAll_of_foldlM constants, _, Draft.attemptAll_of_foldlM channels,
      _, Draft.attemptAll_of_foldlM files, _, Draft.attemptAll_of_foldlM templates, ?_⟩
    simp [system]
  simp [ofModel, drafted]

structure Initial (D : Declarations) : Prop where
  callables : D.callables = {}
  stores : D.stores = {}
  constants : D.constants = .empty
  templates : D.templates = .empty

theorem early_keeps {P : Declarations → Prop}
    (start : ∀ T, Theory.ofBudget budget = .ok T → P { theory := T })
    (symbol : ∀ D T f arity location, D.theory.declareSymbol f arity location = .ok T → P D →
      P { D with theory := T })
    (equation : ∀ D T lhs rhs location, lhs.names = [] ∧ rhs.names = [] →
      D.theory.declareEquation lhs rhs location = .ok T → P D → P { D with theory := T })
    (policy : ∀ D Q, P D → P { D with policy := Q }) (made : early budget M = .ok E) : P E := by
  simp only [early, bind_eq_ok_iff] at made
  obtain ⟨T, started, D₁, functions, D₂, equations, D₃, types, grants⟩ := made
  have kept₁ : P D₁ := by
    refine foldlM_keeps (start T started) ?_ functions
    intro D f D' _ kept done
    simp only [bind_eq_ok_iff, pure_eq_ok_iff] at done
    obtain ⟨T', declared, rfl⟩ := done
    exact symbol D T' _ _ _ declared kept
  have kept₂ : P D₂ := by
    refine foldlM_keeps kept₁ ?_ equations
    intro D e D' _ kept done
    simp only [addEquation, bind_eq_ok_iff, pure_eq_ok_iff] at done
    obtain ⟨lhs, left, rhs, right, T', declared, rfl⟩ := done
    exact equation D T' lhs rhs _ ⟨Expr.names_equationTerm left, Expr.names_equationTerm right⟩
      declared kept
  obtain ⟨Q, -, rfl⟩ := (foldlM_policy fun P (t : TypeDecl) =>
    P.declareType t.name t.kind t.loc).mp types
  obtain ⟨Q', -, rfl⟩ := (foldlM_policy fun P (g : GrantDecl) =>
    P.declareGrant ⟨g.subject, g.object, g.operations⟩ g.loc).mp grants
  exact policy _ Q' (policy D₂ Q kept₂)

theorem initial_of_early (made : early budget M = .ok E) : E.Initial :=
  early_keeps (fun _ _ => ⟨rfl, rfl, rfl, rfl⟩) (fun _ _ _ _ _ _ h => ⟨h.1, h.2, h.3, h.4⟩)
    (fun _ _ _ _ _ _ _ h => ⟨h.1, h.2, h.3, h.4⟩) (fun _ _ h => ⟨h.1, h.2, h.3, h.4⟩) made

theorem theory_of_early (made : early budget M = .ok E) : E.theory.Declared ∧ E.theory.WellFormed :=
  early_keeps (P := fun D => D.theory.Declared ∧ D.theory.WellFormed)
    (fun _ started => ⟨.start started, Theory.wellFormed_ofBudget started⟩)
    (fun _ _ _ _ _ done kept => ⟨.symbol kept.1 done, kept.2.declareSymbol done⟩)
    (fun _ _ _ _ _ nameless done kept =>
      ⟨.equation kept.1 done, kept.2.declareEquation nameless done⟩)
    (fun _ _ kept => kept) made

mutual

theorem content_congr (D D' : Declarations) (theory : D'.theory = D.theory)
    (constants : D'.constants = D.constants) (owner : String) : ∀ e : Expr,
    D'.content owner e = D.content owner e
  | .str s => rfl
  | .ident x loc => by simp only [content, theory, constants]
  | .unsupported loc => rfl
  | .tuple items => by simp only [content, contents_congr D D' theory constants owner items]
  | .apply f args loc => by simp only [content, contents_congr D D' theory constants owner args, theory]

theorem contents_congr (D D' : Declarations) (theory : D'.theory = D.theory)
    (constants : D'.constants = D.constants) (owner : String) : ∀ es : List Expr,
    D'.contents owner es = D.contents owner es
  | [] => rfl
  | e :: es => by
    simp only [contents, content_congr D D' theory constants owner e,
      contents_congr D D' theory constants owner es]

end

theorem addTemplate_eq_ok_iff {p : Template} :
    D.addTemplate p = .ok D' ↔
      D.templates.contains p.name = false ∧ D.policy.kindOf? p.type = some .process ∧
        checkTemplateParams D.policy p.name [] p.params = .ok () ∧
        { D with templates := D.templates.insert p.name p } = D' := by
  simp only [addTemplate, throw_bind, ite_throw_eq_ok_iff, Bool.not_eq_true]
  refine and_congr_right fun _ => ?_
  split
  next unknown => simp [unknown]
  next known =>
    simp only [known, bind_eq_ok_iff, pure_eq_ok_iff, lift_eq_ok_iff]
    constructor
    · rintro ⟨_, checked, same⟩
      exact ⟨trivial, checked, same⟩
    · rintro ⟨_, checked, same⟩
      exact ⟨(), checked, same⟩
  next kind other known =>
    have apart : kind ≠ .process := fun same => other (same ▸ rfl)
    simp [known, apart]

theorem exists_of_addTemplate {p : Template} (done : D.addTemplate p = .ok D') :
    D' = { D with templates := D.templates.insert p.name p } :=
  (addTemplate_eq_ok_iff.mp done).2.2.2.symm

theorem exists_of_addStore {type : String} {expected : TypeKind}
    (done : D.addStore name type expected initial location = .ok D') :
    D.policy.kindOf? type = some expected ∧ D.checkUnused name location = .ok () ∧
      ∃ facts R, initial = .ok facts ∧
      D.stores.declare D.theory name (some type) expected facts = .ok R ∧
      D' = { D with stores := R } := by
  simp only [addStore, bind_eq_ok_iff, lift_eq_ok_iff] at done
  obtain ⟨⟨⟩, unused, done⟩ := done
  split at done
  next => simp at done
  next kind known =>
    simp only [throw_bind, ite_throw_eq_ok_iff, bind_eq_ok_iff, pure_eq_ok_iff,
      lift_eq_ok_iff] at done
    obtain ⟨same, facts, made, R, declared, rfl⟩ := done
    obtain rfl : kind = expected := by simpa using same
    exact ⟨known, unused, facts, R, made, declared, rfl⟩

theorem addStore_of_declare {type : String} {expected : TypeKind} {facts : List Term} {R : Registry}
    (known : D.policy.kindOf? type = some expected) (unused : D.checkUnused name location = .ok ())
    (made : initial = .ok facts)
    (declared : D.stores.declare D.theory name (some type) expected facts = .ok R) :
    D.addStore name type expected initial location = .ok { D with stores := R } := by
  simp only [addStore, bind_eq_ok_iff, lift_eq_ok_iff]
  refine ⟨(), unused, ?_⟩
  simp only [known, throw_bind, ite_throw_eq_ok_iff, bind_eq_ok_iff, pure_eq_ok_iff,
    lift_eq_ok_iff]
  exact ⟨by simp, facts, made, R, declared, rfl⟩

theorem checkTemplateParams_congr {P P' : Policy} (types : P'.types = P.types) {process : String}
    {seen : List String} {params : List Param} :
    checkTemplateParams P' process seen params = checkTemplateParams P process seen params := by
  induction params generalizing seen with
  | nil => rfl
  | cons param rest ih => simp only [checkTemplateParams, Policy.kindOf?, types, ih]

def under (P : Policy) (C : Callables) (D : Declarations) : Declarations :=
  { D with policy := P, callables := C }

structure Suits (P : Policy) (C : Callables) (D : Declarations) : Prop where
  types : P.types = D.policy.types
  names : ∀ name, C.contains name = D.callables.contains name

section Under

variable {P : Policy} {C : Callables} {D D' : Declarations} (suits : Suits P C D)

include suits

theorem Suits.checkUnused (name : String) (location : Option Location) :
    (D.under P C).checkUnused name location = D.checkUnused name location := by
  have known : (D.under P C).callables.contains name = D.callables.contains name := suits.names name
  have same : (D.under P C).owner? name = D.owner? name := by
    rw [owner?, known]
    rfl
  simp only [Declarations.checkUnused, same]

theorem Suits.addConstant {c : ConstantDecl} (done : D.addConstant c = .ok D') :
    Suits P C D' ∧ (D.under P C).addConstant c = .ok (D'.under P C) := by
  simp only [Declarations.addConstant, suits.checkUnused, bind_eq_ok_iff, pure_eq_ok_iff] at done ⊢
  obtain ⟨_, unused, rfl⟩ := done
  exact ⟨⟨suits.types, suits.names⟩, _, unused, rfl⟩

theorem Suits.addStore {name type : String} {expected : TypeKind} {initial : Result (List Term)}
    {location : Option Location} (done : D.addStore name type expected initial location = .ok D') :
    Suits P C D' ∧
      (D.under P C).addStore name type expected initial location = .ok (D'.under P C) := by
  obtain ⟨known, unused, facts, R, made, declared, rfl⟩ := exists_of_addStore done
  have known : (D.under P C).policy.kindOf? type = some expected := by
    rwa [Policy.kindOf?, under, suits.types]
  rw [← suits.checkUnused] at unused
  exact ⟨⟨suits.types, suits.names⟩,
    addStore_of_declare (D := D.under P C) known unused made declared⟩

theorem Suits.addFile {f : FileDecl} (done : D.addFile f = .ok D') :
    Suits P C D' ∧ (D.under P C).addFile f = .ok (D'.under P C) := by
  have same : (D.under P C).contents f.name [f.content] = D.contents f.name [f.content] :=
    contents_congr D (D.under P C) rfl rfl ..
  simp only [Declarations.addFile, same] at done ⊢
  exact suits.addStore done

theorem Suits.addTemplate {p : Template} (done : D.addTemplate p = .ok D') :
    Suits P C D' ∧ (D.under P C).addTemplate p = .ok (D'.under P C) := by
  obtain ⟨new, known, params, rfl⟩ := addTemplate_eq_ok_iff.mp done
  refine ⟨⟨suits.types, suits.names⟩, addTemplate_eq_ok_iff.mpr ⟨new, ?_, ?_, rfl⟩⟩
  · rwa [Policy.kindOf?, under, suits.types]
  · exact (checkTemplateParams_congr suits.types).trans params

theorem late_under {M : Model} {L : Declarations} (done : late D M = .ok L) :
    late (D.under P C) M = .ok (L.under P C) := by
  simp only [late, bind_eq_ok_iff] at done ⊢
  obtain ⟨D₁, constants, D₂, channels, D₃, files, templates⟩ := done
  obtain ⟨suits₁, constants'⟩ := foldlM_transfer (f := addConstant) suits
    (fun _ _ _ suits => suits.addConstant) constants
  obtain ⟨suits₂, channels'⟩ := foldlM_transfer (f := addChannel) suits₁
    (fun _ _ _ suits => suits.addStore) channels
  obtain ⟨suits₃, files'⟩ := foldlM_transfer (f := addFile) suits₂
    (fun _ _ _ suits => suits.addFile) files
  obtain ⟨-, templates'⟩ := foldlM_transfer (f := addTemplate) suits₃
    (fun _ _ _ suits => suits.addTemplate) templates
  exact ⟨_, constants', _, channels', _, files', templates'⟩

end Under

structure Unused (D : Declarations) (name : String) : Prop where
  constant : D.constants.contains name = false
  store : D.stores.contains name = false
  symbol : D.theory.hasSymbol name = false
  callable : D.callables.contains name = false

theorem unused_of_checkUnused (unused : D.checkUnused name location = .ok ()) : D.Unused name := by
  simp only [checkUnused, owner?] at unused
  constructor
  all_goals
    by_contra known
    simp only [Bool.not_eq_false] at known
    simp only [known, if_true] at unused
    grind

theorem late_keeps {P : Declarations → Prop} (holds : P D)
    (constant : ∀ D x fresh, D.Unused x → P D →
      P { D with constants := D.constants.insert x fresh })
    (store : ∀ D R name type kind facts, D.Unused name →
      (kind = .filesys → facts.length = 1) ∧ (∀ t ∈ facts, Public t) →
      D.stores.declare D.theory name (some type) kind facts = .ok R → P D →
      P { D with stores := R })
    (template : ∀ D ts, P D → P { D with templates := ts }) (made : late D M = .ok L) : P L := by
  simp only [late, bind_eq_ok_iff] at made
  obtain ⟨D₁, constants, D₂, channels, D₃, files, templates⟩ := made
  have kept₁ : P D₁ := by
    refine foldlM_keeps holds ?_ constants
    intro D c D' _ kept done
    simp only [addConstant, bind_eq_ok_iff, pure_eq_ok_iff, lift_eq_ok_iff] at done
    obtain ⟨⟨⟩, unused, rfl⟩ := done
    exact constant D c.name c.fresh (unused_of_checkUnused unused) kept
  have kept₂ : P D₂ := by
    refine foldlM_keeps kept₁ ?_ channels
    intro D c D' _ kept done
    obtain ⟨-, unused, facts, R, none, declared, rfl⟩ := exists_of_addStore done
    obtain rfl := Except.ok.inj none
    exact store D R c.name c.type _ [] (unused_of_checkUnused unused) (by simp) declared kept
  have kept₃ : P D₃ := by
    refine foldlM_keeps kept₂ ?_ files
    intro D f D' _ kept done
    obtain ⟨-, unused, facts, R, content, declared, rfl⟩ := exists_of_addStore done
    refine store D R f.name f.type _ facts (unused_of_checkUnused unused)
      ⟨fun _ => ?_, public_of_contents content⟩ declared kept
    simp only [contents, bind_eq_ok_iff, pure_eq_ok_iff] at content
    obtain ⟨t, -, rest, none, rfl⟩ := content
    obtain rfl := Except.ok.inj none
    rfl
  refine foldlM_keeps kept₃ ?_ templates
  intro D p D' _ kept done
  rw [exists_of_addTemplate done]
  exact template D _ kept

theorem callables_of_late (made : late D M = .ok L) : L.callables = D.callables :=
  late_keeps (P := fun L : Declarations => L.callables = D.callables) rfl
    (fun _ _ _ _ kept => kept) (fun _ _ _ _ _ _ _ _ _ kept => kept) (fun _ _ kept => kept) made

theorem policy_of_late (made : late D M = .ok L) : L.policy = D.policy :=
  late_keeps (P := fun L : Declarations => L.policy = D.policy) rfl (fun _ _ _ _ kept => kept)
    (fun _ _ _ _ _ _ _ _ _ kept => kept) (fun _ _ kept => kept) made

theorem theory_of_ofModel (made : ofModel budget M = .ok D) : D.theory.Declared := by
  obtain ⟨E, P, S, C, L, early, -, -, -, late, rfl, -⟩ := exists_stages made
  refine .close (late_keeps (P := fun L : Declarations => L.theory.Declared) ?_
    (fun _ _ _ _ kept => kept) (fun _ _ _ _ _ _ _ _ _ kept => kept) (fun _ _ kept => kept) late)
  show E.theory.Declared
  exact (theory_of_early early).1

theorem sound_of_ofModel (made : ofModel budget M = .ok D) : D.Sound := by
  obtain ⟨E, P, S, C, L, early, -, -, -, late, rfl, -⟩ := exists_stages made
  have sound : L.Sound := by
    refine late_keeps ?_ (fun _ _ _ _ sound => ⟨sound.theory, sound.entries⟩)
      (fun _ _ _ _ _ _ _ starts declared sound => sound.declare starts.2 declared)
      (fun _ _ sound => ⟨sound.theory, sound.entries⟩) late
    exact .of_theory (theory_of_early early).2 (initial_of_early early).stores
  refine ⟨sound.theory, fun key decl member => ?_⟩
  obtain ⟨named, ground, nameless, normal⟩ := sound.entries key decl member
  exact ⟨named, ground, nameless, normal⟩

theorem nodup_constants_of_ofModel (made : ofModel budget M = .ok D) : D.constants.keys.Nodup := by
  obtain ⟨E, P, S, C, L, early, -, -, -, late, rfl, -⟩ := exists_stages made
  show L.constants.keys.Nodup
  refine late_keeps (P := fun L : Declarations => L.constants.keys.Nodup) ?_ ?_
    (fun _ _ _ _ _ _ _ _ _ kept => kept) (fun _ _ kept => kept) late
  · show E.constants.keys.Nodup
    rw [(initial_of_early early).constants]
    exact List.nodup_nil
  · exact fun D x fresh _ distinct => Table.nodup_keys_insert x fresh distinct

theorem apart_of_ofModel (made : ofModel budget M = .ok D) {x : String}
    (constant : D.constants.contains x = true) : D.stores.contains x = false := by
  obtain ⟨E, P, S, C, L, early, -, -, -, late, rfl, -⟩ := exists_stages made
  revert x constant
  show ∀ {x}, L.constants.contains x = true → L.stores.contains x = false
  refine late_keeps (P := fun L : Declarations =>
    ∀ {x}, L.constants.contains x = true → L.stores.contains x = false) ?_ ?_ ?_
    (fun _ _ kept => kept) late
  · show ∀ {x}, E.constants.contains x = true → E.stores.contains x = false
    rw [(initial_of_early early).constants]
    simp [Table.contains]
  · intro D x fresh unused kept y constant
    simp only [Table.contains, Table.find?_insert] at constant
    split at constant
    next same => exact same ▸ unused.2
    next => exact kept constant
  · intro D R name type kind facts unused _ declared kept y constant
    simp only [Registry.declare, bind_eq_ok_iff, pure_eq_ok_iff] at declared
    obtain ⟨normal, -, rfl⟩ := declared
    simp only [Registry.contains, Table.contains, Table.find?_insert]
    split
    next same => exact absurd constant (by simp [← same, unused.1])
    next => exact kept constant

theorem nodup_labels_of_instancesFlaws {seen : List String} {i : Nat} {insts : List InstanceDecl}
    (clean : D.instancesFlaws seen i insts = []) :
    (InstanceDecl.labels i insts).Nodup ∧ ∀ label ∈ InstanceDecl.labels i insts, label ∉ seen := by
  induction insts generalizing seen i with
  | nil => simp [InstanceDecl.labels]
  | cons inst rest ih =>
    simp only [instancesFlaws, List.append_eq_nil_iff] at clean
    obtain ⟨⟨unseen, -⟩, later⟩ := clean
    have unseen : inst.label i ∉ seen := fun known => by simp [known] at unseen
    obtain ⟨distinct, fresh⟩ := ih later
    simp only [InstanceDecl.labels, List.nodup_cons, List.forall_mem_cons]
    exact ⟨⟨fun again => fresh _ again List.mem_cons_self, distinct⟩, unseen,
      fun label member known => fresh label member (List.mem_cons_of_mem _ known)⟩

theorem systemFlaws_congr (D D' : Declarations) (templates : D'.templates = D.templates)
    (stores : D'.stores = D.stores) (system : Option SystemDecl) :
    D'.systemFlaws system = D.systemFlaws system := by
  have instances (seen : List String) (i : Nat) (insts : List InstanceDecl) :
      D'.instancesFlaws seen i insts = D.instancesFlaws seen i insts := by
    induction insts generalizing seen i with
    | nil => rfl
    | cons inst rest ih => simp only [instancesFlaws, instanceFlaws, templates, stores, ih]
  cases system <;> simp only [systemFlaws, instances]

theorem instancesFlaws_of_systemFlaws {system : Option SystemDecl}
    (clean : D.systemFlaws system = []) :
    D.instancesFlaws [] 0 (system.getD {}).instances = [] := by
  cases system with
  | none => rfl
  | some system =>
    simp only [systemFlaws] at clean
    split at clean
    next => simp at clean
    next =>
      split at clean
      next => simp at clean
      next => exact (List.append_eq_nil_iff.mp clean).1

theorem nodup_labels_of_ofModel (made : ofModel budget M = .ok D) :
    (InstanceDecl.labels 0 D.system.instances).Nodup := by
  obtain ⟨E, P, S, C, L, -, -, -, -, -, rfl, -, -, -, -, clean⟩ := exists_stages made
  exact (nodup_labels_of_instancesFlaws (instancesFlaws_of_systemFlaws clean)).1

end Declarations

structure Registry.Filed (R : Registry) : Prop where
  single : ∀ key decl, R.stores.find? key = some decl → decl.kind = .filesys →
    decl.initial.length = 1
  attacker : ∃ decl, R.stores.find? attackerStore = some decl ∧ decl.kind ≠ .filesys

theorem Registry.Filed.declare {T : Theory} {R R' : Registry} {name : String} {type : Option String}
    {kind : TypeKind} {facts : List Term} (filed : R.Filed) (unused : R.contains name = false)
    (one : kind = .filesys → facts.length = 1)
    (done : R.declare T name type kind facts = .ok R') : R'.Filed := by
  simp only [Registry.declare, bind_eq_ok_iff, pure_eq_ok_iff] at done
  obtain ⟨normal, normalized, rfl⟩ := done
  have kept : normal.length = facts.length := (mapM_eq_ok_iff.mp normalized).length_eq.symm
  obtain ⟨held, found, other⟩ := filed.attacker
  have apart : name ≠ attackerStore := by
    rintro rfl
    simp [contains, Table.contains, found] at unused
  constructor
  · intro key decl there file
    rw [Table.find?_insert] at there
    split at there
    next =>
      obtain rfl := Option.some.inj there
      exact kept.trans (one file)
    next => exact filed.single key decl there file
  · exact ⟨held, by rw [Table.find?_insert_of_ne _ _ apart, found], other⟩

namespace Declarations

theorem filed_of_ofModel {budget : Int} {M : Model} {D : Declarations}
    (made : ofModel budget M = .ok D) : D.stores.Filed := by
  obtain ⟨E, P, S, C, L, early, -, -, -, late, rfl, -⟩ := exists_stages made
  show L.stores.Filed
  refine late_keeps (P := fun D : Declarations => D.stores.Filed) ?_ (fun _ _ _ _ filed => filed)
    ?_ (fun _ _ filed => filed) late
  · show E.stores.Filed
    rw [(initial_of_early early).stores]
    exact ⟨by simp, { name := attackerStore, type := none, kind := .channel }, by simp, by simp⟩
  · exact fun D R name type kind facts unused one declared filed =>
      filed.declare unused.2 one.1 declared

end Declarations

end ThreatModel
