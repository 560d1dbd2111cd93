import Mathlib
import ThreatModel.Formula.Check
import ThreatModel.Proofs.Formula.Domain
import ThreatModel.Proofs.Theory.Renaming

set_option autoImplicit false

namespace ThreatModel

open Result

namespace Term

variable {r : String → String}

theorem subterms_recast (t : Term) :
    (t.recast id r).subterms = t.subterms.map (recast id r) := by
  induction t using Term.induct with
  | var | const | lit | name => simp [subterms]
  | app f args ih =>
    simp only [recast_app, subterms_app, List.map_cons, List.flatMap_map, List.map_flatMap]
    exact congrArg _ (List.flatMap_congr ih)

theorem isGround_recast (t : Term) : (t.recast id r).isGround = t.isGround := by
  rw [Bool.eq_iff_iff, isGround_iff, isGround_iff, vars_recast, List.map_id]

end Term

namespace Domain

variable {T : Theory} {D : Domain} {r : String → String} {bound : List String} {t : Term}

def recast (r : String → String) (D : Domain) : Domain where
  events := D.events.map (Term.recast id r)
  members := D.members.map (Term.recast id r)

@[simp] theorem bound_recast (x : String) : (D.recast r).bound x = D.bound x := by
  simp [bound, recast]

theorem place?_recast (names : Function.Injective r) (t : Term) :
    (D.recast r).place? (t.recast id r) = D.place? t := by
  simp only [place?, recast, List.findIdx?_map, Function.comp_def,
    (Term.recast_injective Function.injective_id names).eq_iff]

theorem pins_recast (names : Function.Injective r) (entries : List (String × Term)) :
    (D.recast r).pins bound (entries.map fun p => (p.1, p.2.recast id r)) =
      D.pins bound entries := by
  induction entries with
  | nil => rfl
  | cons entry rest ih => simp only [List.map_cons, pins, place?_recast names, ih]

theorem denotes_recast (names : Function.Injective r) (fixed : t.recast id r = t) (value : Term) :
    (D.recast r).denotes bound t (value.recast id r) = D.denotes bound t value := by
  have met := Term.extend?_recast Function.injective_id Function.injective_id names t value .empty
  rw [fixed, Table.carry_empty] at met
  simp only [denotes, Term.match?, met]
  cases Term.extend? t value .empty with
  | none => rfl
  | some found => exact pins_recast names found.entries

theorem eventOptions_recast (names : Function.Injective r) (fixed : t.recast id r = t) (i : String)
    (numbered : List (Term × Nat)) :
    (D.recast r).eventOptions bound t i (numbered.map (Prod.map (Term.recast id r) id)) =
      D.eventOptions bound t i numbered := by
  induction numbered with
  | nil => rfl
  | cons first rest ih =>
    simp only [List.map_cons, Prod.map, eventOptions, denotes_recast names fixed, ih, id]

theorem equalOptions_recast (names : Function.Injective r) {s : Term} (left : s.recast id r = s)
    (right : t.recast id r = t) (values : List Term) :
    (D.recast r).equalOptions bound s t (values.map (Term.recast id r)) =
      D.equalOptions bound s t values := by
  induction values with
  | nil => rfl
  | cons value rest ih =>
    simp only [List.map_cons, equalOptions, denotes_recast names left,
      denotes_recast names right, ih]

theorem recast_normalize (indifferent : Rewriting.Indifferent T.equations id r)
    (nameless : t.names = []) {u : Term} (done : T.normalize t = .ok u) : u.recast id r = u := by
  have renamed := indifferent.normalize t
  rw [Term.recast_of_nameless nameless, done] at renamed
  exact (Except.ok.inj renamed).symm

theorem equality_recast (indifferent : Rewriting.Indifferent T.equations id r)
    (names : Function.Injective r) {s : Term} (left : s.names = []) (right : t.names = []) :
    equality T (D.recast r) bound s t = equality T D bound s t := by
  simp only [equality]
  cases first : T.normalize s with
  | error d => rfl
  | ok s' =>
    cases second : T.normalize t with
    | error d => rfl
    | ok t' =>
      have members : (D.recast r).members = D.members.map (Term.recast id r) := rfl
      simp only [lift_ok, ok_bind, members,
        equalOptions_recast names (recast_normalize indifferent left first)
          (recast_normalize indifferent right second)]

theorem eventAt_recast (indifferent : Rewriting.Indifferent T.equations id r)
    (names : Function.Injective r) (nameless : t.names = []) (i : String) :
    constrain T (D.recast r) (.eventAt t i) bound = constrain T D (.eventAt t i) bound := by
  simp only [constrain]
  cases done : T.normalize t with
  | error d => rfl
  | ok u =>
    have events : (D.recast r).events.zipIdx =
        D.events.zipIdx.map (Prod.map (Term.recast id r) id) := List.zipIdx_map ..
    simp only [lift_ok, ok_bind, events,
      eventOptions_recast names (recast_normalize indifferent nameless done)]

mutual

theorem constrain_recast (indifferent : Rewriting.Indifferent T.equations id r)
    (names : Function.Injective r) : ∀ (f : Formula) (bound : List String),
    (∀ t ∈ f.terms, t.names = []) → (D.recast r).constrain T f bound = D.constrain T f bound
  | .truth, _, _ | .precedes _ _, _, _ | .unsupported, _, _ => by simp [constrain]
  | .eventAt t i, _, nameless => eventAt_recast indifferent names (nameless t (by simp [Formula.terms])) i
  | .equal s t, _, nameless =>
    equality_recast indifferent names (nameless s (by simp [Formula.terms]))
      (nameless t (by simp [Formula.terms]))
  | .not f, bound, nameless => by
    simp only [constrain, constrain_recast indifferent names f bound nameless]
  | .and fs, bound, nameless | .or fs, bound, nameless => by
    simp only [constrain, constrainAll_recast indifferent names fs bound nameless]
  | .implies p c, bound, nameless => by
    have premise := constrain_recast indifferent names p bound fun t member =>
      nameless t (by simp [Formula.terms, member])
    have conclusion := constrain_recast indifferent names c bound fun t member =>
      nameless t (by simp [Formula.terms, member])
    simp only [constrain, premise, conclusion]
  | .quant q xs f, bound, nameless => by
    simp only [constrain, constrain_recast indifferent names f (xs ++ bound) nameless,
      bound_recast]

theorem constrainAll_recast (indifferent : Rewriting.Indifferent T.equations id r)
    (names : Function.Injective r) : ∀ (fs : List Formula) (bound : List String),
    (∀ t ∈ Formula.termsAll fs, t.names = []) →
      (D.recast r).constrainAll T fs bound = D.constrainAll T fs bound
  | [], _, _ => rfl
  | f :: fs, bound, nameless => by
    have first := constrain_recast indifferent names f bound fun t member =>
      nameless t (by simp [Formula.termsAll, member])
    have others := constrainAll_recast indifferent names fs bound fun t member =>
      nameless t (by simp [Formula.termsAll, member])
    simp only [constrainAll, first, others]

end

theorem create_recast (indifferent : Rewriting.Indifferent T.equations id r)
    (names : Function.Injective r) {f : Formula} (nameless : ∀ t ∈ f.terms, t.names = [])
    (trace : List Term) :
    create T (trace.map (Term.recast id r)) f =
      ((create T trace f).map (recast r)).mapError (Diagnostic.recast id r) := by
  -- The terms of the formula are those of its renaming.
  have same : f.terms.map (Term.recast id r) = f.terms :=
    (List.map_congr_left fun t member => Term.recast_of_nameless (nameless t member)).trans
      (List.map_id _)
  have mentions := indifferent.normalizeAll f.terms
  rw [same] at mentions
  simp only [create, indifferent.normalizeAll trace]
  cases T.normalizeAll trace with
  | error d => rfl
  | ok events =>
    cases mentioned : T.normalizeAll f.terms with
    | error d =>
      rw [mentioned] at mentions
      exact congrArg Except.error (Except.error.inj mentions)
    | ok terms =>
      rw [mentioned] at mentions
      have fixed : terms.map (Term.recast id r) = terms := (Except.ok.inj mentions).symm
      have closed : ((terms.flatMap Term.subterms).filter Term.isGround).map (Term.recast id r) =
          (terms.flatMap Term.subterms).filter Term.isGround := by
        conv_rhs => rw [← fixed]
        simp only [List.flatMap_map, Term.subterms_recast, ← List.map_flatMap,
          List.filter_map, Function.comp_def, Term.isGround_recast]
      have members : (events.map (Term.recast id r)).flatMap Term.subterms =
          (events.flatMap Term.subterms).map (Term.recast id r) := by
        simp only [List.flatMap_map, Term.subterms_recast, List.map_flatMap]
      have distinct := eraseDups_map (Term.recast_injective Function.injective_id names)
        (events.flatMap Term.subterms ++ (terms.flatMap Term.subterms).filter Term.isGround)
      rw [List.map_append, closed, ← members] at distinct
      exact congrArg (fun all => Except.ok (Domain.mk _ all)) distinct

end Domain

namespace Formula

/-- A formula without names is judged alike on a trace and on the trace with its nonces renamed:
the same verdict, or the same reason why it has none. Only where rewriting comes to no end does the
outcome show a name, and it is that of the renamed term. -/
theorem check_recast {T : Theory} {f : Formula} {r : String → String}
    (equations : ∀ e ∈ T.equations, e.lhs.names = [] ∧ e.rhs.names = [])
    (nameless : ∀ t ∈ f.terms, t.names = []) (names : Function.Injective r) (trace : List Term)
    (solver : Solver) :
    f.check T (trace.map (Term.recast id r)) solver = f.check T trace solver ∨
      ∃ d limit last, d.cause = .diverged limit last ∧ f.check T trace solver = .error (.flaw d) ∧
        f.check T (trace.map (Term.recast id r)) solver =
          .error (.flaw { d with cause := .diverged limit (last.recast id r) }) := by
  have indifferent := Rewriting.indifferent_of_nameless equations names
  have created' := Domain.create_recast indifferent names nameless trace
  cases created : Domain.create T trace f with
  -- Only the events of the trace bring names in, and only before there is a universe.
  | error d =>
      obtain ⟨_, limit, last, ⟨⟩, cause⟩ := Domain.diverges_of_create created
      rw [created] at created'
      refine .inr ⟨_, limit, last, cause, by rw [check, created]; rfl, ?_⟩
      rw [check, created']
      simp only [Except.map, Except.mapError, Diagnostic.recast, cause]
      rfl
  | ok D =>
      rw [created] at created'
      refine .inl ?_
      rw [check, check, created, created']
      simp only [Except.map, Except.mapError, lift_ok, ok_bind,
        Domain.constrain_recast indifferent names f [] nameless]

def openedAfterSent : Formula :=
  .quant .all ["m", "#j"] (.implies (.eventAt (.app "Got" [.var "m"]) "#j")
    (.quant .some ["k", "#i"] (.and
      [.eventAt (.app "Sent" [.app "enc" [.var "m", .var "k"]]) "#i", .precedes "#i" "#j"])))

def decryption : Theory where
  budget := 64
  equations := [⟨.app "dec" [.app "enc" [.var "m", .var "k"], .var "k"], .var "m"⟩]

theorem check_recast_decryption :
    let sealed := Term.app "enc" [.name "n.1", .name "k.2"]
    let trace := [.app "Sent" [sealed], .app "Got" [.app "dec" [sealed, .name "k.2"]]]
    openedAfterSent.check decryption trace = .ok true ∧
      openedAfterSent.check decryption (trace.map (Term.recast id ("other." ++ ·))) = .ok true := by
  have judged : openedAfterSent.check decryption
      [.app "Sent" [.app "enc" [.name "n.1", .name "k.2"]],
        .app "Got" [.app "dec" [.app "enc" [.name "n.1", .name "k.2"], .name "k.2"]]] =
          .ok true := by
    decide +kernel
  refine ⟨judged, ?_⟩
  rcases check_recast (T := decryption) (f := openedAfterSent) (r := ("other." ++ ·))
      (by simp [decryption]) (by simp [openedAfterSent, terms, termsAll])
      (fun _ _ same => (String.append_right_inj _).mp same) _ _ with same | ⟨d, _, _, _, failed, _⟩
  · exact same.trans judged
  · exact absurd (judged.symm.trans failed) (by simp)

end Formula

end ThreatModel
