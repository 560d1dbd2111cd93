import Mathlib
import ThreatModel.Proofs.Formula.Satisfaction
import ThreatModel.Proofs.Theory.Normalization

set_option autoImplicit false

namespace ThreatModel

open Result

namespace Formula

mutual

def orderedOutside : Formula → List String
  | .precedes i j => [i, j]
  | .and fs => orderedOutsideAll fs
  | .quant _ xs f => (orderedOutside f).filter (· ∉ xs)
  | .implies _ c => orderedOutside c
  | .eventAt .. | .equal .. | .truth | .not _ | .or _ | .unsupported => []

def orderedOutsideAll : List Formula → List String
  | [] => []
  | f :: fs => orderedOutside f ++ orderedOutsideAll fs

end

mutual

/-- The names in the orderings of a formula that it binds, once for every quantifier that does. -/
def orderedInside : Formula → List String
  | .and fs => orderedInsideAll fs
  | .quant _ xs f => xs.eraseDups.filter (· ∈ orderedOutside f) ++ orderedInside f
  | .implies _ c => orderedInside c
  | .precedes .. | .eventAt .. | .equal .. | .truth | .not _ | .or _ | .unsupported => []

def orderedInsideAll : List Formula → List String
  | [] => []
  | f :: fs => orderedInside f ++ orderedInsideAll fs

end

inductive Existential : List String → Formula → Prop
  | eventAt {bound : List String} {event : Term} {i : String} (index : i ∈ bound)
      (within : ∀ x ∈ event.vars, x ∈ bound) : Existential bound (.eventAt event i)
  | precedes {bound : List String} {i j : String} (first : i ∈ bound) (second : j ∈ bound) :
      Existential bound (.precedes i j)
  | equal {bound : List String} {l r : Term} (left : ∀ x ∈ l.vars, x ∈ bound)
      (right : ∀ x ∈ r.vars, x ∈ bound) : Existential bound (.equal l r)
  | and {bound : List String} {fs : List Formula} (each : ∀ f ∈ fs, Existential bound f) :
      Existential bound (.and fs)
  | some {bound xs : List String} {f : Formula} (body : Existential (xs ++ bound) f) :
      Existential bound (.quant .some xs f)

theorem mem_orderingsAll {fs : List Formula} {pair : String × String} :
    pair ∈ orderingsAll fs ↔ ∃ f ∈ fs, pair ∈ f.orderings := by
  induction fs with
  | nil => simp [orderingsAll]
  | cons f fs ih => simp [orderingsAll, ih]

theorem mem_orderedOutsideAll {fs : List Formula} {x : String} :
    x ∈ orderedOutsideAll fs ↔ ∃ f ∈ fs, x ∈ f.orderedOutside := by
  induction fs with
  | nil => simp [orderedOutsideAll]
  | cons f fs ih => simp [orderedOutsideAll, ih]

theorem mem_orderedInsideAll {fs : List Formula} {x : String} :
    x ∈ orderedInsideAll fs ↔ ∃ f ∈ fs, x ∈ f.orderedInside := by
  induction fs with
  | nil => simp [orderedInsideAll]
  | cons f fs ih => simp [orderedInsideAll, ih]

variable {f : Formula} {fs : List Formula} {bound : List String}

def Ordered (f : Formula) (x : String) : Prop := x ∈ f.orderedOutside ∨ x ∈ f.orderedInside

theorem Existential.ordered (closed : f.Existential bound) {pair : String × String}
    (member : pair ∈ f.orderings) : f.Ordered pair.1 ∧ f.Ordered pair.2 := by
  induction closed with
  | eventAt | equal => simp [orderings] at member
  | precedes =>
    obtain rfl : pair = _ := by simpa [orderings] using member
    simp [Ordered, orderedOutside]
  | and _ ih =>
    obtain ⟨f, among, inside⟩ := mem_orderingsAll.mp member
    have part {x : String} (ordered : f.Ordered x) : (Formula.and _).Ordered x :=
      ordered.imp (fun outer => mem_orderedOutsideAll.mpr ⟨f, among, outer⟩)
        fun inner => mem_orderedInsideAll.mpr ⟨f, among, inner⟩
    exact (ih f among inside).imp part part
  | @some _ xs f _ ih =>
    have part {x : String} (ordered : f.Ordered x) : (Formula.quant .some xs f).Ordered x := by
      by_cases new : x ∈ xs
      · rcases ordered with outer | inner
        · exact .inr (by simp [orderedInside, new, outer])
        · exact .inr (by simp [orderedInside, inner])
      · exact ordered.imp (by simp [orderedOutside, new]) (by simp +contextual [orderedInside])
    exact (ih member).imp part part

theorem Existential.bound_of_ordered (closed : f.Existential bound) :
    ∀ x ∈ f.orderedOutside, x ∈ bound := by
  intro x ordered
  induction closed with
  | eventAt | equal => simp [orderedOutside] at ordered
  | precedes first second =>
    obtain rfl | rfl : x = _ ∨ x = _ := by simpa [orderedOutside] using ordered
    · exact first
    · exact second
  | and _ ih =>
    obtain ⟨f, among, inside⟩ := mem_orderedOutsideAll.mp ordered
    exact ih f among inside
  | some _ ih =>
    obtain ⟨inner, free⟩ : x ∈ _ ∧ x ∉ _ := by simpa [orderedOutside] using ordered
    exact (List.mem_append.mp (ih inner)).resolve_left free

structure Unshared (outside inside : List String) : Prop where
  apart : ∀ x ∈ outside, x ∉ inside
  distinct : inside.Nodup

namespace Unshared

variable {outside outside' inside inside' xs : List String}

theorem left (unshared : Unshared (outside ++ outside') (inside ++ inside')) :
    Unshared outside inside where
  apart x outer inner := unshared.apart x (by simp [outer]) (by simp [inner])
  distinct := unshared.distinct.of_append_left

theorem right (unshared : Unshared (outside ++ outside') (inside ++ inside')) :
    Unshared outside' inside' where
  apart x outer inner := unshared.apart x (by simp [outer]) (by simp [inner])
  distinct := unshared.distinct.of_append_right

theorem body (unshared : Unshared (outside.filter (· ∉ xs))
      (xs.eraseDups.filter (· ∈ outside) ++ inside)) : Unshared outside inside where
  apart x outer inner := by
    by_cases new : x ∈ xs
    · have bind : x ∈ xs.eraseDups.filter (· ∈ outside) := by simp [new, outer]
      exact List.disjoint_of_nodup_append unshared.distinct bind inner
    · exact unshared.apart x (by simp [outer, new]) (by simp [inner])
  distinct := unshared.distinct.of_append_right

end Unshared

end Formula

namespace Domain

open Formula

variable {D : Domain} {T : Theory} {f : Formula} {fs : List Formula} {bound : List String}
  {c : Constraint} {cs : List Constraint} {g : Valuation}

theorem constrainAll_eq_mapM (fs : List Formula) (bound : List String) :
    D.constrainAll T fs bound = fs.mapM fun f => D.constrain T f bound := by
  induction fs with
  | nil => rfl
  | cons f fs ih => rw [constrainAll, ih, List.mapM_cons]

theorem exists_constrain (theory : T.Declared) (closed : f.Existential bound)
    (covers : D.Covers T f) : ∃ c, D.constrain T f bound = .ok c := by
  induction closed with
  | @eventAt bound event i index within =>
    obtain ⟨t, normal, -⟩ := covers event (by simp [Formula.terms])
    have known : ∀ x ∈ t.vars, x ∈ bound := fun x inside =>
      within x (theory.vars_normalize normal x inside)
    obtain ⟨options, done⟩ := exists_eventOptions (D := D) known i D.events.zipIdx
    exact ⟨.oneOf options, by simp [constrain, requireIndex, index, normal, done]⟩
  | @precedes bound i j first second =>
    exact ⟨.less i j, by simp [constrain, requireIndex, first, second]⟩
  | @equal bound l r left right =>
    obtain ⟨s, normal, -⟩ := covers l (by simp [Formula.terms])
    obtain ⟨t, normal', -⟩ := covers r (by simp [Formula.terms])
    obtain ⟨c, done, -⟩ := exists_constrain_equal (D := D) normal normal'
      (fun x inside => left x (theory.vars_normalize normal x inside))
      (fun x inside => right x (theory.vars_normalize normal' x inside))
    exact ⟨c, done⟩
  | and _ ih =>
    obtain ⟨cs, done⟩ := exists_mapM_eq_ok fun f member => ih f member
      (covers.of_mem fun t inside => Formula.mem_termsAll.mpr ⟨f, member, inside⟩)
    exact ⟨.and cs, by simp [constrain, constrainAll_eq_mapM, done]⟩
  | @some bound xs f _ ih =>
    obtain ⟨c, done⟩ := ih covers
    by_cases none : xs = []
    · subst none
      exact ⟨c, by simpa [constrain] using done⟩
    · exact ⟨_, by rw [constrain_some f none, done]; rfl⟩

def Orders (outside : List String) (g : Valuation) (pairs : List (String × String)) : Prop :=
  ∃ h : Valuation, (∀ x ∈ outside, h x = g x) ∧ ∀ pair ∈ pairs, h pair.1 < h pair.2

theorem Orders.cons (here : Orders f.orderedOutside g f.orderings)
    (there : Orders (orderedOutsideAll fs) g (orderingsAll fs)) (closed : f.Existential bound)
    (others : (Formula.and fs).Existential bound)
    (unshared : Unshared (orderedOutsideAll (f :: fs)) (orderedInsideAll (f :: fs))) :
    Orders (orderedOutsideAll (f :: fs)) g (orderingsAll (f :: fs)) := by
  obtain ⟨h, kept, rises⟩ := here
  obtain ⟨h', kept', rises'⟩ := there
  -- Each name gets the value that it has in the part that binds it.
  let merged : Valuation := fun x =>
    if x ∈ f.orderedInside then h x else if x ∈ orderedInsideAll fs then h' x else g x
  have outside (x : String) (outer : x ∈ orderedOutsideAll (f :: fs)) : merged x = g x := by
    have free := unshared.apart x outer
    simp only [orderedInsideAll, List.mem_append, not_or] at free
    simp [merged, free]
  have first {x : String} (ordered : f.Ordered x) : merged x = h x := by
    rcases ordered with outer | inner
    · rw [outside x (List.mem_append_left _ outer), kept x outer]
    · simp [merged, inner]
  have second {x : String} (ordered : (Formula.and fs).Ordered x) : merged x = h' x := by
    rcases ordered with outer | inner
    · rw [outside x (List.mem_append_right _ outer), kept' x outer]
    · have inner : x ∈ orderedInsideAll fs := inner
      have free : x ∉ f.orderedInside := fun other =>
        List.disjoint_of_nodup_append unshared.distinct other inner
      simp [merged, free, inner]
  refine ⟨merged, outside, fun pair member => ?_⟩
  rcases List.mem_append.mp member with own | other
  · obtain ⟨below, above⟩ := closed.ordered own
    rw [first below, first above]
    exact rises pair own
  · obtain ⟨below, above⟩ := others.ordered other
    rw [second below, second above]
    exact rises' pair other

theorem orders_of_allHold (each : ∀ f ∈ fs, f.Existential bound)
    (meant : ∀ f ∈ fs, ∀ c, Unshared f.orderedOutside f.orderedInside →
      D.constrain T f bound = .ok c → c.Holds g → Orders f.orderedOutside g f.orderings)
    (unshared : Unshared (orderedOutsideAll fs) (orderedInsideAll fs))
    (done : D.constrainAll T fs bound = .ok cs) (holds : Constraint.AllHold cs g) :
    Orders (orderedOutsideAll fs) g (orderingsAll fs) := by
  induction fs generalizing cs with
  | nil => exact ⟨g, fun _ _ => rfl, by simp [orderingsAll]⟩
  | cons f fs ih =>
    simp only [constrainAll, bind_eq_ok_iff, pure_eq_ok_iff] at done
    obtain ⟨c, done, cs, rest, rfl⟩ := done
    obtain ⟨here, there⟩ := holds
    obtain ⟨closed, others⟩ := List.forall_mem_cons.mp each
    have own := meant f (by simp) c unshared.left done here
    have rest := ih others (fun f member => meant f (by simp [member])) unshared.right rest there
    exact own.cons rest closed (.and others) unshared

theorem orders_of_holds (closed : f.Existential bound)
    (unshared : Unshared f.orderedOutside f.orderedInside)
    (done : D.constrain T f bound = .ok c) (holds : c.Holds g) :
    Orders f.orderedOutside g f.orderings := by
  induction closed generalizing c g with
  | eventAt | equal => exact ⟨g, fun _ _ => rfl, by simp [orderings]⟩
  | @precedes bound i j first second =>
    obtain rfl : .less i j = c := by simpa [constrain, requireIndex, first, second] using done
    exact ⟨g, fun _ _ => rfl, by simpa [orderings, Constraint.Holds] using holds⟩
  | @and bound fs each ih =>
    simp only [constrain, bind_eq_ok_iff, pure_eq_ok_iff] at done
    obtain ⟨cs, done, rfl⟩ := done
    exact orders_of_allHold each (fun f member c => ih f member) unshared done holds
  | @some bound xs f _ ih =>
    -- The body is satisfied by values that differ only where the quantifier binds.
    obtain ⟨g', c', kept, inner, holds⟩ : ∃ g' c', (∀ x ∉ xs, g' x = g x) ∧
        D.constrain T f (xs ++ bound) = .ok c' ∧ c'.Holds g' := by
      by_cases none : xs = []
      · subst none
        exact ⟨g, c, fun _ _ => rfl, by simpa [constrain] using done, holds⟩
      · rw [constrain_some f none] at done
        simp only [bind_eq_ok_iff, pure_eq_ok_iff] at done
        obtain ⟨c', inner, rfl⟩ := done
        obtain ⟨g', varies, holds⟩ := holds
        exact ⟨g', c', (varies_iff.mp varies).2, inner, holds⟩
    obtain ⟨h, same, rises⟩ := ih unshared.body inner holds
    refine ⟨h, fun x ordered => ?_, rises⟩
    obtain ⟨outer, free⟩ : x ∈ f.orderedOutside ∧ x ∉ xs := by
      simpa [orderedOutside] using ordered
    rw [same x outer, kept x free]

end Domain

namespace Formula

variable {T : Theory} {f : Formula}

theorem Existential.check_eq_false {D : Domain} {trace : List Term} (closed : f.Existential [])
    (theory : T.Declared) (scopes : f.orderedInside.Nodup) (circular : f.orderable = false)
    (created : Domain.create T trace f = .ok D) : f.check T trace = .ok false := by
  obtain ⟨c, done⟩ := Domain.exists_constrain theory closed (Domain.covers_of_create created)
  rw [check_of_constrain created done]
  congr 1
  by_contra holds
  rw [Bool.not_eq_false] at holds
  have unshared : Unshared f.orderedOutside f.orderedInside :=
    ⟨fun x outer => absurd (closed.bound_of_ordered x outer) List.not_mem_nil, scopes⟩
  obtain ⟨rank, -, ranked⟩ :=
    Domain.orders_of_holds closed unshared done ((Constraint.holds_iff c []).mp holds)
  rw [show f.orderable = true from Ordering.satisfiable_of_ranked ranked] at circular
  cases circular

/-- A closed formula of atoms, conjunctions and existential quantifiers whose orderings go round in
a circle fails on every trace, unless it orders a name in the scopes of two quantifiers. Only a term
that cannot be normalised keeps it from being judged. -/
theorem check_of_circular {solver : Solver} (theory : T.Declared) (correct : solver.Correct)
    (closed : f.Existential []) (scopes : f.orderedInside.Nodup)
    (circular : f.orderable solver = false) (trace : List Term) :
    f.check T trace solver = .ok false ∨
      ∃ t ∈ trace ++ f.terms, ∃ d, T.normalize t = .error d ∧
        f.check T trace solver = .error (.flaw d) := by
  rw [correct.orderable_eq] at circular
  simp only [correct.check_eq]
  cases created : Domain.create T trace f with
  | ok D => exact .inl (closed.check_eq_false theory scopes circular created)
  | error d =>
      obtain ⟨t, member, diverged⟩ := Domain.exists_of_create_eq_error created
      exact .inr ⟨t, member, d, diverged, check_of_create_eq_error created⟩

-- A message that is sent, relayed, got, and got before it is sent. Two quantifiers bind the
-- variable and two the index of the relay, but of the latter only one has it ordered.
def carousel : Formula :=
  .quant .some ["x", "#i"] (.and [.eventAt (.app "Sent" [.var "x"]) "#i",
    .quant .some ["x", "#j"] (.and [.eventAt (.app "Relayed" [.var "x"]) "#j", .precedes "#i" "#j",
      .quant .some ["#k"] (.and [
        .eventAt (.app "Got" [.app "dec" [.app "enc" [.var "x", .const "k"], .const "k"]]) "#k",
        .precedes "#j" "#k", .precedes "#k" "#i"])]),
    .quant .some ["#j"] (.eventAt (.app "Relayed" [.var "x"]) "#j")])

theorem existential_carousel : carousel.Existential [] := by
  refine .some (.and ?_)
  simp only [List.forall_mem_cons]
  refine ⟨.eventAt (by decide) (by decide), .some (.and ?_),
    .some (.eventAt (by decide) (by decide)), by simp⟩
  simp only [List.forall_mem_cons]
  refine ⟨.eventAt (by decide) (by decide), .precedes (by decide) (by decide),
    .some (.and ?_), by simp⟩
  simp only [List.forall_mem_cons]
  exact ⟨.eventAt (by decide) (by decide), .precedes (by decide) (by decide),
    .precedes (by decide) (by decide), by simp⟩

theorem check_carousel_of_circular :
    let trace := ["Sent", "Relayed", "Got"].map fun tag => Term.app tag [.lit "a"]
    Theory.ciphers.Declared ∧ carousel.Existential [] ∧
      carousel.orderedInside = ["#i", "#j", "#k"] ∧
      carousel.orderings = [("#i", "#j"), ("#j", "#k"), ("#k", "#i")] ∧
      carousel.check Theory.ciphers trace = .ok false := by
  intro trace
  have scopes : carousel.orderedInside = ["#i", "#j", "#k"] := by decide +kernel
  refine ⟨Theory.declared_ciphers, existential_carousel, scopes, by decide +kernel, ?_⟩
  rcases check_of_circular Theory.declared_ciphers Solver.correct_exhaustive existential_carousel
    (by rw [scopes]; decide) (by decide +kernel) trace with fails | ⟨t, member, d, diverged, -⟩
  · exact fails
  · have normalizes : ∀ t ∈ trace ++ carousel.terms, (Theory.ciphers.normalize t).isOk = true := by
      decide +kernel
    have ends := normalizes t member
    rw [diverged] at ends
    cases ends

-- Two scopes that share their names: read by name the orderings contradict each other, and yet both
-- parts hold.
example :
    let sent (i : String) := eventAt (.app "Sent" []) i
    let received (i : String) := eventAt (.app "Received" []) i
    let f := Formula.and
      [.quant .some ["#i", "#j"] (.and [sent "#i", received "#j", .precedes "#i" "#j"]),
        .quant .some ["#i", "#j"] (.and [received "#i", sent "#j", .precedes "#j" "#i"])]
    f.orderedInside = ["#i", "#j", "#i", "#j"] ∧ f.orderable = false ∧
      f.check Theory.ciphers [.app "Sent" [], .app "Received" []] = .ok true := by
  decide +kernel

end Formula

end ThreatModel
