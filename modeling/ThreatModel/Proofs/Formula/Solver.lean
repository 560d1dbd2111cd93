import Mathlib
import ThreatModel.Proofs.Formula.Domain

set_option autoImplicit false

namespace ThreatModel

open Result

namespace Ordering

variable {pairs : List (String × String)}

section Ranked

variable {α : Type} [LinearOrder α] {rank : String → α}

theorem length_peel_lt (ranked : ∀ pair ∈ pairs, rank pair.1 < rank pair.2) (some : pairs ≠ []) :
    (peel pairs).length < pairs.length := by
  obtain ⟨lowest, member, least⟩ :=
    pairs.toFinset.exists_min_image (fun pair => rank pair.1) (by simpa using some)
  rw [List.mem_toFinset] at member
  refine List.length_filter_lt_length_iff_exists.mpr ⟨lowest, member, ?_⟩
  simp only [List.any_eq_true, beq_iff_eq, not_exists, not_and]
  intro other among meets
  have below := ranked other among
  rw [meets] at below
  exact (least other (by simpa using among)).not_gt below

theorem peeled_eq_nil {rounds : Nat} (ranked : ∀ pair ∈ pairs, rank pair.1 < rank pair.2)
    (enough : pairs.length ≤ rounds) : peeled rounds pairs = [] := by
  induction rounds generalizing pairs with
  | zero => simpa [peeled] using enough
  | succ rounds ih =>
    rw [peeled]
    refine ih (fun pair member => ranked pair (List.mem_of_mem_filter member)) ?_
    by_cases none : pairs = []
    · simp [none, peel]
    · have fewer := length_peel_lt ranked none
      omega

theorem satisfiable_of_ranked (ranked : ∀ pair ∈ pairs, rank pair.1 < rank pair.2) :
    satisfiable pairs = true := by
  rw [satisfiable, peeled_eq_nil ranked le_rfl]
  rfl

end Ranked

theorem exists_rank_of_peeled {rounds : Nat} (none : peeled rounds pairs = []) :
    ∃ rank : String → Nat, ∀ pair ∈ pairs, rank pair.1 < rank pair.2 := by
  induction rounds generalizing pairs with
  | zero =>
    obtain rfl : pairs = [] := none
    exact ⟨fun _ => 0, by simp⟩
  | succ rounds ih =>
    -- What comes after nothing stands first, and all else stands as it does in the rest.
    obtain ⟨rank, rises⟩ := ih none
    refine ⟨fun x => if pairs.any (·.2 == x) then rank x + 1 else 0, fun pair member => ?_⟩
    have later : pairs.any (·.2 == pair.2) = true := by simpa using ⟨_, member⟩
    simp only [later, if_true]
    split
    next kept => exact Nat.succ_lt_succ (rises pair (List.mem_filter.mpr ⟨member, kept⟩))
    next => exact Nat.succ_pos _

theorem satisfiable_iff :
    satisfiable pairs = true ↔
      ∃ place : String → Int, ∀ pair ∈ pairs, place pair.1 < place pair.2 := by
  constructor
  · intro none
    obtain ⟨rank, rises⟩ := exists_rank_of_peeled (List.isEmpty_iff.mp none)
    exact ⟨fun x => rank x, fun pair member => Int.ofNat_lt.mpr (rises pair member)⟩
  · rintro ⟨place, rises⟩
    exact satisfiable_of_ranked rises

end Ordering

namespace Domain

variable {D : Domain} {T : Theory} {xs bound : List String} {t value : Term} {c : Constraint}
  {options : List (List (String × Nat))}

theorem known_of_pins {entries : List (String × Term)} {pins : List (String × Nat)}
    (done : D.pins bound entries = .ok (some pins)) : ∀ pin ∈ pins, pin.1 ∈ bound := by
  induction entries generalizing pins with
  | nil =>
    obtain rfl : [] = pins := by simpa [Domain.pins] using done
    simp
  | cons entry rest ih =>
    obtain ⟨x, u⟩ := entry
    simp only [Domain.pins] at done
    split at done
    next => simp at done
    next known =>
      split at done
      next => simp at done
      next k placed =>
        simp only [bind_eq_ok_iff, pure_eq_ok_iff] at done
        obtain ⟨others, later, mapped⟩ := done
        obtain ⟨tail, rfl, rfl⟩ := Option.map_eq_some_iff.mp mapped
        exact List.forall_mem_cons.mpr ⟨not_not.mp known, ih later⟩

theorem known_of_denotes {pins : List (String × Nat)}
    (done : D.denotes bound t value = .ok (some pins)) : ∀ pin ∈ pins, pin.1 ∈ bound := by
  simp only [denotes] at done
  split at done
  next => simp at done
  next => exact known_of_pins done

theorem known_of_eventOptions {i : String} {numbered : List (Term × Nat)} (index : i ∈ bound)
    (done : D.eventOptions bound t i numbered = .ok options) :
    ∀ option ∈ options, ∀ pin ∈ option, pin.1 ∈ bound := by
  induction numbered generalizing options with
  | nil =>
    obtain rfl : [] = options := by simpa [eventOptions] using done
    simp
  | cons first rest ih =>
    simp only [eventOptions, bind_eq_ok_iff] at done
    obtain ⟨found, denoted, done⟩ := done
    cases found with
    | none => exact ih done
    | some pins =>
      simp only [bind_eq_ok_iff, pure_eq_ok_iff] at done
      obtain ⟨later, others, rfl⟩ := done
      exact List.forall_mem_cons.mpr
        ⟨List.forall_mem_cons.mpr ⟨index, known_of_denotes denoted⟩, ih others⟩

theorem known_of_equalOptions {l r : Term} {values : List Term}
    (done : D.equalOptions bound l r values = .ok options) :
    ∀ option ∈ options, ∀ pin ∈ option, pin.1 ∈ bound := by
  induction values generalizing options with
  | nil =>
    obtain rfl : [] = options := by simpa [equalOptions] using done
    simp
  | cons value rest ih =>
    simp only [equalOptions, bind_eq_ok_iff] at done
    obtain ⟨first, denoted, second, denoted', done⟩ := done
    split at done
    next =>
      simp only [bind_eq_ok_iff, pure_eq_ok_iff] at done
      obtain ⟨later, others, rfl⟩ := done
      refine List.forall_mem_cons.mpr ⟨fun pin member => ?_, ih others⟩
      exact (List.mem_append.mp member).elim (known_of_denotes denoted pin)
        (known_of_denotes denoted' pin)
    next => exact ih done

theorem known_of_require {x : String} {problem : Unsupported}
    (done : (if x ∈ bound then .ok () else .error (.unsupported problem) : Result Unit) = .ok ()) :
    x ∈ bound := by
  by_contra absent
  simp [absent] at done

theorem dependsOn_oneOf (known : ∀ option ∈ options, ∀ pin ∈ option, pin.1 ∈ bound) :
    DependsOn (Constraint.oneOf options).Holds {x | x ∈ bound} := by
  intro g h agree
  simp only [Constraint.Holds, Constraint.Meets]
  refine propext (exists_congr fun option => and_congr_right fun member => ?_)
  exact forall₂_congr fun pin inside => by rw [agree pin.1 (known option member pin inside)]

-- The values under the quantifier carry over to any valuation that agrees outside of it.
theorem exists_varies_of_agree {g g' h : Valuation} (agree : ∀ x ∈ bound, g x = g' x)
    (varies : Valuation.Varies (xs.map fun x => (x, D.bound x)) g h) :
    ∃ h', Valuation.Varies (xs.map fun x => (x, D.bound x)) g' h' ∧
      ∀ x ∈ xs ++ bound, h x = h' x := by
  obtain ⟨bounded, kept⟩ := varies_iff.mp varies
  refine ⟨fun x => if x ∈ xs then h x else g' x, varies_iff.mpr ⟨fun x member => ?_, ?_⟩, ?_⟩
  · simpa [member] using bounded x member
  · intro x absent
    simp [absent]
  · intro x member
    by_cases inside : x ∈ xs
    · simp [inside]
    · have outer := (List.mem_append.mp member).resolve_left inside
      simp [inside, kept x inside, agree x outer]

theorem dependsOn_of_carries {P : Valuation → Prop}
    (carries : ∀ g g' : Valuation, (∀ x ∈ bound, g x = g' x) → P g → P g') :
    DependsOn P {x | x ∈ bound} :=
  fun g g' agree =>
    propext ⟨carries g g' agree, carries g' g fun x member => (agree x member).symm⟩

theorem dependsOn_all (body : DependsOn c.Holds {x | x ∈ xs ++ bound}) :
    DependsOn (Constraint.all (xs.map fun x => (x, D.bound x)) c).Holds {x | x ∈ bound} := by
  refine dependsOn_of_carries fun g g' agree each h' varies => ?_
  obtain ⟨h, varied, same⟩ := exists_varies_of_agree (fun x member => (agree x member).symm) varies
  exact (body same).mpr (each h varied)

theorem dependsOn_some (body : DependsOn c.Holds {x | x ∈ xs ++ bound}) :
    DependsOn (Constraint.some (xs.map fun x => (x, D.bound x)) c).Holds {x | x ∈ bound} := by
  refine dependsOn_of_carries fun g g' agree one => ?_
  obtain ⟨h, varies, holds⟩ := one
  obtain ⟨h', varied, same⟩ := exists_varies_of_agree agree varies
  exact ⟨h', varied, (body same).mp holds⟩

theorem dependsOn_equality {l r : Term} (done : D.equality T bound l r = .ok c) :
    DependsOn c.Holds {x | x ∈ bound} := by
  simp only [equality, bind_eq_ok_iff] at done
  obtain ⟨s, -, t, -, done⟩ := done
  split at done
  next =>
    obtain rfl := pure_eq_ok_iff.mp done
    exact fun g h agree => rfl
  next =>
    split at done
    next x y _ =>
      simp only [bind_eq_ok_iff, pure_eq_ok_iff] at done
      obtain ⟨_, first, _, second, rfl⟩ := done
      intro g h agree
      simp only [Constraint.Holds, agree x (known_of_require first),
        agree y (known_of_require second)]
    next =>
      simp only [bind_eq_ok_iff, pure_eq_ok_iff] at done
      obtain ⟨options, found, rfl⟩ := done
      exact dependsOn_oneOf (known_of_equalOptions found)

mutual

theorem dependsOn_constrain : ∀ {f : Formula} {bound : List String} {c : Constraint},
    D.constrain T f bound = .ok c → DependsOn c.Holds {x | x ∈ bound}
  | .truth, _, _, done => by
    obtain rfl := Except.ok.inj done
    exact fun g h agree => rfl
  | .not f, _, _, done => by
    simp only [constrain, bind_eq_ok_iff, pure_eq_ok_iff] at done
    obtain ⟨c, inner, rfl⟩ := done
    intro g h agree
    simp only [Constraint.Holds, dependsOn_constrain inner agree]
  | .and fs, _, _, done => by
    simp only [constrain, bind_eq_ok_iff, pure_eq_ok_iff] at done
    obtain ⟨cs, inner, rfl⟩ := done
    exact (dependsOn_constrainAll inner).1
  | .or fs, _, _, done => by
    simp only [constrain, bind_eq_ok_iff, pure_eq_ok_iff] at done
    obtain ⟨cs, inner, rfl⟩ := done
    exact (dependsOn_constrainAll inner).2
  | .implies p c, _, _, done => by
    simp only [constrain, bind_eq_ok_iff, pure_eq_ok_iff] at done
    obtain ⟨_, premise, _, conclusion, rfl⟩ := done
    intro g h agree
    simp only [Constraint.Holds, dependsOn_constrain premise agree,
      dependsOn_constrain conclusion agree]
  | .precedes i j, _, _, done => by
    simp only [constrain, bind_eq_ok_iff, pure_eq_ok_iff] at done
    obtain ⟨_, first, _, second, rfl⟩ := done
    intro g h agree
    simp only [Constraint.Holds, agree i (known_of_require first),
      agree j (known_of_require second)]
  | .eventAt event i, _, _, done => by
    simp only [constrain, bind_eq_ok_iff, pure_eq_ok_iff] at done
    obtain ⟨_, index, _, -, _, found, rfl⟩ := done
    exact dependsOn_oneOf (known_of_eventOptions (known_of_require index) found)
  | .equal l r, _, _, done => dependsOn_equality done
  | .quant q xs f, _, _, done => by
    simp only [constrain, bind_eq_ok_iff] at done
    obtain ⟨body, inner, done⟩ := done
    have depends := dependsOn_constrain inner
    split at done
    next =>
      obtain rfl := pure_eq_ok_iff.mp done
      exact depends
    next =>
      obtain rfl := pure_eq_ok_iff.mp done
      exact dependsOn_all depends
    next =>
      obtain rfl := pure_eq_ok_iff.mp done
      exact dependsOn_some depends
    next => simp at done
  | .unsupported, _, _, done => by simp [constrain] at done

theorem dependsOn_constrainAll : ∀ {fs : List Formula} {bound : List String} {cs : List Constraint},
    D.constrainAll T fs bound = .ok cs →
      DependsOn (Constraint.AllHold cs) {x | x ∈ bound} ∧
      DependsOn (Constraint.OneHolds cs) {x | x ∈ bound}
  | [], _, _, done => by
    obtain rfl := Except.ok.inj done
    exact ⟨fun g h agree => rfl, fun g h agree => rfl⟩
  | f :: fs, _, _, done => by
    simp only [constrainAll, bind_eq_ok_iff, pure_eq_ok_iff] at done
    obtain ⟨c, here, cs, there, rfl⟩ := done
    obtain ⟨all, one⟩ := dependsOn_constrainAll there
    refine ⟨fun g h agree => ?_, fun g h agree => ?_⟩
    · simp only [Constraint.AllHold, dependsOn_constrain here agree, all agree]
    · simp only [Constraint.OneHolds, dependsOn_constrain here agree, one agree]

end

end Domain

namespace Solver

variable {solver : Solver} {c : Constraint} {f : Formula} {T : Theory} {trace : List Term}

/-- A solver is right about constraints that no value of a name matters to, and about orderings in
the integers. -/
structure Correct (solver : Solver) : Prop where
  holds {c : Constraint} (closed : DependsOn c.Holds ∅) : solver.holds c = true ↔ ∃ g, c.Holds g
  orders (pairs : List (String × String)) : solver.orders pairs = true ↔
    ∃ place : String → Int, ∀ pair ∈ pairs, place pair.1 < place pair.2

theorem correct_exhaustive : exhaustive.Correct where
  holds {c} closed := by
    refine (Constraint.holds_iff c []).trans ⟨fun holds => ⟨_, holds⟩, fun one => ?_⟩
    obtain ⟨g, holds⟩ := one
    exact (closed.empty g _).mp holds
  orders _ := Ordering.satisfiable_iff

theorem Correct.orderable_eq (correct : solver.Correct) (f : Formula) :
    f.orderable solver = f.orderable :=
  Bool.eq_iff_iff.mpr ((correct.orders _).trans (correct_exhaustive.orders _).symm)

theorem Correct.check_eq (correct : solver.Correct) (f : Formula) (T : Theory)
    (trace : List Term) : f.check T trace solver = f.check T trace := by
  simp only [Formula.check]
  refine bind_congr fun D => ?_
  cases done : D.constrain T f [] with
  | error => rfl
  | ok c =>
    have closed : DependsOn c.Holds ∅ := by simpa using Domain.dependsOn_constrain done
    have same : solver.holds c = exhaustive.holds c :=
      Bool.eq_iff_iff.mpr ((correct.holds closed).trans (correct_exhaustive.holds closed).symm)
    simp only [ok_bind, same]

end Solver

end ThreatModel
