import Mathlib
import ThreatModel.Proofs.Distinct
import ThreatModel.Proofs.Requests
import ThreatModel.Proofs.Run.Values
import ThreatModel.Proofs.Theory.Normalization

set_option autoImplicit false

namespace ThreatModel

open Result

abbrev Theory.Fact (T : Theory) := { t : Term // t.vars = [] ∧ T.Normal t }

theorem Theory.Declared.settled {T : Theory} (declared : T.Declared) {t n : Term}
    (closed : t.vars = []) (normal : T.normalize t = .ok n) : n.vars = [] ∧ T.Normal n := by
  refine ⟨List.eq_nil_iff_forall_not_mem.mpr fun x inside => ?_, normal_of_normalize normal⟩
  simpa [closed] using declared.vars_normalize normal x inside

namespace Store

structure Chooser where
  pick : List Candidate → Result Candidate
  offered : ∀ {options : List Candidate} {candidate : Candidate},
    pick options = .ok candidate → candidate ∈ options

def Chooser.nth (place : Int) : Chooser where
  pick := choice place
  offered := by
    intro options candidate chosen
    simp only [choice] at chosen
    split at chosen
    next found =>
      obtain rfl := Except.ok.inj chosen
      exact List.mem_of_getElem? (Option.ite_none_left_eq_some.mp found).2
    next => simp at chosen

inductive Request where
  | insert (fact : Term)
  | remove (fact : Term)
  | contains (fact : Term)
  | candidates (pattern : Term)
  | consume (pattern : Term) (chooser : Chooser)
  | read (pattern : Term)
  | save
  | restore

def Request.reads : Request → Bool
  | .contains _ | .candidates _ | .read _ => true
  | _ => false

inductive Answer where
  | done
  | verdict (held : Bool)
  | candidates (options : List Candidate)
  | taken (found : Option Subst)
  | values (founds : List Subst)
  | nothingSaved
  deriving DecidableEq, Repr

structure Session where
  current : Store
  saved : List Store := []
  deriving DecidableEq, Repr

namespace Session

def answer (T : Theory) (w : Session) : Request → Result (Answer × Session)
  | .insert t => do return (.done, { w with current := ← w.current.insert T t })
  | .remove t => do return (.done, { w with current := ← w.current.remove T t })
  | .contains t => do return (.verdict (← w.current.holds T t), w)
  | .candidates p => do return (.candidates (← w.current.candidatesOf T p), w)
  | .consume p chooser => do
      let taken ← w.current.consume T p chooser.pick
      return (.taken taken.1, { w with current := taken.2 })
  | .read p => do return (.values (← w.current.read T p), w)
  | .save => .ok (.done, { w with saved := w.current :: w.saved })
  | .restore =>
    match w.saved with
    | [] => .ok (.nothingSaved, w)
    | last :: older => .ok (.done, ⟨last, older⟩)

def withFacts (w : Session) (change : List Term → List Term) : Session :=
  { w with current := { w.current with facts := change w.current.facts } }

def perform (T : Theory) : Request → Edit Fault Session Answer
  | .insert t => do
      if !t.isGround then throw (.openFact (← get).current.name t)
      let normal ← Edit.judge (Result.ofFlaw (T.normalize t))
      modify fun w => w.withFacts (· ++ [normal])
      return .done
  | .remove t => do
      let normal ← Edit.judge (Result.ofFlaw (T.normalize t))
      let held := (← get).current
      if held.facts.contains normal then
        modify fun w => w.withFacts (·.erase normal)
        return .done
      else throw (.flaw { cause := .factAbsent normal held.name, declaration := some held.name })
  | .contains t => do
      let normal ← Edit.judge (Result.ofFlaw (T.normalize t))
      return .verdict ((← get).current.facts.contains normal)
  | .candidates p => do
      return .candidates (← Edit.judge (Result.ofFlaw ((← get).current.candidatesOf T p)))
  | .consume p chooser => do
      let options ← Edit.judge (Result.ofFlaw ((← get).current.candidatesOf T p))
      if options.isEmpty then return .taken none
      let (fact, found) ← Edit.judge (chooser.pick options)
      modify fun w => w.withFacts (·.erase fact)
      return .taken (some found)
  | .read p => do
      let options ← Edit.judge (Result.ofFlaw ((← get).current.candidatesOf T p))
      return .values (options.map (·.2))
  | .save => do
      modify fun w => { w with saved := w.current :: w.saved }
      return .done
  | .restore => do
      match (← get).saved with
      | [] => return .nothingSaved
      | last :: older =>
          set (⟨last, older⟩ : Session)
          return .done

def serve (T : Theory) (w : Session) (q : Request) : Result Answer × Session :=
  (perform T q).outcome w

def settle (w : Session) : Result (Answer × Session) → Result Answer × Session
  | .ok (a, w') => (.ok a, w')
  | .error fault => (.error fault, w)

theorem serve_eq (T : Theory) (w : Session) (q : Request) :
    w.serve T q = w.settle (w.answer T q) := by
  cases q with
  | insert t =>
    cases ground : t.isGround with
    | false =>
      simp only [serve, perform, answer, Store.insert, ground]
      rfl
    | true =>
      simp only [serve, perform, answer, Store.insert, ground]
      cases T.normalize t <;> rfl
  | remove t =>
    simp only [serve, perform, answer, Store.remove]
    cases T.normalize t with
    | error d => rfl
    | ok n =>
      rw [ofFlaw, Edit.outcome_bind_ok (Edit.outcome_judge _),
        Edit.outcome_bind_ok Edit.outcome_get, ok_bind]
      cases w.current.facts.contains n <;> rfl
  | contains t =>
    simp only [serve, perform, answer, Store.holds]
    cases T.normalize t <;> rfl
  | candidates p =>
    rw [serve, perform, answer, Edit.outcome_bind_ok Edit.outcome_get]
    cases w.current.candidatesOf T p <;> rfl
  | consume p chooser =>
    rw [serve, perform, answer, Store.consume, Edit.outcome_bind_ok Edit.outcome_get]
    cases w.current.candidatesOf T p with
    | error d => rfl
    | ok options =>
      cases options with
      | nil => rfl
      | cons first rest =>
        rw [ofFlaw, Edit.outcome_bind_ok (Edit.outcome_judge _), lift_ok, ok_bind]
        dsimp only
        cases chooser.pick (first :: rest) <;> rfl
  | read p =>
    rw [serve, perform, answer, Store.read, Edit.outcome_bind_ok Edit.outcome_get]
    cases w.current.candidatesOf T p <;> rfl
  | save => rfl
  | restore =>
    obtain ⟨current, saved⟩ := w
    cases saved <;> rfl

theorem serve_of_error {T : Theory} {w : Session} {q : Request} {fault : Fault}
    (failed : (w.serve T q).1 = .error fault) : (w.serve T q).2 = w := by
  rw [serve_eq] at failed ⊢
  cases answered : w.answer T q with
  | error fault => rfl
  | ok told => simp [answered, settle] at failed

theorem serve_of_reads (T : Theory) (w : Session) {q : Request} (reads : q.reads = true) :
    (w.serve T q).2 = w := by
  rw [serve_eq]
  cases q with
  | contains t =>
    rw [answer]
    cases w.current.holds T t <;> rfl
  | candidates p =>
    rw [answer]
    cases w.current.candidatesOf T p <;> rfl
  | read p =>
    rw [answer]
    cases w.current.read T p <;> rfl
  | _ => cases reads

def log (T : Theory) : Session → List Request → List (Request × Result Answer)
  | _, [] => []
  | w, q :: rest => (q, (w.serve T q).1) :: log T (w.serve T q).2 rest

def after (T : Theory) : Session → List Request → Session
  | w, [] => w
  | w, q :: rest => after T (w.serve T q).2 rest

end Session

structure Contents (T : Theory) where
  facts : Multiset T.Fact
  saved : List (Multiset T.Fact) := []

/-- The facts that are instances of a pattern, each once and with the values that make the pattern
the fact. -/
structure Matching {T : Theory} (facts : Multiset T.Fact) (pattern : Term)
    (options : List Candidate) : Prop where
  distinct : (options.map Prod.fst).Nodup
  listed : ∀ t, t ∈ options.map Prod.fst ↔
    (∃ fact ∈ facts, fact.1 = t) ∧ ∃ σ : Subst, pattern.subst σ = t
  binds : ∀ option ∈ options, pattern.subst option.2 = option.1 ∧
    ∀ x, (∃ u, option.2.find? x = some u) ↔ x ∈ pattern.vars

def Lists {T : Theory} (facts : Multiset T.Fact) (pattern : Term) (options : List Candidate) :
    Prop :=
  facts = 0 ∧ options = [] ∨ ∃ normal, T.normalize pattern = .ok normal ∧
    Matching facts normal options

namespace Contents

variable {T : Theory}

inductive Needs (c : Contents T) : Request → Term → Prop
  | insert {t : Term} (closed : t.vars = []) : Needs c (.insert t) t
  | remove (t : Term) : Needs c (.remove t) t
  | contains (t : Term) : Needs c (.contains t) t
  | candidates {p : Term} (some : c.facts ≠ 0) : Needs c (.candidates p) p
  | consume {p : Term} {chooser : Chooser} (some : c.facts ≠ 0) : Needs c (.consume p chooser) p
  | read {p : Term} (some : c.facts ≠ 0) : Needs c (.read p) p

/-- What a request to a store of the given name may come to. -/
inductive Allows (name : String) (c : Contents T) :
    Request → Result Answer → Contents T → Prop
  | insert {t : Term} {fact : T.Fact} (closed : t.vars = [])
      (normal : T.normalize t = .ok fact.1) :
      Allows name c (.insert t) (.ok .done) { c with facts := fact ::ₘ c.facts }
  | insertOpen {t : Term} (loose : t.vars ≠ []) :
      Allows name c (.insert t) (.error (.openFact name t)) c
  | remove {t : Term} {fact : T.Fact} (normal : T.normalize t = .ok fact.1)
      (held : fact ∈ c.facts) :
      Allows name c (.remove t) (.ok .done) { c with facts := c.facts.erase fact }
  | removeAbsent {t n : Term} (normal : T.normalize t = .ok n)
      (absent : ∀ fact ∈ c.facts, fact.1 ≠ n) :
      Allows name c (.remove t)
        (.error (.flaw { cause := .factAbsent n name, declaration := some name })) c
  | contains {t n : Term} {held : Bool} (normal : T.normalize t = .ok n)
      (iff : held = true ↔ ∃ fact ∈ c.facts, fact.1 = n) :
      Allows name c (.contains t) (.ok (.verdict held)) c
  | candidates {p : Term} {options : List Candidate} (lists : Lists c.facts p options) :
      Allows name c (.candidates p) (.ok (.candidates options)) c
  | consumeNone {p : Term} {chooser : Chooser} (lists : Lists c.facts p []) :
      Allows name c (.consume p chooser) (.ok (.taken none)) c
  | consume {p : Term} {chooser : Chooser} {options : List Candidate} {fact : T.Fact}
      {found : Subst} (lists : Lists c.facts p options) (member : (fact.1, found) ∈ options)
      (chosen : chooser.pick options = .ok (fact.1, found)) (held : fact ∈ c.facts) :
      Allows name c (.consume p chooser) (.ok (.taken (some found)))
        { c with facts := c.facts.erase fact }
  | consumeUndecided {p : Term} {chooser : Chooser} {options : List Candidate} {fault : Fault}
      (lists : Lists c.facts p options) (some : options ≠ [])
      (failed : chooser.pick options = .error fault) :
      Allows name c (.consume p chooser) (.error fault) c
  | read {p : Term} {options : List Candidate} (lists : Lists c.facts p options) :
      Allows name c (.read p) (.ok (.values (options.map Prod.snd))) c
  | save : Allows name c .save (.ok .done) { c with saved := c.facts :: c.saved }
  | restore {last : Multiset T.Fact} {older : List (Multiset T.Fact)}
      (saved : c.saved = last :: older) : Allows name c .restore (.ok .done) ⟨last, older⟩
  | restoreNone (saved : c.saved = []) : Allows name c .restore (.ok .nothingSaved) c
  | diverged {q : Request} {t : Term} {d : Diagnostic} (needs : c.Needs q t)
      (diverges : T.normalize t = .error d) : Allows name c q (.error (.flaw d)) c

inductive Run (name : String) : Contents T → List (Request × Result Answer) → Contents T → Prop
  | nil (c : Contents T) : Run name c [] c
  | cons {c c' c'' : Contents T} {q : Request} {a : Result Answer}
      {rest : List (Request × Result Answer)} (allows : c.Allows name q a c')
      (later : Run name c' rest c'') : Run name c ((q, a) :: rest) c''

end Contents

section Representation

variable {T : Theory} {name : String} {s : Store} {facts : Multiset T.Fact} {p p' t : Term}

structure Holds (name : String) (s : Store) (facts : Multiset T.Fact) : Prop where
  name : s.name = name
  facts : facts.map Subtype.val = Multiset.ofList s.facts

theorem Holds.mem_iff (holds : s.Holds name facts) :
    t ∈ s.facts ↔ ∃ fact ∈ facts, fact.1 = t := by
  rw [← Multiset.mem_coe, ← holds.facts, Multiset.mem_map]

theorem Holds.settled (holds : s.Holds name facts) (member : t ∈ s.facts) :
    t.vars = [] ∧ T.Normal t := by
  obtain ⟨fact, -, rfl⟩ := holds.mem_iff.mp member
  exact fact.2

theorem Holds.facts_eq_nil_iff (holds : s.Holds name facts) : s.facts = [] ↔ facts = 0 := by
  rw [← Multiset.coe_eq_zero, ← holds.facts, Multiset.map_eq_zero]

theorem Holds.insert (holds : s.Holds name facts) (fact : T.Fact) :
    Holds name { s with facts := s.facts ++ [fact.1] } (fact ::ₘ facts) := by
  refine ⟨holds.name, ?_⟩
  rw [Multiset.map_cons, holds.facts, Multiset.cons_coe, Multiset.coe_eq_coe]
  exact (List.perm_append_singleton _ _).symm

theorem Holds.erase (holds : s.Holds name facts) (fact : T.Fact) :
    Holds name (s.erase fact.1) (facts.erase fact) := by
  refine ⟨holds.name, ?_⟩
  rw [Multiset.map_erase _ Subtype.val_injective, holds.facts, Multiset.coe_erase]
  rfl

def matching (pattern : Term) (facts : List Term) : List Candidate :=
  facts.eraseDups.filterMap fun t => (pattern.match? t).map fun σ => (t, σ)

theorem filter_matching (pattern t : Term) (facts : List Term) :
    (matching pattern facts).filter (fun option => option.1 ≠ t) =
      matching pattern (facts.filter fun u => !u == t) := by
  rw [matching, matching, ← filter_eraseDups, List.filter_filterMap, List.filterMap_filter]
  refine List.filterMap_congr fun u _ => ?_
  by_cases same : u = t
  · cases pattern.match? u <;> simp [same]
  · cases pattern.match? u <;> simp [same]

theorem candidates_eq {facts : List Term} (settled : ∀ t ∈ facts, T.Normal t)
    (normal : T.normalize p = .ok p') : candidates T p facts = .ok (matching p' facts) := by
  induction facts with
  | nil => rfl
  | cons t rest ih =>
    have tried : T.match? p t = .ok (p'.match? t) := by
      simp [Theory.match?, normal, Theory.normalize_of_normal (settled t (by simp))]
    have later := ih fun u member => settled u (by simp [member])
    have first : matching p' (t :: rest) =
        ((p'.match? t).map fun σ => (t, σ)).toList ++
          (matching p' rest).filter fun option => option.1 ≠ t := by
      rw [filter_matching, matching, List.eraseDups_cons, List.filterMap_cons]
      cases p'.match? t <;> rfl
    simp only [candidates, tried, later, first, ok_bind]
    cases met : p'.match? t with
    | some found => rfl
    | none =>
      -- A fact that is not matched is not among the candidates anyway.
      simp only [Option.map_none, Option.toList_none, List.nil_append]
      congr 1
      refine (List.filter_eq_self.mpr fun option member => ?_).symm
      obtain ⟨u, -, mapped⟩ := List.mem_filterMap.mp member
      obtain ⟨σ, matched, rfl⟩ := Option.map_eq_some_iff.mp mapped
      have apart : u ≠ t := by
        rintro rfl
        simp [met] at matched
      simpa using apart

theorem fst_matching (pattern : Term) (facts : List Term) :
    (matching pattern facts).map Prod.fst =
      facts.eraseDups.filter fun t => (pattern.match? t).isSome := by
  rw [matching, List.map_filterMap, ← List.filterMap_eq_filter]
  refine List.filterMap_congr fun t _ => ?_
  cases met : pattern.match? t <;> simp [Option.guard, met]

theorem matching_sublist (pattern : Term) (facts : List Term) :
    ((matching pattern facts).map Prod.fst).Sublist facts.eraseDups := by
  rw [fst_matching]
  exact List.filter_sublist

theorem Holds.matches (holds : s.Holds name facts) (pattern : Term) :
    Matching facts pattern (matching pattern s.facts) where
  distinct := (matching_sublist pattern s.facts).nodup (nodup_eraseDups _)
  listed := by
    intro t
    rw [fst_matching, List.mem_filter, List.mem_eraseDups, holds.mem_iff]
    refine and_congr_right fun _ => ?_
    rw [← not_iff_not, Bool.not_eq_true, Option.isSome_eq_false_iff, Option.isNone_iff_eq_none,
      Term.match?_eq_none_iff, not_exists]
    exact forall_congr' fun σ => ne_comm
  binds := by
    intro option member
    obtain ⟨t, -, mapped⟩ := List.mem_filterMap.mp member
    obtain ⟨σ, matched, rfl⟩ := Option.map_eq_some_iff.mp mapped
    obtain ⟨found, same⟩ := Term.extend?_sound matched
    refine ⟨same, fun x => ⟨?_, found.covers x⟩⟩
    rintro ⟨u, bound⟩
    exact (found.of_empty (Table.mem_entries_of_find? bound)).1

theorem Holds.lists_or_diverges (holds : s.Holds name facts) (p : Term) :
    (∃ options, s.candidatesOf T p = .ok options ∧ Lists facts p options) ∨
      ∃ d, s.candidatesOf T p = .error d ∧ facts ≠ 0 ∧ T.normalize p = .error d := by
  cases normal : T.normalize p with
  | ok p' =>
    have found := candidates_eq (fun t member => (holds.settled member).2) normal
    exact .inl ⟨_, found, .inr ⟨p', normal, holds.matches p'⟩⟩
  | error d =>
    by_cases empty : facts = 0
    · have none := holds.facts_eq_nil_iff.mpr empty
      exact .inl ⟨[], by rw [candidatesOf, none]; rfl, .inl ⟨empty, rfl⟩⟩
    · obtain ⟨t, rest, some⟩ := List.exists_cons_of_ne_nil (mt holds.facts_eq_nil_iff.mp empty)
      refine .inr ⟨d, ?_, empty, rfl⟩
      simp only [candidatesOf, some, candidates, Theory.match?, normal]
      rfl

theorem Lists.held {options : List Candidate} {option : Candidate} (lists : Lists facts p options)
    (member : option ∈ options) : ∃ fact ∈ facts, fact.1 = option.1 := by
  rcases lists with ⟨-, rfl⟩ | ⟨normal, -, matching⟩
  · simp at member
  · exact ((matching.listed _).mp (List.mem_map_of_mem member)).1

theorem candidatesOf_sublist (settled : ∀ t ∈ s.facts, T.Normal t) {options : List Candidate}
    (found : s.candidatesOf T p = .ok options) :
    (options.map Prod.fst).Sublist s.facts.eraseDups := by
  cases normal : T.normalize p with
  | ok p' =>
    obtain rfl := Except.ok.inj ((candidates_eq settled normal).symm.trans found)
    exact matching_sublist p' s.facts
  | error d =>
    cases held : s.facts with
    | nil =>
      rw [candidatesOf, held] at found
      obtain rfl := Except.ok.inj found
      simp
    | cons t rest =>
      simp [candidatesOf, held, candidates, Theory.match?, normal, bind_eq_ok_iff] at found

end Representation

section Simulation

variable {T : Theory} {name : String} {w w' : Session} {c c' : Contents T} {q : Request}

structure Session.Shows (name : String) (w : Session) (c : Contents T) : Prop where
  current : w.current.Holds name c.facts
  saved : List.Forall₂ (Store.Holds name) w.saved c.saved

namespace Session

def Follows (name : String) (w : Session) (c : Contents T) (q : Request) : Prop :=
  ∃ c', c.Allows name q (w.serve T q).1 c' ∧ (w.serve T q).2.Shows name c'

theorem follows_of_ok {a : Answer} (answered : w.answer T q = .ok (a, w'))
    (allows : c.Allows name q (.ok a) c') (shows : w'.Shows name c') : w.Follows name c q := by
  have served : w.serve T q = (.ok a, w') := by rw [serve_eq, answered, settle]
  exact ⟨c', by rwa [served], by rwa [served]⟩

theorem follows_of_error (shows : w.Shows name c) {fault : Fault}
    (refused : w.answer T q = .error fault) (allows : c.Allows name q (.error fault) c) :
    w.Follows name c q := by
  have served : w.serve T q = (.error fault, w) := by rw [serve_eq, refused, settle]
  exact ⟨c, by rwa [served], by rwa [served]⟩

namespace Shows

theorem withFacts (shows : w.Shows name c) {s : Store} {facts : Multiset T.Fact}
    (holds : s.Holds name facts) : Shows name { w with current := s } { c with facts } :=
  ⟨holds, shows.saved⟩

theorem insert (shows : w.Shows name c) (theory : T.Declared) (t : Term) :
    w.Follows name c (.insert t) := by
  by_cases closed : t.vars = []
  · have ground : t.isGround = true := Term.isGround_iff.mpr closed
    cases normal : T.normalize t with
    | ok n =>
      have settled := theory.settled closed normal
      have allowed : c.Allows name (.insert t) (.ok .done)
          { c with facts := ⟨n, settled⟩ ::ₘ c.facts } := .insert closed normal
      refine follows_of_ok ?_ allowed (shows.withFacts (shows.current.insert ⟨n, settled⟩))
      simp [answer, Store.insert, ground, normal]
    | error d =>
      refine follows_of_error shows ?_ (.diverged (.insert closed) normal)
      simp only [answer, Store.insert, ground, normal]
      rfl
  · have loose : t.isGround = false := by
      rw [← Bool.not_eq_true, Term.isGround_iff]
      exact closed
    refine follows_of_error shows ?_ (.insertOpen closed)
    simp only [answer, Store.insert, loose, shows.current.name]
    rfl

theorem remove (shows : w.Shows name c) (t : Term) : w.Follows name c (.remove t) := by
  cases normal : T.normalize t with
  | error d =>
    refine follows_of_error shows ?_ (.diverged (.remove t) normal)
    simp only [answer, Store.remove, normal]
    rfl
  | ok n =>
    by_cases held : n ∈ w.current.facts
    · obtain ⟨fact, member, rfl⟩ := shows.current.mem_iff.mp held
      have removed : w.current.remove T t = .ok (w.current.erase fact.1) := by
        simp [Store.remove, normal, held]
      refine follows_of_ok ?_ (.remove normal member)
        (shows.withFacts (shows.current.erase fact))
      simp [answer, removed]
    · have absent : w.current.remove T t =
          .error { cause := .factAbsent n name, declaration := some name } := by
        simp only [Store.remove, normal, shows.current.name, ok_bind, List.contains_iff_mem, held,
          if_false]
        rfl
      refine follows_of_error shows ?_ (.removeAbsent normal fun fact member same => held ?_)
      · simp only [answer, absent]
        rfl
      · exact shows.current.mem_iff.mpr ⟨fact, member, same⟩

theorem contains (shows : w.Shows name c) (t : Term) : w.Follows name c (.contains t) := by
  cases normal : T.normalize t with
  | error d =>
    refine follows_of_error shows ?_ (.diverged (.contains t) normal)
    simp only [answer, Store.holds, normal]
    rfl
  | ok n =>
    have same : w.current.facts.contains n = true ↔ ∃ fact ∈ c.facts, fact.1 = n := by
      rw [List.contains_iff_mem, shows.current.mem_iff]
    refine follows_of_ok ?_ (.contains normal same) shows
    simp [answer, Store.holds, normal]

theorem candidates (shows : w.Shows name c) (p : Term) : w.Follows name c (.candidates p) := by
  rcases shows.current.lists_or_diverges p with ⟨options, found, lists⟩ | ⟨d, failed, some, stuck⟩
  · exact follows_of_ok (by simp [answer, found]) (.candidates lists) shows
  · refine follows_of_error shows ?_ (.diverged (.candidates some) stuck)
    simp only [answer, failed]
    rfl

theorem read (shows : w.Shows name c) (p : Term) : w.Follows name c (.read p) := by
  rcases shows.current.lists_or_diverges p with ⟨options, found, lists⟩ | ⟨d, failed, some, stuck⟩
  · exact follows_of_ok (by simp [answer, Store.read, found]) (.read lists) shows
  · refine follows_of_error shows ?_ (.diverged (.read some) stuck)
    simp only [answer, Store.read, failed]
    rfl

theorem consume (shows : w.Shows name c) (p : Term) (chooser : Chooser) :
    w.Follows name c (.consume p chooser) := by
  rcases shows.current.lists_or_diverges p with ⟨options, found, lists⟩ | ⟨d, failed, some, stuck⟩
  · cases options with
    | nil => exact follows_of_ok (by simp [answer, Store.consume, found]) (.consumeNone lists) shows
    | cons first rest =>
      cases chosen : chooser.pick (first :: rest) with
      | error fault =>
        refine follows_of_error shows ?_ (.consumeUndecided lists (by simp) chosen)
        simp [answer, Store.consume, found, chosen]
      | ok candidate =>
        -- What is chosen is on offer, and so it is in the store.
        obtain ⟨t, σ⟩ := candidate
        have offered := chooser.offered chosen
        obtain ⟨fact, member, rfl⟩ := lists.held offered
        refine follows_of_ok ?_ (.consume lists offered chosen member)
          (shows.withFacts (shows.current.erase fact))
        simp [answer, Store.consume, found, chosen]
  · refine follows_of_error shows ?_ (.diverged (.consume some) stuck)
    simp only [answer, Store.consume, failed]
    rfl

theorem save (shows : w.Shows name c) : w.Follows name c .save :=
  follows_of_ok rfl .save ⟨shows.current, .cons shows.current shows.saved⟩

theorem restore (shows : w.Shows name c) : w.Follows name c .restore := by
  obtain ⟨current, saved⟩ := w
  obtain ⟨facts, copies⟩ := c
  cases shows.saved with
  | nil => exact follows_of_ok rfl (.restoreNone rfl) shows
  | cons last older => exact follows_of_ok rfl (.restore rfl) ⟨last, older⟩

theorem serve (shows : w.Shows name c) (theory : T.Declared) (q : Request) :
    w.Follows name c q := by
  cases q with
  | insert t => exact shows.insert theory t
  | remove t => exact shows.remove t
  | contains t => exact shows.contains t
  | candidates p => exact shows.candidates p
  | consume p chooser => exact shows.consume p chooser
  | read p => exact shows.read p
  | save => exact shows.save
  | restore => exact shows.restore

theorem run (shows : w.Shows name c) (theory : T.Declared) (requests : List Request) :
    ∃ c', c.Run name (w.log T requests) c' ∧ (w.after T requests).Shows name c' := by
  induction requests generalizing w c with
  | nil => exact ⟨c, .nil c, shows⟩
  | cons q rest ih =>
    obtain ⟨c', allows, shows'⟩ := shows.serve theory q
    obtain ⟨c'', later, shows''⟩ := ih shows'
    exact ⟨c'', .cons allows later, shows''⟩

end Shows

end Session

theorem exists_holds (theory : T.Declared) {kind : TypeKind} {facts : List Term} {s : Store}
    (closed : ∀ t ∈ facts, t.vars = []) (created : create T name kind facts = .ok s) :
    ∃ held : Multiset T.Fact, s.Holds name held := by
  simp only [create, bind_eq_ok_iff, pure_eq_ok_iff] at created
  obtain ⟨normals, normalized, rfl⟩ := created
  have settled (n : Term) (member : n ∈ normals) : n.vars = [] ∧ T.Normal n := by
    obtain ⟨t, among, normal⟩ := mem_of_mapM_eq_ok normalized member
    exact theory.settled (closed t among) normal
  refine ⟨Multiset.ofList (normals.pmap (fun n known => ⟨n, known⟩) settled), rfl, ?_⟩
  simp [List.map_pmap]

/-- What comes of each request to a store of closed facts is what a multiset of closed normal forms
allows. Requests that fail or only read change nothing. -/
theorem refines_multiset (theory : T.Declared) {kind : TypeKind} {facts : List Term} {s : Store}
    (closed : ∀ t ∈ facts, t.vars = []) (created : create T name kind facts = .ok s)
    (requests : List Request) :
    ∃ c₀ c : Contents T, (⟨s, []⟩ : Session).Shows name c₀ ∧
      c₀.Run name ((⟨s, []⟩ : Session).log T requests) c ∧
      let w := (⟨s, []⟩ : Session).after T requests
      w.Shows name c ∧
      (∀ held ∈ w.current :: w.saved, ∀ t ∈ held.facts,
        t.vars = [] ∧ T.Normal t ∧ T.normalize t = .ok t) ∧
      (∀ p options, w.current.candidatesOf T p = .ok options →
        (options.map Prod.fst).Sublist w.current.facts.eraseDups) ∧
      ∀ q, (q.reads = true ∨ ∃ fault, (w.serve T q).1 = .error fault) → (w.serve T q).2 = w := by
  obtain ⟨held, holds⟩ := exists_holds theory closed created
  have start : (⟨s, []⟩ : Session).Shows name ⟨held, []⟩ := ⟨holds, .nil⟩
  obtain ⟨c, run, shows⟩ := start.run theory requests
  refine ⟨_, c, start, run, shows, fun held member t inside => ?_, fun p options found => ?_,
    fun q still => ?_⟩
  · obtain ⟨bag, -, holds⟩ := exists_of_forall₂ (.cons shows.current shows.saved) member
    obtain ⟨empty, normal⟩ := holds.settled inside
    exact ⟨empty, normal, Theory.normalize_of_normal normal⟩
  · exact candidatesOf_sublist (fun t inside => (shows.current.settled inside).2) found
  · rcases still with reads | ⟨fault, failed⟩
    · exact Session.serve_of_reads T _ reads
    · exact Session.serve_of_error failed

end Simulation

-- Facts come in several guises, some twice; a consumer takes the last candidate.
def mixedRequests : List Request :=
  [.insert (.app "dec" [.app "enc" [.lit "a", .const "k"], .const "k"]), .insert (.var "x"),
    .candidates (.var "x"), .save, .consume (.var "x") (.nth (-1)), .consume (.var "x") (.nth 3),
    .remove (.app "fst" [.pair (.lit "a") (.lit "b")]), .remove (.lit "c"),
    .consume (.pair (.var "x") (.var "x")) (.nth 0), .read (.var "x"), .contains (.lit "b"),
    .restore, .contains (.lit "b"), .restore]

theorem refines_multiset_mixedRequests : ∃ s, create Theory.ciphers "net" .channel
      [.lit "a", .app "snd" [.pair (.lit "a") (.lit "b")]] = .ok s ∧
    ∃ c₀ c : Contents Theory.ciphers,
      c₀.Run "net" ((⟨s, []⟩ : Session).log Theory.ciphers mixedRequests) c ∧
      ((⟨s, []⟩ : Session).log Theory.ciphers mixedRequests).map (·.2) =
        [.ok .done, .error (.openFact "net" (.var "x")),
          .ok (.candidates
            [(.lit "a", .single "x" (.lit "a")), (.lit "b", .single "x" (.lit "b"))]),
          .ok .done, .ok (.taken (some (.single "x" (.lit "b")))), .error .outOfRange, .ok .done,
          .error (.flaw { cause := .factAbsent (.lit "c") "net", declaration := some "net" }),
          .ok (.taken none), .ok (.values [.single "x" (.lit "a")]), .ok (.verdict false),
          .ok .done, .ok (.verdict true), .ok .nothingSaved] ∧
      ((⟨s, []⟩ : Session).after Theory.ciphers mixedRequests).Shows "net" c ∧
      ((⟨s, []⟩ : Session).after Theory.ciphers mixedRequests).current.facts =
        [.lit "a", .lit "b", .lit "a"] := by
  have created : create Theory.ciphers "net" .channel
      [.lit "a", .app "snd" [.pair (.lit "a") (.lit "b")]] =
      .ok { name := "net", kind := .channel, facts := [.lit "a", .lit "b"] } := by
    decide +kernel
  obtain ⟨c₀, c, -, run, shows, -⟩ :=
    refines_multiset Theory.declared_ciphers (by decide +kernel) created mixedRequests
  exact ⟨_, created, c₀, c, run, by decide +kernel, shows, by decide +kernel⟩

end Store

end ThreatModel
