import Mathlib
import ThreatModel.Callable.Recursion
import ThreatModel.Proofs.Callable.Declared

set_option autoImplicit false

namespace ThreatModel

open Relation

namespace CallGraph

variable {G : CallGraph} {s s' s'' : CallGraph.Search} {path : List String} {name : String}
  {depth : Nat}

def Calls (G : CallGraph) (a b : String) : Prop := b ∈ (G.find? a).getD []

def Closed (G : CallGraph) : Prop := ∀ a b, G.Calls a b → b ∈ G.keys

def Ordered (G : CallGraph) : List String → Prop
  | [] => True
  | a :: rest => (∀ b, G.Calls a b → b ∈ rest) ∧ G.Ordered rest

theorem Ordered.acc {names : List String} (ordered : G.Ordered names) :
    ∀ a ∈ names, Acc (fun b a => G.Calls a b) a := by
  induction names with
  | nil => simp
  | cons a rest ih =>
    rw [List.forall_mem_cons]
    exact ⟨⟨a, fun b calls => ih ordered.2 b (ordered.1 b calls)⟩, ih ordered.2⟩

theorem not_transGen_of_acc {a : String} (acc : Acc (fun b a => G.Calls a b) a) :
    ¬ TransGen G.Calls a a := by
  induction acc with
  | intro a _ ih =>
    intro around
    obtain ⟨b, calls, back⟩ := TransGen.head'_iff.mp around
    exact ih b calls (TransGen.tail' back calls)

section Walks

variable {names : List String} {f x : String}

theorem pairwise_of_isChain (walk : names.IsChain G.Calls) : names.Pairwise (TransGen G.Calls) :=
  List.isChain_iff_pairwise.mp (walk.imp fun _ _ => .single)

theorem transGen_of_isChain (walk : (names ++ [f]).IsChain G.Calls) (member : x ∈ names) :
    TransGen G.Calls x f :=
  (List.pairwise_append.mp (pairwise_of_isChain walk)).2.2 x member f (by simp)

theorem isChain_concat (walk : names.IsChain G.Calls)
    (called : ∀ last ∈ names.getLast?, G.Calls last f) : (names ++ [f]).IsChain G.Calls :=
  List.isChain_append.mpr ⟨walk, by simp, by simpa using called⟩

end Walks

namespace Search

structure Grows (s s' : Search) : Prop where
  cycles : s.cycles <+: s'.cycles
  done : s.done ⊆ s'.done

theorem Grows.refl (s : Search) : s.Grows s := ⟨List.prefix_rfl, List.Subset.refl _⟩

theorem Grows.trans (first : s.Grows s') (second : s'.Grows s'') : s.Grows s'' :=
  ⟨first.cycles.trans second.cycles, fun _ known => second.done (first.done known)⟩

theorem Grows.clean (grows : s.Grows s') (clean : s'.cycles = []) : s.cycles = [] :=
  List.prefix_nil.mp (clean ▸ grows.cycles)

theorem grows_report (s : Search) (cycle : List String) : s.Grows (s.report cycle) := by
  unfold report
  split
  next => exact .refl s
  next => exact ⟨List.prefix_append _ _, List.Subset.refl _⟩

theorem report_cycles_ne_nil (s : Search) (cycle : List String) : (s.report cycle).cycles ≠ [] := by
  unfold report
  split
  next known =>
    intro none
    simp [none] at known
  next => simp

theorem foldl_grows {f : Search → String → Search} (each : ∀ (s : Search) x, s.Grows (f s x))
    (xs : List String) (s : Search) : s.Grows (xs.foldl f s) := by
  induction xs generalizing s with
  | nil => exact .refl s
  | cons x rest ih => exact (each s x).trans (ih (f s x))

end Search

def follow (G : CallGraph) (depth : Nat) (path : List String) (s : Search) (next : String) :
    Search :=
  if next ∈ path then s.report (path.dropWhile (· ≠ next) ++ [next])
  else if next ∈ s.done then s
  else visit G depth (path ++ [next]) next s

theorem visit_succ : visit G (depth + 1) path name s =
    { ((G.find? name).getD []).foldl (G.follow depth path) s with
      done := name :: (((G.find? name).getD []).foldl (G.follow depth path) s).done } := rfl

theorem grows_follow (visits : ∀ path name (s : Search), s.Grows (visit G depth path name s))
    (path : List String) (s : Search) (next : String) : s.Grows (G.follow depth path s next) := by
  unfold follow
  split
  next => exact s.grows_report _
  next =>
    split
    next => exact .refl s
    next => exact visits ..

theorem grows_visit (depth : Nat) (path : List String) (name : String) (s : Search) :
    s.Grows (visit G depth path name s) := by
  induction depth generalizing path name s with
  | zero => exact .refl s
  | succ depth ih =>
    obtain ⟨cycles, done⟩ := Search.foldl_grows (grows_follow ih path)
      ((G.find? name).getD []) s
    rw [visit_succ]
    exact ⟨cycles, fun x known => List.mem_cons_of_mem _ (done known)⟩

structure Search.Settles (G : CallGraph) (s' : Search) (names : List String) : Prop where
  ordered : G.Ordered s'.done
  done : ∀ x ∈ names, x ∈ s'.done

theorem settles_foldl {f : Search → String → Search} (grows : ∀ (s : Search) x, s.Grows (f s x))
    {xs : List String}
    (each : ∀ x ∈ xs, ∀ s : Search, G.Ordered s.done → (f s x).cycles = [] →
      (f s x).Settles G [x])
    (ordered : G.Ordered s.done) (clean : (xs.foldl f s).cycles = []) :
    (xs.foldl f s).Settles G xs := by
  induction xs generalizing s with
  | nil => exact ⟨ordered, by simp⟩
  | cons x rest ih =>
    have later := Search.foldl_grows grows rest (f s x)
    have here := each x (by simp) s ordered (later.clean clean)
    have there := ih (fun y member => each y (by simp [member])) here.ordered clean
    refine ⟨there.ordered, List.forall_mem_cons.mpr ⟨?_, there.done⟩⟩
    exact later.done (here.done x (by simp))

theorem settles_visit (closed : G.Closed) : ∀ (depth : Nat) (path : List String) (name : String)
    (s : Search), G.size < path.length + depth → path.Nodup → path ⊆ G.keys →
    G.Ordered s.done → (visit G depth path name s).cycles = [] →
    (visit G depth path name s).Settles G [name] := by
  intro depth
  induction depth with
  | zero =>
    intro path name s long distinct listed
    -- A path of distinct names is no longer than the graph.
    have short := (distinct.subperm listed).length_le
    simp only [Table.keys, List.length_map, Table.size] at short long
    omega
  | succ depth ih =>
    intro path name s long distinct listed ordered clean
    rw [visit_succ] at clean ⊢
    have each (next : String) (calls : G.Calls name next) (s : Search)
        (ordered : G.Ordered s.done) (clean : (G.follow depth path s next).cycles = []) :
        (G.follow depth path s next).Settles G [next] := by
      unfold follow at clean ⊢
      split at clean
      next => exact absurd clean (s.report_cycles_ne_nil _)
      next new =>
        rw [if_neg new]
        split at clean
        next known =>
          rw [if_pos known]
          exact ⟨ordered, by simpa using known⟩
        next unknown =>
          rw [if_neg unknown]
          refine ih (path ++ [next]) next s (by simp; omega) ?_ ?_ ordered clean
          · exact List.concat_eq_append ▸ distinct.concat new
          · exact List.append_subset.mpr ⟨listed, by simpa using closed name next calls⟩
    obtain ⟨after, called⟩ := settles_foldl (grows_follow (grows_visit depth) path)
      each ordered clean
    exact ⟨⟨called, after⟩, by simp⟩

theorem acyclic_of_cycles_eq_nil (closed : G.Closed) (none : G.cycles = []) (a : String) :
    ¬ TransGen G.Calls a a := by
  apply not_transGen_of_acc
  by_cases known : a ∈ G.keys
  · have settled : ((Sorted.ofList G.keys).foldl (fun s root =>
        if root ∈ s.done then s else visit G G.size [root] root s) {}).Settles G
          (Sorted.ofList G.keys) := by
      refine settles_foldl (fun s root => ?_) (fun root member s ordered clean => ?_) trivial none
      · split
        next => exact .refl s
        next => exact grows_visit ..
      · split at clean
        next known =>
          rw [if_pos known]
          exact ⟨ordered, by simpa using known⟩
        next unknown =>
          rw [if_neg unknown]
          have listed : root ∈ G.keys := by simpa using member
          exact settles_visit closed _ _ _ s (by simp) (by simp) (by simpa using listed) ordered
            clean
    exact settled.ordered.acc a (settled.done a (by simpa using known))
  · refine ⟨a, fun b calls => ?_⟩
    simp [Calls, Table.find?_eq_none_iff.mpr known] at calls

end CallGraph

namespace Callables

open Result

variable {C C' : Callables}

theorem calls_iff {a b : String} : C.callGraph.Calls a b ↔
    ∃ d, C.find? a = some d ∧ b ∈ calledNames d.body.parts ∧ C.contains b = true := by
  simp only [CallGraph.Calls, callGraph, Table.find?_map, find?]
  cases C.definitions.find? a with
  | none => simp
  | some d => simp

theorem closed_callGraph (C : Callables) : C.callGraph.Closed := by
  intro a b calls
  obtain ⟨d, -, -, known⟩ := calls_iff.mp calls
  simpa [callGraph, Table.keys, Table.map] using Table.contains_iff.mp known

def Listed (C : Callables) : Prop := ∀ f, ∀ a ∈ C.overridesOf f, C.find? a.name = some a

structure Registered (C : Callables) : Prop where
  named : ∀ name d, C.find? name = some d → d.name = name
  overrides : ∀ f, ∀ a ∈ C.overridesOf f, a.role = .active f
  listed : C.Listed

theorem Sound.registered (sound : C.Sound) (listed : C.Listed) : C.Registered :=
  ⟨sound.named, sound.overrides, listed⟩

theorem checkName_eq_ok_iff {name : String} {location : Option Location} {done : Unit} :
    C.checkName name location = .ok done ↔ C.find? name = none := by
  rw [checkName]
  cases C.find? name <;> simp

theorem Listed.extend {d : Definition} (listed : C.Listed) (new : C.find? d.name = none)
    (grown : ∀ name, C'.find? name = if d.name = name then some d else C.find? name)
    (overrides : ∀ f, ∀ a ∈ C'.overridesOf f, a ∈ C.overridesOf f ∨ a = d) : C'.Listed := by
  intro f a member
  rw [grown]
  rcases overrides f a member with old | rfl
  · have found := listed f a old
    rw [if_neg, found]
    rintro same
    simp [← same, new] at found
  · rw [if_pos rfl]

theorem Listed.declareSyscall (listed : C.Listed) {decl : SyscallDecl}
    (done : C.declareSyscall decl = .ok C') : C'.Listed := by
  simp only [Callables.declareSyscall, bind_eq_ok_iff, pure_eq_ok_iff] at done
  obtain ⟨⟨⟩, checked, -, -, rfl⟩ := done
  exact listed.extend (checkName_eq_ok_iff.mp checked) (find?_add C _) fun f a => .inl

theorem Listed.declareAttack (listed : C.Listed) {decl : AttackDecl}
    (done : C.declareAttack decl = .ok C') : C'.Listed := by
  simp only [Callables.declareAttack, bind_eq_ok_iff] at done
  obtain ⟨⟨⟩, checked, -, -, done⟩ := done
  have new := checkName_eq_ok_iff.mp checked
  split at done
  next target _ =>
    simp only [bind_eq_ok_iff, pure_eq_ok_iff] at done
    obtain ⟨-, -, rfl⟩ := done
    refine listed.extend new (find?_add C _) fun f a member => ?_
    exact (mem_overridesOf_insert rfl member).imp_right And.left
  next =>
    simp only [bind_eq_ok_iff, pure_eq_ok_iff] at done
    obtain ⟨-, -, rfl⟩ := done
    exact listed.extend new (find?_add C _) fun f a => .inl

theorem listed_of_ofModel {budget : Int} {M : Model} {D : Declarations}
    (made : Declarations.ofModel budget M = .ok D) : D.callables.Listed := by
  obtain ⟨E, P, S, C, L, early, -, syscalls, attacks, late, rfl, -⟩ :=
    Declarations.exists_stages made
  have listed : S.Listed := by
    refine foldlM_keeps ?_ (fun C s C' _ listed => listed.declareSyscall) syscalls
    rw [(Declarations.initial_of_early early).callables]
    simp [Listed, overridesOf]
  show L.callables.Listed
  rw [Declarations.callables_of_late late]
  exact foldlM_keeps listed (fun C a C' _ listed => listed.declareAttack) attacks

theorem acyclic_of_ofModel {budget : Int} {M : Model} {D : Declarations}
    (made : Declarations.ofModel budget M = .ok D) (f : String) :
    ¬ TransGen D.callables.callGraph.Calls f f := by
  obtain ⟨E, P, S, C, L, -, -, -, -, late, rfl, -, checked, -⟩ := Declarations.exists_stages made
  have same : L.callables = C := Declarations.callables_of_late late
  refine CallGraph.acyclic_of_cycles_eq_nil (closed_callGraph _) ?_ f
  show L.callables.callGraph.cycles = []
  rw [same]
  exact List.map_eq_nil_iff.mp checked

end Callables

end ThreatModel
