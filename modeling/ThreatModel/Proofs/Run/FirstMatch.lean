import Mathlib
import ThreatModel.Proofs.Run.Step
import ThreatModel.Proofs.Elaboration.Guards

set_option autoImplicit false

namespace ThreatModel

namespace Result

variable {α ε : Type} {p : α → Except ε Bool} {P : α → Prop} {xs ys : List α}

theorem allM_decides (each : ∀ x ∈ xs, ∃ v, p x = .ok v ∧ (v = true ↔ P x)) :
    ∃ v, xs.allM p = .ok v ∧ (v = true ↔ ∀ x ∈ xs, P x) := by
  induction xs with
  | nil => exact ⟨true, rfl, by simp⟩
  | cons x xs ih =>
    obtain ⟨v, judged, means⟩ := each x List.mem_cons_self
    obtain ⟨v', others, means'⟩ := ih fun x member => each x (List.mem_cons_of_mem _ member)
    cases v with
    | false => exact ⟨false, by simp [List.allM, judged], by simp [← means]⟩
    | true => exact ⟨v', by simp [List.allM, judged, others], by simp [← means, means']⟩

theorem anyM_decides (each : ∀ x ∈ xs, ∃ v, p x = .ok v ∧ (v = true ↔ P x)) :
    ∃ v, xs.anyM p = .ok v ∧ (v = true ↔ ∃ x ∈ xs, P x) := by
  induction xs with
  | nil => exact ⟨false, rfl, by simp⟩
  | cons x xs ih =>
    obtain ⟨v, judged, means⟩ := each x List.mem_cons_self
    obtain ⟨v', others, means'⟩ := ih fun x member => each x (List.mem_cons_of_mem _ member)
    cases v with
    | true => exact ⟨true, by simp [List.anyM, judged], by simp [← means]⟩
    | false => exact ⟨v', by simp [List.anyM, judged, others], by simp [← means, means']⟩

theorem filterAuxM_append {kept : List α} (done : xs.filterAuxM p kept = .ok ys) (older : List α) :
    xs.filterAuxM p (kept ++ older) = .ok (ys ++ older) := by
  induction xs generalizing kept with
  | nil =>
    obtain rfl : kept = ys := by simpa [List.filterAuxM] using done
    rfl
  | cons x xs ih =>
    simp only [List.filterAuxM, bind_eq_ok_iff] at done ⊢
    obtain ⟨v, judged, done⟩ := done
    refine ⟨v, judged, ?_⟩
    cases v with
    | false => exact ih done
    | true => exact ih done

theorem filterM_cons {x : α} {v : Bool} (judged : p x = .ok v) (rest : xs.filterM p = .ok ys) :
    (x :: xs).filterM p = .ok (if v then x :: ys else ys) := by
  simp only [List.filterM, List.filterAuxM, bind_eq_ok_iff, pure_eq_ok_iff] at rest ⊢
  obtain ⟨reversed, filtered, rfl⟩ := rest
  cases v with
  | false => exact ⟨reversed, ⟨false, judged, filtered⟩, rfl⟩
  | true => exact ⟨reversed ++ [x], ⟨true, judged, filterAuxM_append filtered [x]⟩, by simp⟩

end Result

open Result

def Theory.Decides (T : Theory) (env : Subst) (t : Term) : Prop :=
  (∀ x ∈ t.vars, ∃ v, env.find? x = some v ∧ v.isGround = true) ∧
    ∃ v, T.normalize (t.subst env) = .ok v

theorem Theory.Decides.isGround {T : Theory} {env : Subst} {t : Term} (decides : T.Decides env t) :
    (t.subst env).isGround = true := by
  rw [Term.isGround_iff, List.eq_nil_iff_forall_not_mem]
  intro y inside
  rw [Term.subst_eq_under, Term.mem_vars_under] at inside
  obtain ⟨x, occurs, inside⟩ := inside
  obtain ⟨v, found, ground⟩ := decides.1 x occurs
  rw [Subst.value_of_find? found, Term.isGround_iff.mp ground] at inside
  simp at inside

namespace System

variable {S : System} {D : Declarations} {env : Subst} {g : Graph} {taken : List (List Condition)}
  {slots : List (Option Slot)}

theorem evaluate_of_decides {t : Term} (decides : S.theory.Decides env t) :
    ∃ v, S.evaluate env t = .ok v ∧ S.theory.normalize (t.subst env) = .ok v := by
  obtain ⟨v, normal⟩ := decides.2
  exact ⟨v, by simp [evaluate, decides.isGround, normal], normal⟩

theorem conditionHolds_of_decides {c : Condition}
    (decides : ∀ t ∈ c.terms, S.theory.Decides env t) :
    ∃ v, S.conditionHolds env c = .ok v ∧ (v = true ↔ c.Holds S.theory env) := by
  obtain ⟨l, left, normal⟩ := evaluate_of_decides (decides c.left (by simp [Condition.terms]))
  obtain ⟨r, right, normal'⟩ := evaluate_of_decides (decides c.right (by simp [Condition.terms]))
  -- What is compared is in normal form already.
  have compared : S.theory.equal l r = .ok (decide (l = r)) := by
    simp [Theory.equal, Theory.normalize_normalize normal, Theory.normalize_normalize normal']
  refine ⟨decide (l = r) == c.equal, by simp [conditionHolds, left, right, compared], ?_⟩
  simp only [Condition.Holds, normal, normal', Except.ok.injEq]
  cases c.equal <;> by_cases same : l = r <;> simp [same]

theorem guardHolds_of_decides {group : List Condition}
    (decides : ∀ t ∈ (Action.guard group taken).terms, S.theory.Decides env t) :
    ∃ v, S.guardHolds env (.guard group taken) = .ok v ∧
      (v = true ↔ S.theory.Satisfies env group ∧
        ∀ other ∈ taken, ¬ S.theory.Satisfies env other) := by
  simp only [Action.terms, List.mem_flatMap, List.mem_append, List.mem_flatten, forall_exists_index,
    and_imp] at decides
  have own : ∃ v, group.allM (S.conditionHolds env) = .ok v ∧
      (v = true ↔ S.theory.Satisfies env group) :=
    allM_decides fun c member =>
      conditionHolds_of_decides fun t inside => decides t c (.inl member) inside
  have earlier : ∃ v, taken.anyM (fun other => other.allM (S.conditionHolds env)) = .ok v ∧
      (v = true ↔ ∃ other ∈ taken, S.theory.Satisfies env other) :=
    anyM_decides fun other among => allM_decides fun c member =>
      conditionHolds_of_decides fun t inside => decides t c (.inr ⟨other, among, member⟩) inside
  obtain ⟨v, own, means⟩ := own
  obtain ⟨v', earlier, means'⟩ := earlier
  cases v with
  | false => exact ⟨false, by simp [guardHolds, own], by simp [← means]⟩
  | true =>
    refine ⟨!v', by simp [guardHolds, own, earlier], ?_⟩
    rw [← means, Bool.not_eq_true', ← Bool.not_eq_true, means']
    simp

def DecidesAt (S : System) (g : Graph) (env : Subst) (i : Nat) : Prop :=
  ∀ action, g.actions[i]? = some action → ∀ t ∈ action.terms, S.theory.Decides env t

theorem live_cons {p : Nat} {group : List Condition} {places arms : List Nat}
    (stands : g.actions[p]? = some (.guard group taken)) (decides : S.DecidesAt g env p)
    (rest : S.live g env places = .ok arms) :
    (S.theory.Satisfies env group ∧ (∀ other ∈ taken, ¬ S.theory.Satisfies env other) →
        S.live g env (p :: places) = .ok (p :: arms)) ∧
      (¬ (S.theory.Satisfies env group ∧
          ∀ other ∈ taken, ¬ S.theory.Satisfies env other) →
        S.live g env (p :: places) = .ok arms) := by
  obtain ⟨v, judged, means⟩ := guardHolds_of_decides (decides _ stands)
  obtain ⟨node, found, action⟩ := Graph.acts_iff.mp stands
  have tested : (do S.guardHolds env (← nodeAt g p).action : Result Bool) = .ok v := by
    simp [nodeAt, found, action, judged]
  have first := filterM_cons (p := fun i => do S.guardHolds env (← nodeAt g i).action) tested rest
  rw [← means]
  cases v with
  | false => exact ⟨by simp, fun _ => first⟩
  | true => exact ⟨fun _ => first, by simp⟩

theorem live_of_excluded (tries : g.Tries taken slots)
    (decides : ∀ p ∈ slots.reduceOption.map Slot.place, S.DecidesAt g env p)
    {other : List Condition} (member : other ∈ taken) (holds : S.theory.Satisfies env other) :
    S.live g env (slots.reduceOption.map Slot.place) = .ok [] := by
  induction slots generalizing taken with
  | nil => rfl
  | cons slot rest ih =>
    cases slot with
    | none => exact @ih taken tries (by simpa using decides) member
    | some slot =>
      simp only [List.reduceOption_cons_of_some, List.map_cons,
        List.forall_mem_cons] at decides ⊢
      have later := ih tries.2 decides.2 (List.mem_append_left _ member)
      exact (live_cons tries.1 decides.1 later).2 fun both => both.2 other member holds

theorem live_of_tries (tries : g.Tries taken slots)
    (decides : ∀ p ∈ slots.reduceOption.map Slot.place, S.DecidesAt g env p)
    (free : ∀ other ∈ taken, ¬ S.theory.Satisfies env other) :
    (∃ (k : Nat) (slot : Slot), slots[k]? = some (some slot) ∧ S.theory.Satisfies env slot.group ∧
      (∀ (j : Nat) (earlier : Slot), j < k → slots[j]? = some (some earlier) →
        ¬ S.theory.Satisfies env earlier.group) ∧
      S.live g env (slots.reduceOption.map Slot.place) = .ok [slot.place]) ∨
    ((∀ slot : Slot, some slot ∈ slots → ¬ S.theory.Satisfies env slot.group) ∧
      S.live g env (slots.reduceOption.map Slot.place) = .ok []) := by
  induction slots generalizing taken with
  | nil => exact .inr ⟨by simp, rfl⟩
  | cons slot rest ih =>
    cases slot with
    | none =>
      rcases @ih taken tries (by simpa using decides) free with
        ⟨k, slot, here, holds, first, live⟩ | ⟨none, live⟩
      · refine .inl ⟨k + 1, slot, by simpa using here, holds, fun j earlier before found => ?_,
          by simpa using live⟩
        cases j with
        | zero => simp at found
        | succ j => exact first j earlier (by omega) (by simpa using found)
      · exact .inr ⟨by simpa using none, by simpa using live⟩
    | some slot =>
      simp only [List.reduceOption_cons_of_some, List.map_cons,
        List.forall_mem_cons] at decides ⊢
      by_cases holds : S.theory.Satisfies env slot.group
      · have later := live_of_excluded tries.2 decides.2 (by simp) holds
        exact .inl ⟨0, slot, by simp, holds, by simp,
          (live_cons tries.1 decides.1 later).1 ⟨holds, free⟩⟩
      · have free' : ∀ other ∈ taken ++ [slot.group], ¬ S.theory.Satisfies env other := by
          intro other member
          rcases List.mem_append.mp member with old | new
          · exact free other old
          · exact List.mem_singleton.mp new ▸ holds
        rcases ih tries.2 decides.2 free' with
          ⟨k, slot', here, holds', first, live⟩ | ⟨none, live⟩
        · refine .inl ⟨k + 1, slot', by simpa using here, holds', ?_,
            (live_cons tries.1 decides.1 live).2 fun both => holds both.1⟩
          intro j earlier before found
          cases j with
          | zero =>
            obtain rfl : slot = earlier := by simpa using found
            exact holds
          | succ j => exact first j earlier (by omega) (by simpa using found)
        · refine .inr ⟨fun slot' member => ?_,
            (live_cons tries.1 decides.1 live).2 fun both => holds both.1⟩
          rcases List.mem_cons.mp member with same | later
          · obtain rfl := Option.some.inj same
            exact holds
          · exact none slot' later

def guardsOf (slots : List (Option Slot)) (again : Option Nat) : List (Option Slot) :=
  slots ++ again.toList.map fun p => some { place := p, group := [] }

theorem places_guardsOf (slots : List (Option Slot)) (again : Option Nat) :
    (guardsOf slots again).reduceOption.map Slot.place =
      (slots.map (Option.map Slot.place)).reduceOption ++ again.toList := by
  cases again <;> simp [guardsOf, List.reduceOption_append, List.reduceOption_map]

theorem live_first {J : Judgement} {ctx : Context} {scope : Scope} {as : List Arm}
    {again : Option Nat} (fits : J.Slots ctx scope 0 as slots)
    (theory : S.theory = ctx.decls.theory)
    (tries : g.Tries [] (guardsOf slots again))
    (decides : ∀ p ∈ (guardsOf slots again).reduceOption.map Slot.place, S.DecidesAt g env p) :
    (∃ (k : Nat) (a : Arm) (p : Nat), as[k]? = some a ∧ a.Holds ctx.decls scope env ∧
      (∀ (j : Nat) (a' : Arm), j < k → as[j]? = some a' → ¬ a'.Holds ctx.decls scope env) ∧
      (slots.map (Option.map Slot.place))[k]? = some (some p) ∧
      S.live g env ((guardsOf slots again).reduceOption.map Slot.place) = .ok [p]) ∨
    ((∀ a ∈ as, ¬ a.Holds ctx.decls scope env) ∧
      S.live g env ((guardsOf slots again).reduceOption.map Slot.place) = .ok again.toList) := by
  -- An arm whose slot is empty does not hold, and one that has a slot holds with its conditions.
  have fails (k : Nat) (a : Arm) (arm : as[k]? = some a)
      (unmet : ∀ slot, slots[k]? = some (some slot) → ¬ S.theory.Satisfies env slot.group) :
      ¬ a.Holds ctx.decls scope env := by
    obtain ⟨inside, -⟩ := List.getElem?_eq_some_iff.mp arm
    rw [← fits.length_eq] at inside
    cases here : slots[k] with
    | none => exact fits.dropped (List.getElem?_eq_some_iff.mpr ⟨inside, here⟩) arm env
    | some slot =>
      have here := List.getElem?_eq_some_iff.mpr ⟨inside, here⟩
      obtain ⟨comparisons, body, arm', means, -⟩ := fits.taken here
      obtain rfl := Option.some.inj (arm'.symm.trans arm)
      rw [means env, ← theory]
      exact unmet slot here
  rcases live_of_tries tries decides (by simp) with
    ⟨k, slot, here, holds, first, live⟩ | ⟨none, live⟩
  · rcases Nat.lt_or_ge k slots.length with among | beyond
    · rw [guardsOf, List.getElem?_append_left among] at here
      obtain ⟨comparisons, body, arm, means, -⟩ := fits.taken here
      refine .inl ⟨k, _, slot.place, arm, (means env).mpr (theory ▸ holds), ?_, by simp [here],
        live⟩
      intro j a' before arm'
      refine fails j a' arm' fun earlier there => first j earlier before ?_
      rw [guardsOf, List.getElem?_append_left (before.trans among), there]
    · -- Only the guard that leads elsewhere is left, and no arm holds.
      have among (j : Nat) (a : Arm) (arm : as[j]? = some a) : j < slots.length :=
        fits.length_eq ▸ (List.getElem?_eq_some_iff.mp arm).1
      refine .inr ⟨fun a member => ?_, ?_⟩
      · obtain ⟨j, arm⟩ := List.mem_iff_getElem?.mp member
        have inside := among j a arm
        refine fails j a arm fun earlier there => first j earlier (inside.trans_le beyond) ?_
        rw [guardsOf, List.getElem?_append_left inside, there]
      · rw [guardsOf, List.getElem?_append_right beyond] at here
        cases again with
        | none => simp at here
        | some p =>
          have last := List.mem_of_getElem? here
          simp only [Option.toList_some, List.map_cons, List.map_nil, List.mem_singleton,
            Option.some.injEq] at last
          rw [live, last, Option.toList_some]
  · refine .inr ⟨fun a member => ?_, ?_⟩
    · obtain ⟨j, arm⟩ := List.mem_iff_getElem?.mp member
      exact fails j a arm fun slot there =>
        none slot (List.mem_append_left _ (List.mem_of_getElem? there))
    · cases again with
      | none => exact live
      | some p => exact absurd (by simp [Theory.Satisfies]) (none ⟨p, []⟩ (by simp [guardsOf]))

/-- The arms of a choice are exclusive and tried in order. Where all its guards are decided, the
guard of the first arm that holds is the only live one, and control goes `again` if none does. -/
def TakesFirst (S : System) (D : Declarations) (g : Graph) (scope : Scope) (as : List Arm)
    (choice : Nat) (guards : List (Option Nat)) (again : Option Nat) : Prop :=
  ∃ node, g.node? choice = some node ∧ node.action = .choice ∧
    node.successors = guards.reduceOption ++ again.toList ∧
    ∀ env, (∀ i ∈ node.successors, S.DecidesAt g env i) →
      (∃ (k : Nat) (a : Arm) (p : Nat), as[k]? = some a ∧ a.Holds D scope env ∧
        (∀ (j : Nat) (a' : Arm), j < k → as[j]? = some a' → ¬ a'.Holds D scope env) ∧
        guards[k]? = some (some p) ∧ S.live g env node.successors = .ok [p]) ∨
      ((∀ a ∈ as, ¬ a.Holds D scope env) ∧ S.live g env node.successors = .ok again.toList)

theorem TakesFirst.of_slots {J : Judgement} {ctx : Context} {D : Declarations} {scope : Scope}
    {as : List Arm} {again : Option Nat} {choice : Nat} {node : Node}
    (fits : J.Slots ctx scope 0 as slots) (decls : ctx.decls = D) (theory : S.theory = D.theory)
    (tries : g.Tries [] (guardsOf slots again))
    (found : g.node? choice = some node) (acts : node.action = .choice)
    (drawn : node.successors = (guardsOf slots again).reduceOption.map Slot.place) :
    S.TakesFirst D g scope as choice (slots.map (Option.map Slot.place)) again := by
  subst decls
  refine ⟨node, found, acts, drawn.trans (places_guardsOf slots again), fun env decides => ?_⟩
  rw [drawn] at decides ⊢
  exact live_first fits theory tries decides

end System

def Template.Derivation.Guards {template : Template} {D : Declarations} {name : String}
    {channels : Table String String} {b : Build} {g : Graph}
    (u : template.Derivation D name channels b g) (ctx : Context) (as : List Arm)
    (guards : List (Option Nat)) : Prop :=
  guards.length = as.length ∧ ∀ (k p : Nat), guards[k]? = some (some p) →
    ∃ comparisons body flow b flow' b', as[k]? = some (.guarded comparisons body) ∧
      flow.ends = [p] ∧ u.Meets (.command body (ctx.enter s!"arm{k}") flow b flow' b')

theorem Build.goes_back {choice : Nat} {node : Node} (b : Build) (ctx : Context)
    (taken : List (List Condition)) (head : Nat) (inside : choice < b.graph.size)
    (found : b.graph.node? choice = some node) :
    let g := ((b.append ctx (.guard [] taken) [choice]).connect b.graph.size head).graph
    g.node? choice = some { node with successors := node.successors ++ [b.graph.size] } ∧
      g.node? b.graph.size = some
        { index := b.graph.size, action := .guard [] taken, position := ctx.position
          successors := [head] } ∧
      ∀ (i : Nat) action, b.graph.actions[i]? = some action → g.actions[i]? = some action := by
  refine ⟨?_, ?_, fun i action here => ?_⟩
  · simp [connect, Graph.node?_connect, append, Graph.node?_append, inside.ne, inside.ne', inside,
      found]
  · simp [connect, Graph.node?_connect, append, Graph.node?_append, inside]
  · have bound := (List.getElem?_eq_some_iff.mp here).1
    simpa [connect, append, List.getElem?_append_left bound] using here

namespace Template.Derivation

variable {template : Template} {D : Declarations} {name : String} {channels : Table String String}
  {first b b' : Build} {g : Graph} {u : template.Derivation D name channels first g} {ctx : Context}
  {flow flow' : Flow} {as : List Arm} {S : System}

theorem guards_of_slots {J : Judgement} {scope : Scope} {slots : List (Option Slot)}
    (meets : u.Meets J) (fits : J.Slots ctx scope 0 as slots) :
    u.Guards ctx as (slots.map (Option.map Slot.place)) := by
  refine ⟨by simpa using fits.length_eq, fun k p here => ?_⟩
  simp only [List.getElem?_map, Option.map_eq_some_iff] at here
  obtain ⟨_, here, slot, rfl, rfl⟩ := here
  obtain ⟨comparisons, body, arm, -, flow, b, flow', b', starts, within⟩ := fits.taken here
  exact ⟨comparisons, body, flow, b, flow', b', arm, starts, meets.within (by simpa using within)⟩

theorem takesFirst_branch (theory : S.theory = D.theory)
    (meets : u.Meets (.command (.branch as) ctx flow b flow' b')) :
    ∃ guards, u.Guards ctx as guards ∧ S.TakesFirst D g flow.scope as b.graph.size guards none := by
  obtain ⟨free, decls, grown⟩ := meets.embeds
  cases meets.elaborates with
  | branch arms =>
    have several := b.branches_append ctx .choice rfl free
    obtain ⟨slots, fits, tries, -, places⟩ := arms.guards several
    have stands : g.Tries [] (System.guardsOf slots none) := by
      simpa [System.guardsOf] using tries.mono fun i action => grown.stands
    have closed := ((arms.grows several).branches several).not_open
    have found := grown.closed (places _ (b.node?_append_self free)) le_rfl closed
    have inside := meets.within (Judgement.Premises.branch.only arms)
    exact ⟨_, guards_of_slots inside fits,
      .of_slots fits decls theory stands found rfl (by simp [System.guardsOf])⟩

theorem takesFirst_until {body : Command} {inner : Flow} {b₁ b₂ : Build} {out : Arms}
    (theory : S.theory = D.theory) (repeated : Elaborates (.repetition body ctx flow b inner b₁))
    (arms : Elaborates (.choosing as (ctx.enter "until") inner b₁ out b₂))
    (meets : u.Meets (.loop body as ctx flow b b₁ out b₂)) :
    ∃ guards again, u.Guards (ctx.enter "until") as guards ∧
      S.TakesFirst D g inner.scope as b₁.graph.size guards (some again) ∧
      g.actions[b.graph.size]? = some .loopHead ∧
      ∃ group taken position, g.node? again = some
        { index := again, action := .guard group taken, position, successors := [b.graph.size] } := by
  obtain ⟨free, decls, grown⟩ := meets.embeds
  have opened := b.threads_append ctx .loopHead rfl free
  obtain ⟨early, -, ran, -⟩ := repeated.threads opened.free
  have free₁ := repeated.command_free opened.free
  have several := b₁.branches_append (ctx.enter "until") .choice rfl free₁
  obtain ⟨slots, fits, tries, groups, places⟩ := arms.guards several
  have several₂ : b₂.graph.Branches b₁.graph.size := (arms.grows several).branches several
  have large := ran.larger
  have large₂ := (arms.grows several).larger
  simp only [Judgement.before, Judgement.after, Build.size_append] at large large₂
  obtain ⟨choice, back, old⟩ := b₂.goes_back (ctx.enter "again") out.taken b.graph.size
    several₂.inside (places _ (b₁.node?_append_self free₁))
  have tried : g.Tries [] (System.guardsOf slots (some b₂.graph.size)) := by
    refine (tries.mono fun i action here => grown.stands (old i action here)).concat ?_
    rw [← groups]
    exact grown.stands (Graph.acts_iff.mpr ⟨_, back, rfl⟩)
  have shut : ¬ ((b₂.append (ctx.enter "again") (.guard [] out.taken)
      [b₁.graph.size]).connect b₂.graph.size b.graph.size).graph.Open b₂.graph.size := by
    rintro ⟨node, found, free, -⟩
    obtain rfl := Option.some.inj (back.symm.trans found)
    simp at free
  have inBody := meets.within (Judgement.Premises.loop.first repeated arms)
  have inArms := meets.within (Judgement.Premises.loop.second repeated arms)
  have head := inBody.embeds.2.2.stands
    ((repeated.grows opened.free).stands (b.stands_append ctx .loopHead flow.ends))
  have several₃ := Graph.Branches.not_open ⟨_, choice, rfl⟩
  have first := grown.closed choice (by simp only [Judgement.before]; omega) several₃
  have last := grown.closed back (by simp only [Judgement.before]; omega) shut
  exact ⟨slots.map (Option.map Slot.place), b₂.graph.size,
    guards_of_slots inArms fits, .of_slots fits decls theory tried first rfl
      (by simp [System.guardsOf, List.reduceOption_append]), head, _, _, _, last⟩

theorem takesFirst_loop {body : Command} (theory : S.theory = D.theory)
    (meets : u.Meets (.command (.loop body as) ctx flow b flow' b')) :
    ∃ inner b₁ guards again, u.Meets (.repetition body ctx flow b inner b₁) ∧
      u.Guards (ctx.enter "until") as guards ∧
      S.TakesFirst D g inner.scope as b₁.graph.size guards (some again) ∧
      g.actions[b.graph.size]? = some .loopHead ∧ ∃ group taken position, g.node? again = some
        { index := again, action := .guard group taken, position, successors := [b.graph.size] } := by
  cases meets.elaborates with
  | loop repeated arms =>
    obtain ⟨guards, again, rest⟩ := takesFirst_until theory repeated arms meets
    have inBody := meets.within (Judgement.Premises.loop.first repeated arms)
    exact ⟨_, _, guards, again, inBody, rest⟩

theorem takesFirst_of_choice {i : Nat} (theory : S.theory = D.theory) (new : first.graph.size ≤ i)
    (here : g.actions[i]? = some .choice) :
    ∃ ctx scope as guards again, u.Guards ctx as guards ∧
      S.TakesFirst D g scope as i guards again := by
  obtain ⟨as, branches | loops⟩ := u.of_choice new here
  · obtain ⟨ctx, flow, b, flow', b', meets, rfl⟩ := branches
    obtain ⟨guards, leads, takes⟩ := takesFirst_branch theory meets
    exact ⟨_, _, _, guards, none, leads, takes⟩
  · obtain ⟨body, ctx, flow, b, inner, b₁, out, b₂, repeated, arms, meets, rfl⟩ := loops
    obtain ⟨guards, again, leads, takes, -⟩ :=
      takesFirst_until theory repeated.elaborates arms.elaborates meets
    exact ⟨_, _, _, guards, some again, leads, takes⟩

end Template.Derivation

/-- The arms of a branch and those that end a loop are exclusive: with values that decide the
guards, just the guard of the first arm that holds is live. If none holds, nothing is live after a
branch, and only the edge back to its head after a loop. -/
theorem elaborate_first_match {S : System} {D : Declarations} {template : Template} {name : String}
    {channels : Table String String} {first : Nat} {e : Elaborated}
    (done : elaborate D template name channels first = .ok e) (theory : S.theory = D.theory) :
    ∃ u : template.Derivation D name channels { nextNonce := first } e.inst.graph,
      (∀ as ctx flow b flow' b', u.Meets (.command (.branch as) ctx flow b flow' b') →
        ∃ guards, u.Guards ctx as guards ∧
          S.TakesFirst D e.inst.graph flow.scope as b.graph.size guards none) ∧
      (∀ body as ctx flow b flow' b', u.Meets (.command (.loop body as) ctx flow b flow' b') →
        ∃ inner b₁ guards again,
          u.Meets (.command body (ctx.enter "body")
            { ends := [b.graph.size], scope := flow.scope.child, returns := flow.returns }
            (b.append ctx .loopHead flow.ends) inner b₁) ∧
          u.Guards (ctx.enter "until") as guards ∧
          S.TakesFirst D e.inst.graph inner.scope as b₁.graph.size guards (some again) ∧
          e.inst.graph.actions[b.graph.size]? = some .loopHead ∧
          ∃ group taken position, e.inst.graph.node? again = some
            { index := again, action := .guard group taken, position
              successors := [b.graph.size] }) ∧
      ∀ i, e.inst.graph.actions[i]? = some .choice → ∃ ctx scope as guards again,
        u.Guards ctx as guards ∧ S.TakesFirst D e.inst.graph scope as i guards again := by
  obtain ⟨u⟩ := exists_derivation done
  exact ⟨u, fun _ _ _ _ _ _ meets => u.takesFirst_branch theory meets,
    fun _ _ _ _ _ _ _ meets => u.takesFirst_loop theory meets,
    fun _ here => u.takesFirst_of_choice theory (Nat.zero_le _) here⟩

instance (T : Theory) (env : Subst) (t : Term) : Decidable (T.Decides env t) :=
  decidable_of_iff ((∀ x ∈ t.vars, (env.find? x).any Term.isGround = true) ∧
      (T.normalize (t.subst env)).isOk = true) <| by
    have ends : (T.normalize (t.subst env)).isOk = true ↔
        ∃ v, T.normalize (t.subst env) = .ok v := by
      cases T.normalize (t.subst env) <;> simp [Except.isOk, Except.toBool]
    simp [Theory.Decides, Option.any_eq_true, ends]

instance (S : System) (g : Graph) (env : Subst) (i : Nat) : Decidable (S.DecidesAt g env i) :=
  decidable_of_iff (∀ t ∈ g.actions[i]?.elim [] Action.terms, S.theory.Decides env t) <| by
    cases here : g.actions[i]? <;> simp [System.DecidesAt, here]

def Template.sorter : Template where
  name := "Sorter"
  type := "host_t"
  main := .seq
    [.bind "x" (.str "a"),
     .branch
       [.guarded [{ left := .str "a", right := .str "b", negated := false }] .skip,
        .guarded [{ left := .ident "x" none, right := .str "a", negated := false }]
          (.emit { tag := "First", args := [] }),
        .guarded [] (.emit { tag := "Last", args := [] })],
     .loop .skip
       [.guarded [{ left := .ident "x" none, right := .str "b", negated := false }] .skip]]

theorem sorter_first_match : ∃ (S : System) (D : Declarations) (e : Elaborated)
    (u : Template.sorter.Derivation D "s" .empty { nextNonce := 0 } e.inst.graph),
    elaborate D .sorter "s" .empty 0 = .ok e ∧
    S.live e.inst.graph (.ofList [("x.0", .lit "a")]) [3, 5] = .ok [3] ∧
    ∃ ctx scope as guards, ∃ (k : Nat) (a : Arm), u.Guards ctx as guards ∧ as[k]? = some a ∧
      a.Holds D scope (.ofList [("x.0", .lit "a")]) ∧ guards[k]? = some (some 3) := by
  have ran : (do
      let S ← compile {} .courier
      let D ← Declarations.ofModel 64 .courier
      let e ← elaborate D .sorter "s" .empty 0
      let g := e.inst.graph
      let env : Subst := .ofList [("x.0", .lit "a")]
      return (decide (S.theory = D.theory),
        (g.node? 2).map (fun node => (node.action, node.successors)),
        decide (∀ i ∈ ([3, 5] : List Nat), S.DecidesAt g env i),
        decide (S.live g env [3, 5] = .ok [3])) :
          Result (Bool × Option (Action × List Nat) × Bool × Bool)) =
      .ok (true, some (.choice, [3, 5]), true, true) := by
    decide +kernel
  simp only [Result.bind_eq_ok_iff, Result.pure_eq_ok_iff, Prod.mk.injEq, decide_eq_true_eq] at ran
  obtain ⟨S, -, D, -, e, done, theory, third, decides, live⟩ := ran
  obtain ⟨node, found, acts⟩ := Option.map_eq_some_iff.mp third
  obtain ⟨choice, drawn⟩ := Prod.mk.inj acts
  obtain ⟨u, -, -, choices⟩ := elaborate_first_match done theory
  obtain ⟨ctx, scope, as, guards, again, leads, node', found', -, among, takes⟩ :=
    choices 2 (Graph.acts_iff.mpr ⟨node, found, choice⟩)
  obtain rfl := Option.some.inj (found.symm.trans found')
  rw [drawn] at among takes
  rcases takes _ decides with ⟨k, a, p, arm, holds, -, guard, only⟩ | ⟨-, only⟩
  · obtain rfl : 3 = p := List.singleton_injective (Except.ok.inj (live.symm.trans only))
    exact ⟨S, D, e, u, done, live, ctx, scope, as, guards, k, a, leads, arm, holds, guard⟩
  · -- A live edge that goes back would be the last one.
    have last : [3] = again.toList := Except.ok.inj (live.symm.trans only)
    rw [← last] at among
    simpa using congrArg List.getLast? among

end ThreatModel
