import Mathlib
import ThreatModel.Proofs.System.Widening
import ThreatModel.Proofs.Run.Mirror

set_option autoImplicit false

namespace ThreatModel

open Result

namespace System

theorem Path.append {R : State → State → Prop} {m n : Nat} {s t u : State} (first : Path R m s t)
    (rest : Path R n t u) : Path R (m + n) s u := by
  induction first with
  | refl => simpa using rest
  | head step _ ih =>
    rw [Nat.add_right_comm]
    exact .head step (ih rest)

theorem exists_get_of_forall₂ {R : ProcessInstance → ProcessInstance → Prop} {S S' : System}
    (names : ∀ inst inst', R inst inst' → inst'.name = inst.name)
    (pairs : List.Forall₂ R S.instances S'.instances) {name : String} {inst : ProcessInstance}
    (got : S.get name = .ok inst) : ∃ inst', S'.get name = .ok inst' ∧ R inst inst' := by
  simp only [get, instance?] at got ⊢
  generalize S.instances = insts, S'.instances = insts' at pairs got ⊢
  induction pairs with
  | nil => simp at got
  | @cons first first' rest rest' pair _ ih =>
    simp only [List.find?_cons, names _ _ pair] at got ⊢
    cases here : first.name == name with
    | true =>
      obtain rfl : first = inst := by simpa [here] using got
      exact ⟨first', rfl, pair⟩
    | false => exact ih (by simpa [here] using got)

theorem exists_embedding {compiler : CompilerConfig} {M M' : Model} {S S' : System}
    (widens : M.Widens M') (apart : ∀ g ∈ S.globals, ∀ (x : String) (n : Nat), g.var ≠ s!"{x}.{n}")
    (done : compile compiler M = .ok S) (done' : compile compiler M' = .ok S') :
    ∃ D D', S.Compiled D ∧ S'.Compiled D' ∧ Nonempty (S.Embedding S') := by
  obtain ⟨D, D', nonces, next, next', compiled, compiled', wider, matched, fixed, shared, pairs⟩ :=
    exists_embeds widens apart done done'
  obtain ⟨ids, distinctIds, nonces_⟩ := Pairing.exists_injection matched.distinct
  refine ⟨D, D', compiled, compiled', ?_⟩
  have each (name : String) : ∃ places vars, Function.Injective vars ∧
      (∀ g ∈ S.globals, vars g.var = g.var) ∧ ∀ inst, S.get name = .ok inst →
        places[0]? = some 0 ∧ ∃ inst', S'.get name = .ok inst' ∧ inst.graph.Laid
          (fun a a' => (a.recast vars ids).unnumbered = a'.unnumbered) places inst'.graph := by
    cases got : S.get name with
    | error fault => exact ⟨[], id, Function.injective_id, fun _ _ => rfl, by simp⟩
    | ok inst =>
      obtain ⟨inst', got', embeds⟩ := exists_get_of_forall₂ (fun _ _ => (·.name)) pairs got
      obtain ⟨P, b, b', graph, graph', paired, among, first⟩ := embeds.paired
      obtain ⟨vars, distinct, renamed⟩ := Pairing.exists_injection paired.vars
      have respects : P.Respects vars ids := ⟨renamed, fun p member => nonces_ p (among member)⟩
      refine ⟨P.places, vars, distinct, fun g member => renamed _ (paired.held _ (shared g member)),
        fun inst₁ same => ?_⟩
      obtain rfl := Except.ok.inj same
      refine ⟨first, inst', got', ?_⟩
      rw [graph, graph']
      exact paired.laid.mono fun _ _ alike => alike vars ids respects
  choose places vars distinct fixedVars laid using each
  exact ⟨{
    places, vars, ids
    theory := by rw [compiled'.theory, compiled.theory, wider.theory]
    stores := by rw [compiled'.stores, compiled.stores, wider.stores]
    globals := by rw [compiled'.globals, compiled.globals, wider.same]; rfl
    labels := by
      have names := List.forall₂_map_left_iff.mpr (List.forall₂_map_right_iff.mpr
        (pairs.imp fun _ _ embeds => embeds.name.symm))
      exact (List.forall₂_eq_eq_eq ▸ names).symm
    fixedVars, fixedIds := fun g member => nonces_ _ (fixed g member)
    distinct, distinctIds
    laid := fun got => (laid _ _ got).2
    first := fun got => (laid _ _ got).1
    ended := fun got isOpen found => by
      obtain ⟨inst', -, embeds⟩ := exists_get_of_forall₂ (fun _ _ => (·.name)) pairs got
      exact embeds.ended _ _ isOpen found }⟩

/-- The search goes on with an instance whose step is silent, or with any if there is none. -/
structure Leads (S : System) (s : State) (name : String) (found : Option String) : Prop where
  active : name ∈ s.active
  silent : S.firstSilent? s s.active = .ok found
  chosen : ∀ other, found = some other → other = name

section

variable {S : System} {D : Declarations} {config : RunConfig} {s t : State} {name : String}
  {found : Option String}

theorem explores_iff : S.Explores config s t ↔ ∃ name found, S.Leads s name found ∧
    S.StepsTo config s name t ∧
      (found = none → ∀ other ∈ s.active, ∃ out, S.step config s other = .ok out) := by
  constructor
  · rintro ⟨out, done, member⟩
    simp only [successors, bind_eq_ok_iff] at done
    obtain ⟨found, silent, done⟩ := done
    cases found with
    | some name =>
      exact ⟨name, some name, ⟨(mem_of_firstSilent? silent).1, silent, by simp⟩,
        ⟨out, done, member⟩, by simp⟩
    | none =>
      obtain ⟨name, active, steps⟩ := mem_stepAll done member
      exact ⟨name, none, ⟨active, silent, by simp⟩, steps, fun _ other among =>
        (Compiled.exists_of_stepAll done other among).imp fun _ stepped => stepped.1⟩
  · rintro ⟨name, found, leads, steps, all⟩
    cases found with
    | some other =>
      obtain rfl := leads.chosen other rfl
      obtain ⟨out, stepped, member⟩ := steps
      exact ⟨out, by simp [successors, leads.silent, stepped], member⟩
    | none =>
      obtain ⟨out, stepped, inside⟩ := Compiled.exists_stepAll (all rfl)
      exact ⟨out, by simp [successors, leads.silent, stepped],
        inside name leads.active t steps⟩

theorem isSilentAt_congr (same : t.pcs.find? name = s.pcs.find? name) :
    S.isSilentAt t name = S.isSilentAt s name := by
  simp only [isSilentAt, current, same]

theorem isSilentAt_of_stands {place : Nat} {node : Node} (stands : S.StandsAt s name place node) :
    S.isSilentAt s name = .ok node.action.isSilent := by
  simp only [isSilentAt, current_eq_ok_iff.mpr ⟨place, stands⟩]
  rfl

theorem active_insert {place : Nat} (active : name ∈ s.active) (distinct : s.pcs.keys.Nodup)
    (moved : t.pcs = s.pcs.insert name (some place)) : t.active = s.active := by
  simp only [State.active, moved] at active ⊢
  clear moved
  generalize s.pcs = pcs at active distinct ⊢
  obtain ⟨entries⟩ := pcs
  simp only [Table.insert, Table.keys] at active distinct ⊢
  induction entries with
  | nil => simp at active
  | cons entry rest ih =>
    obtain ⟨other, pc⟩ := entry
    simp only [List.map_cons, List.nodup_cons] at distinct
    by_cases same : other = name
    · subst same
      have absent : other ∉ (rest.filter (·.2.isSome)).map (·.1) := fun member =>
        distinct.1 (List.map_subset _ List.filter_sublist.subset member)
      cases pc with
      | none => simp [absent] at active
      | some i => simp [Table.write]
    · cases pc with
      | none =>
        have later := ih (by simpa [same] using active) distinct.2
        simpa [Table.write, same] using later
      | some i =>
        have inside : name ∈ (rest.filter (·.2.isSome)).map (·.1) := by
          simpa [Ne.symm same] using active
        simpa [Table.write, same] using ih inside distinct.2

theorem firstSilent?_moved {names : List String} (member : name ∈ names)
    (before : S.firstSilent? s names = .ok found) (chosen : ∀ other, found = some other → other = name)
    (same : ∀ other, other ≠ name → S.isSilentAt t other = S.isSilentAt s other)
    (silent : S.isSilentAt t name = .ok true) : S.firstSilent? t names = .ok (some name) := by
  induction names with
  | nil => simp at member
  | cons first rest ih =>
    by_cases here : first = name
    · simp [firstSilent?, here, silent]
    · simp only [firstSilent?, bind_eq_ok_iff] at before
      obtain ⟨quiet, judged, before⟩ := before
      cases quiet with
      | true =>
        obtain rfl : some first = found := by simpa using before
        exact absurd (chosen first rfl) here
      | false =>
        have later : name ∈ rest := (List.mem_cons.mp member).resolve_left (Ne.symm here)
        simp only [Bool.false_eq_true, if_false] at before
        simp [firstSilent?, same first here, judged, ih later before]

theorem Leads.move {place : Nat} {node : Node} (leads : S.Leads s name found) (sound : s.Sound S)
    (moved : t.pcs = s.pcs.insert name (some place)) (stands : S.StandsAt t name place node)
    (silent : node.action.isSilent = true) : S.Leads t name (some name) := by
  have active := active_insert leads.active sound.distinct moved
  refine ⟨active ▸ leads.active, ?_, by simp⟩
  rw [active]
  refine firstSilent?_moved leads.active leads.silent leads.chosen (fun other distinct => ?_) ?_
  · exact isSilentAt_congr (by rw [moved, Table.find?_insert_of_ne _ _ (Ne.symm distinct)])
  · rw [isSilentAt_of_stands stands, silent]

namespace Compiled

variable {g : Graph} {i j last : Nat} {node : Node}

theorem path_sound (compiled : S.Compiled D) {n : Nat} (sound : s.Sound S)
    (path : Path (S.Explores config) n s t) : t.Sound S := by
  induction path with
  | refl => exact sound
  | head first _ ih =>
    obtain ⟨name, found, -, steps, -⟩ := explores_iff.mp first
    exact ih (compiled.steps_sound sound steps)

theorem passes (compiled : S.Compiled D) (config : RunConfig) (sound : s.Sound S)
    (stands : S.StandsAt s name i node) (mark : node.action.isMark = true)
    (edge : node.successors.head? = some j) :
    S.StepsTo config s name (s.advance name [j]) := by
  refine (compiled.mem_step_iff sound).mpr ?_
  cases action : node.action with
  | callSite f =>
    exact ⟨i, node, node.successors.map .enter, .enter j, stands, by simp [movesAt, action],
      List.mem_map_of_mem (List.mem_of_head? edge), rfl⟩
  | alternative tag | join =>
    exact ⟨i, node, [.pass], .pass, stands, by simp only [movesAt, action]; rfl, by simp,
      by simp [State.perform, State.advance, edge]⟩
  | _ => simp [action, Action.isMark] at mark

theorem glides (compiled : S.Compiled D) (graph : S.graph name = .ok g) (gone : g.Glides i last)
    (edge : g.next? last = some j) (sound : s.Sound S) (leads : S.Leads s name (some name))
    (stands : S.StandsAt s name i node) (mark : node.action.isMark = true) :
    ∃ n steps, Path (S.Explores config) n s
      { s with pcs := s.pcs.insert name (some j), steps } := by
  obtain ⟨inst, got, rfl⟩ := graph_eq_ok_iff.mp graph
  have next {i k : Nat} {node : Node} {s : State} (stands : S.StandsAt s name i node)
      (edge : inst.graph.next? i = some k) : node.successors.head? = some k := by
    obtain ⟨-, inst', got', found⟩ := stands
    obtain rfl := Except.ok.inj (got.symm.trans got')
    simpa [Graph.next?, found] using edge
  induction gone using Relation.ReflTransGen.head_induction_on generalizing s node with
  | refl =>
    have passed := compiled.passes config sound stands mark (next stands edge)
    exact ⟨1, s.steps + 1,
      .head (explores_iff.mpr ⟨name, some name, leads, passed, by simp⟩) (.refl _)⟩
  | @head i k slide _ ih =>
    obtain ⟨edge', node', found, mark'⟩ := slide
    have passed := compiled.passes config sound stands mark (next stands edge')
    have stands' : S.StandsAt (s.advance name [k]) name k node' :=
      ⟨by simp [State.advance], inst, got, found⟩
    obtain ⟨n, steps, path⟩ := ih (compiled.steps_sound sound passed)
      (leads.move sound rfl stands' (Action.isSilent_of_isMark mark')) stands' mark'
    refine ⟨n + 1, steps, .head (explores_iff.mpr ⟨name, some name, leads, passed, by simp⟩) ?_⟩
    simpa [State.advance, Table.insert_insert] using path

end Compiled

def Jumps : Move → Prop
  | .finish | .stop | .enter _ => True
  | _ => False

theorem Offers.straight {node : Node} {m : Move} (offers : S.Offers s name node m)
    (walks : ¬ Jumps m) :
    node.action.branches = false ∧ node.action ≠ .finish ∧
      ∀ next, m.target next = next.head? := by
  cases offers with
  | finish | stop | arm | alternative => exact absurd trivial walks
  | draw action | assign action | insert action | remove action | consume action | read action
  | emit action => simp [action, Action.branches, Move.target]
  | pass action =>
    rcases action with action | ⟨cs, excluded, action⟩ | action | ⟨tag, action⟩ | action <;>
      simp [action, Action.branches, Move.target]

end

namespace Embedding

variable {S S' : System} {e : S.Embedding S'} {D D' : Declarations} {config : RunConfig}
  {s s' t : State} {name : String}

theorem exists_target {m m' : Move} {place place' : Nat} {node node' : Node} {g' : Graph}
    (offers : S.Offers s name node m) (stands : S.StandsAt s name place node)
    (across : e.Across name node g' place' node') (moves : e.Moves name m m') :
    Option.Rel (fun i i' => (e.places name)[i]? = some i') (m.target node.successors)
        (m'.target node'.successors) ∨
      ∃ j j', m.target node.successors = some j ∧ (e.places name)[j]? = some j' ∧
        m'.target node'.successors = g'.next? place' ∧ g'.LeadsOn place' j' := by
  by_cases jumps : Jumps m
  · left
    cases moves with
    | finish | stop => exact .none
    | enter placed => exact .some placed
    | _ => exact absurd jumps (by simp [Jumps])
  · right
    obtain ⟨straight, goesOn, walks⟩ := offers.straight jumps
    have walks' : m'.target node'.successors = node'.successors.head? := by
      cases moves with
      | finish | stop | enter => exact absurd trivial jumps
      | _ => rfl
    obtain ⟨-, inst, got, found⟩ := stands
    -- Control stops nowhere but at the end.
    obtain ⟨j, first⟩ : ∃ j, node.successors.head? = some j := by
      cases after : node.successors with
      | nil => exact absurd (e.ended got ⟨node, found, after, straight⟩ found) goesOn
      | cons j rest => exact ⟨j, rfl⟩
    obtain ⟨j', placed, led⟩ := (Graph.follows_straight straight).mp across.follows j first
    refine ⟨j, j', (walks _).trans first, placed, ?_, led⟩
    rw [walks', Graph.next?, across.found, Option.bind_some]

theorem Mirrors.stepsTo (mirrors : e.Mirrors s s') (compiled : S.Compiled D)
    (compiled' : S'.Compiled D') (sound : s.Sound S) (sound' : s'.Sound S')
    (steps : S.StepsTo config s name t) :
    ∃ t' g' pc pc', S'.StepsTo config s' name t' ∧ e.Agrees t t' ∧ S'.graph name = .ok g' ∧
      t.pcs = s.pcs.insert name pc ∧ t'.pcs = s'.pcs.insert name pc' ∧
      (Option.Rel (fun i i' => (e.places name)[i]? = some i') pc pc' ∨
        ∃ place' j j', pc = some j ∧ (e.places name)[j]? = some j' ∧ pc' = g'.next? place' ∧
          g'.LeadsOn place' j') := by
  obtain ⟨place, node, moves, m, stands, offered, among, performs⟩ :=
    (compiled.mem_step_iff sound).mp steps
  obtain ⟨g', place', node', placed, across, stands'⟩ := mirrors.exists_stands stands
  obtain ⟨moves', offered', likewise⟩ :=
    mirrors.toAgrees.movesAt compiled sound stands across offered
  obtain ⟨m', among', same⟩ := likewise m among
  obtain ⟨t', performs', agrees⟩ := mirrors.toAgrees.perform compiled.wellFormed sound.ordered
    sound'.ordered same performs node'.successors
  refine ⟨t', g', _, _, ?_, agrees, across.graph, (State.moved_of_perform performs).places,
    (State.moved_of_perform performs').places, ?_⟩
  · exact (compiled'.mem_step_iff sound').mpr
      ⟨place', node', moves', m', stands', offered', among', performs'⟩
  · refine (exists_target (offers_of_mem offered among) stands across same).imp_right ?_
    rintro ⟨j, j', first, there, first', led⟩
    exact ⟨place', j, j', first, there, first', led⟩

theorem Mirrors.explores (mirrors : e.Mirrors s s') (compiled : S.Compiled D)
    (compiled' : S'.Compiled D') (sound : s.Sound S) (sound' : s'.Sound S')
    (explored : S.Explores config s t) :
    ∃ n t', Path (S'.Explores config) n s' t' ∧ e.Mirrors t t' ∧ t.Sound S ∧ t'.Sound S' := by
  obtain ⟨name, found, leads, steps, all⟩ := explores_iff.mp explored
  obtain ⟨t', g', pc, pc', steps', agrees, graph, moved, moved', target⟩ :=
    mirrors.stepsTo compiled compiled' sound sound' steps
  have leads' : S'.Leads s' name found := by
    refine ⟨?_, ?_, leads.chosen⟩
    · rw [mirrors.active]
      exact leads.active
    · rw [mirrors.active]
      exact mirrors.firstSilent? leads.silent
  have explored' : S'.Explores config s' t' := by
    refine explores_iff.mpr ⟨name, found, leads', steps', fun none other active => ?_⟩
    rw [mirrors.active] at active
    obtain ⟨out, stepped⟩ := all none other active
    obtain ⟨place, node, moves, stands, offered, -⟩ := step_eq_ok_iff.mp stepped
    obtain ⟨g', place', node', -, across, stands'⟩ := mirrors.exists_stands stands
    obtain ⟨moves', offered', -⟩ := mirrors.toAgrees.movesAt compiled sound stands across offered
    exact (compiled'.exists_stepped sound' stands' offered').imp fun _ => And.left
  have soundT := compiled.steps_sound sound steps
  have soundT' := compiled'.steps_sound sound' steps'
  rcases target with placed | ⟨place', j, j', rfl, placed, rfl, last, gone, edge⟩
  · refine ⟨1, t', .head explored' (.refl _), ⟨agrees, ?_⟩, soundT, soundT'⟩
    rw [moved, moved']
    exact mirrors.pcs.insert placed
  · -- The next node is reached at once, or by way of marks.
    have here : t.pcs.Alike (fun name => Option.Rel fun i i' => (e.places name)[i]? = some i')
        (s'.pcs.insert name (some j')) := by
      rw [moved]
      exact mirrors.pcs.insert (.some placed)
    rcases Relation.ReflTransGen.cases_head gone with rfl | ⟨k, slide, gone⟩
    · rw [edge] at moved'
      exact ⟨1, t', .head explored' (.refl _), ⟨agrees, by rwa [moved']⟩, soundT, soundT'⟩
    · obtain ⟨edge', node', found', mark⟩ := slide
      rw [edge'] at moved'
      obtain ⟨inst', got', rfl⟩ := graph_eq_ok_iff.mp graph
      have stands : S'.StandsAt t' name k node' := ⟨by simp [moved'], inst', got', found'⟩
      obtain ⟨n, steps, path⟩ := compiled'.glides graph gone edge soundT'
        (leads'.move sound' moved' stands (Action.isSilent_of_isMark mark)) stands mark
      refine ⟨n + 1, _, .head explored' path, ⟨agrees.move _ _ _ _, ?_⟩, soundT, ?_⟩
      · rw [moved', Table.insert_insert]
        exact here
      · exact compiled'.path_sound soundT' path

theorem drawGlobals_agrees (e : S.Embedding S') (name : String) {globals : List GlobalFresh}
    (among : globals ⊆ S.globals) {shared shared' : Subst} {drawn drawn' : Tally}
    (ordered : drawn.Ordered) (ordered' : drawn'.Ordered)
    (carried : shared' = shared.carry (e.vars name) (Term.recast (e.vars name) e.names))
    (counts : ∀ id, drawn'.count (e.ids id) = drawn.count id) :
    (State.drawGlobals globals shared' drawn').1 =
        (State.drawGlobals globals shared drawn).1.carry (e.vars name)
          (Term.recast (e.vars name) e.names) ∧
      ∀ id, (State.drawGlobals globals shared' drawn').2.count (e.ids id) =
        (State.drawGlobals globals shared drawn).2.count id := by
  induction globals generalizing shared shared' drawn drawn' with
  | nil => exact ⟨carried, counts⟩
  | cons g rest ih =>
    have member : g ∈ S.globals := among (by simp)
    have fixed : e.ids g.nonce = g.nonce := e.fixedIds g member
    have count : drawn'.count g.nonce = drawn.count g.nonce := by
      have same := counts g.nonce
      rwa [fixed] at same
    refine ih (fun g' later => among (by simp [later])) (ordered.bump _) (ordered'.bump _) ?_ ?_
    · have image : (nonceName g.nonce (drawn.count g.nonce)).recast (e.vars name) e.names =
          nonceName (e.ids g.nonce) (drawn.count g.nonce) := renumber_nonce e.ids rfl
      rw [Table.carry_insert (e.distinct name), e.fixedVars name g member, image, fixed, carried,
        count]
    · intro id
      have same : g.nonce = e.ids id ↔ g.nonce = id :=
        ⟨fun same => e.distinctIds (fixed.trans same), fun same => same ▸ fixed.symm⟩
      simp only [Tally.count_bump ordered, Tally.count_bump ordered', same, counts]

theorem mirrors_start (e : S.Embedding S') (compiled : S.Compiled D) : e.Mirrors S.start S'.start := by
  have ordered : Tally.Ordered {} := by simp [Tally.Ordered]
  have drawn (name : String) := e.drawGlobals_agrees name (List.Subset.refl S.globals) ordered
    ordered Table.carry_empty.symm fun _ => rfl
  have globals := e.globals
  refine ⟨⟨fun name => ?_, fun key => ?_, rfl, ?_⟩, ?_⟩
  · by_cases known : name ∈ S.instances.map (·.name)
    · obtain ⟨inst', member', same⟩ := List.mem_map.mp (e.labels ▸ known)
      obtain ⟨inst, member, rfl⟩ := List.mem_map.mp known
      rw [start, start, env_opening _ member, ← same, env_opening _ member', same, globals]
      exact (drawn inst.name).1
    · have absent (R : System) (labels : R.instances.map (·.name) = S.instances.map (·.name)) :
          R.start.env name = .empty := by
        have missing : name ∉ R.start.envs.keys := by
          rw [← labels] at known
          simpa [start, opening, Table.mem_keys_ofList, Function.comp_def] using known
        simp [State.env, Table.find?_eq_none_iff.mpr missing]
      rw [absent S' e.labels, absent S rfl, Table.carry_empty]
  · simp only [start, opening, find?_opened, e.stores]
    cases declared : S.stores.find? key with
    | none => rfl
    | some decl =>
      have sound := compiled.decls.store (compiled.stores ▸ declared)
      have same : decl.initial.map (Term.recast id e.names) = decl.initial :=
        (List.map_congr_left fun fact member =>
          Term.recast_of_nameless (sound.nameless fact member)).trans (List.map_id _)
      simp [Store.recast, same]
  · simpa [start, opening, globals] using (drawn "").2
  · have pcs : S'.start.pcs = S.start.pcs := by
      have pairs (R : System) : R.instances.map (fun inst => (inst.name, some 0)) =
          (R.instances.map (·.name)).map fun name => (name, some 0) := by simp
      simp only [start, opening]
      rw [pairs S', pairs S, e.labels]
    rw [pcs, Table.Alike, List.forall₂_same]
    rintro ⟨name, pc⟩ entry
    have found := Table.find?_of_mem_entries (Table.nodup_keys_ofList _) entry
    obtain ⟨inst, member, rfl, rfl⟩ : ∃ inst ∈ S.instances, inst.name = name ∧ some 0 = pc := by
      simpa using Table.find?_ofList found
    obtain ⟨inst', got⟩ := exists_get_iff.mpr (List.mem_map_of_mem member)
    exact ⟨rfl, .some (e.first got)⟩

theorem Mirrors.explored (mirrors : e.Mirrors s s') (compiled : S.Compiled D)
    (compiled' : S'.Compiled D') (sound : s.Sound S) (sound' : s'.Sound S') {n : Nat}
    (path : Path (S.Explores config) n s t) :
    ∃ m t', Path (S'.Explores config) m s' t' ∧ e.Mirrors t t' := by
  induction path generalizing s' with
  | refl => exact ⟨0, s', .refl s', mirrors⟩
  | head first _ ih =>
    obtain ⟨m, t', path, mirrors, sound, sound'⟩ :=
      mirrors.explores compiled compiled' sound sound' first
    obtain ⟨m', t'', path', mirrors'⟩ := ih mirrors sound sound'
    exact ⟨m + m', t'', path.append path', mirrors'⟩

end Embedding

/-- Whatever events a search of the system comes to, a search of the system with more attacker grants
comes to as well, under other nonces; unless the name of a fresh constant ends like that of a
variable. -/
theorem attackerGrants_only_add {compiler : CompilerConfig} {config : RunConfig} {M M' : Model}
    {S S' : System} (widens : M.Widens M') (done : compile compiler M = .ok S)
    (done' : compile compiler M' = .ok S')
    (apart : ∀ g ∈ S.globals, ∀ (x : String) (n : Nat), g.var ≠ s!"{x}.{n}") {s₀ s : State} {n : Nat}
    (initial : State.initial S = .ok s₀) (path : Path (S.Explores config) n s₀ s) :
    ∃ s₀' n' s' ρ, State.initial S' = .ok s₀' ∧ Path (S'.Explores config) n' s₀' s' ∧
      Function.Injective ρ ∧
      s'.events.map (fun event => (event.owner, event.term)) =
        s.events.map fun event => (event.owner, event.term.recast id ρ) := by
  obtain ⟨D, D', compiled, compiled', ⟨e⟩⟩ := exists_embedding widens apart done done'
  obtain rfl : S.start = s₀ := Except.ok.inj (compiled.initial_eq.symm.trans initial)
  obtain ⟨n', s', path', mirrors⟩ := (e.mirrors_start compiled).explored compiled compiled'
    compiled.start_sound compiled'.start_sound path
  exact ⟨S'.start, n', s', e.names, compiled'.initial_eq, path', e.names_injective, mirrors.events⟩

def follow (S : System) (config : RunConfig) : State → List Nat → Result State
  | s, [] => .ok s
  | s, i :: rest => do
      match (← S.successors config s)[i]? with
      | none => throw .outOfRange
      | some s' => S.follow config s' rest

theorem path_of_follow {S : System} {config : RunConfig} {s t : State} {choices : List Nat}
    (followed : S.follow config s choices = .ok t) :
    Path (S.Explores config) choices.length s t := by
  induction choices generalizing s with
  | nil =>
    obtain rfl : s = t := by simpa [follow] using followed
    exact .refl s
  | cons i rest ih =>
    simp only [follow, bind_eq_ok_iff] at followed
    obtain ⟨out, done, followed⟩ := followed
    cases chosen : out[i]? with
    | none => simp [chosen] at followed
    | some s' =>
      simp only [chosen] at followed
      exact .head ⟨out, done, List.mem_of_getElem? chosen⟩ (ih followed)

end System

def Model.exposed (grants : List AttackerGrantDecl) : Model :=
  { Model.courier with
    attackerGrants := grants
    attacks := [{ name := "forge", params := ["c"], target := some "recv",
                  body := .seq [.new "n", .ret (.ident "n" none) none] }]
    system := some
      { instances := [{ template := "Receiver", args := ["net"], name := some "b" },
          { template := "Sender", args := ["net"], name := some "a" }]
        lemmas := [{ name := "arrives", kind := .reachable,
                     events := [{ tag := "Got", args := [.ident "y" none] }] }] } }

namespace System

theorem exposed_only_adds : ∃ S S' s₀ s n,
    compile {} (Model.exposed []) = .ok S ∧
    compile {} (Model.exposed [{ subject := "net_t", attacks := ["forge"] }]) = .ok S' ∧
    State.initial S = .ok s₀ ∧ Path (S.Explores {}) n s₀ s ∧
    s.events.map (fun event => (event.owner, event.term)) =
      [("b", .app "Got" [.app "pair" [.name "n1.0", .name "n0.0"]])] ∧
    ∃ s₀' n' s' ρ, State.initial S' = .ok s₀' ∧ Path (S'.Explores {}) n' s₀' s' ∧
      Function.Injective ρ ∧
      s'.events.map (fun event => (event.owner, event.term)) =
        [("b", .app "Got" [.app "pair" [.name (ρ "n1.0"), .name (ρ "n0.0")]])] := by
  have ran : (do
      let S ← compile {} (Model.exposed [])
      let S' ← compile {} (Model.exposed [{ subject := "net_t", attacks := ["forge"] }])
      let s₀ ← State.initial S
      let s ← S.follow {} s₀ (List.replicate 8 0)
      return (S.globals.map (·.var), s.events.map fun event => (event.owner, event.term)) :
        Result (List String × List (String × Term))) =
      .ok (["~seal"], [("b", .app "Got" [.app "pair" [.name "n1.0", .name "n0.0"]])]) := by
    decide +kernel
  simp only [bind_eq_ok_iff, pure_eq_ok_iff, lift_eq_ok_iff, Prod.mk.injEq] at ran
  obtain ⟨S, done, S', done', s₀, initial, s, followed, vars, events⟩ := ran
  have widens : (Model.exposed []).Widens
      (Model.exposed [{ subject := "net_t", attacks := ["forge"] }]) := ⟨rfl, List.nil_subset _⟩
  have apart : ∀ g ∈ S.globals, ∀ (x : String) (n : Nat), g.var ≠ s!"{x}.{n}" := by
    intro g member x n same
    have named : g.var = "~seal" := by
      simpa [vars] using List.mem_map_of_mem (f := (·.var)) member
    have dotted : '.' ∈ (s!"{x}.{n}").toList := by
      simp only [String.toList_append, List.mem_append]
      exact .inl (.inr (by decide))
    rw [← same, named] at dotted
    exact absurd dotted (by decide)
  have path := path_of_follow followed
  obtain ⟨s₀', n', s', ρ, initial', path', distinct, same⟩ :=
    attackerGrants_only_add widens done done' apart initial path
  refine ⟨S, S', s₀, s, _, done, done', initial, path, events, s₀', n', s', ρ, initial', path',
    distinct, ?_⟩
  have mapped := congrArg (List.map fun event : String × Term => (event.1, event.2.recast id ρ)) events
  rw [same]
  simpa using mapped

end System

end ThreatModel
