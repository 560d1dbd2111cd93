import Mathlib
import ThreatModel.Proofs.Graph.Growth

set_option autoImplicit false

namespace ThreatModel

def Action.isMark : Action → Bool
  | .callSite _ | .alternative _ | .join => true
  | _ => false

namespace Graph

def next? (g : Graph) (i : Nat) : Option Nat := (g.node? i).bind (·.successors.head?)

def Slides (g : Graph) (i j : Nat) : Prop :=
  g.next? i = some j ∧ ∃ node, g.node? j = some node ∧ node.action.isMark = true

def Glides (g : Graph) : Nat → Nat → Prop := Relation.ReflTransGen g.Slides

def LeadsOn (g : Graph) (i j : Nat) : Prop := ∃ last, g.Glides i last ∧ g.next? last = some j

def Appends (g g' : Graph) : Prop :=
  ∀ i node, g.node? i = some node →
    ∃ more, g'.node? i = some { node with successors := node.successors ++ more }

def Extends (g g' : Graph) : Prop :=
  ∀ i node, g.node? i = some node → ∃ more,
    g'.node? i = some { node with successors := node.successors ++ more } ∧
      (node.action = .choice → more = [])

variable {g g' g'' : Graph} {ends ends' : List Nat} {i j : Nat} {node : Node}

theorem Grows.appends (grows : g.Grows ends g') : g.Appends g' := by
  intro i node found
  obtain ⟨more, there, -⟩ := grows.kept i node found
  exact ⟨more, there⟩

namespace Appends

theorem refl (g : Graph) : g.Appends g := fun i node found => ⟨[], by simpa using found⟩

theorem trans (one : g.Appends g') (two : g'.Appends g'') : g.Appends g'' := by
  intro i node found
  obtain ⟨more, here⟩ := one i node found
  obtain ⟨more', there⟩ := two i _ here
  exact ⟨more ++ more', by simpa using there⟩

theorem node? (app : g.Appends g') (found : g.node? i = some node) :
    ∃ node', g'.node? i = some node' ∧ node'.action = node.action := by
  obtain ⟨more, there⟩ := app i node found
  exact ⟨_, there, rfl⟩

theorem next? (app : g.Appends g') (edge : g.next? i = some j) : g'.next? i = some j := by
  obtain ⟨node, found, first⟩ := Option.bind_eq_some_iff.mp edge
  obtain ⟨more, there⟩ := app i node found
  simp [Graph.next?, there, List.head?_append, first]

theorem glides (app : g.Appends g') (gone : g.Glides i j) : g'.Glides i j := by
  refine Relation.ReflTransGen.mono (fun a b slide => ?_) _ _ gone
  obtain ⟨edge, node, found, mark⟩ := slide
  obtain ⟨node', there, action⟩ := app.node? found
  exact ⟨app.next? edge, node', there, by rw [action, mark]⟩

theorem leadsOn (app : g.Appends g') (led : g.LeadsOn i j) : g'.LeadsOn i j := by
  obtain ⟨last, gone, edge⟩ := led
  exact ⟨last, app.glides gone, app.next? edge⟩

end Appends

namespace Extends

theorem appends (ext : g.Extends g') : g.Appends g' := by
  intro i node found
  obtain ⟨more, there, -⟩ := ext i node found
  exact ⟨more, there⟩

theorem refl (g : Graph) : g.Extends g := fun i node found => ⟨[], by simpa using found, fun _ => rfl⟩

theorem choice (ext : g.Extends g') (found : g.node? i = some node) (action : node.action = .choice) :
    g'.node? i = some node := by
  obtain ⟨more, there, none⟩ := ext i node found
  simpa [none action] using there

end Extends

theorem Grows.extends (grows : g.Grows ends g')
    (apart : ∀ e ∈ ends, ∀ node, g.node? e = some node → node.action ≠ .choice) :
    g.Extends g' := by
  intro i node found
  obtain ⟨more, there, -, only⟩ := grows.kept i node found
  exact ⟨more, there, fun action => only fun member => apart i member node found action⟩

theorem Open.action (free : g.Open i) (found : g.node? i = some node) :
    node.action.branches = false := by
  obtain ⟨old, found', -, straight⟩ := free
  obtain rfl := Option.some.inj (found'.symm.trans found)
  exact straight

theorem Open.not_choice (free : g.Open i) (node : Node) (found : g.node? i = some node) :
    node.action ≠ .choice := by
  intro action
  simpa [action, Action.branches] using free.action found

theorem Threads.extends (threads : g.Threads ends g' ends') (free : ∀ e ∈ ends, g.Open e) :
    g.Extends g' :=
  threads.toGrows.extends fun e member => (free e member).not_choice

theorem extends_connect {source : Nat} (target : Nat) (free : g.Open source) :
    g.Extends (g.connect source target) := by
  intro i node found
  rw [node?_connect]
  by_cases same : source = i
  · subst same
    exact ⟨[target], by simp [found], fun action => absurd action (free.not_choice node found)⟩
  · exact ⟨[], by simp [same, found], fun _ => rfl⟩

def Last (g : Graph) (i : Nat) : Prop := ∃ node, g.node? i = some node ∧ node.successors = []

theorem Last.inside (last : g.Last i) : i < g.size := by
  obtain ⟨node, found, -⟩ := last
  exact lt_size_of_node? found

theorem Open.last (free : g.Open i) : g.Last i := by
  obtain ⟨node, found, none, -⟩ := free
  exact ⟨node, found, none⟩

theorem next?_append (new : Node) (last : ∀ e ∈ ends, g.Last e) (member : i ∈ ends) :
    (g.append new ends).next? i = some g.size := by
  obtain ⟨old, found, none⟩ := last i member
  have other : i ≠ g.size := (last i member).inside.ne
  obtain ⟨n, count⟩ := Nat.exists_eq_succ_of_ne_zero (List.count_pos_iff.mpr member).ne'
  simp [next?, node?_append new ends fun e among => (last e among).inside, other, found, none, count,
    List.replicate_succ]

def Pool (places : List Nat) (g' : Graph) (ends ends' : List Nat) : Prop :=
  ∀ e ∈ ends, ∃ b ∈ ends', ∃ i, places[e]? = some i ∧ g'.Glides i b

theorem getElem?_of_prefix {places later : List Nat} (kept : places <+: later)
    (found : places[i]? = some j) : later[i]? = some j := by
  obtain ⟨more, rfl⟩ := kept
  rw [List.getElem?_append_left (List.getElem?_eq_some_iff.mp found).1]
  exact found

namespace Pool

variable {places later others others' : List Nat}

theorem widen (pool : Pool places g ends ends') (kept : places <+: later) (app : g.Appends g') :
    Pool later g' ends ends' := by
  intro e member
  obtain ⟨b, among, i, found, gone⟩ := pool e member
  exact ⟨b, among, i, getElem?_of_prefix kept found, app.glides gone⟩

theorem nil : Pool places g [] ends' := by simp [Pool]

theorem single (found : places[i]? = some j) : Pool places g [i] [j] := by
  intro e member
  obtain rfl := List.mem_singleton.mp member
  exact ⟨j, by simp, j, found, .refl⟩

theorem append (one : Pool places g ends ends') (two : Pool places g others others') :
    Pool places g (ends ++ others) (ends' ++ others') := by
  intro e member
  rcases List.mem_append.mp member with here | there
  · obtain ⟨b, among, rest⟩ := one e here
    exact ⟨b, by simp [among], rest⟩
  · obtain ⟨b, among, rest⟩ := two e there
    exact ⟨b, by simp [among], rest⟩

theorem ne_nil (pool : Pool places g ends ends') (some : ends ≠ []) : ends' ≠ [] := by
  obtain ⟨e, member⟩ := List.exists_mem_of_ne_nil ends some
  obtain ⟨b, among, -⟩ := pool e member
  exact List.ne_nil_of_mem among

theorem leadsOn (pool : Pool places g ends ends') (new : Node) (bare : new.successors = [])
    (last : ∀ e ∈ ends', g.Last e) (member : i ∈ ends) (placed : places[i]? = some j) :
    (g.append new ends').LeadsOn j g.size := by
  obtain ⟨b, among, i', found, gone⟩ := pool i member
  obtain rfl := Option.some.inj (found.symm.trans placed)
  have grows := Grows.append new bare fun e among => (last e among).inside
  exact ⟨b, grows.appends.glides gone, next?_append new last among⟩

theorem mark (pool : Pool places g ends ends') (new : Node) (bare : new.successors = [])
    (isMark : new.action.isMark = true) (last : ∀ e ∈ ends', g.Last e) :
    Pool places (g.append new ends') ends [g.size] := by
  have inside : ∀ e ∈ ends', e < g.size := fun e member => (last e member).inside
  intro e member
  obtain ⟨b, among, i, found, gone⟩ := pool e member
  refine ⟨g.size, by simp, i, found, ?_⟩
  exact ((Grows.append new bare inside).appends.glides gone).tail
    ⟨next?_append new last among, _, node?_append_self new ends' inside, isMark⟩

end Pool

/-- How control goes on from a node's place: to the places of a choice's arms, in their order; at
least to those of a call's alternatives; otherwise by marks to the place of the next node. -/
def Follows (places : List Nat) (g' : Graph) (node : Node) (i' : Nat) : Prop :=
  match node.action with
  | .choice => ∃ node', g'.node? i' = some node' ∧
      List.Forall₂ (fun j j' => places[j]? = some j') node.successors node'.successors
  | .callSite _ => ∃ node', g'.node? i' = some node' ∧
      ∀ j ∈ node.successors, ∃ j' ∈ node'.successors, places[j]? = some j'
  | _ => ∀ j, node.successors.head? = some j → ∃ j', places[j]? = some j' ∧ g'.LeadsOn i' j'

theorem follows_straight {places : List Nat} {i' : Nat} (straight : node.action.branches = false) :
    Follows places g' node i' ↔
      ∀ j, node.successors.head? = some j → ∃ j', places[j]? = some j' ∧ g'.LeadsOn i' j' := by
  unfold Follows
  split <;> simp_all [Action.branches]

theorem Follows.widen {places later : List Nat} {i' : Nat} (follows : Follows places g' node i')
    (kept : places <+: later) (app : g'.Appends g'')
    (same : node.action = .choice → g''.node? i' = g'.node? i') : Follows later g'' node i' := by
  unfold Follows at follows ⊢
  split at follows
  next action =>
    obtain ⟨node', there, arms⟩ := follows
    exact ⟨node', (same action).trans there, arms.imp fun _ _ => getElem?_of_prefix kept⟩
  next =>
    obtain ⟨node', there, sites⟩ := follows
    obtain ⟨more, there'⟩ := app i' node' there
    refine ⟨_, there', fun j member => ?_⟩
    obtain ⟨j', among, next⟩ := sites j member
    exact ⟨j', by simp [among], getElem?_of_prefix kept next⟩
  next =>
    intro j first
    obtain ⟨j', next, led⟩ := follows j first
    exact ⟨j', getElem?_of_prefix kept next, app.leadsOn led⟩

/-- `places` says where the nodes of `g` stand in `g'`, where actions are alike by `R`. -/
structure Laid (R : Action → Action → Prop) (places : List Nat) (g g' : Graph) : Prop where
  length : places.length = g.size
  distinct : places.Nodup
  label : ∀ i node i', g.node? i = some node → places[i]? = some i' →
    ∃ node', g'.node? i' = some node' ∧ R node.action node'.action
  follows : ∀ i node i', g.node? i = some node → places[i]? = some i' → Follows places g' node i'

namespace Laid

variable {R R' : Action → Action → Prop} {places : List Nat}

theorem place (laid : g.Laid R places g') (inside : i < g.size) : ∃ i', places[i]? = some i' := by
  rw [← laid.length] at inside
  exact ⟨_, List.getElem?_eq_getElem inside⟩

theorem inside (laid : g.Laid R places g') (found : places[i]? = some j) : j < g'.size := by
  have bound : i < g.size := laid.length ▸ (List.getElem?_eq_some_iff.mp found).1
  obtain ⟨node, here⟩ := exists_node? bound
  obtain ⟨node', there, -⟩ := laid.label i node j here found
  exact lt_size_of_node? there

theorem unused (laid : g.Laid R places g') : g'.size ∉ places := by
  intro member
  obtain ⟨i, found⟩ := List.mem_iff_getElem?.mp member
  exact absurd (laid.inside found) (by omega)

theorem mono (laid : g.Laid R places g') (wider : ∀ a a', R a a' → R' a a') :
    g.Laid R' places g' :=
  { laid with
    label := fun i node i' found placed =>
      let ⟨node', there, alike⟩ := laid.label i node i' found placed
      ⟨node', there, wider _ _ alike⟩ }

theorem widen (laid : g.Laid R places g') (keeps : ∀ a', R .choice a' → a' = .choice)
    (ext : g'.Extends g'') : g.Laid R places g'' where
  length := laid.length
  distinct := laid.distinct
  label := by
    intro i node i' found placed
    obtain ⟨node', there, alike⟩ := laid.label i node i' found placed
    obtain ⟨node'', there', action⟩ := ext.appends.node? there
    exact ⟨node'', there', action ▸ alike⟩
  follows := by
    intro i node i' found placed
    refine (laid.follows i node i' found placed).widen (List.prefix_refl _) ext.appends fun action => ?_
    obtain ⟨node', there, alike⟩ := laid.label i node i' found placed
    rw [there, ext.choice there (keeps _ (action ▸ alike))]

theorem append (laid : g.Laid R places g') {node node' : Node} (bare : node.successors = [])
    (bare' : node'.successors = []) (alike : R node.action node'.action)
    (inside : ∀ e ∈ ends, e < g.size) (inside' : ∀ e ∈ ends', e < g'.size)
    (follows : ∀ i old i', g.node? i = some old → places[i]? = some i' →
      Follows (places ++ [g'.size]) (g'.append node' ends')
        { old with successors := old.successors ++ List.replicate (ends.count i) g.size } i') :
    (g.append node ends).Laid R (places ++ [g'.size]) (g'.append node' ends') := by
  have grows := Grows.append node' bare' inside'
  have old {i i' : Nat} (small : i < g.size) (placed : (places ++ [g'.size])[i]? = some i') :
      places[i]? = some i' := by
    rwa [List.getElem?_append_left (laid.length ▸ small)] at placed
  have last : (places ++ [g'.size])[g.size]? = some g'.size := by simp [← laid.length]
  have there := node?_append_self node' ends' inside'
  constructor
  · simp [laid.length]
  · simpa using laid.distinct.concat laid.unused
  · intro i node₁ i' found placed
    rcases append_cases inside found with ⟨rfl, rfl⟩ | ⟨before, here, action, -⟩
    · obtain rfl := Option.some.inj (last.symm.trans placed)
      exact ⟨_, there, alike⟩
    · obtain ⟨after, after', alike'⟩ := laid.label i before i' here (old (lt_size_of_node? here) placed)
      obtain ⟨node'', there', action'⟩ := grows.appends.node? after'
      exact ⟨node'', there', by rw [action, action']; exact alike'⟩
  · intro i node₁ i' found placed
    rw [node?_append node ends inside] at found
    split at found
    next same =>
      -- Nothing follows the new node yet.
      obtain rfl := Option.some.inj found
      subst same
      obtain rfl := Option.some.inj (last.symm.trans placed)
      unfold Follows
      split
      · exact ⟨_, there, by simp [bare, bare']⟩
      · exact ⟨_, there, by simp [bare]⟩
      · simp [bare]
    next =>
      obtain ⟨before, here, rfl⟩ := Option.map_eq_some_iff.mp found
      exact follows i before i' here (old (lt_size_of_node? here) placed)

theorem chain (laid : g.Laid R places g') (keeps : ∀ a', R .choice a' → a' = .choice)
    {node node' : Node} (bare : node.successors = []) (bare' : node'.successors = [])
    (alike : R node.action node'.action) (free : ∀ e ∈ ends, g.Open e)
    (free' : ∀ e ∈ ends', g'.Open e) (pool : Pool places g' ends ends') :
    (g.append node ends).Laid R (places ++ [g'.size]) (g'.append node' ends') := by
  have inside' : ∀ e ∈ ends', e < g'.size := fun e member => (free' e member).inside
  have ext : g'.Extends (g'.append node' ends') :=
    (Grows.append node' bare' inside').extends fun e member => (free' e member).not_choice
  refine laid.append bare bare' alike (fun e member => (free e member).inside) inside' ?_
  intro i old i' found placed
  have before := (laid.widen keeps ext).follows i old i' found placed
  by_cases member : i ∈ ends
  · -- The ends had no edges; their first one leads to the new node.
    obtain ⟨old', found', none, straight⟩ := free i member
    obtain rfl := Option.some.inj (found.symm.trans found')
    refine (follows_straight ?_).mpr fun j first => ?_
    · exact straight
    simp only [none, List.nil_append] at first
    obtain rfl := List.eq_of_mem_replicate (List.mem_of_head? first)
    exact ⟨g'.size, by simp [← laid.length],
      pool.leadsOn node' bare' (fun e among => (free' e among).last) member placed⟩
  · simpa [List.count_eq_zero_of_not_mem member] using
      before.widen ⟨[g'.size], rfl⟩ (Extends.refl _).appends fun _ => rfl

theorem draw (laid : g.Laid R places g') {node node' : Node} {c c' : Nat}
    (placed : places[c]? = some c') (several : g.Branches c) (bare : node.successors = [])
    (bare' : node'.successors = []) (alike : R node.action node'.action) :
    (g.append node [c]).Laid R (places ++ [g'.size]) (g'.append node' [c']) := by
  have inside : ∀ e ∈ [c'], e < g'.size := by simpa using laid.inside placed
  have app : g'.Appends (g'.append node' [c']) := (Grows.append node' bare' inside).appends
  have kept : places <+: places ++ [g'.size] := ⟨[g'.size], rfl⟩
  have last : (places ++ [g'.size])[g.size]? = some g'.size := by simp [← laid.length]
  refine laid.append bare bare' alike (by simpa using several.inside) inside ?_
  intro i old i' found placed'
  have before := laid.follows i old i' found placed'
  by_cases same : i = c
  · subst same
    obtain rfl := Option.some.inj (placed.symm.trans placed')
    obtain ⟨old', found', branching⟩ := several
    obtain rfl := Option.some.inj (found.symm.trans found')
    -- Both nodes get one more edge, to the new nodes.
    have drawn {after : Node} (there : g'.node? c' = some after) :
        (g'.append node' [c']).node? c' =
          some { after with successors := after.successors ++ [g'.size] } := by
      have other : c' ≠ g'.size := (laid.inside placed).ne
      simp [node?_append node' [c'] inside, other, there]
    unfold Follows at before ⊢
    cases action : old.action with
    | choice =>
      simp only [action] at before ⊢
      obtain ⟨after, there, arms⟩ := before
      refine ⟨_, drawn there, ?_⟩
      simpa using List.rel_append (arms.imp fun _ _ => getElem?_of_prefix kept) (.cons last .nil)
    | callSite f =>
      simp only [action] at before ⊢
      obtain ⟨after, there, sites⟩ := before
      refine ⟨_, drawn there, fun j member => ?_⟩
      rcases List.mem_append.mp member with was | added
      · obtain ⟨j', among, next⟩ := sites j was
        exact ⟨j', by simp [among], getElem?_of_prefix kept next⟩
      · obtain rfl : j = g.size := by simpa using added
        exact ⟨g'.size, by simp, last⟩
    | _ => simp [action, Action.branches] at branching
  · -- Different nodes have different places, so this place is not the one that gets the edge.
    have other : i' ≠ c' := by
      rintro rfl
      have bound := (List.getElem?_eq_some_iff.mp placed).1
      exact same ((List.getElem?_inj bound laid.distinct).mp (placed.trans placed'.symm)).symm
    have apart : i ∉ [c] := by simpa using same
    rw [List.count_eq_zero_of_not_mem apart, List.replicate_zero, List.append_nil]
    refine before.widen kept app fun _ => ?_
    have old : i' ≠ g'.size := (laid.inside placed').ne
    have none : List.count i' [c'] = 0 := List.count_eq_zero_of_not_mem (by simpa using other)
    simp [node?_append node' [c'] inside, old, none]

theorem connect (laid : g.Laid R places g') {source target source' target' : Nat}
    (free : g.Open source) (placed : places[source]? = some source')
    (reached : places[target]? = some target') (led : g'.LeadsOn source' target') :
    (g.connect source target).Laid R places g' where
  length := by simp [laid.length]
  distinct := laid.distinct
  label := by
    intro i node i' found placed
    rw [node?_connect] at found
    split at found
    · obtain ⟨old, here, rfl⟩ := Option.map_eq_some_iff.mp found
      exact laid.label i old i' here placed
    · exact laid.label i node i' found placed
  follows := by
    intro i node i' found placed'
    rw [node?_connect] at found
    split at found
    next same =>
      subst same
      obtain ⟨old, here, rfl⟩ := Option.map_eq_some_iff.mp found
      obtain ⟨old', here', none, straight⟩ := free
      obtain rfl := Option.some.inj (here.symm.trans here')
      obtain rfl := Option.some.inj (placed.symm.trans placed')
      refine (follows_straight ?_).mpr fun j first => ?_
      · exact straight
      obtain rfl : target = j := by simpa [none] using first
      exact ⟨target', reached, led⟩
    next => exact laid.follows i node i' found placed'

end Laid

end Graph

end ThreatModel
