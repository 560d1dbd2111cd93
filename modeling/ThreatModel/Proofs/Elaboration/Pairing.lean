import Mathlib
import ThreatModel.Proofs.Graph.Embedding
import ThreatModel.Proofs.Term.Renaming
import ThreatModel.Proofs.Elaboration.Growth
import ThreatModel.Proofs.Elaboration.Scoping

set_option autoImplicit false

namespace ThreatModel

structure Pairing where
  places : List Nat
  vars : List (String × String)
  nonces : List (Nat × Nat)

def Condition.recast (ρ : String → String) (c : Condition) : Condition :=
  { c with left := c.left.recast ρ id, right := c.right.recast ρ id }

def Action.recast (ρ : String → String) (f : Nat → Nat) : Action → Action
  | .fresh x nonce => .fresh (ρ x) (f nonce)
  | .assign x t => .assign (ρ x) (t.recast ρ id)
  | .guard cs excluded => .guard (cs.map (·.recast ρ)) (excluded.map (·.map (·.recast ρ)))
  | .insert store t => .insert store (t.recast ρ id)
  | .remove store t => .remove store (t.recast ρ id)
  | .consume store p binds => .consume store (p.recast ρ id) (binds.map ρ)
  | .read store p binds => .read store (p.recast ρ id) (binds.map ρ)
  | .emit t index => .emit (t.recast ρ id) index
  | action => action

def Action.unnumbered : Action → Action
  | .emit t _ => .emit t 0
  | action => action

namespace Pairing

structure Respects (ρ : String → String) (f : Nat → Nat) (P : Pairing) : Prop where
  vars : ∀ p ∈ P.vars, ρ p.1 = p.2
  nonces : ∀ p ∈ P.nonces, f p.1 = p.2

def Terms (P : Pairing) (t t' : Term) : Prop := ∀ ρ f, P.Respects ρ f → t.recast ρ id = t'

def TermLists (P : Pairing) (ts ts' : List Term) : Prop :=
  ∀ ρ f, P.Respects ρ f → ts.map (Term.recast ρ id) = ts'

def Conditions (P : Pairing) (cs cs' : List Condition) : Prop :=
  ∀ ρ f, P.Respects ρ f → cs.map (·.recast ρ) = cs'

def Groups (P : Pairing) (groups groups' : List (List Condition)) : Prop :=
  ∀ ρ f, P.Respects ρ f → groups.map (·.map (·.recast ρ)) = groups'

def Alike (P : Pairing) (action action' : Action) : Prop :=
  ∀ ρ f, P.Respects ρ f → (action.recast ρ f).unnumbered = action'.unnumbered

def Bindings (P : Pairing) : Binding → Binding → Prop
  | .value x, .value y => (x, y) ∈ P.vars
  | .store s, .store s' => s = s'
  | _, _ => False

def Scopes (P : Pairing) (scope scope' : Scope) : Prop :=
  ∀ x, Option.Rel P.Bindings (scope.find? x) (scope'.find? x)

def Arguments (P : Pairing) : Argument → Argument → Prop
  | .value t, .value t' => P.Terms t t'
  | .store s, .store s' => s = s'
  | _, _ => False

def Binds (P : Pairing) (binds binds' : Table String String) : Prop :=
  binds.Alike (fun _ y y' => (y, y') ∈ P.vars) binds'

def Results (P : Pairing) : Option String → Option String → Prop :=
  Option.Rel fun x y => (x, y) ∈ P.vars

def place (P : Pairing) (n : Nat) : Pairing := { P with places := P.places ++ [n] }

def bind (P : Pairing) (x y : String) : Pairing := { P with vars := (x, y) :: P.vars }

def draw (P : Pairing) (id id' : Nat) : Pairing := { P with nonces := (id, id') :: P.nonces }

structure Onward (P : Pairing) (b : Build) (Q : Pairing) (b' : Build) : Prop where
  places : P.places <+: Q.places
  vars : P.vars ⊆ Q.vars
  nonces : P.nonces ⊆ Q.nonces
  graph : b.graph.Appends b'.graph

end Pairing

def Untaken (common : Set String) : Prop :=
  ∀ y ∈ common, ∀ (x : String) (n : Nat), y ≠ s!"{x}.{n}"

/-- The two builds as far as they go together. A variable is one that both hold from the start, or
it was taken in both for the same name. -/
structure Paired (common : Set String) (P : Pairing) (b b' : Build) : Prop where
  laid : b.graph.Laid P.Alike P.places b'.graph
  held : ∀ x ∈ common, (x, x) ∈ P.vars
  origin : ∀ p ∈ P.vars, (p.1 = p.2 ∧ p.1 ∈ common) ∨
    ∃ x m n, p = (s!"{x}.{m}", s!"{x}.{n}") ∧ m < b.taken x ∧ n < b'.taken x
  vars : ∀ p ∈ P.vars, ∀ q ∈ P.vars, p.1 = q.1 ↔ p.2 = q.2
  drawn : ∀ p ∈ P.nonces, p.1 < b.nextNonce ∧ p.2 < b'.nextNonce
  nonces : ∀ p ∈ P.nonces, ∀ q ∈ P.nonces, p.1 = q.1 ↔ p.2 = q.2

structure Meets (common : Set String) (P : Pairing) (b : Build) (ends : Ends) (b' : Build)
    (ends' : Ends) : Prop extends Paired common P b b' where
  pool : Graph.Pool P.places b'.graph ends ends'
  free : ∀ e ∈ ends, b.graph.Open e
  free' : ∀ e ∈ ends', b'.graph.Open e

variable {P Q : Pairing} {b b₁ b' b₁' : Build} {common : Set String}

namespace Pairing

theorem exists_injection {α : Type} [Infinite α] {pairs : List (α × α)}
    (distinct : ∀ p ∈ pairs, ∀ q ∈ pairs, p.1 = q.1 ↔ p.2 = q.2) :
    ∃ h : α → α, Function.Injective h ∧ ∀ p ∈ pairs, h p.1 = p.2 := by
  let s : Set α := {x | ∃ y, (x, y) ∈ pairs}
  have finite : s.Finite := by
    refine (pairs.map Prod.fst).finite_toSet.subset ?_
    rintro x ⟨y, member⟩
    exact List.mem_map.mpr ⟨(x, y), member, rfl⟩
  have small : Cardinal.mk s < Cardinal.mk α :=
    (Cardinal.lt_aleph0_iff_finite.mpr finite).trans_le (Cardinal.aleph0_le_mk α)
  let partner : s ↪ α := ⟨fun x => x.2.choose, fun x y same =>
    Subtype.ext ((distinct _ x.2.choose_spec _ y.2.choose_spec).mpr same)⟩
  obtain ⟨h, agrees⟩ := Cardinal.extend_function_of_lt partner small ⟨Equiv.refl α⟩
  refine ⟨h, h.injective, fun p member => ?_⟩
  have there : p.1 ∈ s := ⟨p.2, member⟩
  exact (agrees ⟨p.1, there⟩).trans ((distinct _ there.choose_spec p member).mp rfl)

theorem rel_imp {α β : Type} {R S : α → β → Prop} (imp : ∀ a b, R a b → S a b) {x : Option α}
    {y : Option β} (rel : Option.Rel R x y) : Option.Rel S x y := by
  cases rel with
  | some pair => exact .some (imp _ _ pair)
  | none => exact .none

namespace Onward

variable {R : Pairing} {b₂ : Build}

theorem refl (P : Pairing) (b : Build) : P.Onward b P b :=
  ⟨List.prefix_refl _, List.Subset.refl _, List.Subset.refl _, (.refl _)⟩

theorem trans (one : P.Onward b Q b₁) (two : Q.Onward b₁ R b₂) : P.Onward b R b₂ where
  places := one.places.trans two.places
  vars := List.Subset.trans one.vars two.vars
  nonces := List.Subset.trans one.nonces two.nonces
  graph := one.graph.trans two.graph

theorem respects (onward : P.Onward b Q b₁) {ρ : String → String} {f : Nat → Nat}
    (respects : Q.Respects ρ f) : P.Respects ρ f :=
  ⟨fun p member => respects.vars p (onward.vars member),
    fun p member => respects.nonces p (onward.nonces member)⟩

theorem terms (onward : P.Onward b Q b₁) {t t' : Term} (alike : P.Terms t t') : Q.Terms t t' :=
  fun ρ f respects => alike ρ f (onward.respects respects)

theorem groups (onward : P.Onward b Q b₁) {groups groups' : List (List Condition)}
    (alike : P.Groups groups groups') : Q.Groups groups groups' :=
  fun ρ f respects => alike ρ f (onward.respects respects)

theorem bindings (onward : P.Onward b Q b₁) {binding binding' : Binding}
    (alike : P.Bindings binding binding') : Q.Bindings binding binding' := by
  cases binding <;> cases binding' <;> first | exact onward.vars alike | exact alike

theorem scopes (onward : P.Onward b Q b₁) {scope scope' : Scope} (alike : P.Scopes scope scope') :
    Q.Scopes scope scope' :=
  fun x => rel_imp (fun _ _ => onward.bindings) (alike x)

theorem results (onward : P.Onward b Q b₁) {x x' : Option String} (alike : P.Results x x') :
    Q.Results x x' :=
  rel_imp (fun _ _ pair => onward.vars pair) alike

theorem argument (onward : P.Onward b Q b₁) {arg arg' : Argument} (alike : P.Arguments arg arg') :
    Q.Arguments arg arg' := by
  cases arg <;> cases arg' <;> first | exact onward.terms alike | exact alike

theorem arguments (onward : P.Onward b Q b₁) {args args' : List Argument}
    (alike : List.Forall₂ P.Arguments args args') : List.Forall₂ Q.Arguments args args' :=
  alike.imp fun _ _ => onward.argument

theorem pool (onward : P.Onward b Q b₁) {ends ends' : Ends}
    (pool : Graph.Pool P.places b.graph ends ends') : Graph.Pool Q.places b₁.graph ends ends' :=
  pool.widen onward.places onward.graph

theorem at_place (onward : P.Onward b Q b₁) {i j : Nat} (found : P.places[i]? = some j) :
    Q.places[i]? = some j :=
  Graph.getElem?_of_prefix onward.places found

theorem alone (P : Pairing) (graph : b.graph.Appends b₁.graph) : P.Onward b P b₁ :=
  { refl P b with graph }

theorem place (P : Pairing) (n : Nat) (graph : b.graph.Appends b₁.graph) :
    P.Onward b (P.place n) b₁ :=
  ⟨⟨[n], rfl⟩, List.Subset.refl _, List.Subset.refl _, graph⟩

theorem bind (P : Pairing) (x y : String) (graph : b.graph.Appends b₁.graph) :
    P.Onward b (P.bind x y) b₁ :=
  ⟨List.prefix_refl _, List.subset_cons_self _ _, List.Subset.refl _, graph⟩

theorem draw (P : Pairing) (id id' : Nat) (graph : b.graph.Appends b₁.graph) :
    P.Onward b (P.draw id id') b₁ :=
  ⟨List.prefix_refl _, List.Subset.refl _, List.subset_cons_self _ _, graph⟩

theorem alike (onward : P.Onward b Q b₁) {action action' : Action} (alike : P.Alike action action') :
    Q.Alike action action' :=
  fun ρ f respects => alike ρ f (onward.respects respects)

end Onward

end Pairing

namespace Paired

theorem exists_respects (paired : Paired common P b b') : ∃ ρ f, P.Respects ρ f := by
  obtain ⟨ρ, -, vars⟩ := Pairing.exists_injection paired.vars
  obtain ⟨f, -, nonces⟩ := Pairing.exists_injection paired.nonces
  exact ⟨ρ, f, vars, nonces⟩

theorem alike_choice (paired : Paired common P b b') {action : Action}
    (alike : P.Alike .choice action) : action = .choice := by
  obtain ⟨ρ, f, respects⟩ := paired.exists_respects
  have same := alike ρ f respects
  cases action <;> simp_all [Action.recast, Action.unnumbered]

theorem widen (paired : Paired common P b b') (ext : b'.graph.Extends b₁'.graph)
    (counts : b'.Counts b₁') : Paired common P b b₁' where
  laid := paired.laid.widen (fun _ => paired.alike_choice) ext
  held := paired.held
  origin := by
    intro p member
    refine (paired.origin p member).imp_right ?_
    rintro ⟨x, m, m', rfl, less, less'⟩
    exact ⟨x, m, m', rfl, less, less'.trans_le (counts.1 x)⟩
  vars := paired.vars
  drawn := fun p member =>
    ⟨(paired.drawn p member).1, (paired.drawn p member).2.trans_le counts.2⟩
  nonces := paired.nonces

theorem takeVar (apart : Untaken common) (paired : Paired common P b b')
    (x : String) :
    Paired common (P.bind (b.varFor x) (b'.varFor x)) (b.takeVar x) (b'.takeVar x) := by
  -- The new variables are neither common ones nor were they taken before.
  have new : ∀ p ∈ P.vars, p.1 ≠ b.varFor x ∧ p.2 ≠ b'.varFor x := by
    intro p member
    rcases paired.origin p member with ⟨same, among⟩ | ⟨y, m, m', rfl, less, less'⟩
    · exact ⟨apart _ among _ _, same ▸ apart _ among _ _⟩
    · constructor
      · intro equal
        obtain ⟨rfl, rfl⟩ := numbered_injective equal
        exact absurd less (Nat.lt_irrefl _)
      · intro equal
        obtain ⟨rfl, rfl⟩ := numbered_injective equal
        exact absurd less' (Nat.lt_irrefl _)
  have onward : P.Onward b' (P.bind (b.varFor x) (b'.varFor x)) b' :=
    .bind P _ _ (.refl _)
  constructor
  · exact paired.laid.mono fun _ _ => onward.alike
  · exact fun y member => onward.vars (paired.held y member)
  · intro p member
    rcases List.mem_cons.mp member with rfl | old
    · exact .inr ⟨x, b.taken x, b'.taken x, rfl, by simp [Build.taken_takeVar],
        by simp [Build.taken_takeVar]⟩
    · refine (paired.origin p old).imp_right ?_
      rintro ⟨y, m, m', rfl, less, less'⟩
      exact ⟨y, m, m', rfl, less.trans_le ((Build.Counts.takeVar b x).1 y),
        less'.trans_le ((Build.Counts.takeVar b' x).1 y)⟩
  · intro p member q member'
    rcases List.mem_cons.mp member with rfl | old <;>
      rcases List.mem_cons.mp member' with rfl | old'
    · simp
    · exact iff_of_false (new q old').1.symm (new q old').2.symm
    · exact iff_of_false (new p old).1 (new p old).2
    · exact paired.vars p old q old'
  · exact paired.drawn
  · exact paired.nonces

theorem takeNonce (paired : Paired common P b b') :
    Paired common (P.draw b.nextNonce b'.nextNonce) b.takeNonce b'.takeNonce := by
  have onward : P.Onward b' (P.draw b.nextNonce b'.nextNonce) b' :=
    .draw P _ _ (.refl _)
  constructor
  · exact paired.laid.mono fun _ _ => onward.alike
  · exact paired.held
  · exact paired.origin
  · exact paired.vars
  · intro p member
    rcases List.mem_cons.mp member with rfl | old
    · simp [Build.takeNonce]
    · have below := paired.drawn p old
      exact ⟨Nat.lt_succ_of_lt below.1, Nat.lt_succ_of_lt below.2⟩
  · intro p member q member'
    rcases List.mem_cons.mp member with rfl | old <;>
      rcases List.mem_cons.mp member' with rfl | old'
    · simp
    · have below := paired.drawn q old'
      exact iff_of_false below.1.ne' below.2.ne'
    · have below := paired.drawn p old
      exact iff_of_false below.1.ne below.2.ne
    · exact paired.nonces p old q old'

theorem annotate (paired : Paired common P b b') (notes notes' : List String)
    (events events' : List EventSite) :
    Paired common P { b with notes, events } { b' with notes := notes', events := events' } :=
  ⟨paired.laid, paired.held, paired.origin, paired.vars, paired.drawn, paired.nonces⟩

theorem redraw (paired : Paired common P b b') {g g' : Graph} {n : Nat}
    (laid : g.Laid P.Alike (P.place n).places g') :
    Paired common (P.place n) { b with graph := g } { b' with graph := g' } := by
  have onward : P.Onward b' (P.place n) b' := .place P n (.refl _)
  exact ⟨laid.mono fun _ _ => onward.alike, paired.held, paired.origin, paired.vars, paired.drawn,
    paired.nonces⟩

theorem branch {ends ends' : Ends} (meets : Meets common P b ends b' ends') (ctx ctx' : Context)
    {action action' : Action} (alike : P.Alike action action') :
    Paired common (P.place b'.graph.size) (b.append ctx action ends)
      (b'.append ctx' action' ends') :=
  meets.redraw (meets.laid.chain (fun _ => meets.alike_choice) rfl rfl alike meets.free meets.free'
    meets.pool)

end Paired

theorem Meets.append {ends ends' : Ends} (meets : Meets common P b ends b' ends')
    (ctx ctx' : Context) {action action' : Action} (straight : action.branches = false)
    (straight' : action'.branches = false) (alike : P.Alike action action') :
    Meets common (P.place b'.graph.size) (b.append ctx action ends) [b.graph.size]
      (b'.append ctx' action' ends') [b'.graph.size] where
  toPaired := .branch meets ctx ctx' alike
  pool := .single (by simp [Pairing.place, ← meets.laid.length])
  free := (b.threads_append ctx action straight meets.free).free
  free' := (b'.threads_append ctx' action' straight' meets.free').free

theorem Paired.draw (paired : Paired common P b b') (ctx ctx' : Context) {action action' : Action}
    {c c' : Nat} (placed : P.places[c]? = some c') (several : b.graph.Branches c)
    (several' : b'.graph.Branches c') (straight : action.branches = false)
    (straight' : action'.branches = false) (alike : P.Alike action action') :
    Meets common (P.place b'.graph.size) (b.append ctx action [c]) [b.graph.size]
      (b'.append ctx' action' [c']) [b'.graph.size] where
  toPaired := paired.redraw (paired.laid.draw placed several rfl rfl alike)
  pool := .single (by simp [Pairing.place, ← paired.laid.length])
  free := (b.threads_draw ctx action straight several).free
  free' := (b'.threads_draw ctx' action' straight' several').free

theorem Paired.connect (paired : Paired common P b b') {source target source' target' : Nat}
    (free : b.graph.Open source) (free' : b'.graph.Open source')
    (placed : P.places[source]? = some source') (reached : P.places[target]? = some target') :
    Paired common P (b.connect source target) (b'.connect source' target') := by
  have wider : Paired common P b (b'.connect source' target') :=
    paired.widen (Graph.extends_connect target' free') (.refl _)
  obtain ⟨node, found, none, -⟩ := free'
  have edge : (b'.connect source' target').graph.next? source' = some target' := by
    simp [Graph.next?, Build.connect, Graph.node?_connect, found, none]
  exact { wider with laid := wider.laid.connect free placed reached ⟨source', .refl, edge⟩ }

namespace Meets

variable {ends ends' ends'' : Ends}

theorem widen (meets : Meets common P b ends b' ends') (ext : b'.graph.Extends b₁'.graph)
    (counts : b'.Counts b₁') (more : ends' ⊆ ends'') (free' : ∀ e ∈ ends'', b₁'.graph.Open e) :
    Meets common P b ends b₁' ends'' where
  toPaired := meets.toPaired.widen ext counts
  pool := by
    intro e member
    obtain ⟨end', among, led⟩ := meets.pool.widen (List.prefix_refl _) ext.appends e member
    exact ⟨end', more among, led⟩
  free := meets.free
  free' := free'

theorem join (meets : Meets common P b ends b' ends') (ctx : Context) :
    Meets common P b ends (b'.append ctx .join ends') [b'.graph.size] := by
  have threads := b'.threads_append ctx .join rfl meets.free'
  exact
    { toPaired := meets.toPaired.widen (threads.extends meets.free') (.refl _)
      pool := meets.pool.mark _ rfl rfl fun e member => (meets.free' e member).last
      free := meets.free
      free' := threads.free }

theorem enter (meets : Meets common P b ends b' ends') (ctx ctx' : Context) (f tag : String) :
    Meets common P b ends
      ((b'.append ctx (.callSite f) ends').append ctx' (.alternative tag) [b'.graph.size])
      [(b'.append ctx (.callSite f) ends').graph.size] := by
  have several := b'.branches_append ctx (.callSite f) rfl meets.free'
  have threads := Judgement.threads_through rfl meets.free'
    ((b'.append ctx (.callSite f) ends').threads_draw ctx' (.alternative tag) rfl several)
  have site : Graph.Pool P.places (b'.append ctx (.callSite f) ends').graph ends [b'.graph.size] :=
    meets.pool.mark _ rfl rfl fun e member => (meets.free' e member).last
  have last : ∀ e ∈ [b'.graph.size], (b'.append ctx (.callSite f) ends').graph.Last e := by
    intro e member
    obtain rfl := List.mem_singleton.mp member
    exact ⟨_, b'.node?_append_self meets.free', rfl⟩
  exact
    { toPaired := meets.toPaired.widen (threads.extends meets.free') (.refl _)
      pool := site.mark _ rfl rfl last
      free := meets.free
      free' := threads.free }

end Meets

end ThreatModel
