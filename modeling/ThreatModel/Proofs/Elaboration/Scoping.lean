import Mathlib
import ThreatModel.Proofs.Table
import ThreatModel.Proofs.Declarations.Sound
import ThreatModel.Proofs.Elaboration.Reading
import ThreatModel.Proofs.Graph.Assignment

set_option autoImplicit false

namespace ThreatModel

structure Term.Known (known : Set String) (t : Term) : Prop where
  vars : ∀ x ∈ t.vars, x ∈ known
  nameless : t.names = []

namespace Term.Known

variable {known more : Set String}

theorem mono {t : Term} (sound : t.Known known) (wider : known ⊆ more) : t.Known more :=
  { sound with vars := fun x member => wider (sound.vars x member) }

theorem var {x : String} (member : x ∈ known) : (Term.var x).Known known :=
  ⟨by simpa using member, by simp⟩

theorem lit (s : String) : (Term.lit s).Known known := ⟨by simp, by simp⟩

theorem app {f : String} {ts : List Term} (each : ∀ t ∈ ts, t.Known known) :
    (Term.app f ts).Known known := by
  constructor
  · intro x member
    obtain ⟨t, inside, occurs⟩ := List.mem_flatMap.mp (Term.vars_app f ts ▸ member)
    exact (each t inside).vars x occurs
  · rw [Term.names_app, List.flatMap_eq_nil_iff]
    exact fun t inside => (each t inside).nameless

theorem tuple {ts : List Term} {t : Term} (each : ∀ t ∈ ts, t.Known known)
    (made : Term.tuple ts = .ok t) : t.Known known := by
  have made := Term.tuple_eq_ok made
  constructor
  · intro x member
    obtain ⟨s, inside, occurs⟩ := List.mem_flatMap.mp (Term.tuple?_vars made ▸ member)
    exact (each s inside).vars x occurs
  · rw [Term.tuple?_names made, List.flatMap_eq_nil_iff]
    exact fun s inside => (each s inside).nameless

end Term.Known

structure Scope.Sound (D : Declarations) (known : Set String) (scope : Scope) : Prop where
  value : ∀ y x, scope.find? y = some (.value x) → x ∈ known
  store : ∀ y s, scope.find? y = some (.store s) → D.stores.contains s = true

def Binding.Sound (D : Declarations) (known : Set String) : Binding → Prop
  | .value x => x ∈ known
  | .store s => D.stores.contains s = true

namespace Scope

variable {D : Declarations} {known more : Set String} {scope scope' : Scope}

theorem find?_child (scope : Scope) (y : String) : scope.child.find? y = scope.find? y := by
  simp [find?, child, List.findSome?_cons]

theorem find?_declare {x y : String} {binding : Binding}
    (declared : scope.declare x binding = .ok scope') :
    scope'.find? y = if x = y then some binding else scope.find? y := by
  simp only [declare] at declared
  split at declared
  next => simp at declared
  next new =>
    obtain rfl := Except.ok.inj declared
    by_cases same : x = y
    · simp [find?, same]
    · simp [find?, same, List.findSome?_cons, Table.find?_insert]

theorem Sound.mono (sound : scope.Sound D known) (wider : known ⊆ more) : scope.Sound D more :=
  { sound with value := fun y x found => wider (sound.value y x found) }

theorem Sound.child (sound : scope.Sound D known) : scope.child.Sound D known :=
  ⟨fun y x found => sound.value y x (find?_child scope y ▸ found),
    fun y s found => sound.store y s (find?_child scope y ▸ found)⟩

theorem sound_empty : ({} : Scope).Sound D known := ⟨by simp [find?], by simp [find?]⟩

theorem Sound.declare (sound : scope.Sound D known) {x : String} {binding : Binding}
    (fits : binding.Sound D known) (declared : scope.declare x binding = .ok scope') :
    scope'.Sound D known := by
  constructor
  · intro y z found
    rw [find?_declare declared] at found
    split at found
    next =>
      obtain rfl := Option.some.inj found
      exact fits
    next => exact sound.value y z found
  · intro y s found
    rw [find?_declare declared] at found
    split at found
    next =>
      obtain rfl := Option.some.inj found
      exact fits
    next => exact sound.store y s found

theorem Sound.declare_value (sound : scope.Sound D known) {x y : String} (member : y ∈ known)
    (declared : scope.declare x (.value y) = .ok scope') : scope'.Sound D known :=
  sound.declare (show (Binding.value y).Sound D known from member) declared

theorem Sound.declare_store (sound : scope.Sound D known) {x name : String}
    (contained : D.stores.contains name = true)
    (declared : scope.declare x (.store name) = .ok scope') : scope'.Sound D known :=
  sound.declare (show (Binding.store name).Sound D known from contained) declared

end Scope

namespace Registry

theorem find?_of_get {R : Registry} {name : String} {decl : StoreDecl} (got : R.get name = .ok decl) :
    R.stores.find? name = some decl := by
  simp only [get] at got
  split at got
  next found made => simp_all
  next => simp at got

theorem contains_of_find? {R : Registry} {name : String} {decl : StoreDecl}
    (found : R.stores.find? name = some decl) : R.contains name = true := by
  simp [contains, Table.contains, found]

end Registry

theorem Declarations.Sound.contains_name {D : Declarations} (sound : D.Sound) {key : String}
    {decl : StoreDecl} (found : D.stores.stores.find? key = some decl) :
    D.stores.contains decl.name = true := by
  rw [(sound.store found).named]
  exact Registry.contains_of_find? found

namespace Context

variable {ctx : Context} {known : Set String} {scope scope' : Scope} {b b' : Build}
  {binds : Table String String} {t : Term}

theorem resolveStore_eq_ok {target : String} {store : StoreDecl}
    (resolved : ctx.resolveStore scope target b = .ok (store, b')) :
    (∃ name, scope.find? target = some (.store name) ∧
      ctx.decls.stores.stores.find? name = some store) ∨
    (scope.find? target = none ∧ ctx.decls.stores.stores.find? target = some store) := by
  simp only [resolveStore] at resolved
  cases bound : scope.find? target with
  | some binding =>
    cases binding with
    | value x => simp [bound] at resolved
    | store name =>
      simp only [bound, check_eq_ok_iff] at resolved
      exact .inl ⟨name, rfl, Registry.find?_of_get resolved.1⟩
  | none =>
    cases declared : ctx.decls.stores.stores.find? target with
    | none => simp [bound, declared] at resolved
    | some decl =>
      obtain ⟨rfl, -⟩ : decl = store ∧ b = b' := by simpa [bound, declared] using resolved
      exact .inr ⟨rfl, rfl⟩

theorem contains_of_resolveStore {target : String} {store : StoreDecl} (decls : ctx.decls.Sound)
    (resolved : ctx.resolveStore scope target b = .ok (store, b')) :
    ctx.decls.stores.contains store.name = true := by
  rcases resolveStore_eq_ok resolved with ⟨name, -, found⟩ | ⟨-, found⟩
  · exact decls.contains_name found
  · exact decls.contains_name found

theorem callee_eq_ok {f : String} {got : Nat} {d : Definition}
    (done : ctx.callee f got b = .ok (d, b')) :
    ctx.decls.callables.find? f = some d ∧ d.role.target? = none ∧ got = d.params.length := by
  unfold callee at done
  cases found : ctx.decls.callables.find? f with
  | none => simp [found] at done
  | some d' =>
    cases free : d'.role.target? with
    | some target => simp [found, free] at done
    | none =>
      simp only [found, free, Builder.bind_eq_ok_iff, check_eq_ok_iff,
        Builder.ite_apply] at done
      obtain ⟨⟨⟩, b₁, ⟨arity, rfl⟩, done⟩ := done
      split at done
      next => simp at done
      next =>
        obtain ⟨rfl, -⟩ : d' = d ∧ b₁ = b' := by simpa using done
        simp only [Callables.checkArity] at arity
        split at arity
        next same => exact ⟨rfl, free, same⟩
        next => simp at arity

theorem contains_of_storeNamed? {e : Expr} {name : String} (sound : scope.Sound ctx.decls known)
    (named : ctx.storeNamed? scope e = some name) : ctx.decls.stores.contains name = true := by
  cases e with
  | ident x loc =>
    simp only [storeNamed?] at named
    cases bound : scope.find? x with
    | some binding =>
      cases binding with
      | value y => simp [bound] at named
      | store s =>
        obtain rfl : s = name := by simpa [bound] using named
        exact sound.store x s bound
    | none =>
      obtain ⟨⟨declared, -⟩, rfl⟩ : (ctx.decls.stores.contains x = true ∧
          ctx.decls.constants.contains x = false) ∧ x = name := by
        simpa [bound] using named
      exact declared
  | _ => simp [storeNamed?] at named

theorem sound_of_declareAll {entries : List (String × String)} (sound : scope.Sound ctx.decls known)
    (each : ∀ entry ∈ entries, entry.2 ∈ known)
    (declared : ctx.declareAll scope entries b = .ok (scope', b')) :
    scope'.Sound ctx.decls known := by
  induction entries generalizing scope b with
  | nil =>
    obtain ⟨rfl, -⟩ : scope = scope' ∧ b = b' := by simpa [declareAll] using declared
    exact sound
  | cons entry rest ih =>
    obtain ⟨x, y⟩ := entry
    simp only [declareAll, Builder.bind_eq_ok_iff, declare_eq_ok_iff] at declared
    obtain ⟨scope₁, b₁, ⟨first, rfl⟩, others⟩ := declared
    have here : y ∈ known := each (x, y) (by simp)
    exact ih (sound.declare_value here first) (fun entry member => each entry (by simp [member]))
      others

def BoundIn (binds : Table String String) : Set String := {y | ∃ x, binds.find? x = some y}

theorem mem_values_of_boundIn {y : String} (bound : y ∈ BoundIn binds) : y ∈ binds.values := by
  obtain ⟨x, found⟩ := bound
  exact List.mem_map.mpr ⟨(x, y), Table.mem_entries_of_find? found, rfl⟩

theorem boundIn_insert {x y : String} (new : binds.find? x = none) :
    BoundIn binds ⊆ BoundIn (binds.insert x y) := by
  rintro z ⟨w, found⟩
  have other : x ≠ w := by
    rintro rfl
    simp [new] at found
  exact ⟨w, by rw [Table.find?_insert_of_ne _ _ other, found]⟩

theorem Finds.stands {x : String} (sound : scope.Sound ctx.decls known)
    (shared : ctx.decls.shared ⊆ known) (finds : ctx.Finds scope binds x (some t)) :
    t.Known (known ∪ BoundIn binds) := by
  cases finds with
  | value bound => exact .var (.inl (sound.value x _ bound))
  | pattern _ taken => exact .var (.inr ⟨x, taken⟩)
  | @constant fresh _ _ constant =>
    cases fresh with
    | true => exact .var (.inl (shared ⟨x, constant, rfl⟩))
    | false => exact ⟨by simp, by simp⟩
  | symbol => exact .app (by simp)

theorem Finds.untaken {x : String} (finds : ctx.Finds scope binds x none) :
    binds.find? x = none := by
  cases finds with
  | nothing _ untaken => exact untaken

structure Plain (known : Set String) (isPattern : Bool) (b : Build) (binds : Table String String)
    (ts : List Term) (b' : Build) (binds' : Table String String) : Prop where
  terms : ∀ t ∈ ts, t.Known (known ∪ BoundIn binds')
  keeps : BoundIn binds ⊆ BoundIn binds'
  met : ∀ y ∈ binds'.values, y ∈ binds.values ∨ ∃ t ∈ ts, y ∈ t.vars
  closed : isPattern = false → binds' = binds
  graph : b'.graph = b.graph
  nonces : b'.nextNonce = b.nextNonce

theorem Plain.refl {isPattern : Bool} (sound : t.Known (known ∪ BoundIn binds)) :
    Plain known isPattern b binds [t] b binds :=
  ⟨by simpa using sound, subset_rfl, fun _ => .inl, fun _ => rfl, rfl, rfl⟩

theorem Plain.cons {isPattern : Bool} {binds binds₁ binds' : Table String String} {t : Term}
    {ts : List Term} {b₁ : Build} (first : Plain known isPattern b binds [t] b₁ binds₁)
    (rest : Plain known isPattern b₁ binds₁ ts b' binds') :
    Plain known isPattern b binds (t :: ts) b' binds' where
  terms := by
    intro s member
    rcases List.mem_cons.mp member with rfl | member
    · exact (first.terms s (by simp)).mono (Set.union_subset_union_right _ rest.keeps)
    · exact rest.terms s member
  keeps := first.keeps.trans rest.keeps
  met := by
    intro y member
    rcases rest.met y member with old | ⟨s, inside, occurs⟩
    · rcases first.met y old with older | ⟨s, inside, occurs⟩
      · exact .inl older
      · exact .inr ⟨s, List.mem_singleton.mp inside ▸ List.mem_cons_self, occurs⟩
    · exact .inr ⟨s, List.mem_cons_of_mem _ inside, occurs⟩
  closed := fun guard => (rest.closed guard).trans (first.closed guard)
  graph := rest.graph.trans first.graph
  nonces := rest.nonces.trans first.nonces

theorem Plain.collect {isPattern : Bool} {binds' : Table String String} {ts : List Term}
    (each : Plain known isPattern b binds ts b' binds')
    (made : (∀ t ∈ ts, t.Known (known ∪ BoundIn binds')) → t.Known (known ∪ BoundIn binds'))
    (vars : t.vars = ts.flatMap Term.vars) : Plain known isPattern b binds [t] b' binds' :=
  { each with
    terms := by simpa using made each.terms
    met := by simpa [vars] using each.met }

theorem Reading.plain {isPattern : Bool} {binds' : Table String String} {es : List Expr}
    {ts : List Term} (sound : scope.Sound ctx.decls known) (shared : ctx.decls.shared ⊆ known)
    (reading : ctx.Reading scope isPattern es binds b ts binds' b') :
    Plain known isPattern b binds ts b' binds' := by
  induction reading with
  | nil => exact ⟨by simp, subset_rfl, fun _ => .inl, fun _ => rfl, rfl, rfl⟩
  | str _ ih => exact (Plain.refl (.lit _)).cons ih
  | known found _ ih => exact (Plain.refl (found.stands sound shared)).cons ih
  | @fresh x _ binds _ b _ _ _ pattern unknown _ ih =>
    have here : Plain known isPattern b binds [.var (b.varFor x)] (b.takeVar x)
        (binds.insert x (b.varFor x)) := by
      refine ⟨?_, boundIn_insert unknown.untaken, ?_, by simp [pattern], rfl, rfl⟩
      · intro s member
        obtain rfl := List.mem_singleton.mp member
        exact .var (.inr ⟨x, by simp⟩)
      · intro z member
        rcases Table.mem_values_insert member with rfl | old
        · exact .inr (by simp)
        · exact .inl old
    exact here.cons ih
  | tuple _ made _ ih ih' =>
    have tupled := ih.collect (fun parts => .tuple parts made)
      (Term.tuple?_vars (Term.tuple_eq_ok made))
    exact tupled.cons ih'
  | symbol _ _ _ ih ih' => exact (ih.collect .app (by simp)).cons ih'

theorem guard_term_eq_ok (sound : scope.Sound ctx.decls known) (shared : ctx.decls.shared ⊆ known)
    {e : Expr} (done : ctx.plain scope false e .empty b = .ok ((t, binds), b')) :
    t.Known known ∧ b'.graph = b.graph ∧ b'.nextNonce = b.nextNonce := by
  have read := (reading_of_plain done).plain sound shared
  -- Guards bind nothing on the way.
  refine ⟨(read.terms t (by simp)).mono ?_, read.graph, read.nonces⟩
  rw [read.closed rfl]
  rintro x (member | ⟨y, found⟩)
  · exact member
  · simp at found

theorem conditions_eq_ok (sound : scope.Sound ctx.decls known)
    (shared : ctx.decls.shared ⊆ known) {comparisons : List Comparison}
    {group : Option (List Condition)}
    (done : ctx.conditions scope comparisons b = .ok (group, b')) :
    (∀ cs, group = some cs → ∀ c ∈ cs, ∀ t ∈ c.terms, t.Known known) ∧ b'.graph = b.graph ∧
      b'.nextNonce = b.nextNonce := by
  have compared := compares_of_conditions done
  clear done
  induction compared with
  | nil => simp
  | never left right _ =>
    obtain ⟨-, leftGraph, leftNonces⟩ := guard_term_eq_ok sound shared left
    obtain ⟨-, rightGraph, rightNonces⟩ := guard_term_eq_ok sound shared right
    exact ⟨by simp, rightGraph.trans leftGraph, rightNonces.trans leftNonces⟩
  | always left right _ _ ih =>
    obtain ⟨-, leftGraph, leftNonces⟩ := guard_term_eq_ok sound shared left
    obtain ⟨-, rightGraph, rightNonces⟩ := guard_term_eq_ok sound shared right
    exact ⟨ih.1, ih.2.1.trans (rightGraph.trans leftGraph),
      ih.2.2.trans (rightNonces.trans leftNonces)⟩
  | keep left right _ _ ih =>
    obtain ⟨leftKnown, leftGraph, leftNonces⟩ := guard_term_eq_ok sound shared left
    obtain ⟨rightKnown, rightGraph, rightNonces⟩ := guard_term_eq_ok sound shared right
    refine ⟨?_, ih.2.1.trans (rightGraph.trans leftGraph),
      ih.2.2.trans (rightNonces.trans leftNonces)⟩
    intro cs made condition member
    obtain ⟨more, found, rfl⟩ := Option.map_eq_some_iff.mp made
    rcases List.mem_cons.mp member with rfl | member
    · simp [Condition.terms, leftKnown, rightKnown]
    · exact ih.1 more found condition member

end Context

end ThreatModel
