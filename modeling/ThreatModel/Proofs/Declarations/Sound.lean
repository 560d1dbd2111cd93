import Mathlib
import ThreatModel.Declarations.OfModel
import ThreatModel.Proofs.Theory.Declared

set_option autoImplicit false

namespace ThreatModel

open Result

theorem Term.tuple_eq_ok {ts : List Term} {t : Term} (made : Term.tuple ts = .ok t) :
    Term.tuple? ts = some t := by
  simp only [Term.tuple] at made
  split at made <;> simp_all

namespace Expr

mutual

theorem names_equationTerm : ∀ {e : Expr} {t : Term}, e.equationTerm = .ok t → t.names = []
  | .ident x loc, t, made => by
    obtain rfl : Term.var x = t := by simpa [equationTerm] using made
    simp
  | .str s, t, made => by
    obtain rfl : Term.lit s = t := by simpa [equationTerm] using made
    simp
  | .apply f args loc, t, made => by
    simp only [equationTerm, bind_eq_ok_iff, pure_eq_ok_iff] at made
    obtain ⟨ts, inner, rfl⟩ := made
    simpa using names_equationTerms inner
  | .tuple items, t, made => by
    simp only [equationTerm, bind_eq_ok_iff] at made
    obtain ⟨ts, inner, tupled⟩ := made
    simpa [Term.tuple?_names (Term.tuple_eq_ok tupled)] using names_equationTerms inner
  | .unsupported loc, t, made => by simp [equationTerm] at made

theorem names_equationTerms : ∀ {es : List Expr} {ts : List Term}, equationTerms es = .ok ts →
    ∀ t ∈ ts, t.names = []
  | [], ts, made => by
    obtain rfl : [] = ts := by simpa [equationTerms] using made
    simp
  | e :: es, ts, made => by
    simp only [equationTerms, bind_eq_ok_iff, pure_eq_ok_iff] at made
    obtain ⟨t, head, ts', tail, rfl⟩ := made
    simpa using ⟨names_equationTerm head, names_equationTerms tail⟩

end

end Expr

structure StoreDecl.Sound (T : Theory) (key : String) (decl : StoreDecl) : Prop where
  named : decl.name = key
  ground : ∀ fact ∈ decl.initial, fact.vars = []
  nameless : ∀ fact ∈ decl.initial, fact.names = []
  normal : ∀ fact ∈ decl.initial, T.Normal fact

structure Declarations.Sound (D : Declarations) : Prop where
  theory : D.theory.WellFormed
  entries : ∀ key decl, (key, decl) ∈ D.stores.stores.entries → decl.Sound D.theory key

theorem Declarations.Sound.store {D : Declarations} (sound : D.Sound) {key : String}
    {decl : StoreDecl} (found : D.stores.stores.find? key = some decl) : decl.Sound D.theory key :=
  sound.entries key decl (Table.mem_entries_of_find? found)

namespace Draft

theorem attempt_keeps {P : Declarations → Prop} {d d' : Draft}
    {declare : Declarations → Result Declarations} (holds : P d.decls)
    (step : ∀ D', declare d.decls = .ok D' → P D') (done : d.attempt declare = .ok d') :
    P d'.decls := by
  simp only [attempt] at done
  split at done
  next D' made =>
    obtain rfl := Except.ok.inj done
    exact step D' made
  next =>
    obtain rfl := Except.ok.inj done
    exact holds
  next => simp at done

theorem attemptCallable_keeps {P : Declarations → Prop} {d d' : Draft} {name : String}
    {location : Option Location} {declare : Callables → Except Diagnostic Callables}
    (step : ∀ D C, P D → P { D with callables := C }) (holds : P d.decls)
    (done : d.attemptCallable name location declare = .ok d') : P d'.decls := by
  simp only [attemptCallable, bind_eq_ok_iff] at done
  obtain ⟨d₁, first, second⟩ := done
  have kept : P d₁.decls := by
    refine attempt_keeps holds ?_ first
    intro D' made
    simp only [bind_eq_ok_iff, pure_eq_ok_iff] at made
    obtain ⟨_, _, rfl⟩ := made
    exact holds
  refine attempt_keeps kept ?_ second
  intro D' made
  simp only [bind_eq_ok_iff, pure_eq_ok_iff] at made
  obtain ⟨C, _, rfl⟩ := made
  exact step _ _ kept

end Draft

namespace Declarations

def Public (t : Term) : Prop := t.vars = [] ∧ t.names = []

theorem public_of_publicName? {constants : Table String Bool} {T : Theory} {x : String} {t : Term}
    (found : publicName? constants T x = some t) : Public t := by
  simp only [publicName?] at found
  split at found
  next =>
    obtain rfl := Option.some.inj found
    simp [Public]
  next =>
    split at found
    next =>
      obtain rfl := Option.some.inj found
      simp [Public]
    next => simp at found

mutual

theorem public_of_content {D : Declarations} {owner : String} : ∀ {e : Expr} {t : Term},
    D.content owner e = .ok t → Public t
  | .str s, t, made => by
    obtain rfl : Term.lit s = t := by simpa [content] using made
    simp [Public]
  | .tuple items, t, made => by
    simp only [content, bind_eq_ok_iff] at made
    obtain ⟨ts, inner, tupled⟩ := made
    have each := public_of_contents inner
    simp only [Public, Term.tuple?_vars (Term.tuple_eq_ok tupled),
      Term.tuple?_names (Term.tuple_eq_ok tupled), List.flatMap_eq_nil_iff]
    exact ⟨fun t member => (each t member).1, fun t member => (each t member).2⟩
  | .ident x loc, t, made => by
    simp only [content] at made
    split at made
    next u found =>
      obtain rfl := Except.ok.inj made
      exact public_of_publicName? found
    next => simp at made
  | .apply f args loc, t, made => by
    simp only [content, bind_eq_ok_iff, pure_eq_ok_iff] at made
    obtain ⟨ts, inner, _, _, rfl⟩ := made
    have each := public_of_contents inner
    simp only [Public, Term.vars_app, Term.names_app, List.flatMap_eq_nil_iff]
    exact ⟨fun t member => (each t member).1, fun t member => (each t member).2⟩
  | .unsupported loc, t, made => by simp [content] at made

theorem public_of_contents {D : Declarations} {owner : String} : ∀ {es : List Expr}
    {ts : List Term}, D.contents owner es = .ok ts → ∀ t ∈ ts, Public t
  | [], ts, made => by
    obtain rfl : [] = ts := by simpa [contents] using made
    simp
  | e :: es, ts, made => by
    simp only [contents, bind_eq_ok_iff, pure_eq_ok_iff] at made
    obtain ⟨t, head, ts', tail, rfl⟩ := made
    simpa using ⟨public_of_content head, public_of_contents tail⟩

end

theorem Sound.declare {D : Declarations} {R : Registry} {name : String} {type : Option String}
    {kind : TypeKind} {facts : List Term} (sound : D.Sound) (open_ : ∀ t ∈ facts, Public t)
    (declared : D.stores.declare D.theory name type kind facts = .ok R) :
    ({ D with stores := R } : Declarations).Sound := by
  simp only [Registry.declare, bind_eq_ok_iff, pure_eq_ok_iff] at declared
  obtain ⟨normal, normalised, rfl⟩ := declared
  have origin (fact : Term) (member : fact ∈ normal) :
      ∃ t ∈ facts, D.theory.normalize t = .ok fact := mem_of_mapM_eq_ok normalised member
  refine ⟨sound.theory, ?_⟩
  intro key decl member
  rcases Table.mem_write member with new | old
  · obtain ⟨rfl, rfl⟩ := Prod.mk.inj new
    refine ⟨rfl, ?_, ?_, ?_⟩
    · intro fact member
      obtain ⟨t, inside, normal⟩ := origin fact member
      exact sound.theory.ground (open_ t inside).1 normal
    · intro fact member
      obtain ⟨t, inside, normal⟩ := origin fact member
      apply List.eq_nil_iff_forall_not_mem.mpr
      intro n occurs
      have old := sound.theory.names normal n occurs
      simp [(open_ t inside).2] at old
    · intro fact member
      obtain ⟨t, inside, normal⟩ := origin fact member
      exact Theory.normal_of_normalize normal
  · exact sound.entries key decl old

theorem Sound.of_theory {D : Declarations} (sound : D.theory.WellFormed)
    (none_yet : D.stores = {}) : D.Sound := by
  refine ⟨sound, ?_⟩
  -- The attacker's own store is always there, and it is empty.
  intro key decl member
  obtain ⟨rfl, rfl⟩ : key = attackerStore ∧
      decl = { name := attackerStore, type := none, kind := .channel } := by
    simpa [none_yet, Table.single] using member
  exact ⟨rfl, by simp, by simp, by simp⟩

end Declarations

end ThreatModel
