import Mathlib
import ThreatModel.Formula.OfLemma
import ThreatModel.Proofs.Declarations.Sound

set_option autoImplicit false

namespace ThreatModel.Lexicon

open Result

variable {L : Lexicon} {bound outer names : List String} {x : String}

theorem vars_of_public? {t : Term} (found : L.public? x = some t) : t.vars = [] := by
  simp only [public?, Declarations.publicName?] at found
  split at found
  next => simp [← Option.some.inj found]
  next =>
    split at found
    next => simp [← Option.some.inj found]
    next => simp at found

mutual

theorem vars_of_term : ∀ {e : Expr} {t : Term}, L.term bound e = .ok t →
    ∀ x ∈ t.vars, x ∈ bound ∧ isIndex x = false
  | .str s, t, made => by
    obtain rfl : Term.lit s = t := by simpa [term] using made
    simp
  | .ident y loc, t, made => by
    simp only [term] at made
    split at made
    next member =>
      split at made
      next => simp [flaw] at made
      next plain =>
        obtain rfl : Term.var y = t := by simpa using made
        simpa using And.intro member plain
    next =>
      split at made
      next u found =>
        obtain rfl : u = t := by simpa using made
        simp [vars_of_public? found]
      next => simp [flaw] at made
  | .tuple items, t, made => by
    simp only [term, bind_eq_ok_iff] at made
    obtain ⟨ts, inner, tupled⟩ := made
    rw [Term.tuple?_vars (Term.tuple_eq_ok tupled)]
    exact vars_of_terms inner
  | .apply f args loc, t, made => by
    simp only [term, bind_eq_ok_iff, pure_eq_ok_iff] at made
    obtain ⟨ts, inner, -, -, rfl⟩ := made
    rw [Term.vars_app]
    exact vars_of_terms inner
  | .unsupported loc, t, made => by simp [term, flaw] at made

theorem vars_of_terms : ∀ {es : List Expr} {ts : List Term}, L.terms bound es = .ok ts →
    ∀ x ∈ ts.flatMap Term.vars, x ∈ bound ∧ isIndex x = false
  | [], ts, made => by
    obtain rfl : [] = ts := by simpa [terms] using made
    simp
  | e :: es, ts, made => by
    simp only [terms, bind_eq_ok_iff, pure_eq_ok_iff] at made
    obtain ⟨t, head, ts', tail, rfl⟩ := made
    rw [List.flatMap_cons]
    exact fun x occurs => (List.mem_append.mp occurs).elim (vars_of_term head x)
      (vars_of_terms tail x)

end

mutual

theorem mem_vars_of_implicit : ∀ {e : Expr} {t : Term} {names : List String},
    L.term bound e = .ok t → x ∈ bound → x ∈ L.implicit outer e names →
    x ∈ names ∨ x ∉ outer ∧ x ∈ t.vars
  | .str s, t, names, made, member, inside => .inl (by simpa [implicit] using inside)
  | .unsupported loc, t, names, made, member, inside => .inl (by simpa [implicit] using inside)
  | .ident y loc, t, names, made, member, inside => by
    simp only [implicit] at inside
    split at inside
    next => exact .inl inside
    next fresh =>
      rcases List.mem_append.mp inside with old | new
      · exact .inl old
      · obtain rfl : x = y := by simpa using new
        have unlisted : x ∉ outer := fun listed => fresh (by simp [listed])
        simp only [term, member, if_true] at made
        split at made
        next => simp [flaw] at made
        next =>
          obtain rfl : Term.var x = t := by simpa using made
          exact .inr ⟨unlisted, by simp⟩
  | .tuple items, t, names, made, member, inside => by
    simp only [term, bind_eq_ok_iff] at made
    obtain ⟨ts, inner, tupled⟩ := made
    rw [Term.tuple?_vars (Term.tuple_eq_ok tupled)]
    exact mem_vars_of_implicitAll inner member (by simpa [implicit] using inside)
  | .apply f args loc, t, names, made, member, inside => by
    simp only [term, bind_eq_ok_iff, pure_eq_ok_iff] at made
    obtain ⟨ts, inner, -, -, rfl⟩ := made
    rw [Term.vars_app]
    exact mem_vars_of_implicitAll inner member (by simpa [implicit] using inside)

theorem mem_vars_of_implicitAll : ∀ {es : List Expr} {ts : List Term} {names : List String},
    L.terms bound es = .ok ts → x ∈ bound → x ∈ L.implicitAll outer es names →
    x ∈ names ∨ x ∉ outer ∧ x ∈ ts.flatMap Term.vars
  | [], ts, names, made, member, inside => .inl (by simpa [implicitAll] using inside)
  | e :: es, ts, names, made, member, inside => by
    simp only [terms, bind_eq_ok_iff, pure_eq_ok_iff] at made
    obtain ⟨t, head, ts', tail, rfl⟩ := made
    rw [List.flatMap_cons, List.mem_append]
    rcases mem_vars_of_implicitAll tail member inside with early | ⟨unlisted, later⟩
    · exact (mem_vars_of_implicit head member early).imp_right fun ⟨unlisted, here⟩ =>
        ⟨unlisted, .inl here⟩
    · exact .inr ⟨unlisted, .inr later⟩

end

theorem event_eq_ok {e : EventExpr} {t : Term} (made : L.event bound e = .ok t) :
    ∃ ts, L.terms bound e.args = .ok ts ∧ t = .app e.tag ts := by
  have stop (cause : Cause) : (flaw cause : Result Unit) = throw (.flaw { cause }) := rfl
  simp only [event, stop, throw_bind, ite_throw_eq_ok_iff, bind_eq_ok_iff, pure_eq_ok_iff] at made
  obtain ⟨-, -, ts, inner, rfl⟩ := made
  exact ⟨ts, inner, rfl⟩

theorem vars_of_event {e : EventExpr} {t : Term} (made : L.event bound e = .ok t) :
    ∀ x ∈ t.vars, x ∈ bound ∧ isIndex x = false := by
  obtain ⟨ts, inner, rfl⟩ := event_eq_ok made
  rw [Term.vars_app]
  exact vars_of_terms inner

theorem mem_vars_of_implicitOf {e : EventExpr} {t : Term} (made : L.event bound e = .ok t)
    (member : x ∈ bound) (inside : x ∈ L.implicitOf outer [e]) : x ∉ outer ∧ x ∈ t.vars := by
  obtain ⟨ts, inner, rfl⟩ := event_eq_ok made
  rw [Term.vars_app]
  exact (mem_vars_of_implicitAll inner member (by simpa [implicitOf] using inside)).resolve_left
    (by simp)

theorem statement_of_translate {l : LemmaDecl} {stated : Lemma}
    (done : L.translate l = .ok stated) :
    ∃ kind, L.statement l = .ok (stated.formula, kind) := by
  simp only [translate] at done
  split at done
  next formula kind made => exact ⟨kind, by rw [made, ← Except.ok.inj done]⟩
  next => simp at done
  next => simp at done

end ThreatModel.Lexicon
