import ThreatModel.Table

set_option autoImplicit false

namespace ThreatModel

inductive Term where
  | var (name : String)
  | const (name : String)
  | lit (value : String)
  | app (symbol : String) (args : List Term)
  | name (ident : String)
  deriving Repr, Inhabited

abbrev Subst := Table String Term

namespace Term

@[elab_as_elim] theorem induct {P : Term → Prop}
    (var : ∀ x, P (.var x)) (const : ∀ c, P (.const c)) (lit : ∀ s, P (.lit s))
    (app : ∀ f args, (∀ t ∈ args, P t) → P (.app f args)) (name : ∀ n, P (.name n)) : ∀ t, P t
  | .var x => var x
  | .const c => const c
  | .lit s => lit s
  | .app f args => app f args fun t _ => induct var const lit app name t
  | .name n => name n

mutual

def same : Term → Term → Bool
  | .var x, .var y => x == y
  | .const c, .const d => c == d
  | .lit s, .lit t => s == t
  | .app f ss, .app g ts => f == g && sameAll ss ts
  | .name m, .name n => m == n
  | _, _ => false

def sameAll : List Term → List Term → Bool
  | [], [] => true
  | s :: ss, t :: ts => same s t && sameAll ss ts
  | _, _ => false

end

mutual

theorem eq_of_same : ∀ {s t : Term}, same s t = true → s = t
  | .var _, .var _, h => by simp_all [same]
  | .const _, .const _, h => by simp_all [same]
  | .lit _, .lit _, h => by simp_all [same]
  | .name _, .name _, h => by simp_all [same]
  | .app f ss, .app g ts, h => by
      simp only [same, Bool.and_eq_true, beq_iff_eq] at h
      rw [h.1, eq_of_sameAll h.2]
  | .var _, .const _, h | .var _, .lit _, h | .var _, .app _ _, h | .var _, .name _, h
  | .const _, .var _, h | .const _, .lit _, h | .const _, .app _ _, h | .const _, .name _, h
  | .lit _, .var _, h | .lit _, .const _, h | .lit _, .app _ _, h | .lit _, .name _, h
  | .app _ _, .var _, h | .app _ _, .const _, h | .app _ _, .lit _, h | .app _ _, .name _, h
  | .name _, .var _, h | .name _, .const _, h | .name _, .lit _, h | .name _, .app _ _, h => by
      simp [same] at h

theorem eq_of_sameAll : ∀ {ss ts : List Term}, sameAll ss ts = true → ss = ts
  | [], [], _ => rfl
  | s :: ss, t :: ts, h => by
      simp only [sameAll, Bool.and_eq_true] at h
      rw [eq_of_same h.1, eq_of_sameAll h.2]
  | [], _ :: _, h | _ :: _, [], h => by simp [sameAll] at h

end

mutual

theorem same_refl : ∀ t : Term, same t t = true
  | .var _ | .const _ | .lit _ | .name _ => by simp [same]
  | .app _ args => by simp [same, sameAll_refl args]

theorem sameAll_refl : ∀ ts : List Term, sameAll ts ts = true
  | [] => rfl
  | t :: ts => by simp [sameAll, same_refl t, sameAll_refl ts]

end

instance : DecidableEq Term := fun s t =>
  decidable_of_iff (same s t = true) ⟨eq_of_same, fun h => h ▸ same_refl s⟩

def pair (left right : Term) : Term := .app "pair" [left, right]

def isPair : Term → Bool
  | .app f [_, _] => f == "pair"
  | _ => false

def isApp : Term → Bool
  | .app _ _ => true
  | _ => false

def tuple? : List Term → Option Term
  | [] => none
  | [t] => some t
  | t :: rest => (tuple? rest).map (pair t)

mutual

def text : Term → String
  | .var x => x
  | .const c => "'" ++ c ++ "'"
  | .lit s => "\"" ++ s ++ "\""
  | .name n => "~" ++ n
  | .app f args =>
      match texts args with
      | [a, b] =>
          if f = "pair" then "<" ++ a ++ ", " ++ b ++ ">" else f ++ "(" ++ a ++ ", " ++ b ++ ")"
      | shown => f ++ "(" ++ ", ".intercalate shown ++ ")"

def texts : List Term → List String
  | [] => []
  | t :: ts => text t :: texts ts

end

mutual

def vars : Term → List String
  | .var x => [x]
  | .app _ args => varsAll args
  | _ => []

def varsAll : List Term → List String
  | [] => []
  | t :: ts => vars t ++ varsAll ts

end

def isGround (t : Term) : Bool := t.vars.isEmpty

mutual

def subterms : Term → List Term
  | .app f args => .app f args :: subtermsAll args
  | t => [t]

def subtermsAll : List Term → List Term
  | [] => []
  | t :: ts => subterms t ++ subtermsAll ts

end

mutual

def size : Term → Nat
  | .app _ args => sizeAll args + 1
  | _ => 1

def sizeAll : List Term → Nat
  | [] => 0
  | t :: ts => size t + sizeAll ts

end

mutual

theorem length_subterms : ∀ t : Term, t.subterms.length = t.size
  | .var _ | .const _ | .lit _ | .name _ => by simp [subterms, size]
  | .app _ args => by simp [subterms, size, length_subtermsAll args]

theorem length_subtermsAll : ∀ ts : List Term, (subtermsAll ts).length = sizeAll ts
  | [] => rfl
  | t :: ts => by simp [subtermsAll, sizeAll, length_subterms t, length_subtermsAll ts]

end

def applications (t : Term) : List Term := t.subterms.filter isApp

mutual

def subst (σ : Subst) : Term → Term
  | .var x => (σ.find? x).getD (.var x)
  | .app f args => .app f (substAll σ args)
  | t => t

def substAll (σ : Subst) : List Term → List Term
  | [] => []
  | t :: ts => subst σ t :: substAll σ ts

end

mutual

def mapVars (f : String → String) : Term → Term
  | .var x => .var (f x)
  | .app g args => .app g (mapVarsAll f args)
  | t => t

def mapVarsAll (f : String → String) : List Term → List Term
  | [] => []
  | t :: ts => mapVars f t :: mapVarsAll f ts

end

def rename (mark : String) (t : Term) : Term := t.mapVars (mark ++ ·)

theorem varsAll_eq_flatMap (ts : List Term) : varsAll ts = ts.flatMap vars := by
  induction ts with
  | nil => rfl
  | cons t ts ih => simp [varsAll, ih]

theorem substAll_eq_map (σ : Subst) (ts : List Term) : substAll σ ts = ts.map (subst σ) := by
  induction ts with
  | nil => rfl
  | cons t ts ih => simp [substAll, ih]

theorem mapVarsAll_eq_map (f : String → String) (ts : List Term) :
    mapVarsAll f ts = ts.map (mapVars f) := by
  induction ts with
  | nil => rfl
  | cons t ts ih => simp [mapVarsAll, ih]

end Term

end ThreatModel
