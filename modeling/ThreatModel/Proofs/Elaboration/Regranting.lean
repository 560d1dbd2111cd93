import Mathlib
import ThreatModel.Proofs.Elaboration.Stepwise

set_option autoImplicit false

namespace ThreatModel

namespace Builder

variable {α β : Type}

def Refines (m m' : Builder α) : Prop := ∀ b r, m b = .ok r → m' b = .ok r

theorem Refines.refl (m : Builder α) : m.Refines m := fun _ _ done => done

theorem Refines.bind {m m' : Builder α} {f f' : α → Builder β} (first : m.Refines m')
    (later : ∀ a, m.Returns a → (f a).Refines (f' a)) : (m >>= f).Refines (m' >>= f') := by
  intro b r done
  obtain ⟨a, b₁, here, there⟩ := bind_eq_ok_iff.mp done
  exact bind_eq_ok_iff.mpr ⟨a, b₁, first b _ here, later a ⟨b, b₁, here⟩ b₁ r there⟩

end Builder

def Policy.Within (P Q : Policy) : Prop :=
  ∀ subject object operation, P.allows subject object operation = true →
    Q.allows subject object operation = true

def Declarations.regrant (D : Declarations) (Q : Policy) : Declarations :=
  { D with policy := D.policy.regrant Q }

namespace Context

theorem refines_require {ctx : Context} {Q : Policy} {s : SystemDecl} {object : Option String}
    {operation : String} {position declaration : Option String}
    (within : ctx.decls.policy.Within Q) :
    (ctx.check (ctx.decls.policy.require ctx.type object operation position declaration)).Refines
      ((ctx.amend (fun _ => Q) s).check ((ctx.amend (fun _ => Q) s).decls.policy.require ctx.type
        object operation position declaration)) := by
  intro b r done
  obtain ⟨required, same⟩ := check_eq_ok_iff.mp done
  refine check_eq_ok_iff.mpr ⟨?_, same⟩
  simp only [Policy.require] at required ⊢
  split at required
  next allowed => exact if_pos (within _ _ _ allowed)
  next => simp at required

theorem relates_inlineUpTo (Q : Policy) (s : SystemDecl) (depth : Nat) :
    Relates (fun _ => True) (fun _ => Builder.Refines) (fun ctx _ => ctx.decls.policy.Within Q)
      (fun _ => Q) s (inlineUpTo depth) (inlineUpTo depth) := by
  have reasons : Reasons (fun _ => True) fun ctx _ => ctx.decls.policy.Within Q :=
    ⟨fun _ _ => trivial, fun _ _ => trivial, fun _ _ _ _ _ _ _ _ _ => trivial,
      fun _ _ _ within => within⟩
  have respects : Builder.Respects (fun _ => True) fun _ => Builder.Refines :=
    ⟨fun _ => .refl _, .bind⟩
  induction depth with
  | zero => exact ⟨reasons, respects, fun _ _ _ _ => refines_require, fun _ _ _ _ _ _ _ _ _ _ =>
    .refl _⟩
  | succ depth ih =>
    refine ⟨reasons, respects, fun _ _ _ _ => refines_require, ?_⟩
    intro ctx part f d args ends result within calls runs
    exact related_inlineWith ih (fun _ _ => within) args ends

end Context

theorem Template.refines_elaborate {D : Declarations} {Q : Policy} (within : D.policy.Within Q)
    (template : Template) (name : String) (channels : Table String String) :
    (template.elaborate D name channels).Refines
      (template.elaborate (D.regrant Q) name channels) := by
  have relates := Context.relates_inlineUpTo Q D.system D.callables.definitions.size
  have built : (template.build D name channels).Refines
      (template.build (D.regrant Q) name channels) :=
    related_buildBy relates (fun _ _ _ => trivial) (fun _ _ _ _ => within) fun _ _ => within
  rw [elaborate_eq_build, elaborate_eq_build]
  exact built.bind fun _ _ => .refl _

end ThreatModel
