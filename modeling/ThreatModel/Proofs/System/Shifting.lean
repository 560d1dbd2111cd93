import Mathlib
import ThreatModel.Proofs.System.Compiled
import ThreatModel.Proofs.Elaboration.Shifting

set_option autoImplicit false

namespace ThreatModel

open Result

theorem Declarations.within_of_ofModel {budget : Int} {M : Model} {s s' : SystemDecl}
    {D D' : Declarations} (made : ofModel budget { M with system := some s } = .ok D)
    (made' : ofModel budget { M with system := some s' } = .ok D') : D' = D.within s' := by
  obtain ⟨E, P, S, C, L, early, policy, syscalls, attacks, late, rfl, -⟩ := exists_stages made
  obtain ⟨E', P', S', C', L', early', policy', syscalls', attacks', late', rfl, -⟩ :=
    exists_stages made'
  obtain rfl : E = E' := Except.ok.inj (early.symm.trans early')
  obtain rfl : P = P' := Except.ok.inj (policy.symm.trans policy')
  obtain rfl : S = S' := Except.ok.inj (syscalls.symm.trans syscalls')
  obtain rfl : C = C' := Except.ok.inj (attacks.symm.trans attacks')
  obtain rfl : L = L' := Except.ok.inj (late.symm.trans late')
  rfl

namespace Composition

variable {D : Declarations} {c c' : Composition}

theorem Adds.instances_prefix {insts : List InstanceDecl} {i : Nat}
    (adds : Adds D insts i c c') : c.instances <+: c'.instances := by
  induction adds with
  | nil => exact List.prefix_rfl
  | cons _ _ _ ih => exact (List.prefix_append _ _).trans ih

theorem Adds.exists_elaborate {insts : List InstanceDecl} {i k : Nat}
    (adds : Adds D insts i c c') {decl : InstanceDecl} (listed : insts[k]? = some decl) :
    ∃ template first e, D.templates.find? decl.template = some template ∧
      elaborate D template (decl.label (i + k))
        (.ofList ((template.params.map (·.name)).zip decl.args)) first = .ok e ∧
      c'.instances[c.instances.length + k]? = some e.inst := by
  induction adds generalizing k with
  | nil => simp at listed
  | @cons inst rest i c c' template e found elaborated others ih =>
    cases k with
    | zero =>
      obtain rfl : inst = decl := by simpa using listed
      refine ⟨template, c.nextNonce, e, found, elaborated, ?_⟩
      obtain ⟨later, whole⟩ := others.instances_prefix
      rw [← whole, add]
      simp
    | succ k =>
      obtain ⟨template', first, e', found', elaborated', here⟩ := ih (by simpa using listed)
      refine ⟨template', first, e', found', ?_, ?_⟩
      · rwa [Nat.add_right_comm, Nat.add_assoc] at elaborated'
      · rw [← here, add]
        congr 1
        simp
        omega

end Composition

theorem System.exists_elaborate {config : CompilerConfig} {M : Model} {S : System} {s : SystemDecl}
    (done : compile config { M with system := some s } = .ok S) {k : Nat} {decl : InstanceDecl}
    (listed : s.instances[k]? = some decl) :
    ∃ D template first e,
      Declarations.ofModel config.rewriteBudget { M with system := some s } = .ok D ∧
      D.templates.find? decl.template = some template ∧
      elaborate D template (decl.label k)
        (.ofList ((template.params.map (·.name)).zip decl.args)) first = .ok e ∧
      S.instances[k]? = some e.inst := by
  obtain ⟨D, c, declared, composed, clean, same, -⟩ := exists_composed done
  have system : D.system = s := by
    obtain ⟨_, _, _, _, _, -, -, -, -, -, rfl, -⟩ := Declarations.exists_stages declared
    rfl
  rw [Declarations.compose, system] at composed
  obtain ⟨template, first, e, found, elaborated, here⟩ :=
    (Composition.adds_of_addInstances composed clean).2.exists_elaborate listed
  rw [Nat.zero_add] at elaborated
  exact ⟨D, template, first, e, declared, found, elaborated, by simpa [same] using here⟩

/-- Counting nonce ids from `a` or from `b`, elaboration fails alike or comes to the same but for
the start of the count. So in two systems over the same declarations, an instance under the same
name, template and arguments is the same but for a shift of its ids. -/
theorem instances_shift :
    (∀ (D : Declarations) (template : Template) (name : String) (channels : Table String String)
      (a b : Nat),
      (∃ fault, elaborate D template name channels a = .error fault ∧
        elaborate D template name channels b = .error fault) ∨
      ∃ e : Elaborated, elaborate D template name channels a = .ok (e.shift a) ∧
        elaborate D template name channels b = .ok (e.shift b)) ∧
    ∀ (config : CompilerConfig) (M : Model) (s s' : SystemDecl) (S S' : System),
      compile config { M with system := some s } = .ok S →
      compile config { M with system := some s' } = .ok S' →
      ∀ (k k' : Nat) (decl decl' : InstanceDecl), s.instances[k]? = some decl →
        s'.instances[k']? = some decl' → decl.label k = decl'.label k' →
        decl.template = decl'.template → decl.args = decl'.args →
        ∃ inst a b, S.instances[k]? = some (ProcessInstance.shift a inst) ∧
          S'.instances[k']? = some (ProcessInstance.shift b inst) := by
  refine ⟨fun D template name channels a b => ?_, ?_⟩
  · rw [elaborate_shift template D name channels a, elaborate_shift template D name channels b]
    cases elaborate D template name channels 0 with
    | error fault => exact .inl ⟨fault, rfl, rfl⟩
    | ok e => exact .inr ⟨e, rfl, rfl⟩
  · intro config M s s' S S' done done' k k' decl decl' listed listed' name template args
    obtain ⟨D, t, first, e, declared, found, elaborated, here⟩ :=
      System.exists_elaborate done listed
    obtain ⟨D', t', first', e', declared', found', elaborated', here'⟩ :=
      System.exists_elaborate done' listed'
    -- Both are elaborations of one template, and both are shifts of the one that counts from zero.
    rw [Declarations.within_of_ofModel declared declared', ← template] at found'
    obtain rfl : t = t' := Option.some.inj (found.symm.trans found')
    rw [Declarations.within_of_ofModel declared declared', elaborate_within, ← name, ← args,
      elaborate_shift] at elaborated'
    rw [elaborate_shift] at elaborated
    cases base : elaborate D t (decl.label k)
        (.ofList ((t.params.map (·.name)).zip decl.args)) 0 with
    | error fault => simp [base, Except.map] at elaborated
    | ok e₀ =>
        rw [base] at elaborated elaborated'
        obtain rfl := Except.ok.inj elaborated
        obtain rfl := Except.ok.inj elaborated'
        exact ⟨e₀.inst, first, first', here, here'⟩

def SystemDecl.early : SystemDecl where
  instances := [{ template := "Sender", args := ["net"], name := some "a" },
    { template := "Receiver", args := ["net"], name := some "b" }]
  lemmas := [{ name := "arrives", kind := .reachable,
               events := [{ tag := "Got", args := [.ident "y" none] }] }]

def SystemDecl.late : SystemDecl :=
  { SystemDecl.early with
    instances := [{ template := "Sender", args := ["net"] },
      { template := "Receiver", args := ["net"], name := some "b" },
      { template := "Sender", args := ["net"], name := some "a" }] }

theorem courier_instances_shift : ∃ S S' inst inst' base a b,
    compile {} { Model.courier with system := some .early } = .ok S ∧
    compile {} { Model.courier with system := some .late } = .ok S' ∧
    S.instances[0]? = some inst ∧ S'.instances[2]? = some inst' ∧
    System.noncesOf inst.graph = [1] ∧ System.noncesOf inst'.graph = [2] ∧
    inst = ProcessInstance.shift a base ∧ inst' = ProcessInstance.shift b base := by
  have ran : (do
      let S ← compile {} { Model.courier with system := some .early }
      let S' ← compile {} { Model.courier with system := some .late }
      return ((S.instances[0]?).map fun inst => System.noncesOf inst.graph,
        (S'.instances[2]?).map fun inst => System.noncesOf inst.graph) :
        Result (Option (List Nat) × Option (List Nat))) = .ok (some [1], some [2]) := by
    decide +kernel
  simp only [bind_eq_ok_iff, pure_eq_ok_iff, Prod.mk.injEq, Option.map_eq_some_iff] at ran
  obtain ⟨S, done, S', done', ⟨inst, here, nonces⟩, inst', here', nonces'⟩ := ran
  obtain ⟨base, a, b, first, second⟩ := instances_shift.2 {} Model.courier .early .late S S' done
    done' 0 2 _ _ rfl rfl rfl rfl rfl
  obtain rfl := Option.some.inj (here.symm.trans first)
  obtain rfl := Option.some.inj (here'.symm.trans second)
  exact ⟨S, S', _, _, base, a, b, done, done', here, here', nonces, nonces', rfl, rfl⟩

end ThreatModel
