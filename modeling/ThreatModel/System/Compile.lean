import ThreatModel.Declarations.OfModel
import ThreatModel.Elaboration.Instance
import ThreatModel.Formula.OfLemma
import ThreatModel.Formula.Solver
import ThreatModel.System.Basic

set_option autoImplicit false

namespace ThreatModel

structure CompilerConfig where
  rewriteBudget : Int := 64
  checkFactPresence : Bool := true
  checkLemmaOrderings : Bool := true
  deriving DecidableEq, Repr

structure Composition where
  instances : List ProcessInstance := []
  nextNonce : Nat
  notes : List String := []
  flaws : List Diagnostic := []
  failed : List String := []

namespace Declarations

def globals (D : Declarations) : List GlobalFresh :=
  ((D.constants.entries.filter (·.2)).map (·.1)).mapIdx fun i name =>
    { name, var := freshConstantVar name, nonce := i }

def publicConstants (D : Declarations) : List String :=
  Sorted.ofList ((D.constants.entries.filter fun (_, fresh) => !fresh).map (·.1))

def addInstance (D : Declarations) (inst : InstanceDecl) (name : String) (c : Composition) :
    Result Composition :=
  match D.templates.find? inst.template with
  | none => .error (.missing inst.template)
  | some template =>
      let channels := Table.ofList ((template.params.map (·.name)).zip inst.args)
      match elaborate D template name channels c.nextNonce with
      | .ok e => .ok
          { c with
            instances := c.instances ++ [e.inst]
            nextNonce := e.nextNonce
            notes := c.notes ++ e.notes }
      | .error (.flaw d) => .ok
          { c with flaws := c.flaws ++ [d], failed := c.failed ++ [inst.template] }
      | .error fault => .error fault

def addInstances (D : Declarations) : List InstanceDecl → Nat → Composition → Result Composition
  | [], _, c => .ok c
  | inst :: rest, i, c => do
      let c ← D.addInstance inst (inst.label i) c
      D.addInstances rest (i + 1) c

def compose (D : Declarations) : Result Composition :=
  D.addInstances D.system.instances 0 { nextNonce := D.globals.length }

def hopelessRemovals (D : Declarations) (config : CompilerConfig) (c : Composition) :
    Except Diagnostic (List Diagnostic) :=
  if config.checkFactPresence && c.flaws.isEmpty then
    D.stores.checkRemovals D.theory (c.instances.flatMap ProcessInstance.inserts)
      (c.instances.flatMap ProcessInstance.removals)
  else .ok []

def writtenEvents (D : Declarations) (templates : List String) : Vocabulary :=
  let emitted (parts : List Part) : Vocabulary := parts.filterMap fun part =>
    match part with
    | .command (.emit event) => some (event.tag, event.args.length)
    | _ => none
  if templates.isEmpty then []
  else
    (templates.filterMap D.templates.find?).flatMap (fun p => emitted p.parts)
      ++ D.callables.definitions.values.flatMap fun d => emitted d.body.parts

/-- What lemmas may speak of: the events of the sound instances, and for the others what their
text can emit. -/
def vocabulary (D : Declarations) (c : Composition) : Vocabulary :=
  c.instances.flatMap (fun inst => inst.events.map fun e => (e.tag, e.arity))
    ++ D.writtenEvents c.failed

def addLemmas (L : Lexicon) : List LemmaDecl → Result (List Lemma × List Diagnostic)
  | [] => .ok ([], [])
  | l :: rest =>
      match L.translate l with
      | .ok stated => do
          let (lemmas, flaws) ← addLemmas L rest
          return (stated :: lemmas, flaws)
      | .error (.flaw d) => do
          let (lemmas, flaws) ← addLemmas L rest
          return (lemmas, d :: flaws)
      | .error fault => .error fault

def lemmas (D : Declarations) (c : Composition) : Result (List Lemma × List Diagnostic) :=
  addLemmas { theory := D.theory, constants := D.constants, vocabulary := D.vocabulary c }
    D.system.lemmas

end Declarations

def unorderable (config : CompilerConfig) (lemmas : List Lemma) : List String :=
  if config.checkLemmaOrderings then (lemmas.filter (!·.formula.orderable)).map (·.name) else []

def System.package (D : Declarations) (c : Composition) (lemmas : List Lemma)
    (unordered : List String) : Except Diagnostic System := do
  return {
    theory := D.theory
    instances := c.instances
    lemmas
    stores := D.stores.stores
    constants := D.publicConstants
    globals := D.globals
    causalEdges := ← edgesAmong D.theory D.stores c.instances
    notes := c.notes ++ unordered.map fun name =>
      s!"lemma {name}: its ordering constraints are unsatisfiable" }

def compile (config : CompilerConfig) (M : Model) : Result System := do
  let D ← Declarations.ofModel config.rewriteBudget M
  let c ← D.compose
  let hopeless ← D.hopelessRemovals config c
  let (lemmas, lemmaFlaws) ← D.lemmas c
  let flaws := c.flaws ++ hopeless ++ lemmaFlaws
  if flaws.isEmpty then System.package D c lemmas (unorderable config lemmas)
  else throw (.rejected flaws)

end ThreatModel
