import ThreatModel.System.Compile

set_option autoImplicit false

namespace ThreatModel.Transcript

def ending : Fault → String
  | .rejected _ => "\n❌ [CRITICAL] COMPILATION FAILED!\n"
  | _ => ""

def verdict (flaws : Nat) : String :=
  if flaws = 0 then "✅ OK\n" else s!"❌ {flaws} error(s)\n"

def packaging (D : Declarations) (c : Composition) (lemmas : List Lemma) (unordered : List String)
    (flaws : List Diagnostic) : String :=
  if !flaws.isEmpty then ending (.rejected flaws)
  else
    "   • Generating IR... " ++
      match System.package D c lemmas unordered with
      | .error _ => ""
      | .ok system => "✅ OK\n" ++ String.join (system.notes.map fun note => s!"   ℹ️  {note}\n")

def stating (config : CompilerConfig) (D : Declarations) (c : Composition)
    (flaws : List Diagnostic) : String :=
  "   • Translating Lemmas... " ++
    match D.lemmas c with
    | .error fault => ending fault
    | .ok (lemmas, lemmaFlaws) =>
        let unordered := unorderable config lemmas
        verdict lemmaFlaws.length
          ++ (if config.checkLemmaOrderings && !lemmas.isEmpty then
              "   ├── Checking Lemma Orderings (Z3 Engine)... "
                ++ (if unordered.isEmpty then "✅ Consistent\n"
                  else s!"⚠️  {unordered.length} lemma(s) with cyclic ordering\n")
            else "")
          ++ packaging D c lemmas unordered (flaws ++ lemmaFlaws)

def checkingRemovals (config : CompilerConfig) (D : Declarations) (c : Composition) : String :=
  match D.hopelessRemovals config c with
  | .error _ => "   ├── Checking Store Removals... "
  | .ok hopeless =>
      (if config.checkFactPresence && c.flaws.isEmpty then
        "   ├── Checking Store Removals... " ++ verdict hopeless.length
      else "")
      ++ stating config D c (c.flaws ++ hopeless)

def elaborating (config : CompilerConfig) (D : Declarations) : String :=
  "   • Elaborating Processes... " ++
    match D.compose with
    | .error fault => ending fault
    | .ok c => verdict c.flaws.length ++ checkingRemovals config D c

def ofModel (config : CompilerConfig) (M : Model) : String :=
  let instances := match M.system with
    | some system => system.instances.length
    | none => 0
  s!"⚙️  Compiling System: {M.processes.length} template(s), {instances} instance(s)\n"
    ++ "   • Checking Declarations... "
    ++ match Declarations.ofModel config.rewriteBudget M with
      | .error fault => ending fault
      | .ok D => "✅ OK\n" ++ elaborating config D

end ThreatModel.Transcript
