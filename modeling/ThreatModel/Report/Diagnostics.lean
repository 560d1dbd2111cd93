import ThreatModel.Diagnostic.Basic
import ThreatModel.Report.Block

set_option autoImplicit false

namespace ThreatModel.Report

def width : Int := 96

def advice : Category → List (List String)
  | .declaration =>
      [["Check names",
        "Every symbol, syscall, constant, channel and template shares one namespace; "
          ++ "rename clashes."],
       ["Check arities",
        "Symbol and call arities are fixed by their declaration; count the arguments."],
       ["Check types",
        "Channels need channel types, files need filesys types, processes need process types."]]
  | .scoping =>
      [["Bind before use",
        "Variables are bound by let, new, or a consume/read pattern, "
          ++ "and are write-once per scope."],
       ["Quantify lemma variables",
        "Every lemma variable and #index must be bound by All/Ex (or be implicit)."]]
  | .policy =>
      [["Add a grant",
        "Allow the process type to invoke the operation on the channel/file type."],
       ["Grant the attack",
        "Attacks need an attacker grant on the process type or an argument's type."],
       ["Passive attacks", "Passive attacks may only insert into the attacker store."]]
  | .theory =>
      [["Orient equations", "Each equation is used left to right; make sure rewriting terminates."],
       ["Raise the budget",
        "Deep but terminating rewrites may need CompilerConfig(rewrite_budget=...)."]]
  | .structural =>
      [["Break recursion", "Syscalls are inlined, so call chains must be acyclic."],
       ["Match the events", "Lemma events must be emitted by some process, with the same arity."],
       ["Produce before removing",
        "A removed fact must be inserted somewhere, or be initial file content."]]

def categories : List Category := [.declaration, .scoping, .policy, .theory, .structural]

def borderOf : Category → String
  | .policy | .theory => "red"
  | _ => "magenta"

def panel (d : Diagnostic) (number : Nat) : Block :=
  let lines := [d.message]
    ++ (Diagnostic.shown d.declaration).toList.map (fun name => s!"\nDeclaration: {name}")
    ++ (Diagnostic.shown d.position).toList.map (fun position => s!"Position: {position}")
    ++ d.location.toList.map (fun loc => s!"Line: {loc.line}, Col: {loc.column}")
  .panel ("\n".intercalate lines) (some s!"{d.kind.word} #{number}") none
    (borderOf d.category) width

def suggestions (ds : List Diagnostic) : Block :=
  let met := categories.filter fun c => ds.any fun d => d.category = c
  .table (some "💡 Suggestions") ["Strategy", "What to do"] (met.flatMap advice) width

def passed : List Block :=
  [.gap,
   .panel "No errors.\nThe model compiled to IR." (some "✅ Compilation Passed") none "none" width,
   .gap]

def ofDiagnostics : List Diagnostic → List Block
  | [] => passed
  | ds =>
      [.gap,
       .panel "Warren Compilation Report" none (some s!"{ds.length} error(s)") "none" width,
       .gap]
      ++ ds.mapIdx (fun i d => panel d (i + 1))
      ++ [suggestions ds, .gap,
          .text ("Tip: declaration errors are reported together; elaboration stops at the first "
            ++ "error of each instance."),
          .gap]

def verdict : Option Bool → String
  | some true => "holds"
  | some false => "fails"
  | none => "unknown"

def ofVerdicts (verdicts : Table String (Option Bool)) : List Block :=
  [.table (some "📜 Lemmas on Trace") ["Lemma", "Result"]
     (verdicts.entries.map fun (name, holds) => [name, verdict holds]) width,
   .gap]

end ThreatModel.Report
