import ThreatModel.Report.Diagnostics
import ThreatModel.Run.Explore
import ThreatModel.Sorted
import ThreatModel.Text.Quoted

set_option autoImplicit false

namespace ThreatModel.Report

structure PageConfig where
  width : Int := 92
  maxValueLength : Int := 80
  maxItems : Int := 50
  title : String := "Warren Trace"
  deriving DecidableEq, Repr

def shorten (config : PageConfig) (s : String) : String :=
  if config.maxValueLength < s.length then Text.cut (config.maxValueLength - 3) s ++ "..." else s

def status (t : Trace) (verdicts : Table String (Option Bool)) : String × String :=
  if verdicts.values.contains (some false) then ("⛔ LEMMA VIOLATED", "red")
  else if t.truncated then ("⚠️  TRACE TRUNCATED", "yellow")
  else if !t.blocked.isEmpty then ("⏸️  INSTANCES BLOCKED", "yellow")
  else ("✅ TRACE COMPLETE", "green")

def orElse (s other : String) : String := if s.isEmpty then other else s

def outcomeRows (t : Trace) : List (List String) :=
  [["Finished", orElse (", ".intercalate t.finished) "-"]]
  ++ (if t.blocked.isEmpty then [] else [["Blocked", ", ".intercalate t.blocked]])
  ++ (if t.truncated then [["Truncated", s!"after {t.steps} steps"]] else [])

def eventRows (config : PageConfig) (t : Trace) : List (List String) :=
  let shown := t.events.take config.maxItems.toNat
  shown.mapIdx (fun i e => [toString i, e.owner, shorten config e.term.text])
  ++ (if shown.length < t.events.length then
      [["…", "", s!"(truncated after {config.maxItems} events)"]] else [])

def factsText (facts : List Term) : String :=
  ", ".intercalate ((facts.take 10).map (·.text))
    ++ (if 10 < facts.length then s!", … ({facts.length} facts)" else "")

def storeRows (config : PageConfig) (t : Trace) : List (List String) :=
  (Sorted.ofList t.stores.keys).map fun name =>
    [name, shorten config (orElse (factsText ((t.stores.find? name).getD [])) "∅")]

def lemmaBlocks (config : PageConfig) (verdicts : Table String (Option Bool)) : List Block :=
  if verdicts.entries.isEmpty then []
  else
    [.gap,
     .table (some "Lemmas") ["Lemma", "Result"]
       ((Sorted.ofList verdicts.keys).map fun name =>
         [name, verdict ((verdicts.find? name).getD none)]) config.width]

def ofTrace (config : PageConfig) (t : Trace) (verdicts : Table String (Option Bool)) :
    List Block :=
  let (line, border) := status t verdicts
  [.gap,
   .panel line (some config.title) none border config.width,
   .table none ["Meta", "Value"] (outcomeRows t) config.width,
   .table (some "Events") ["#", "Instance", "Event"] (eventRows config t) config.width,
   .table (some "Final Stores") ["Store", "Facts"] (storeRows config t) config.width]
  ++ lemmaBlocks config verdicts
  ++ [.gap, .text s!"Steps: {t.steps} | Events: {t.events.length}", .gap]

end ThreatModel.Report
