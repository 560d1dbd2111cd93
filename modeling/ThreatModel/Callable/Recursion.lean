import ThreatModel.Sorted
import ThreatModel.Callable.Basic

set_option autoImplicit false

namespace ThreatModel

abbrev CallGraph := Table String (List String)

namespace CallGraph

structure Search where
  done : List String := []
  cycles : List (List String) := []

def Search.report (s : Search) (cycle : List String) : Search :=
  if s.cycles.any fun known => known.all cycle.contains && cycle.all known.contains then s
  else { s with cycles := s.cycles ++ [cycle] }

/-- Explores what `path` leads to; its last name is the one to explore. A call back to a name on
the path closes a cycle. Names on a path are distinct, so no path is longer than the graph. -/
def visit (G : CallGraph) : Nat → List String → String → Search → Search
  | 0, _, _, s => s
  | depth + 1, path, name, s =>
      let explored := ((G.find? name).getD []).foldl (fun s next =>
        if next ∈ path then s.report (path.dropWhile (· ≠ next) ++ [next])
        else if next ∈ s.done then s
        else visit G depth (path ++ [next]) next s) s
      { explored with done := name :: explored.done }

def cycles (G : CallGraph) : List (List String) :=
  ((Sorted.ofList G.keys).foldl (fun s root =>
    if root ∈ s.done then s else visit G G.size [root] root s) {}).cycles

end CallGraph

namespace Callables

/-- Calls inside an attack are never intercepted again, so an override is not a call. -/
def callGraph (C : Callables) : CallGraph :=
  C.definitions.map fun d => Sorted.ofList ((calledNames d.body.parts).filter C.contains)

def checkRecursion (C : Callables) : List Diagnostic :=
  C.callGraph.cycles.map fun cycle =>
    let entry := cycle.getLastD ""
    { cause := .recursiveCalls cycle
      declaration := some entry
      location := (C.find? entry).bind (·.loc) }

end Callables

end ThreatModel
