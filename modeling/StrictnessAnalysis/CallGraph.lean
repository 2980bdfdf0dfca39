import StrictnessAnalysis.Expr.Calls
import StrictnessAnalysis.Table

/-! Who calls whom among the functions of a table, and the strongly connected components of that
graph.

Components are found by one depth-first search. The functions entered and not yet assigned to a
component stand on a stack, and a function's height is its place on it, counted from the bottom. A
visit answers the least height of the stack that it can see from its function; if that is the
function's own height, the function and all above it are a component. Components are listed as they
are completed, so one comes after all that it calls. -/

namespace StrictnessAnalysis

/-- Each function with the functions that it calls. -/
abbrev CallGraph := List (String × List String)

namespace CallGraph

/-- The calls between defined functions, anywhere in their bodies. -/
def ofTable (t : Table) : CallGraph :=
  t.entries.map fun f => (f.name, (f.body.callees.filter t.defines).eraseDups)

def callees (g : CallGraph) (name : String) : List String := (g.lookup name).getD []

/-- The state of the search: the stack, last entered first, and the components completed so far. -/
structure Search where
  stack : List String
  components : List (List String)

namespace Search

def entered (s : Search) (name : String) : Bool :=
  s.stack.contains name || s.components.any fun c => c.contains name

/-- The height on the stack of a name that stands there. -/
def height? (s : Search) (name : String) : Option Nat :=
  s.stack.reverse.idxOf? name

def push (s : Search) (name : String) : Search := { s with stack := name :: s.stack }

/-- Makes what stands on the stack from `height` upwards a component. -/
def complete (s : Search) (height : Nat) : Search :=
  let above := s.stack.length - height
  { stack := s.stack.drop above, components := s.components ++ [s.stack.take above] }

end Search

/-- Looks at a callee, visiting it unless it was entered before. The least height seen is kept. -/
def look (visit : String → Search → Nat × Search) (seen : Nat × Search) (callee : String) :
    Nat × Search :=
  if seen.2.entered callee then
    match seen.2.height? callee with
    | some height => (min seen.1 height, seen.2)
    | none => seen
  else
    let after := visit callee seen.2
    (min seen.1 after.1, after.2)

/-- Visits a function that was not entered before. The answer is the least height seen. -/
def visit (g : CallGraph) : (fuel : Nat) → String → Search → Nat × Search
  | 0, _, s => (s.stack.length, s)
  | fuel + 1, name, s =>
    let height := s.stack.length
    let seen := (g.callees name).foldl (look (visit g fuel)) (height, s.push name)
    (seen.1, if seen.1 < height then seen.2 else seen.2.complete height)

/-- Searches from a function, unless it was entered before. A visit enters a function, so visits
nest no deeper than there are functions. -/
def searchFrom (g : CallGraph) (s : Search) (name : String) : Search :=
  if s.entered name then s else (visit g g.length name s).2

/-- The strongly connected components. -/
def components (g : CallGraph) : List (List String) :=
  ((g.map Prod.fst).foldl (searchFrom g) ⟨[], []⟩).components

end CallGraph

end StrictnessAnalysis
