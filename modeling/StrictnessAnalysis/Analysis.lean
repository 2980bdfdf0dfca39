import StrictnessAnalysis.Abstract
import StrictnessAnalysis.CallGraph
import StrictnessAnalysis.Report

/-! Strictness analysis of a whole program. Bodies are prepared first: calls of a function to itself
read its memo table, and calls of other functions are solved in their own right. Functions that call
each other in a cycle cannot share a memo table keyed only by arguments; they form the ring, calls
into it are taken to be anything, and they count as strict in nothing. A function is strict in a
parameter if it is certainly undefined when that argument is and all others are defined. -/

namespace StrictnessAnalysis

structure Analysis where
  table : Table
  /-- The components of two or more functions that call each other, as the search completes them. -/
  cycles : List (List String)

namespace Analysis

/-- The analysis of a table, given its call graph. -/
def ofGraph (table : Table) (graph : CallGraph) : Analysis :=
  ⟨table, graph.components.filter fun c => 1 < c.length⟩

def ofTable (table : Table) : Analysis := ofGraph table (CallGraph.ofTable table)

/-- The functions that take part in mutual recursion. -/
def ring (a : Analysis) : List String := a.cycles.flatten

/-- What becomes of a call in the body of the function `inside`, if any, once its arguments are
prepared. -/
def prepareCall (a : Analysis) (inside : Option String) (callee : String) (args : List Expr) :
    Expr :=
  if callee ∈ a.ring then .const 0
  else if inside = some callee then .call .memo callee args
  else if a.table.defines callee then .call .solved callee args
  else .call .plain callee args

/-- Prepares an expression found in the body of the function `inside`, if any. -/
def prepare (a : Analysis) (inside : Option String) (e : Expr) : Expr :=
  e.mapCalls fun callee _ args => a.prepareCall inside callee args

/-- The table with every body prepared. -/
def prepared (a : Analysis) : Table := a.table.mapBodies fun f => a.prepare (some f.name) f.body

/-- Arguments that are all defined but for the one at a position. -/
def probe (arity position : Nat) : List Definedness :=
  (List.range arity).map fun i => if i = position then .zero else .one

/-- For each parameter of a function of the table, whether the function is strict in it. -/
def strictness (a : Analysis) (depth : Nat) (f : Definition) :
    Except Abstract.Failure (List Bool) :=
  if f.name ∈ a.ring then .ok (List.replicate f.arity false)
  else
    let g := f.mapBody (a.prepare (some f.name))
    (List.range f.arity).mapM fun i => do
      return (← Abstract.solve a.prepared depth g (probe f.arity i)) = .zero

/-- The strictness of the given functions in order, up to the first at which it fails. -/
def survey (a : Analysis) (depth : Nat) :
    List Definition → List (Definition × List Bool) × Option Abstract.Failure
  | [] => ([], none)
  | f :: rest =>
    match a.strictness depth f with
    | .error failure => ([], some failure)
    | .ok strict =>
      let (found, failure) := a.survey depth rest
      ((f, strict) :: found, failure)

/-- A caution for each cycle of functions that call each other. -/
def cautions (a : Analysis) : List Notice := a.cycles.map Notice.mutualRecursion

/-- A report with the cautions added. -/
def warn (a : Analysis) (report : Report) : Report := a.cautions.foldl Report.caution report

/-- The abstract value of an expression outside all functions. -/
def query (a : Analysis) (depth : Nat) (env : Abstract.Env) (e : Expr) :
    Except Abstract.Failure Definedness :=
  Abstract.eval a.prepared depth Abstract.Memo.empty env (a.prepare none e)

end Analysis

/-- A function with its parameters, the strict ones marked by a bang. -/
def Definition.signature (f : Definition) (strict : List Bool) : String :=
  let params := (f.params.zip strict).map fun (p, s) => if s then p ++ "!" else p
  f.name ++ "(" ++ String.intercalate ", " params ++ ")"

end StrictnessAnalysis
