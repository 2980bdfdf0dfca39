import StrictnessAnalysis.Binding
import StrictnessAnalysis.Definedness
import StrictnessAnalysis.Operator
import StrictnessAnalysis.Solver
import StrictnessAnalysis.Table

/-! The abstract semantics, in which values are points of definedness. An operator is strict in all
its arguments; a conditional needs its test and one of its parts. A plain call enters the callee
with an empty memo table, a memo call reads the table at hand, and a solved call runs the solver on
the callee. Evaluation is bounded by a depth as in the standard semantics. -/

namespace StrictnessAnalysis.Abstract

abbrev Env := String → Definedness

/-- What is known of a function under analysis, by its arguments. -/
abbrev Memo := List Definedness → Definedness

/-- The memo table that knows nothing. -/
def Memo.empty : Memo := fun _ => .zero

/-- A partial table, read as `zero` where it has no entry. -/
def Memo.ofLookup (lookup : List Definedness → Option Definedness) : Memo :=
  fun key => (lookup key).getD .zero

/-- Why an evaluation gave no value. -/
inductive Failure
  | tooDeep
  | unsolved (cause : Solver.Fault Definedness)

def eval (table : Table) : (depth : Nat) → Memo → Env → Expr → Except Failure Definedness
  | 0, _, _, _ => .error .tooDeep
  | _ + 1, _, _, .const _ => .ok .one
  | _ + 1, _, env, .var x => .ok (env x)
  | depth + 1, memo, env, .cond test yes no => do
    let a ← eval table depth memo env test
    let b ← eval table depth memo env yes
    let c ← eval table depth memo env no
    return a.meet (b.join c)
  | depth + 1, memo, env, .basic operator args =>
    match Operator.ofName? operator with
    | none => .ok .zero
    | some _ => do
      let values ← args.mapM (eval table depth memo env)
      return values.foldl Definedness.meet .one
  | depth + 1, memo, env, .call mode callee args =>
    match table.find? callee with
    | none => .ok .zero
    | some f => do
      let values ← args.mapM (eval table depth memo env)
      match mode with
      | .plain => eval table depth Memo.empty (frame .zero f.params values) f.body
      | .memo => return memo values
      | .solved =>
        let functional := fun point lookup =>
          eval table depth (Memo.ofLookup lookup) (frame .zero f.params point) f.body
        match ← Solver.solve functional Definedness.all .zero values with
        | .ok a => return a
        | .error cause => throw (.unsolved cause)

/-- The value of a function at a list of arguments, with a memo table for its memo calls. -/
def apply (table : Table) (depth : Nat) (memo : Memo) (f : Definition) (args : List Definedness) :
    Except Failure Definedness :=
  eval table depth memo (frame .zero f.params args) f.body

/-- The value at a list of arguments of the least fixed point of a function. -/
def solve (table : Table) (depth : Nat) (f : Definition) (args : List Definedness) :
    Except Failure Definedness := do
  let functional := fun point lookup => apply table depth (Memo.ofLookup lookup) f point
  match ← Solver.solve functional Definedness.all .zero args with
  | .ok a => return a
  | .error cause => throw (.unsolved cause)

/-- A function of the abstract semantics in lists of such functions. -/
def label (f : Definition) : String := "<Abstract " ++ f.name ++ "/" ++ toString f.arity ++ ">"

end StrictnessAnalysis.Abstract
