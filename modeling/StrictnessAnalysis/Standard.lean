import StrictnessAnalysis.Binding
import StrictnessAnalysis.Operator
import StrictnessAnalysis.Table

/-! The standard semantics. The value of an expression is an integer or undefined (`none`). A
conditional evaluates its test and then only the chosen part; operators and calls evaluate all their
arguments from left to right. What has no definition is undefined, and its arguments are not looked
at. Evaluation is bounded by a depth, the number of expressions that may be under evaluation at
once. -/

namespace StrictnessAnalysis.Standard

abbrev Env := String → Option Int

/-- Why an evaluation gave no value, not even the undefined one. -/
inductive Failure
  | tooDeep
  | shortage (cause : Operator.Shortage)
  deriving DecidableEq

/-- The integers of a list of values, if all are defined. -/
def allDefined : List (Option Int) → Option (List Int)
  | [] => some []
  | none :: _ => none
  | some n :: rest => (allDefined rest).map (n :: ·)

/-- An operator on values: undefined as soon as one of them is. -/
def applyOperator (op : Operator) (values : List (Option Int)) : Except Failure (Option Int) :=
  match allDefined values with
  | none => .ok none
  | some operands =>
    match op.apply operands with
    | .ok n => .ok (some n)
    | .error cause => .error (.shortage cause)

def eval (table : Table) : (depth : Nat) → Env → Expr → Except Failure (Option Int)
  | 0, _, _ => .error .tooDeep
  | _ + 1, _, .const n => .ok (some n)
  | _ + 1, env, .var x => .ok (env x)
  | depth + 1, env, .cond test yes no => do
    match ← eval table depth env test with
    | none => return none
    | some n => if n = 0 then eval table depth env no else eval table depth env yes
  | depth + 1, env, .basic operator args =>
    match Operator.ofName? operator with
    | none => .ok none
    | some op => do applyOperator op (← args.mapM (eval table depth env))
  | depth + 1, env, .call _ callee args =>
    match table.find? callee with
    | none => .ok none
    | some f => do
      let values ← args.mapM (eval table depth env)
      eval table depth (frame none f.params values) f.body

/-- The value of a function at a list of arguments. -/
def apply (table : Table) (depth : Nat) (f : Definition) (args : List (Option Int)) :
    Except Failure (Option Int) :=
  eval table depth (frame none f.params args) f.body

/-- A function of the standard semantics in lists of such functions. -/
def label (f : Definition) : String := "<Closure " ++ f.name ++ "/" ++ toString f.arity ++ ">"

end StrictnessAnalysis.Standard
