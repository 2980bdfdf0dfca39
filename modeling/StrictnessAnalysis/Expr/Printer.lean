import StrictnessAnalysis.Table
import StrictnessAnalysis.Text.Layout
import StrictnessAnalysis.Text.Quoted

/-! The written form of expressions and definitions: the name of the form, then its parts in
parentheses, names quoted and arguments as a tuple. -/

namespace StrictnessAnalysis

open Text

/-- The name under which calls of a mode are written. -/
def CallMode.label : CallMode → String
  | .plain => "Call"
  | .memo => "MemoCall"
  | .solved => "FPICall"

namespace Expr

/-- A form's name applied to its written parts. -/
def form (label : String) (parts : List (List Char)) : List Char :=
  label.toList ++ '(' :: commaSeparated parts ++ [')']

mutual

def chars : Expr → List Char
  | .const n => form "Const" [(toString n).toList]
  | .var x => form "Var" [Quoted.encode x.toList]
  | .cond test yes no => form "If" [test.chars, yes.chars, no.chars]
  | .basic operator args => form "BasicFn" [Quoted.encode operator.toList, tuple (charsAll args)]
  | .call mode callee args => form mode.label [Quoted.encode callee.toList, tuple (charsAll args)]

def charsAll : List Expr → List (List Char)
  | [] => []
  | e :: es => e.chars :: charsAll es

end

def render (e : Expr) : String := String.ofList e.chars

mutual

/-- Every constant in the expression can be written. -/
def isWritable : Expr → Bool
  | .const n => Text.isWritable n
  | .var _ => true
  | .cond test yes no => test.isWritable && yes.isWritable && no.isWritable
  | .basic _ args => areWritable args
  | .call _ _ args => areWritable args

def areWritable : List Expr → Bool
  | [] => true
  | e :: es => e.isWritable && areWritable es

end

/-- The written form, if every constant can be written. -/
def text? (e : Expr) : Option String := if e.isWritable then some e.render else none

end Expr

namespace Definition

def chars (f : Definition) : List Char :=
  Expr.form "FunDef" [Quoted.encode f.name.toList,
    bracketed (f.params.map fun p => Quoted.encode p.toList), f.body.chars]

/-- The written form, if every constant of the body can be written. -/
def text? (f : Definition) : Option String :=
  if f.body.isWritable then some (String.ofList f.chars) else none

end Definition

end StrictnessAnalysis
