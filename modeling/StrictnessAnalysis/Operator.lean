/-! The built-in operators. Each combines its first two operands and ignores the rest; the two
comparisons answer one for true and zero for false. -/

namespace StrictnessAnalysis

inductive Operator
  | add
  | sub
  | mul
  | eq
  | geq
  deriving DecidableEq

namespace Operator

def ofName? : String → Option Operator
  | "add" => some .add
  | "sub" => some .sub
  | "mul" => some .mul
  | "eq" => some .eq
  | "geq" => some .geq
  | _ => none

def name : Operator → String
  | .add => "add"
  | .sub => "sub"
  | .mul => "mul"
  | .eq => "eq"
  | .geq => "geq"

def combine : Operator → Int → Int → Int
  | .add, x, y => x + y
  | .sub, x, y => x - y
  | .mul, x, y => x * y
  | .eq, x, y => if x = y then 1 else 0
  | .geq, x, y => if x ≥ y then 1 else 0

/-- An operator was given fewer than two operands. -/
structure Shortage where
  operator : Operator
  given : Nat
  deriving DecidableEq

def Shortage.message (s : Shortage) : String :=
  s.operator.name ++ " needs 2 arguments; got " ++ toString s.given ++ "."

def apply (op : Operator) : List Int → Except Shortage Int
  | x :: y :: _ => .ok (op.combine x y)
  | operands => .error ⟨op, operands.length⟩

theorem ofName?_name (op : Operator) : ofName? op.name = some op := by cases op <;> rfl

end Operator

end StrictnessAnalysis
