import StrictnessAnalysis.Text.Layout

/-! What a JSON text may hold, and why one is not read. A complaint about a text is told with the
line and the column of its place. -/

namespace StrictnessAnalysis.Json

/-- What a text may hold: how deep it may nest, and how long its integers may be. -/
structure Limits where
  depth : Nat
  digits : Option Nat

/-- The limits on documents that may nest as deep as `depth`. -/
def Limits.document (depth : Nat) : Limits := ⟨depth, some Text.digitLimit⟩

inductive Complaint
  | value
  | propertyName
  | colon
  | comma
  | unterminated
  | control
  | escape
  | unicodeEscape
  | extraData
  | byteOrderMark

def Complaint.message : Complaint → String
  | .value => "Expecting value"
  | .propertyName => "Expecting property name enclosed in double quotes"
  | .colon => "Expecting ':' delimiter"
  | .comma => "Expecting ',' delimiter"
  | .unterminated => "Unterminated string starting at"
  | .control => "Invalid control character at"
  | .escape => "Invalid \\escape"
  | .unicodeEscape => "Invalid \\uXXXX escape"
  | .extraData => "Extra data"
  | .byteOrderMark => "Unexpected UTF-8 BOM (decode using utf-8-sig)"

/-- Why a text was not read. The place of a complaint is given by how many characters are left from
there to the end. -/
inductive Failure
  | malformed (complaint : Complaint) (left : Nat)
  | tooDeep
  | tooManyDigits

/-- The line and the column, both from one, of the character with `offset` characters before it. -/
def position (text : List Char) (offset : Nat) : Nat × Nat :=
  let before := text.take offset
  (before.count '\n' + 1, (before.reverse.takeWhile (· ≠ '\n')).length + 1)

/-- A complaint with its place in the text. -/
def Complaint.describe (complaint : Complaint) (text : List Char) (left : Nat) : String :=
  let (line, column) := position text (text.length - left)
  complaint.message ++ " (line " ++ toString line ++ ", column " ++ toString column ++ ")"

end StrictnessAnalysis.Json
