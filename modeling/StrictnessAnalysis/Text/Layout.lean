/-! Decimal numbers, and the layout of lists and tuples of written parts. Integers are written in
decimal, and those of more than `digitLimit` digits are not written at all. -/

namespace StrictnessAnalysis.Text

/-- The largest number of decimal digits that an integer is read or written with. -/
def digitLimit : Nat := 4300

/-- The integer has no more digits than can be written. -/
def isWritable (n : Int) : Bool := n.natAbs < Nat.pow 10 digitLimit

/-- The integer in decimal, if it can be written. -/
def decimal? (n : Int) : Option String := if isWritable n then some (toString n) else none

def commaSeparated : List (List Char) → List Char
  | [] => []
  | [part] => part
  | part :: rest => part ++ ',' :: ' ' :: commaSeparated rest

/-- Parts in brackets. -/
def bracketed (parts : List (List Char)) : List Char := '[' :: commaSeparated parts ++ [']']

/-- Parts in parentheses; a single one is followed by a comma. -/
def tuple : List (List Char) → List Char
  | [part] => '(' :: part ++ [',', ')']
  | parts => '(' :: commaSeparated parts ++ [')']

/-- Lines, each ended by a line feed. -/
def lines (ls : List String) : String := String.join (ls.map (· ++ "\n"))

end StrictnessAnalysis.Text
