import StrictnessAnalysis.Text.Quoted

/-! Notices to the user: an introduction, the places that it concerns, and further remarks. Every
wording of a complaint or a caution stands here. -/

namespace StrictnessAnalysis

open Text

structure Notice where
  intro : String
  places : List String := []
  remarks : List String := []

namespace Notice

def text (n : Notice) : String :=
  String.intercalate "\n" (n.intro :: n.places.map ("    at " ++ ·) ++ n.remarks)

/-- A short form for lists of notices. -/
def label (n : Notice) : String := "<Pic " ++ Quoted.quoted n.intro ++ ">"

/-! ### Reading a program -/

def noSuchFile (path : String) : Notice := { intro := "I see no file called " ++ path }

def brokenFile (path reason : String) : Notice where
  intro := "Something went pear-shaped while trying to read " ++ path
  remarks := [reason]

def malformed (place expected : String) : Notice where
  intro := "Expected " ++ expected ++ " here."
  places := [place]

def unknownForm (place : String) (keys : List String) : Notice where
  intro := "This is not any kind of expression I know."
  places := [place]
  remarks := ["(Keys were: " ++ String.intercalate ", " (keys.map Quoted.quoted) ++ ")",
    "Try one of: const, var, if, basic, call, memo, fpi"]

/-! ### Analysing and evaluating it -/

/-- Names are listed in the order of their code points. -/
def mutualRecursion (names : List String) : Notice where
  intro := "These functions call each other in a cycle. Memo tables are keyed only by argument, " ++
    "so I cannot tell their recursive calls apart."
  remarks := [" - The cycle is: " ++ String.intercalate ", " (names.mergeSort (· ≤ ·)),
    " - Treating them as strict in nothing."]

def undefinedOperation (place reason : String) : Notice where
  intro := "This cannot be evaluated."
  places := [place]
  remarks := [reason]

end Notice

end StrictnessAnalysis
