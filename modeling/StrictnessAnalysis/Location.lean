/-! Locations of files, written as in a POSIX system: names divided by slashes, with a root or
without. Empty names and single dots mean nothing and are dropped; double dots stay, for what they
lead to is for the file system to say. -/

namespace StrictnessAnalysis

/-- Exactly two leading slashes are a root of its own. -/
inductive Location.Root
  | relative
  | single
  | double
  deriving DecidableEq

structure Location where
  root : Location.Root
  names : List String

namespace Location

def rootOf : List Char → Root
  | '/' :: '/' :: '/' :: _ => .single
  | '/' :: '/' :: _ => .double
  | '/' :: _ => .single
  | _ => .relative

/-- What stands before, between and behind the slashes. -/
def segments : List Char → List (List Char)
  | [] => [[]]
  | '/' :: rest => [] :: segments rest
  | c :: rest =>
    match segments rest with
    | [] => [[c]]
    | segment :: behind => (c :: segment) :: behind

def ofString (text : String) : Location where
  root := rootOf text.toList
  names := ((segments text.toList).map String.ofList).filter fun name => name ≠ "" ∧ name ≠ "."

def render (l : Location) : String :=
  let names := String.intercalate "/" l.names
  match l.root with
  | .relative => if l.names.isEmpty then "." else names
  | .single => "/" ++ names
  | .double => "//" ++ names

/-- The location `l` as seen from `base`. -/
def under (base l : Location) : Location :=
  match l.root with
  | .relative => { base with names := base.names ++ l.names }
  | _ => l

end Location

end StrictnessAnalysis
