import StrictnessAnalysis.Draft

/-! Equality of drafts. Nodes are equal if they are of one kind and have equal parts, and
definitions likewise. Data are compared by value: numbers of all kinds with each other, the truth
values counting as one and zero, and objects without regard to the order of their members. -/

namespace StrictnessAnalysis.Draft

/-- The integer that a datum counts as, if it is a whole number or a truth value. -/
def whole? : Draft → Option Int
  | .bool b => some (if b then 1 else 0)
  | .int n => some n
  | _ => none

/-- Numerical equality; drafts that are not numbers are not equal in this way. -/
def sameNumber (a b : Draft) : Bool :=
  match a, b with
  | .real x, .real y => x.same y
  | .real x, d | d, .real x => d.whole?.any x.sameInt
  | _, _ => a.whole?.isSome && a.whole? == b.whole?

mutual

def same (a b : Draft) : Bool :=
  match a, b with
  | .null, .null => true
  | .str s, .str t => s == t
  | .list xs, .list ys => sameAll xs ys
  | .record keys values, .record keys' values' =>
    keys.length == keys'.length && sameFields keys values (keys'.zip values')
  | .const m, .const n => m == n
  | .var x, .var y => x == y
  | .cond c t e, .cond c' t' e' => c.same c' && t.same t' && e.same e'
  | .apply k f xs, .apply l g ys => k == l && f == g && sameAll xs ys
  | .definition f ps e, .definition g qs e' => f.same g && sameAll ps qs && e.same e'
  | _, _ => sameNumber a b
termination_by sizeOf a

def sameAll (xs ys : List Draft) : Bool :=
  match xs, ys with
  | [], [] => true
  | x :: xs, y :: ys => x.same y && sameAll xs ys
  | _, _ => false
termination_by sizeOf xs

/-- Each member has an equal one under the same key among `others`. -/
def sameFields (keys : List String) (values : List Draft) (others : List (String × Draft)) : Bool :=
  match keys, values with
  | key :: keys, value :: values =>
    (others.lookup key).any (fun other => value.same other) && sameFields keys values others
  | _, _ => true
termination_by sizeOf values

end

mutual

/-- The first part of a draft that has no hash, for it may change: a list or an object. -/
def mutablePart? : Draft → Option Draft
  | .list items => some (.list items)
  | .record keys values => some (.record keys values)
  | .cond test yes no => (mutablePart? test <|> mutablePart? yes) <|> mutablePart? no
  | .apply _ _ args => mutablePartIn? args
  | .definition name params body =>
    (mutablePart? name <|> mutablePartIn? params) <|> mutablePart? body
  | _ => none

def mutablePartIn? : List Draft → Option Draft
  | [] => none
  | d :: ds => mutablePart? d <|> mutablePartIn? ds

end

end StrictnessAnalysis.Draft
