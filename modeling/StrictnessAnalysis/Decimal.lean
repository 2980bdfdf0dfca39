/-! Numbers written with a fraction or an exponent. They are kept as they are written; what is
compared and shown is the nearest double-precision number, a mantissa times a power of two, and it
is shown with the fewest digits that read back as the same number. -/

namespace StrictnessAnalysis

/-- A finite number stands for `± digits · 10 ^ exponent`. -/
inductive Decimal
  | nan
  | infinite (negative : Bool)
  | finite (negative : Bool) (digits : Nat) (exponent : Int)

namespace Decimal

/-- The quotient rounded to the nearest integer, a half to the even neighbour. -/
def roundDiv (num den : Nat) : Nat :=
  let q := num / den
  let twice := 2 * (num % den)
  if twice < den ∨ (twice = den ∧ q % 2 = 0) then q else q + 1

/-- A fraction `num / den` scaled by a power of a base. -/
def scale (base : Nat) (power : Int) (num den : Nat) : Nat × Nat :=
  if 0 ≤ power then (num * base.pow power.toNat, den) else (num, den * base.pow (-power).toNat)

/-- The number `e` with `2 ^ e ≤ num / den < 2 ^ (e + 1)`, for a positive fraction. -/
def log2Div (num den : Nat) : Int :=
  let estimate : Int := (num.log2 : Int) - (den.log2 : Int)
  let (n, d) := scale 2 (-estimate) num den
  if d ≤ n then estimate else estimate - 1

/-- The least exponent of two of a double-precision number, and its number of mantissa bits. -/
def leastExponent : Int := -1074

def mantissaBits : Nat := 53

/-- The largest exponent of two that goes with a full mantissa. -/
def greatestExponent : Int := 971

/-- The double-precision number nearest to `digits · 10 ^ exponent`, as a mantissa and an exponent
of two; none if it is too large. -/
def nearest (digits : Nat) (exponent : Int) : Option (Nat × Int) :=
  let magnitude := (Nat.toDigits 10 digits).length + exponent
  if digits = 0 ∨ magnitude < -330 then some (0, 0)
  else if 330 < magnitude then none
  else
    let (num, den) := scale 10 exponent digits 1
    let q := max (log2Div num den - (mantissaBits - 1)) leastExponent
    let (n, d) := scale 2 (-q) num den
    let m := roundDiv n d
    let (m, q) :=
      if m = Nat.pow 2 mantissaBits then (Nat.pow 2 (mantissaBits - 1), q + 1) else (m, q)
    if greatestExponent < q then none else some (m, q)

/-- The fewest digits, with their exponent of ten, that read back as `mantissa · 2 ^ exponent`; of
several the nearest, and of two equally near the even one. Up to seventeen digits are tried. -/
def shortest (mantissa : Nat) (exponent : Int) : Nat × Int :=
  -- four times the value and the ends of the interval that rounds to it
  let least := Nat.pow 2 (mantissaBits - 1)
  let below := if mantissa = least ∧ leastExponent < exponent then 1 else 2
  let (n, d) := scale 2 exponent (4 * mantissa) 1
  let unit := (scale 2 exponent 1 1).1
  let (low, high) := (n - below * unit, n + 2 * unit)
  let even := mantissa % 2 = 0
  let places : Int := log10Div n (4 * d) + 1
  let hit (count : Nat) : Option (Nat × Int) :=
    let grid := places - count
    -- the value in units of the grid is num / den
    let (num, den) := scale 10 (-grid) n (4 * d)
    let inside (c : Nat) : Bool :=
      let (x, _) := scale 10 grid (c * 4 * d) 1
      let (_, y) := scale 10 grid 1 1
      if even then low * y ≤ x ∧ x ≤ high * y else low * y < x ∧ x < high * y
    let nearestOne := roundDiv num den
    let other := if num / den = nearestOne then nearestOne + 1 else num / den
    if inside nearestOne then some (nearestOne, grid)
    else if inside other then some (other, grid) else none
  ((List.range' 1 17).findSome? hit).getD (roundDiv n (4 * d), 0)
where
  /-- The number `e` with `10 ^ e ≤ num / den < 10 ^ (e + 1)`, for a positive fraction. -/
  log10Div (num den : Nat) : Int :=
    let estimate : Int := (Nat.toDigits 10 num).length - (Nat.toDigits 10 den).length
    let (n, d) := scale 10 (-estimate) num den
    if d ≤ n then estimate else estimate - 1

/-- Drops the zeros at the end of a number, counting them into the exponent. -/
def stripZeros (digits : List Char) (exponent : Int) : List Char × Int :=
  let kept := digits.reverse.dropWhile (· = '0')
  (kept.reverse, exponent + (digits.length - kept.length : Nat))

/-- How a finite positive number is laid out: positionally for exponents from -4 to 15, with a point
and at least one digit after it; otherwise with one digit before the point and an exponent of at
least two digits. -/
def layout (digits : List Char) (exponent : Int) : List Char :=
  let lead := digits.length + exponent - 1
  if lead < -4 ∨ 16 ≤ lead then
    let mantissa := match digits with
      | [d] => [d]
      | d :: rest => d :: '.' :: rest
      | [] => []
    let power := Nat.toDigits 10 lead.natAbs
    let padded := if power.length < 2 then '0' :: power else power
    mantissa ++ 'e' :: (if lead < 0 then '-' else '+') :: padded
  else if lead < 0 then
    '0' :: '.' :: List.replicate (-lead - 1).toNat '0' ++ digits
  else if 0 ≤ exponent then
    digits ++ List.replicate exponent.toNat '0' ++ ['.', '0']
  else
    digits.take (lead.toNat + 1) ++ '.' :: digits.drop (lead.toNat + 1)

def sign (negative : Bool) (text : List Char) : List Char := if negative then '-' :: text else text

def chars : Decimal → List Char
  | .nan => "nan".toList
  | .infinite negative => sign negative "inf".toList
  | .finite negative digits exponent =>
    match nearest digits exponent with
    | none => sign negative "inf".toList
    | some (0, _) => sign negative "0.0".toList
    | some (m, q) =>
      let (shown, power) := shortest m q
      let (shown, power) := stripZeros (Nat.toDigits 10 shown) power
      sign negative (layout shown power)

/-- The number in double precision: a signed mantissa and an exponent of two, or none if it is not
finite. -/
def value? : Decimal → Option (Int × Int)
  | .finite negative digits exponent =>
    (nearest digits exponent).map fun (m, q) => (if negative then -(m : Int) else m, q)
  | _ => none

/-- The sign of an infinite number, also of one that is written too large. -/
def infinite? : Decimal → Option Bool
  | .nan => none
  | .infinite negative => some negative
  | .finite negative digits exponent =>
    if (nearest digits exponent).isNone then some negative else none

/-- Whether two numbers, each a mantissa times a power of two, are the same. -/
def sameValue (a b : Int × Int) : Bool :=
  let q := min a.2 b.2
  a.1 * Int.pow 2 (a.2 - q).toNat = b.1 * Int.pow 2 (b.2 - q).toNat

/-- Numerical equality; what is not a number equals nothing. -/
def same (a b : Decimal) : Bool :=
  match a.value?, b.value? with
  | some x, some y => sameValue x y
  | none, none => a.infinite?.isSome && a.infinite? == b.infinite?
  | _, _ => false

def sameInt (a : Decimal) (n : Int) : Bool :=
  match a.value? with
  | some x => sameValue x (n, 0)
  | none => false

end Decimal

end StrictnessAnalysis
