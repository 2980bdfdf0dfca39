import StrictnessAnalysis.Json
import StrictnessAnalysis.Json.Failure

/-! The words of JSON text: blanks, strings, numbers and literals. Whatever reads a word answers
what is left of the text, with a proof that it is shorter than what was given. -/

namespace StrictnessAnalysis.Json

/-- What can be left of a text when a part of it is read, and when a part is read that may be empty.
-/
abbrev Rest (s : List Char) := { r : List Char // r.length < s.length }

abbrev Tail (s : List Char) := { r : List Char // r.length ≤ s.length }

def isBlank (c : Char) : Bool := c = ' ' || c = '\t' || c = '\n' || c = '\r'

def skipBlanks (s : List Char) : List Char := s.dropWhile isBlank

theorem length_dropWhile_le (p : Char → Bool) (s : List Char) :
    (s.dropWhile p).length ≤ s.length :=
  (List.dropWhile_suffix p).length_le

theorem length_skipBlanks_le (s : List Char) : (skipBlanks s).length ≤ s.length :=
  length_dropWhile_le isBlank s

theorem length_lt_of_skipBlanks {s t : List Char} {c : Char} (h : skipBlanks s = c :: t) :
    t.length < s.length := by
  have := length_skipBlanks_le s
  rw [h, List.length_cons] at this
  omega

/-! ### Strings -/

def hexValue? (c : Char) : Option Nat :=
  if '0' ≤ c ∧ c ≤ '9' then some (c.toNat - '0'.toNat)
  else if 'a' ≤ c ∧ c ≤ 'f' then some (c.toNat - 'a'.toNat + 10)
  else if 'A' ≤ c ∧ c ≤ 'F' then some (c.toNat - 'A'.toNat + 10)
  else none

def hex4? (a b c d : Char) : Option Nat := do
  return 4096 * (← hexValue? a) + 256 * (← hexValue? b) + 16 * (← hexValue? c) + (← hexValue? d)

def isHighSurrogate (code : Nat) : Bool := 0xd800 ≤ code && code < 0xdc00

def isLowSurrogate (code : Nat) : Bool := 0xdc00 ≤ code && code < 0xe000

/-- The character of a code. A surrogate on its own is no character; the last 2048 characters, which
are for private use, stand for the surrogates. -/
def charOfCode (code : Nat) : Char :=
  if code.isValidChar then Char.ofNat code else Char.ofNat (0x10f800 + (code - 0xd800))

theorem toNat_ofNat_of_isValidChar {n : Nat} (h : n.isValidChar) : (Char.ofNat n).toNat = n := by
  rw [Char.ofNat, dif_pos h]
  rfl

theorem toNat_charOfCode {code : Nat} (h : code < 0x10000) :
    (charOfCode code).toNat =
      if 0xd800 ≤ code ∧ code < 0xe000 then code + 0x102000 else code := by
  unfold charOfCode
  split
  · next hvalid =>
    rw [toNat_ofNat_of_isValidChar hvalid, if_neg]
    unfold Nat.isValidChar at hvalid
    omega
  · next hinvalid =>
    have hsurrogate : 0xd800 ≤ code ∧ code < 0xe000 := by
      unfold Nat.isValidChar at hinvalid
      omega
    have hvalid : (0x10f800 + (code - 0xd800)).isValidChar := by
      unfold Nat.isValidChar
      omega
    rw [toNat_ofNat_of_isValidChar hvalid, if_pos hsurrogate]
    omega

/-- Codes of four hexadecimal digits stay apart, surrogates included. -/
theorem charOfCode_inj {code code' : Nat} (h : code < 0x10000) (h' : code' < 0x10000)
    (heq : charOfCode code = charOfCode code') : code = code' := by
  have hnat := congrArg Char.toNat heq
  rw [toNat_charOfCode h, toNat_charOfCode h'] at hnat
  split at hnat <;> split at hnat <;> omega

def joinSurrogates (high low : Nat) : Char :=
  charOfCode (0x10000 + (high - 0xd800) * 0x400 + (low - 0xdc00))

/-- What a backslash followed by the character stands for. -/
def unescape? : Char → Option Char
  | '\x22' => some '\x22'
  | '\x5c' => some '\x5c'
  | '/' => some '/'
  | 'b' => some '\x08'
  | 'f' => some '\x0c'
  | 'n' => some '\n'
  | 'r' => some '\r'
  | 't' => some '\t'
  | _ => none

/-- The second half of a surrogate pair. It has to be followed by something, and digits that are no
digits are complained of at the letter before them. -/
def lowSurrogate? (s : List Char) : Except Failure (Option (Nat × Tail s)) :=
  match s with
  | '\x5c' :: 'u' :: a :: b :: c :: d :: r :: rest =>
    match hex4? a b c d with
    | none => .error (.malformed .unicodeEscape (rest.length + 6))
    | some low =>
      if isLowSurrogate low then
        .ok (some (low, ⟨r :: rest, by simp only [List.length_cons]; omega⟩))
      else .ok none
  | _ => .ok none

/-- One escaped character, after the backslash. -/
def escaped (start : Nat) (s : List Char) : Except Failure (Char × Rest s) :=
  match s with
  | [] => .error (.malformed .unterminated start)
  | 'u' :: s =>
    match s with
    | a :: b :: c :: d :: r :: rest =>
      match hex4? a b c d with
      | none => .error (.malformed .unicodeEscape (rest.length + 6))
      | some code => do
        if isHighSurrogate code then
          if let some (low, after) ← lowSurrogate? (r :: rest) then
            return (joinSurrogates code low, ⟨after.1, by
              have := after.2; simp only [List.length_cons] at this ⊢; omega⟩)
        return (charOfCode code, ⟨r :: rest, by simp only [List.length_cons]; omega⟩)
    | s => .error (.malformed .unicodeEscape (s.length + 1))
  | c :: rest =>
    match unescape? c with
    | none => .error (.malformed .escape (rest.length + 2))
    | some d => .ok (d, ⟨rest, by simp⟩)

/-- The characters of a string up to its closing quote, behind those in `read`, last first. The
string starts where `start` characters are left. -/
def stringBody (start : Nat) (read : List Char) (s : List Char) :
    Except Failure (List Char × Tail s) :=
  match s with
  | [] => .error (.malformed .unterminated start)
  | '\x22' :: rest => .ok (read.reverse, ⟨rest, by simp⟩)
  | '\x5c' :: rest => do
    let (c, after) ← escaped start rest
    let (text, left) ← stringBody start (c :: read) after.1
    return (text, ⟨left.1, by
      have := after.2; have := left.2; simp only [List.length_cons]; omega⟩)
  | c :: rest =>
    if c < ' ' then .error (.malformed .control (rest.length + 1))
    else do
      let (text, left) ← stringBody start (c :: read) rest
      return (text, ⟨left.1, by have := left.2; simp only [List.length_cons]; omega⟩)
termination_by s.length
decreasing_by
  · have := after.2; simp only [List.length_cons]; omega
  · simp

/-- A string whose opening quote is already read. -/
def string (s : List Char) : Except Failure (String × Tail s) := do
  let (text, left) ← stringBody (s.length + 1) [] s
  return (String.ofList text, left)

/-! ### Numbers -/

def natOfDigits (digits : List Char) : Nat :=
  digits.foldl (fun n c => 10 * n + (c.toNat - '0'.toNat)) 0

/-- The digits of a whole number: a single zero, or digits of which the first is not zero. -/
def wholeDigits? (s : List Char) : Option (List Char × Rest s) :=
  match s with
  | '0' :: rest => some (['0'], ⟨rest, by simp⟩)
  | c :: rest =>
    if c.isDigit then
      some (c :: rest.takeWhile Char.isDigit, ⟨rest.dropWhile Char.isDigit, by
        have := length_dropWhile_le Char.isDigit rest; simp only [List.length_cons]; omega⟩)
    else none
  | [] => none

/-- The digits of a fraction, if there is one. -/
def fractionDigits? (s : List Char) : Option (List Char × Tail s) :=
  match s with
  | '.' :: c :: rest =>
    if c.isDigit then
      some (c :: rest.takeWhile Char.isDigit, ⟨rest.dropWhile Char.isDigit, by
        have := length_dropWhile_le Char.isDigit rest; simp only [List.length_cons]; omega⟩)
    else none
  | _ => none

/-- The digits of an exponent behind its sign, if there are any. -/
def exponentDigits? (s : List Char) : Option (Nat × Tail s) :=
  match s.takeWhile Char.isDigit with
  | [] => none
  | digits => some (natOfDigits digits, ⟨s.dropWhile Char.isDigit, length_dropWhile_le _ s⟩)

/-- An exponent, if there is one. -/
def exponent? (s : List Char) : Option (Int × Tail s) :=
  match s with
  | e :: rest =>
    if e = 'e' ∨ e = 'E' then
      match rest with
      | '+' :: r => (exponentDigits? r).map fun (n, after) => (n, ⟨after.1, by
          have := after.2; simp only [List.length_cons]; omega⟩)
      | '-' :: r => (exponentDigits? r).map fun (n, after) => (-n, ⟨after.1, by
          have := after.2; simp only [List.length_cons]; omega⟩)
      | r => (exponentDigits? r).map fun (n, after) => (n, ⟨after.1, by
          have := after.2; simp only [List.length_cons]; omega⟩)
    else none
  | [] => none

/-- A number without its sign. -/
def unsigned (limits : Limits) (negative : Bool) (s : List Char) :
    Except Failure (Option (Json × Rest s)) :=
  match wholeDigits? s with
  | none => .ok none
  | some (whole, afterWhole) =>
    let (fraction, afterFraction) : List Char × Tail afterWhole.1 :=
      (fractionDigits? afterWhole.1).getD ([], ⟨afterWhole.1, Nat.le_refl _⟩)
    match exponent? afterFraction.1 with
    | some (power, rest) =>
      let digits := natOfDigits (whole ++ fraction)
      .ok (some (.real (.finite negative digits (power - fraction.length)),
        ⟨rest.1, by have := afterWhole.2; have := afterFraction.2; have := rest.2; omega⟩))
    | none =>
      if fraction.isEmpty then
        if limits.digits.any fun limit => limit < whole.length then .error .tooManyDigits
        else
          let n : Int := natOfDigits whole
          .ok (some (.int (if negative then -n else n), ⟨afterFraction.1, by
            have := afterWhole.2; have := afterFraction.2; omega⟩))
      else
        .ok (some (.real (.finite negative (natOfDigits (whole ++ fraction)) (-fraction.length)),
          ⟨afterFraction.1, by have := afterWhole.2; have := afterFraction.2; omega⟩))

def number (limits : Limits) (s : List Char) : Except Failure (Json × Rest s) :=
  match s with
  | '-' :: t => do
    match ← unsigned limits true t with
    | some (value, rest) => return (value, ⟨rest.1, by
        have := rest.2; simp only [List.length_cons]; omega⟩)
    | none => throw (.malformed .value (t.length + 1))
  | s => do
    match ← unsigned limits false s with
    | some result => return result
    | none => throw (.malformed .value s.length)

/-! ### Literals -/

/-- A literal, if the text starts with one. -/
def literal? (s : List Char) : Option (Json × Rest s) :=
  match s with
  | 'n' :: 'u' :: 'l' :: 'l' :: rest => some (.null, ⟨rest, by simp only [List.length_cons]; omega⟩)
  | 't' :: 'r' :: 'u' :: 'e' :: rest =>
    some (.bool true, ⟨rest, by simp only [List.length_cons]; omega⟩)
  | 'f' :: 'a' :: 'l' :: 's' :: 'e' :: rest =>
    some (.bool false, ⟨rest, by simp only [List.length_cons]; omega⟩)
  | 'N' :: 'a' :: 'N' :: rest => some (.real .nan, ⟨rest, by simp only [List.length_cons]; omega⟩)
  | 'I' :: 'n' :: 'f' :: 'i' :: 'n' :: 'i' :: 't' :: 'y' :: rest =>
    some (.real (.infinite false), ⟨rest, by simp only [List.length_cons]; omega⟩)
  | '-' :: 'I' :: 'n' :: 'f' :: 'i' :: 'n' :: 'i' :: 't' :: 'y' :: rest =>
    some (.real (.infinite true), ⟨rest, by simp only [List.length_cons]; omega⟩)
  | _ => none

end StrictnessAnalysis.Json
