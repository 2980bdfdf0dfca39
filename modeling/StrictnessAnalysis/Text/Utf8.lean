import StrictnessAnalysis.Text.Quoted

/-! Text from bytes in UTF-8. A character is a first byte and up to three continuation bytes; the
first byte says how many, and in which range the first of them lies. Where bytes are no character,
those that could have begun one are at fault. -/

namespace StrictnessAnalysis.Text.Utf8

inductive Reason
  | startByte
  | continuationByte
  | endOfData

def Reason.message : Reason → String
  | .startByte => "invalid start byte"
  | .continuationByte => "invalid continuation byte"
  | .endOfData => "unexpected end of data"

/-- `count` bytes at fault from a position on, of which `first` is the first. -/
structure Fault where
  position : Nat
  first : UInt8
  count : Nat
  reason : Reason

def Fault.message (f : Fault) : String :=
  let bytes :=
    if f.count = 1 then
      "byte 0x" ++ String.ofList (Quoted.hex 2 f.first.toNat) ++
        " in position " ++ toString f.position
    else
      "bytes in position " ++ toString f.position ++ "-" ++ toString (f.position + f.count - 1)
  "'utf-8' codec can't decode " ++ bytes ++ ": " ++ f.reason.message

/-- What a first byte calls for: its own part of the code, the number of continuation bytes, and the
least and greatest value of the first of them. -/
structure Lead where
  bits : Nat
  count : Nat
  low : Nat
  high : Nat

def lead? (byte : UInt8) : Option Lead :=
  let b := byte.toNat
  if b < 0x80 then some ⟨b, 0, 0x80, 0xbf⟩
  else if b < 0xc2 then none
  else if b < 0xe0 then some ⟨b - 0xc0, 1, 0x80, 0xbf⟩
  else if b < 0xf0 then
    some ⟨b - 0xe0, 2, if b = 0xe0 then 0xa0 else 0x80, if b = 0xed then 0x9f else 0xbf⟩
  else if b < 0xf5 then
    some ⟨b - 0xf0, 3, if b = 0xf0 then 0x90 else 0x80, if b = 0xf4 then 0x8f else 0xbf⟩
  else none

/-- Adds `count` continuation bytes to a code. On failure, the number of those that would still have
been needed. -/
def continuations (low high : Nat) : (count code : Nat) → (bytes : List UInt8) →
    Except (Reason × Nat) (Nat × { rest : List UInt8 // rest.length ≤ bytes.length })
  | 0, code, bytes => .ok (code, ⟨bytes, Nat.le_refl _⟩)
  | count + 1, _, [] => .error (.endOfData, count + 1)
  | count + 1, code, b :: bytes =>
    if low ≤ b.toNat ∧ b.toNat ≤ high then do
      let (code, rest) ← continuations 0x80 0xbf count (64 * code + (b.toNat - 0x80)) bytes
      return (code, ⟨rest.1, Nat.le_trans rest.2 (by simp)⟩)
    else .error (.continuationByte, count + 1)

/-- The characters behind those in `read`, last first. -/
def decodeFrom (position : Nat) (read : List Char) (bytes : List UInt8) :
    Except Fault (List Char) :=
  match bytes with
  | [] => .ok read.reverse
  | first :: bytes =>
    match lead? first with
    | none => .error ⟨position, first, 1, .startByte⟩
    | some lead =>
      match continuations lead.low lead.high lead.count lead.bits bytes with
      | .error (reason, missing) => .error ⟨position, first, 1 + lead.count - missing, reason⟩
      | .ok (code, rest) => decodeFrom (position + 1 + lead.count) (Char.ofNat code :: read) rest.1
termination_by bytes.length
decreasing_by
  have := rest.2
  simp only [List.length_cons]
  omega

def decode (bytes : List UInt8) : Except Fault (List Char) := decodeFrom 0 [] bytes

end StrictnessAnalysis.Text.Utf8
