/-!
# Text as UTF-8

Every text has its bytes. The other way, bytes are read as text without ever failing: each maximal
part that is the beginning of no character, or of one that is cut short, is read as one replacement
character.
-/

namespace PolicyLint.Utf8

def encode (cs : List Char) : List UInt8 :=
  cs.flatMap String.utf8EncodeChar

@[simp] theorem encode_nil : encode [] = [] := rfl

@[simp] theorem encode_cons (c : Char) (cs : List Char) :
    encode (c :: cs) = String.utf8EncodeChar c ++ encode cs := rfl

/-- What is read for bytes that are no character. -/
def replacement : Char := '\uFFFD'

/-- How many bytes follow a first byte, the range the second of them lies in, and the bits the
first one gives. -/
def lead? (b : UInt8) : Option (Nat × UInt8 × UInt8 × Nat) :=
  if b < 0xC2 then none
  else if b < 0xE0 then some (1, 0x80, 0xBF, (b - 0xC0).toNat)
  else if b = 0xE0 then some (2, 0xA0, 0xBF, 0)
  else if b = 0xED then some (2, 0x80, 0x9F, 0xD)
  else if b < 0xF0 then some (2, 0x80, 0xBF, (b - 0xE0).toNat)
  else if b = 0xF0 then some (3, 0x90, 0xBF, 0)
  else if b < 0xF4 then some (3, 0x80, 0xBF, (b - 0xF0).toNat)
  else if b = 0xF4 then some (3, 0x80, 0x8F, 4)
  else none

/-- Reads the `count` bytes that follow a first byte, the first of them between `low` and `high`.
Answers the character, or the replacement if one does not fit, and the bytes left over. -/
def rest (count : Nat) (low high : UInt8) (bits : Nat) : List UInt8 → Char × List UInt8
  | [] => (if count = 0 then Char.ofNat bits else replacement, [])
  | b :: bs =>
    match count with
    | 0 => (Char.ofNat bits, b :: bs)
    | count + 1 =>
      if low ≤ b ∧ b ≤ high then rest count 0x80 0xBF (bits * 64 + (b &&& 0x3F).toNat) bs
      else (replacement, b :: bs)

theorem length_rest_le (count : Nat) (low high : UInt8) (bits : Nat) (bs : List UInt8) :
    (rest count low high bits bs).2.length ≤ bs.length := by
  induction bs generalizing count low high bits with
  | nil => simp [rest]
  | cons b bs ih =>
    cases count with
    | zero => simp [rest]
    | succ count =>
      simp only [rest]
      split
      · exact Nat.le_succ_of_le (ih ..)
      · simp

/-- The text that bytes are read as. -/
def decodeLossy : List UInt8 → List Char
  | [] => []
  | b :: bs =>
    if b < 0x80 then Char.ofNat b.toNat :: decodeLossy bs
    else match lead? b with
      | none => replacement :: decodeLossy bs
      | some (count, low, high, bits) =>
        (rest count low high bits bs).1 :: decodeLossy (rest count low high bits bs).2
termination_by bs => bs.length
decreasing_by
  · simp
  · simp
  · exact Nat.lt_succ_of_le (length_rest_le ..)

end PolicyLint.Utf8
