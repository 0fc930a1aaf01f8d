/-!
# UTF-8 over lists of bytes

`encode` writes a text as bytes and `decode?` reads bytes back, refusing whatever no text is written
as: a stray or missing continuation byte, a form longer than its character needs, a surrogate, a value
past the last code point. The bit patterns are in arithmetic form, so that a proof about them is a
proof about numbers.
-/

namespace RouteTree.Text.Utf8

/-- The bytes of a text, character by character. -/
def encode (text : List Char) : List UInt8 :=
  text.flatMap String.utf8EncodeChar

/-- A byte that continues a character: `10xxxxxx`. -/
def isContinuation (b : UInt8) : Bool :=
  0x80 ≤ b.toNat && b.toNat < 0xC0

/-- The character with code point `n`, if there is one and its shortest form starts at `least`. -/
def charFrom? (least n : Nat) : Option Char :=
  if least ≤ n ∧ n.isValidChar then some (Char.ofNat n) else none

/-- The character a two-byte form spells. -/
def twoByte? (a b : UInt8) : Option Char :=
  if 0xC0 ≤ a.toNat ∧ a.toNat < 0xE0 ∧ isContinuation b then
    charFrom? 0x80 ((a.toNat - 0xC0) * 0x40 + (b.toNat - 0x80))
  else none

/-- The character a three-byte form spells. -/
def threeByte? (a b c : UInt8) : Option Char :=
  if 0xE0 ≤ a.toNat ∧ a.toNat < 0xF0 ∧ isContinuation b ∧ isContinuation c then
    charFrom? 0x800 ((a.toNat - 0xE0) * 0x1000 + (b.toNat - 0x80) * 0x40 + (c.toNat - 0x80))
  else none

/-- The character a four-byte form spells. -/
def fourByte? (a b c d : UInt8) : Option Char :=
  if 0xF0 ≤ a.toNat ∧ a.toNat < 0xF8 ∧ isContinuation b ∧ isContinuation c ∧ isContinuation d then
    charFrom? 0x10000
      ((a.toNat - 0xF0) * 0x40000 + (b.toNat - 0x80) * 0x1000 + (c.toNat - 0x80) * 0x40
        + (d.toNat - 0x80))
  else none

/-- The text written as these bytes, if there is one. The lead byte alone decides how many bytes its
    character takes. -/
def decode? : List UInt8 → Option (List Char)
  | [] => some []
  | a :: rest =>
    if a.toNat < 0x80 then (decode? rest).map (Char.ofNat a.toNat :: ·)
    else match rest with
      | [] => none
      | b :: rest =>
        if a.toNat < 0xE0 then
          (twoByte? a b).bind fun x => (decode? rest).map (x :: ·)
        else match rest with
          | [] => none
          | c :: rest =>
            if a.toNat < 0xF0 then
              (threeByte? a b c).bind fun x => (decode? rest).map (x :: ·)
            else match rest with
              | [] => none
              | d :: rest => (fourByte? a b c d).bind fun x => (decode? rest).map (x :: ·)

@[simp] theorem encode_nil : encode [] = [] := rfl

@[simp] theorem encode_cons (c : Char) (text : List Char) :
    encode (c :: text) = String.utf8EncodeChar c ++ encode text := rfl

@[simp] theorem encode_append (s t : List Char) : encode (s ++ t) = encode s ++ encode t := by
  simp [encode]

@[simp] theorem decode?_nil : decode? [] = some [] := rfl

end RouteTree.Text.Utf8
