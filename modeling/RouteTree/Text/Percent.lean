import RouteTree.Text.Utf8

/-!
# Percent-encoding

A text is cut into pieces, each a plain character or an escape (`%` and two hexadecimal digits). This
file fixes

* two writers: `encodeComponent` for one component of a path, `encodeReserved` for the value of a
  catch-all, which may itself hold slashes and escapes;
* one reader that never fails: `decode`. It reads the whole text as bytes if those are UTF-8;
  otherwise each run of neighbouring escapes is read on its own, and a run that is no UTF-8 stays as
  it is written.
-/

namespace RouteTree.Text.Percent

/-! ## 1. Writing -/

/-- The digit of `n` in base sixteen, in upper case. -/
def hexDigit (n : Nat) : Char :=
  if n < 10 then Char.ofNat (48 + n) else Char.ofNat (55 + n)

/-- One byte as an escape. -/
def escape (b : UInt8) : List Char :=
  ['%', hexDigit (b.toNat / 16), hexDigit (b.toNat % 16)]

/-- A character as the escapes of its bytes. -/
def escapeChar (c : Char) : List Char :=
  (String.utf8EncodeChar c).flatMap escape

/-- Escape every character that `keep` refuses. -/
def encode (keep : Char → Bool) (text : List Char) : List Char :=
  text.flatMap fun c => if keep c then [c] else escapeChar c

/-- The marks that stand for themselves in a component. -/
def unreservedMarks : List Char := ['-', '_', '.', '!', '~', '*', '\'', '(', ')']

/-- The marks that a catch-all value may hold besides: the reserved characters, brackets, and the
    sign that starts an escape. -/
def reservedMarks : List Char :=
  [';', ',', '/', '?', ':', '@', '&', '=', '+', '$', '#', '[', ']', '%']

/-- The characters a component is written with. -/
def isUnreserved (c : Char) : Bool :=
  c.isAlphanum || unreservedMarks.contains c

/-- The characters a catch-all value is written with. -/
def isReservedSafe (c : Char) : Bool :=
  isUnreserved c || reservedMarks.contains c

/-- Encode one component of a path. -/
def encodeComponent (text : String) : String :=
  String.ofList (encode isUnreserved text.toList)

/-- Encode the value of a catch-all: reserved characters and escapes pass through. -/
def encodeReserved (text : String) : String :=
  String.ofList (encode isReservedSafe text.toList)

/-! ## 2. Pieces -/

/-- The value of a hexadecimal digit in either case. -/
def hexValue? (c : Char) : Option Nat :=
  if c.isDigit then some (c.toNat - 48)
  else if 'a' ≤ c ∧ c ≤ 'f' then some (c.toNat - 87)
  else if 'A' ≤ c ∧ c ≤ 'F' then some (c.toNat - 55)
  else none

/-- A hexadecimal digit in either case. -/
def isHex (c : Char) : Bool := (hexValue? c).isSome

/-- A piece of a percent-encoded text. -/
inductive Piece where
  | plain (c : Char)
  | escape (hi lo : Char)
  deriving DecidableEq, Repr

namespace Piece

/-- The text of a piece. -/
def text : Piece → List Char
  | plain c => [c]
  | escape hi lo => ['%', hi, lo]

/-- The bytes a piece stands for. -/
def bytes : Piece → List UInt8
  | plain c => String.utf8EncodeChar c
  | escape hi lo => [UInt8.ofNat ((hexValue? hi).getD 0 * 16 + (hexValue? lo).getD 0)]

end Piece

/-- Cut a text into pieces. A percent sign that no two digits follow is a plain character. -/
def pieces : List Char → List Piece
  | [] => []
  | c :: rest =>
    if c = '%' then
      match rest with
      | hi :: lo :: tail =>
        if isHex hi && isHex lo then .escape hi lo :: pieces tail
        else .plain c :: pieces (hi :: lo :: tail)
      | [hi] => .plain c :: pieces [hi]
      | [] => [.plain c]
    else .plain c :: pieces rest

/-! ## 3. Reading -/

/-- A run of escapes as text: decoded if its bytes are UTF-8, else as it is written. -/
def decodeRun (run : List Piece) : List Char :=
  (Utf8.decode? (run.flatMap Piece.bytes)).getD (run.flatMap Piece.text)

/-- Decode each run of neighbouring escapes on its own. `run` holds the escapes read just before. -/
def decodeRuns (run : List Piece) : List Piece → List Char
  | [] => decodeRun run
  | .escape hi lo :: rest => decodeRuns (run ++ [.escape hi lo]) rest
  | .plain c :: rest => decodeRun run ++ c :: decodeRuns [] rest

/-- Decode a text. It never fails: what cannot be decoded stays as it is written. -/
def decodeChars (text : List Char) : List Char :=
  if text.contains '%' then
    let parts := pieces text
    (Utf8.decode? (parts.flatMap Piece.bytes)).getD (decodeRuns [] parts)
  else text

/-- Decode a text. It never fails: what cannot be decoded stays as it is written. -/
def decode (text : String) : String :=
  String.ofList (decodeChars text.toList)

end RouteTree.Text.Percent
