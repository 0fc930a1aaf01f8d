import RouteTree.Path
import RouteTree.Text.Percent

/-!
# IPv4 addresses in a host

A host whose last label is a number is an address. It has up to four numbers, each decimal, octal
after a `0` or hexadecimal after `0x`; the last number fills all the bytes that are left. The address
is written back as four decimal bytes.
-/

namespace RouteTree.Origin.Ipv4

/-- The value of digits in a base, most significant first. -/
def ofDigits (base : Nat) (digits : List Nat) : Nat :=
  digits.foldl (fun n d => n * base + d) 0

/-- The number these digits write in a base, if every character is a digit of it. -/
def number? (base : Nat) (text : List Char) : Option Nat :=
  (text.mapM fun c => (Text.Percent.hexValue? c).filter (· < base)).map (ofDigits base)

/-- One number of an address. A sign of another base that nothing follows is zero. -/
def part? : List Char → Option Nat
  | [] => none
  | '0' :: 'x' :: digits => number? 16 digits
  | '0' :: 'X' :: digits => number? 16 digits
  | '0' :: digit :: digits => number? 8 (digit :: digits)
  | digits => number? 10 digits

/-- The labels of a host; one empty label at its end does not count. -/
def labels (host : List Char) : List (List Char) :=
  let all := host.splitOn '.'
  if all.getLast? = some [] then all.dropLast else all

/-- The host is read as an address: its last label is a number. -/
def endsInNumber (host : List Char) : Bool :=
  match (labels host).getLast? with
  | none => false
  | some last => (last ≠ [] && last.all Char.isDigit) || (part? last).isSome

/-- The address with these numbers: all but the last are single bytes, and the last fills the rest. -/
def ofParts? : List Nat → Option Nat
  | [] => none
  | [last] => if last < 0x100000000 then some last else none
  | [a, last] => if a < 256 ∧ last < 0x1000000 then some (a * 0x1000000 + last) else none
  | [a, b, last] =>
    if a < 256 ∧ b < 256 ∧ last < 0x10000 then some (a * 0x1000000 + b * 0x10000 + last) else none
  | [a, b, c, last] =>
    if a < 256 ∧ b < 256 ∧ c < 256 ∧ last < 0x100 then
      some (a * 0x1000000 + b * 0x10000 + c * 0x100 + last)
    else none
  | _ => none

/-- The address a host writes. -/
def parse? (host : List Char) : Option Nat := do
  let parts ← (labels host).mapM part?
  ofParts? parts

/-- An address as four decimal bytes. -/
def render (address : Nat) : List Char :=
  let byte (k : Nat) : List Char := Nat.toDigits 10 (address / Nat.pow 2 k % 256)
  byte 24 ++ '.' :: byte 16 ++ '.' :: byte 8 ++ '.' :: byte 0

end RouteTree.Origin.Ipv4
