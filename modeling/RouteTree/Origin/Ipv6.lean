import RouteTree.Origin.Ipv4

/-!
# IPv6 addresses in a host

Eight groups of up to four hexadecimal digits, where one `::` stands for the groups that are left out
and the last two groups may be written as an IPv4 address. An address is written back with lower-case
digits and with `::` for its first longest run of two or more zero groups.
-/

namespace RouteTree.Origin.Ipv6

/-- One group. -/
def group? (text : List Char) : Option Nat :=
  if text ≠ [] ∧ text.length ≤ 4 then Ipv4.number? 16 text else none

/-- One byte of an address in dotted form: no sign, no leading zero, at most 255. -/
def byte? (text : List Char) : Option Nat :=
  if text ≠ [] ∧ (text.length = 1 ∨ text.head? ≠ some '0') then
    (Ipv4.number? 10 text).filter (· < 256)
  else none

/-- The last two groups in dotted form. -/
def dotted? (text : List Char) : Option (List Nat) := do
  match ← (text.splitOn '.').mapM byte? with
  | [a, b, c, d] => some [a * 256 + b, c * 256 + d]
  | _ => none

/-- The groups of a text without `::`; `atEnd` says whether the address ends with it, so that its
    last part may be dotted. -/
def groups? (atEnd : Bool) : List (List Char) → Option (List Nat)
  | [] => some []
  | [last] => if atEnd ∧ last.contains '.' then dotted? last else (group? last).map ([·])
  | part :: parts => do
    let value ← group? part
    let rest ← groups? atEnd parts
    some (value :: rest)

/-- The parts of a text between its single colons. An empty text has none. -/
def parts (text : List Char) : List (List Char) :=
  if text = [] then [] else text.splitOn ':'

/-- Cut a text at its first `::`. -/
def splitGap : List Char → List Char × Option (List Char)
  | [] => ([], none)
  | ':' :: ':' :: rest => ([], some rest)
  | c :: rest =>
    let (front, back) := splitGap rest
    (c :: front, back)

/-- The eight groups of an address. A gap stands for one group at least. -/
def parse? (text : List Char) : Option (List Nat) :=
  match splitGap text with
  | (whole, none) => (groups? true (parts whole)).filter (·.length = 8)
  | (front, some back) => do
    let left ← groups? false (parts front)
    let right ← groups? true (parts back)
    if left.length + right.length < 8 then
      some (left ++ List.replicate (8 - left.length - right.length) 0 ++ right)
    else none

/-- How many zero groups a list starts with. -/
def leadingZeros (groups : List Nat) : Nat :=
  (groups.takeWhile (· = 0)).length

/-- The start and the length of the first longest run of zero groups. -/
def longestRun : List Nat → Nat × Nat
  | [] => (0, 0)
  | g :: rest =>
    let (start, length) := longestRun rest
    let here := leadingZeros (g :: rest)
    if length ≤ here then (0, here) else (start + 1, length)

/-- Groups in lower-case hexadecimal, with colons between them. -/
def joined : List Nat → List Char
  | [] => []
  | [g] => Nat.toDigits 16 g
  | g :: rest => Nat.toDigits 16 g ++ ':' :: joined rest

/-- An address in its shortest form. -/
def render (groups : List Nat) : List Char :=
  let (start, length) := longestRun groups
  if length < 2 then joined groups
  else joined (groups.take start) ++ ':' :: ':' :: joined (groups.drop (start + length))

end RouteTree.Origin.Ipv6
