import RouteTree.Json
import RouteTree.Text.Percent

/-!
# Numbers in plain scalars

A plain scalar may write an integer, in base ten or after `0x`, `0o` or `0b`, or a decimal number with
a point or an exponent. Digits after a leading zero are a text. What is too large for a double is no
decimal number.
-/

namespace RouteTree.Yaml.Number

/-! ## 1. Integers -/

/-- A sign. -/
def isSign (c : Char) : Bool := c = '+' || c = '-'

/-- The number that digits of a base write. There is at least one. -/
def digits? (base : Nat) (text : List Char) : Option Nat :=
  if text = [] then none
  else (text.mapM fun c => (Text.Percent.hexValue? c).filter (· < base)).map
    fun ds => ds.foldl (fun n d => n * base + d) 0

/-- A zero with digits after it, which is a text and no number. -/
def isPadded (text : List Char) : Bool :=
  let unsigned := match text with
    | c :: rest => if isSign c then rest else c :: rest
    | [] => []
  match unsigned with
  | '0' :: d :: rest => d.isDigit && rest.all Char.isDigit
  | _ => false

/-- The number after the sign of a base, if there is such a sign and digits of the base follow. -/
def based? : List Char → Option Nat
  | '0' :: 'x' :: rest => digits? 16 rest
  | '0' :: 'o' :: rest => digits? 8 rest
  | '0' :: 'b' :: rest => digits? 2 rest
  | _ => none

/-- Drop the plus sign that a text may start with. -/
def dropPlus : List Char → List Char
  | '+' :: rest => rest
  | text => text

/-- The integer a text writes. -/
def integer? (text : List Char) : Option Int :=
  match text with
  | '-' :: rest =>
    match based? rest with
    | some n => some (-(n : Int))
    | none => if isPadded text then none else (digits? 10 rest).map fun n => -(n : Int)
  | _ =>
    match based? (dropPlus text) with
    | some n => some n
    | none => if isPadded text then none else (digits? 10 (dropPlus text)).map fun n => (n : Int)

/-- What becomes of an integer. -/
inductive Fit where
  /-- It fits into 64 bits, with or without a sign. -/
  | word
  /-- It fits into 128 bits only. -/
  | wide
  /-- It fits into neither. -/
  | none
  deriving DecidableEq, Repr

/-- Where an integer fits. -/
def fit (n : Int) : Fit :=
  if -0x8000000000000000 ≤ n ∧ n < 0x10000000000000000 then .word
  else if -0x80000000000000000000000000000000 ≤ n ∧ n < 0x100000000000000000000000000000000 then .wide
  else .none

/-! ## 2. Decimal numbers -/

/-- The exponent at the end of a number; none is zero. -/
def exponent? : List Char → Option Int
  | [] => some 0
  | c :: rest =>
    if c = 'e' ∨ c = 'E' then
      match rest with
      | '-' :: ds => (digits? 10 ds).map fun n => -(n : Int)
      | '+' :: ds => (digits? 10 ds).map fun n => (n : Int)
      | ds => (digits? 10 ds).map fun n => (n : Int)
    else none

/-- A number without a sign: digits, perhaps with a point among, before or behind them, and perhaps
    an exponent. -/
def unsigned? (text : List Char) : Option Decimal := do
  let whole := text.takeWhile Char.isDigit
  let rest := text.dropWhile Char.isDigit
  let (fraction, rest) :=
    match rest with
    | '.' :: tail => (tail.takeWhile Char.isDigit, tail.dropWhile Char.isDigit)
    | _ => ([], rest)
  let n ← digits? 10 (whole ++ fraction)
  let e ← exponent? rest
  return ⟨false, n, e - fraction.length⟩

/-- The least magnitude that is no finite double: halfway between the largest double and the next
    power of two. -/
def overflow : Nat := Nat.pow 2 1024 - Nat.pow 2 970

/-- A number is the magnitude of a finite double. The exponent is looked at first, so that no power
    is worked out that is far out of range. -/
def isFinite (d : Decimal) : Bool :=
  if d.digits = 0 then true
  else
    let size : Int := (Nat.toDigits 10 d.digits).length + d.exponent
    if size < -400 then true
    else if 400 < size then false
    else if 0 ≤ d.exponent then d.digits * Nat.pow 10 d.exponent.toNat < overflow
    else d.digits < overflow * Nat.pow 10 (-d.exponent).toNat

/-- The value of a decimal number. Infinities and what is not a number have none, and are null. -/
def decimal? (text : List Char) : Option Json :=
  if [".inf", ".Inf", ".INF", "+.inf", "+.Inf", "+.INF", "-.inf", "-.Inf", "-.INF", ".nan", ".NaN",
      ".NAN"].contains (String.ofList text) then some .null
  else
    let finite (negative : Bool) (digits : List Char) : Option Json :=
      ((unsigned? digits).filter isFinite).map fun d => .decimal { d with negative := negative }
    match text with
    | '-' :: rest => finite true rest
    | '+' :: rest => finite false rest
    | _ => finite false text

end RouteTree.Yaml.Number
