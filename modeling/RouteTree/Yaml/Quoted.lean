import RouteTree.Text.Percent
import RouteTree.Yaml.Folding

/-!
# Quoted scalars

In single quotes a quote is written twice. In double quotes a backslash starts an escape: a letter for
a character, hexadecimal digits for a code point, or a line break that joins two lines. No marker of a
document may come before the closing quote.
-/

namespace RouteTree.Yaml.Quoted

/-- A quoted scalar as read. -/
structure Scan where
  text : String
  cursor : Cursor

/-- Read a scalar in single quotes, after the first quote. -/
def readSingle (f : Folded) (m : Mark) : List Char → Option Scan
  | [] => none
  | c :: rest =>
    if m.atMarker (c :: rest) then none
    else if isBlank c then readSingle (f.pushBlank c) (m.after c) rest
    else if isBreak c then readSingle (f.pushBreak c) (m.after c) rest
    else if c = '\'' then
      match rest with
      | '\'' :: rest => readSingle (f.push c) ((m.after c).after c) rest
      | rest => some ⟨f.closed, ⟨m.after c, rest⟩⟩
    else readSingle (f.push c) (m.after c) rest

/-- What a backslash and a character begin. -/
inductive Escape where
  /-- The escape of this character. -/
  | char (c : Char)
  /-- A code point of this many hexadecimal digits. -/
  | code (digits : Nat)
  deriving DecidableEq, Repr

/-- What a backslash and a character begin. -/
def escape? (c : Char) : Option Escape :=
  match c with
  | '0' => some (.char '\x00')
  | 'a' => some (.char '\x07')
  | 'b' => some (.char '\x08')
  | 't' => some (.char '\t')
  | '\t' => some (.char '\t')
  | 'n' => some (.char '\n')
  | 'v' => some (.char '\x0b')
  | 'f' => some (.char '\x0c')
  | 'r' => some (.char '\r')
  | 'e' => some (.char '\x1b')
  | ' ' => some (.char ' ')
  | '\x22' => some (.char '\x22')
  | '/' => some (.char '/')
  | '\\' => some (.char '\\')
  | 'N' => some (.char '\u0085')
  | '_' => some (.char '\u00a0')
  | 'L' => some (.char '\u2028')
  | 'P' => some (.char '\u2029')
  | 'x' => some (.code 2)
  | 'u' => some (.code 4)
  | 'U' => some (.code 8)
  | _ => none

/-- Where a reader stands in a scalar in double quotes. -/
inductive State where
  /-- Between two characters. -/
  | plain
  /-- After a backslash. -/
  | backslash
  /-- In a code point that has some digits left; `value` is that of the digits read. -/
  | code (left value : Nat)
  deriving DecidableEq, Repr

/-- Read a scalar in double quotes, after the first quote. -/
def readDouble (s : State) (f : Folded) (m : Mark) : List Char → Option Scan
  | [] => none
  | c :: rest =>
    match s with
    | .plain =>
      if m.atMarker (c :: rest) then none
      else if isBlank c then readDouble .plain (f.pushBlank c) (m.after c) rest
      else if isBreak c then readDouble .plain (f.pushBreak c) (m.after c) rest
      else if c = '\x22' then some ⟨f.closed, ⟨m.after c, rest⟩⟩
      else if c = '\\' then readDouble .backslash f (m.after c) rest
      else readDouble .plain (f.push c) (m.after c) rest
    | .backslash =>
      if isBreak c then readDouble .plain f.joinLines (m.after c) rest
      else match escape? c with
        | none => none
        | some (.char x) => readDouble .plain (f.push x) (m.after c) rest
        | some (.code digits) => readDouble (.code digits 0) f (m.after c) rest
    | .code left value =>
      match Text.Percent.hexValue? c with
      | none => none
      | some digit =>
        let n := value * 16 + digit
        if 1 < left then readDouble (.code (left - 1) n) f (m.after c) rest
        else if n.isValidChar then readDouble .plain (f.push (Char.ofNat n)) (m.after c) rest
        else none

end RouteTree.Yaml.Quoted
