import RouteTree.Origin.Host
import RouteTree.Origin.Scheme

/-!
# Authorities

The text between the two slashes of an absolute URI and its path: who asks, which host, which port.
`normalize` is one way to put what stands before the path of a URI in normal form, or to say why the URI
is refused. It is the one that is used when nothing else is asked for; its domains are ASCII. The rules
are those that browsers follow:

* blanks and control characters at the end of the input do not count, nor do tabs and line breaks
  anywhere in it;
* the schemes of the web take a backslash for a slash and any number of slashes for two;
* the port a scheme has anyway is left out;
* a `file` URI has a host at most, and gives it up for a drive letter at the head of its path.
-/

namespace RouteTree.Origin

/-! ## 1. User information -/

/-- The marks that user information escapes. -/
def userinfoStops : List Char :=
  [' ', '\x22', '<', '>', '\x60', '#', '?', '{', '}', '/', ':', ';', '=', '@', '[', '\\', ']', '^', '|']

/-- A character that user information is written with as it stands. -/
def isUserinfoSafe (c : Char) : Bool :=
  Host.isPrintable c && !userinfoStops.contains c

/-- User information in normal form, with its at sign. The first colon stands before the password;
    without a password it is left out, and with neither name nor password so is the at sign. -/
def userinfo (text : List Char) : List Char :=
  let name := Text.Percent.encode isUserinfoSafe (text.takeWhile (· ≠ ':'))
  let password := Text.Percent.encode isUserinfoSafe ((text.dropWhile (· ≠ ':')).drop 1)
  let whole := if password = [] then name else name ++ ':' :: password
  if whole = [] then [] else whole ++ ['@']

/-- Cut an authority at its last at sign: user information, if there is such a sign, and the rest. -/
def splitUserinfo (text : List Char) : Option (List Char) × List Char :=
  match text.reverse.dropWhile (· ≠ '@') with
  | [] => (none, text)
  | _ :: front => (some front.reverse, (text.reverse.takeWhile (· ≠ '@')).reverse)

/-! ## 2. Host and port -/

/-- Cut a text at its first colon outside brackets. The second part keeps the colon. -/
def splitPort (inBrackets : Bool) : List Char → List Char × List Char
  | [] => ([], [])
  | c :: rest =>
    if c = ':' ∧ inBrackets = false then ([], c :: rest)
    else
      let inside := if c = '[' then true else if c = ']' then false else inBrackets
      let (host, port) := splitPort inside rest
      (c :: host, port)

/-- The number of a port, if digits give one. `seen` is the number of the digits before. -/
def portNumber (seen : Option Nat) : List Char → Except OriginFault (Option Nat)
  | [] => .ok seen
  | c :: rest =>
    if c.isDigit then
      let n := seen.getD 0 * 10 + (c.toNat - 48)
      if n < 0x10000 then portNumber (some n) rest else .error .portNumber
    else if c = '\\' then .ok seen
    else .error .portNumber

/-- The port in normal form, with its colon. `text` starts with the colon, if there is a port. -/
def port (kind : SchemeKind) (text : List Char) : Except OriginFault (List Char) :=
  match portNumber none (text.drop 1) with
  | .error fault => .error fault
  | .ok none => .ok []
  | .ok (some n) => .ok (if kind.port? = some n then [] else ':' :: Nat.toDigits 10 n)

/-- The host of an authority. -/
def host (kind : SchemeKind) (text : List Char) : Except OriginFault Host :=
  if kind.isSpecial then
    if text = [] then .error .emptyHost else Host.ofWeb text
  else Host.ofName text

/-! ## 3. Authorities -/

/-- The normal form of an authority. `more` says whether anything follows it. Without a host there is
    neither user information nor a port. -/
def authority (kind : SchemeKind) (text : List Char) (more : Bool) :
    Except OriginFault (List Char) := do
  let (user, rest) := splitUserinfo text
  if user = some [] ∧ rest = [] ∧ more then throw .emptyHost
  let user := userinfo (user.getD [])
  let (hostText, portText) := splitPort false rest
  let h ← host kind hostText
  if h = .name [] ∧ (portText ≠ [] ∨ user ≠ []) then throw .emptyHost
  let p ← port kind portText
  return user ++ h.render ++ p

/-! ## 4. What counts of a text -/

/-- A text without the blanks and control characters at its end. -/
def trimEnd (text : List Char) : List Char :=
  (text.reverse.dropWhile (·.toNat ≤ 0x20)).reverse

/-! ## 5. Files -/

/-- The text after the slash it starts with, if it starts with one. -/
def afterSlash? (text : List Char) : Option (List Char) :=
  match text.dropWhile isTabOrBreak with
  | c :: rest => if isSlash c then some rest else none
  | [] => none

/-- A drive letter, followed by a colon or a bar. -/
def isDriveLetter : List Char → Bool
  | [letter, mark] => letter.isAlpha && (mark = ':' || mark = '|')
  | _ => false

/-- One dot, escaped or not. -/
def isSingleDot (text : List Char) : Bool :=
  text.map Char.toLower = ['.'] || text.map Char.toLower = ['%', '2', 'e']

/-- Two dots, each escaped or not. -/
def isDoubleDot (text : List Char) : Bool :=
  let low := text.map Char.toLower
  low = ['.', '.'] || low = ['%', '2', 'e', '.'] || low = ['.', '%', '2', 'e']
    || low = ['%', '2', 'e', '%', '2', 'e']

/-- A component starts with a drive letter and a colon, which a tab or a line break cuts off from what
    comes after them. -/
def hasCutDrive (part : List Char) : Bool :=
  match dropTabs part, part.dropWhile (· ≠ ':') with
  | letter :: ':' :: _ :: _, _ :: next :: _ => letter.isAlpha && isTabOrBreak next
  | _, _ => false

/-- What is left of the components in front, the last one first, when two dots follow them: a drive
    letter is never taken back. -/
def takeBack : List (List Char) → List (List Char)
  | [] => []
  | part :: front => if isDriveLetter part then part :: front else front

/-- A drive letter comes to stand at the head of the path. `front` holds the components in front of
    these when dots have been followed, the last one first. A drive letter that is cut off from the
    rest of its component stands at the head without being noticed, and nothing takes its place. -/
def hasDrive (front : List (List Char)) : List (List Char) → Bool
  | [] => false
  | written :: parts =>
    let part := dropTabs written
    if isDoubleDot part then hasDrive (takeBack front) parts
    else if isSingleDot part then hasDrive front parts
    else if front = [] then
      !hasCutDrive written && (isDriveLetter part || hasDrive [part] parts)
    else hasDrive (part :: front) parts

/-- The components of the path of a file, between its slashes. -/
def fileParts (path : List Char) : List (List Char) :=
  let plain := (path.takeWhile fun c => c ≠ '?' && c ≠ '#').map fun c => if c = '\\' then '/' else c
  (Path.dropLeadingSlash plain).splitOn '/'

/-- The host of a `file` URI, from the text after its slashes. -/
def fileHost (text : List Char) : Except OriginFault (List Char) := do
  let ends (c : Char) : Bool := SchemeKind.file.endsAuthority c
  let hostText := dropTabs (text.takeWhile (!ends ·))
  if hostText = [] ∨ isDriveLetter hostText then return []
  let h ← Host.ofWeb hostText
  if h = .name ['l', 'o', 'c', 'a', 'l', 'h', 'o', 's', 't'] then return []
  if hasDrive [] (fileParts (text.dropWhile (!ends ·))) then return []
  return h.render

/-! ## 6. Absolute URIs -/

/-- The normal form of what stands before the path of an absolute URI, or why it is refused. `rest` is
    the text after the colon of the scheme. A URI without two slashes is not refused here: it has an
    empty authority if its scheme does without one. -/
def normalize (scheme rest : List Char) : Except OriginFault (List Char) := do
  let low := scheme.map Char.toLower
  let kind := SchemeKind.ofScheme low
  let written := trimEnd rest
  let text := dropTabs written
  let front := low ++ [':', '/', '/']
  match kind with
  | .file =>
    match (afterSlash? written).bind afterSlash? with
    | some inside => return front ++ (← fileHost inside)
    | none => return front
  | .web _ =>
    let text := text.dropWhile isSlash
    let inside := text.takeWhile (!kind.endsAuthority ·)
    return front ++ (← authority kind inside (text.length ≠ inside.length))
  | .other =>
    if text.take 2 = ['/', '/'] then
      let text := text.drop 2
      let inside := text.takeWhile (!kind.endsAuthority ·)
      return front ++ (← authority kind inside (text.length ≠ inside.length))
    else return front

end RouteTree.Origin
