import RouteTree.Error

/-!
# Schemes

The origin of an absolute URI is its scheme and authority in normal form. How origins are normalised is a
matter of its own, and a `Normalizer` is any way to do it. What is fixed here is the words in which one
speaks about it: the kinds of schemes, and the characters of a text that stand for nothing in it or for a
slash.
-/

namespace RouteTree.Origin

/-- A way to normalise origins: what stands before the path of an absolute URI, in normal form, or why the
    URI is refused. It is given the scheme and all of the text after its colon. -/
abbrev Normalizer := List Char → List Char → Except OriginFault (List Char)

/-! ## 1. Kinds -/

/-- What a scheme says about the authority after it. -/
inductive SchemeKind where
  | file
  /-- A scheme of the web, with the port it has when none is given. -/
  | web (port : Nat)
  | other
  deriving DecidableEq, Repr

namespace SchemeKind

/-- The kind of a scheme in lower case. -/
def ofScheme (scheme : List Char) : SchemeKind :=
  if scheme = ['f', 'i', 'l', 'e'] then file
  else if scheme = ['h', 't', 't', 'p'] ∨ scheme = ['w', 's'] then web 80
  else if scheme = ['h', 't', 't', 'p', 's'] ∨ scheme = ['w', 's', 's'] then web 443
  else if scheme = ['f', 't', 'p'] then web 21
  else other

/-- The scheme takes a backslash for a slash. -/
def isSpecial (kind : SchemeKind) : Bool := kind ≠ other

/-- The port the scheme has when none is given. -/
def port? : SchemeKind → Option Nat
  | web port => some port
  | _ => none

/-- A character that ends the authority. -/
def endsAuthority (kind : SchemeKind) (c : Char) : Bool :=
  c = '/' || c = '?' || c = '#' || (kind.isSpecial && c = '\\')

end SchemeKind

/-- The kind of a scheme, in whatever letters it is written. -/
def kindOf (scheme : List Char) : SchemeKind := SchemeKind.ofScheme (scheme.map Char.toLower)

/-! ## 2. What counts of a text -/

/-- A tab or a line break. -/
def isTabOrBreak (c : Char) : Bool := c = '\t' || c = '\n' || c = '\r'

/-- A text without its tabs and line breaks. -/
def dropTabs (text : List Char) : List Char := text.filter (!isTabOrBreak ·)

theorem dropTabs_append (front back : List Char) :
    dropTabs (front ++ back) = dropTabs front ++ dropTabs back := List.filter_append ..

theorem dropTabs_cons {c : Char} (h : isTabOrBreak c = false) (text : List Char) :
    dropTabs (c :: text) = c :: dropTabs text := List.filter_cons_of_pos (by rw [h]; rfl)

/-- A slash in either direction. -/
def isSlash (c : Char) : Bool := c = '/' || c = '\\'

end RouteTree.Origin
