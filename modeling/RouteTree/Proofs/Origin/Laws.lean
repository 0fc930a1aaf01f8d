import RouteTree.Origin.Scheme
import RouteTree.Text.Percent

/-!
# Laws of normalising origins

The theory of absolute URIs holds for every way to normalise origins that keeps some laws, which this
file names. They are the rules that browsers follow, as far as the theory relies on them:

* `Laws` says that what has been normalised is left as it is in front of an encoded path;
* `Rules` says where the authority is looked for in a text, and what of the text does not count.

Neither says what a host is, which names are refused, or how a name is written. Of `file` URIs only that
is said which holds whether or not a drive letter in the path takes the place of the host.
-/

namespace RouteTree.Origin

open Text.Percent (isUnreserved isHex)

/-! ## 1. Schemes and paths -/

/-- A character of a scheme after its first one. -/
def isSchemeChar (c : Char) : Bool := c.isAlphanum || c = '+' || c = '-' || c = '.'

/-- The text looks like a scheme. -/
def IsScheme (scheme : List Char) : Prop :=
  ∃ c rest, scheme = c :: rest ∧ c.isAlpha = true ∧ ∀ d ∈ rest, isSchemeChar d = true

/-- A text of slashes, unreserved characters and escapes. -/
inductive IsEncoded : List Char → Prop where
  | nil : IsEncoded []
  | mark {c rest} : c = '/' ∨ isUnreserved c = true → IsEncoded rest → IsEncoded (c :: rest)
  | escape {hi lo rest} : isHex hi = true → isHex lo = true → IsEncoded rest →
      IsEncoded ('%' :: hi :: lo :: rest)

/-- Nothing, or a text that starts with a slash: what an authority ends in front of. -/
def IsRooted (path : List Char) : Prop := path = [] ∨ ∃ rest, path = '/' :: rest

/-- A path as it may stand behind an authority: nothing, or an encoded text that starts with a
    slash. -/
def IsPath (path : List Char) : Prop :=
  (path = [] ∨ ∃ rest, path = '/' :: rest) ∧ IsEncoded path

/-! ## 2. What has been normalised -/

/-- **What may be relied on when origins are normalised.** What has been normalised is a scheme and an
    authority without slash, question mark and number sign, and it is left as it is, whatever path is
    written behind it. -/
def Laws (norm : Normalizer) : Prop :=
  ∀ {scheme authority origin : List Char}, IsScheme scheme →
    norm scheme ('/' :: '/' :: authority) = .ok origin →
    ∃ s a, origin = s ++ ':' :: '/' :: '/' :: a ∧ IsScheme s ∧ (∀ c ∈ a, c ∉ ['/', '?', '#']) ∧
      ∀ path, IsPath path → norm s ('/' :: '/' :: (a ++ path)) = .ok origin

/-! ## 3. What is read of a text -/

/-- The text ends in a blank or in a control character. -/
def EndsInBlank (text : List Char) : Prop := ∃ c, text.getLast? = some c ∧ c.toNat ≤ 0x20

/-- In a text behind two slashes, a mark of a drive letter stands behind the host. -/
def HasDriveMark (text : List Char) : Prop :=
  ∃ c ∈ text.dropWhile (!SchemeKind.file.endsAuthority ·), c = ':' ∨ c = '|'

/-- **What may be relied on of the text that origins are normalised from.** -/
structure Rules (norm : Normalizer) : Prop where
  /-- Tabs and line breaks are removed, wherever they stand. -/
  tabs {scheme : List Char} : IsScheme scheme → kindOf scheme ≠ .file → ∀ text,
    norm scheme ('/' :: '/' :: text) = norm scheme ('/' :: '/' :: dropTabs text)
  /-- A scheme of the web takes all the slashes it finds for the two in front of the authority. -/
  slashes {scheme : List Char} {port : Nat} : IsScheme scheme → kindOf scheme = .web port → ∀ text,
    norm scheme ('/' :: '/' :: text) = norm scheme ('/' :: '/' :: text.dropWhile isSlash)
  /-- A URI of the web has a host. -/
  host {scheme : List Char} {port : Nat} : IsScheme scheme → kindOf scheme = .web port → ∀ origin,
    norm scheme ['/', '/'] ≠ .ok origin
  /-- The authority ends at the first sign that ends it, and what comes then does not count for the
      origin. In a `file` URI this is said of paths without the marks of a drive letter. -/
  ends {scheme inside : List Char} {c : Char} {back : List Char} : IsScheme scheme →
    (∀ d ∈ inside, (kindOf scheme).endsAuthority d = false) →
    (∀ port, kindOf scheme = .web port → dropTabs inside ≠ []) →
    (kindOf scheme).endsAuthority c = true → (kindOf scheme = .file → ':' ∉ back ∧ '|' ∉ back) →
    norm scheme ('/' :: '/' :: (inside ++ c :: back)) = norm scheme ('/' :: '/' :: (inside ++ ['/']))
  /-- The authority may also end with the text, where blanks and control characters are trimmed. No
      host of the web or of a `file` URI has one at its end to lose. -/
  alone {scheme inside origin : List Char} : IsScheme scheme →
    (∀ d ∈ inside, (kindOf scheme).endsAuthority d = false) →
    (kindOf scheme = .other → ¬ EndsInBlank inside) →
    norm scheme ('/' :: '/' :: (inside ++ ['/'])) = .ok origin →
    norm scheme ('/' :: '/' :: inside) = .ok origin

end RouteTree.Origin
