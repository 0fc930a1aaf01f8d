import RouteTree.Event
import RouteTree.Spec.Basic
import RouteTree.Yaml.Value

/-!
# Sets of routes in documents

A document describes a set of routes by two fields: `paths`, a mapping from patterns to values, and
`prefixes`, the patterns of the mounts, which may be missing. Neither field may be given twice, and
other fields do not count. Of two routes with one pattern the later one counts.
-/

namespace RouteTree.ApiSpec

open RouteTree.Yaml (Document Item Visit)

/-- The fields of a document, as far as they have been read. -/
structure Fields where
  mounts : Option (List String)
  paths : Option (List (String × Json))

namespace Fields

/-- No field has been read. -/
def none : Fields := ⟨.none, .none⟩

end Fields

/-- The room that the document and its field of routes leave for collections in the values. -/
def valueDepth : Nat := Document.maxDepth - 2

/-- The routes of a document. -/
def readPaths (d : Document) (item : Item) : Visit (List (String × Json)) := do
  let routes ← (← d.entries item).mapM fun entry => do
    let pattern ← d.text entry.1
    let value ← d.value valueDepth entry.2
    return (pattern, value)
  return Assoc.ofList routes

/-- The mounts of a document. -/
def readMounts (d : Document) (item : Item) : Visit (List String) := do
  (← d.items item).mapM d.text

/-- Read the fields of a document one after the other. -/
def readFields (d : Document) (fields : Fields) : List (Item × Item) → Visit Fields
  | [] => pure fields
  | (key, item) :: rest => do
    let name ← d.text key
    if name = "prefixes" then
      match fields.mounts with
      | some _ => fun _ => none
      | none => readFields d { fields with mounts := some (← readMounts d item) } rest
    else if name = "paths" then
      match fields.paths with
      | some _ => fun _ => none
      | none => readFields d { fields with paths := some (← readPaths d item) } rest
    else readFields d fields rest

/-- The set of routes that a document describes. -/
def ofDocument? (d : Document) : Option (ApiSpec Json) := do
  let read : Visit Fields := do readFields d Fields.none (← d.entries d.root)
  let (fields, _) ← read d.maxJumps
  let paths ← fields.paths
  return ⟨fields.mounts.getD [], paths⟩

/-- The set of routes that a text describes, given as characters. -/
def ofChars (text : List Char) : Attempt (ApiSpec Json) :=
  match (Document.ofText? text).bind ofDocument? with
  | none => Attempt.ofExcept (.error .malformedSpec)
  | some spec => do
    Attempt.log (.specLoaded spec.paths.length spec.mounts.length)
    return spec

/-- The set of routes that a text describes. -/
def ofText (text : String) : Attempt (ApiSpec Json) := ofChars text.toList

/-- The set of routes that a file describes. `content` is what the file holds, if there is a file. -/
def ofFile (content : Option (List UInt8)) : Attempt (ApiSpec Json) :=
  match content with
  | none => Attempt.ofExcept (.error (.unreadableFile .notFound))
  | some bytes =>
    match Text.Utf8.decode? bytes with
    | none => Attempt.ofExcept (.error (.unreadableFile .notUtf8))
    | some text => ofChars text

end RouteTree.ApiSpec
