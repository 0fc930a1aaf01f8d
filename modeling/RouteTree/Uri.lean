import RouteTree.Origin.Authority
import RouteTree.Params
import RouteTree.Path
import RouteTree.Pattern

/-!
# URIs

A URI is a list of segments with the parameters bound to its templates, and the origin it was read
with if it is absolute. This file fixes

* reading: `Uri.parse` for plain paths, `Uri.parsePattern` for patterns, both with an origin in front.
  `Uri.parseBy` and `Uri.parsePatternBy` leave open how origins are normalised;
* binding: parameters are set, bound by name, and joined;
* expanding: every template is replaced by its value;
* rendering: three formats that differ in what becomes of a template;
* comparing: the leading segments against those of another URI.

A URI remembers its plain rendering until its parameters change.
-/

namespace RouteTree

/-- A path of segments, with bound parameters and perhaps an origin. -/
structure Uri where
  segments : List Segment
  params : Params
  /-- What stands before the path: scheme and authority in normal form. -/
  origin : Option String
  /-- The plain rendering, once it has been asked for. -/
  rendered : Option String
  deriving DecidableEq, Repr

namespace Uri

/-! ## 1. Reading -/

/-- The scheme of a text and the text after its colon, if what stands before the first colon looks
    like a scheme. -/
def splitScheme? (input : List Char) : Option (List Char × List Char) :=
  match input.dropWhile (· ≠ ':') with
  | [] => none
  | _ :: rest =>
    match input.takeWhile (· ≠ ':') with
    | [] => none
    | c :: cs =>
      if c.isAlpha && cs.all (fun d => d.isAlphanum || d = '+' || d = '-' || d = '.') then
        some (c :: cs, rest)
      else none

/-- A character that ends the authority in the text of an absolute URI. -/
def startsPath (c : Char) : Bool := c = '/' || c = '?' || c = '#'

/-- Cut a text into its origin, if it is absolute, and its path. The origin is normalised by `norm`; the
    path is taken from the text as it is written, and may hold neither query nor fragment. -/
def splitOriginBy (norm : Origin.Normalizer) (input : String) :
    Except PathFault (Option String × List Char) :=
  match splitScheme? input.toList with
  | none => .ok (none, input.toList)
  | some (scheme, rest) =>
    match norm scheme rest with
    | .error fault => .error (.origin input fault)
    | .ok origin =>
      match rest with
      | '/' :: '/' :: authority =>
        let path := authority.dropWhile (!startsPath ·)
        if path.any (fun c => c = '?' || c = '#') then .error (.queryOrFragment input)
        else .ok (some (String.ofList origin), path)
      | _ => .error (.missingAuthority input)

/-- A URI without parameters. -/
def ofParts (origin : Option String) (segments : List Segment) : Uri :=
  ⟨segments, [], origin, none⟩

/-- A URI made of segments. -/
def ofSegments (segments : List Segment) : Uri := ofParts none segments

/-- The segments of a plain path. The empty path has none. -/
def plainSegments (path : List Char) : List Segment :=
  if path = [] then [] else (Path.componentsOf path).map .literal

/-- Read a path or an absolute URI, with origins normalised by `norm`. Nothing in it is a template. -/
def parseBy (norm : Origin.Normalizer) (input : String) : Except RouteError Uri :=
  match splitOriginBy norm input with
  | .error fault => .error (.invalidPath fault)
  | .ok (origin, path) => .ok (ofParts origin (plainSegments path))

/-- Read a pattern, perhaps with an origin in front, with origins normalised by `norm`. -/
def parsePatternBy (norm : Origin.Normalizer) (input : String) : Except RouteError Uri :=
  match splitOriginBy norm input with
  | .error fault => .error (.invalidPath fault)
  | .ok (origin, path) =>
    match Pattern.parse (String.ofList path) with
    | .error e => .error e
    | .ok segments => .ok (ofParts origin segments)

/-- Read a path or an absolute URI. -/
def parse (input : String) : Except RouteError Uri := parseBy Origin.normalize input

/-- Read a pattern, perhaps with an origin in front. -/
def parsePattern (input : String) : Except RouteError Uri := parsePatternBy Origin.normalize input

/-! ## 2. Binding -/

/-- The same path and origin with other parameters. -/
def withParams (u : Uri) (params : Params) : Uri :=
  { u with params := params, rendered := none }

/-- Bind one parameter. -/
def setParam (u : Uri) (name : String) (value : ParamValue) : Uri :=
  u.withParams (u.params.set name value)

/-- Unbind one parameter. -/
def removeParam (u : Uri) (name : String) : Uri :=
  u.withParams (u.params.remove name)

/-- The templates of some segments that `params` has a value for, with these values. -/
def bindings (params : Params) (segments : List Segment) : List (String × ParamValue) :=
  segments.filterMap fun segment =>
    match segment with
    | .param t => (params.get? t.name).map ((t.name, ·))
    | _ => none

/-- Bind the templates that `params` has a value for. Other names in `params` are ignored. -/
def bind (u : Uri) (params : Params) : Uri :=
  match bindings params u.segments with
  | [] => u
  | found => u.withParams (u.params.merge found)

/-- The path of `u` followed by that of `suffix`, under the origin of `u`. Where both bind a name, the
    value in `suffix` stays. -/
def join (u suffix : Uri) : Uri :=
  ⟨u.segments ++ suffix.segments, u.params.merge suffix.params, u.origin, none⟩

/-! ## 3. Expanding -/

/-- The value of a template: the one bound to its name, else the one it is pinned to. -/
def resolve (params : Params) (t : Template) : Option String :=
  ((params.get? t.name).map ParamValue.display).or t.fixed

/-- The components of a catch-all value. -/
def catchAllSegments (value : String) : List Segment :=
  (value.toList.splitOn '/').map fun piece => .reserved (String.ofList piece)

/-- Replace the templates of a path by their values. A template without a value is left out if it is
    optional, ends the path if it takes all that is left, and is an error otherwise. -/
def expandSegments (params : Params) : List Segment → Except RouteError (List Segment)
  | [] => .ok []
  | .param t :: rest =>
    match resolve params t, t.modifier with
    | some value, some .catchAll => (expandSegments params rest).map (catchAllSegments value ++ ·)
    | some value, _ => (expandSegments params rest).map (.literal value :: ·)
    | none, none => .error (.missingParameter t.name)
    | none, some .optional => expandSegments params rest
    | none, some .catchAll => .ok []
  | segment :: rest => (expandSegments params rest).map (segment :: ·)

/-- The URI with every template replaced by its value, under `params` if they are given and under the
    bound parameters otherwise. -/
def expand (u : Uri) (params : Option Params) : Except RouteError Uri :=
  (expandSegments (params.getD u.params) u.segments).map (ofParts u.origin)

/-! ## 4. Rendering -/

/-- What becomes of a template in a rendering. -/
inductive Format where
  /-- Its value; the rendering ends at the first template without one. -/
  | expanded
  /-- Its value; a template without one is written as a template. -/
  | simplePattern
  /-- A template, pinned to its value if it has one. -/
  | fullPattern
  deriving DecidableEq, Repr

/-- A template with the value it is to be pinned to. -/
def templateText (t : Template) (value : Option String) : String :=
  t.opening ++ Text.Percent.encodeComponent t.name
    ++ (match value with
      | none => ""
      | some v => ":" ++ Text.Percent.encodeComponent v)
    ++ "\x7d"

/-- A value in place of its template. -/
def valueText (t : Template) (value : String) : String :=
  "/" ++ (if t.isCatchAll then Text.Percent.encodeReserved value
    else Text.Percent.encodeComponent value)

/-- The text of a path. Where an expanded rendering ends at a catch-all, a slash marks the place. -/
def pathText (format : Format) (params : Params) : List Segment → String
  | [] => ""
  | .literal text :: rest =>
    "/" ++ Text.Percent.encodeComponent text ++ pathText format params rest
  | .reserved text :: rest =>
    "/" ++ Text.Percent.encodeReserved text ++ pathText format params rest
  | .tag _ :: rest => pathText format params rest
  | .param t :: rest =>
    match resolve params t, format with
    | some value, .fullPattern => templateText t (some value) ++ pathText format params rest
    | some value, _ => valueText t value ++ pathText format params rest
    | none, .expanded => if t.isCatchAll then "/" else ""
    | none, _ => templateText t none ++ pathText format params rest

/-- The text of a URI, worked out anew. -/
def rendering (u : Uri) (format : Format) (params : Option Params) : String :=
  u.origin.getD "" ++ pathText format (params.getD u.params) u.segments

/-- The text of a URI, and the URI afterwards: the expanded rendering under its own parameters is
    remembered. -/
def render (u : Uri) (format : Format) (params : Option Params) : String × Uri :=
  match params, format with
  | none, .expanded =>
    match u.rendered with
    | some text => (text, u)
    | none =>
      let text := u.rendering .expanded none
      (text, { u with rendered := some text })
  | _, _ => (u.rendering format params, u)

/-- The text of a URI: the expanded rendering under its own parameters. -/
def text (u : Uri) : String := (u.render .expanded none).1

/-! ## 5. Comparing -/

/-- A segment is compatible with one it is compared to. Any template over there accepts it; of the
    templates over here, only one pinned to a value is held to that value. -/
def compatible : Segment → Segment → Bool
  | _, .param _ => true
  | .param t, other =>
    match t.fixed, other.text? with
    | some value, some text => value = text
    | _, _ => true
  | ours, theirs => ours.text? = theirs.text?

/-- The leading segments are compatible with those of the other path, which is no longer. -/
def leads : List Segment → List Segment → Bool
  | _, [] => true
  | [], _ :: _ => false
  | ours :: restOurs, theirs :: restTheirs => compatible ours theirs && leads restOurs restTheirs

/-- The leading segments are compatible with those of `other`. -/
def startsWith (u other : Uri) : Bool := leads u.segments other.segments

/-- The leading segments are compatible with the components of a path. The empty path leads every
    other. -/
def startsWithPath (u : Uri) (path : String) : Bool :=
  leads u.segments (plainSegments path.toList)

end Uri

end RouteTree
