import RouteTree.Proofs.Origin.Normal
import RouteTree.Proofs.Uri.Reading

/-!
# The text of a URI is read back

A URI that was read has a text, and this text is read as the same URI. The parts of the proof:

* `isPath_text`: the text of some literals is an encoded path, so that no origin is seen in it and it
  may stand behind one;
* `plainSegments_text`: it is read as these literals, none of them lost and none added;
* `splitOriginBy_written`: an origin in normal form is found again in front of a path;
* `parse_text` puts them together, for every way to normalise origins that keeps `Origin.Laws`.
-/

namespace RouteTree.Uri

open Origin (IsScheme IsEncoded IsPath)

/-! ## 1. The text of some literals -/

theorem text_ofParts (origin : Option String) (segments : List Segment) :
    (ofParts origin segments).text = origin.getD "" ++ pathText .expanded [] segments := rfl

theorem isEncoded_append : ∀ {front back : List Char}, IsEncoded front → IsEncoded back →
    IsEncoded (front ++ back) := by
  intro front back hf hb
  induction hf with
  | nil => exact hb
  | mark hc _ ih => exact .mark hc ih
  | escape hhi hlo _ ih => exact .escape hhi hlo ih

theorem isEncoded_escapes : ∀ bytes : List UInt8, IsEncoded (bytes.flatMap Text.Percent.escape)
  | [] => .nil
  | b :: bytes => by
    have hhex : ∀ n < 16, Text.Percent.isHex (Text.Percent.hexDigit n) = true := by decide
    have hb := b.toNat_lt
    rw [List.flatMap_cons]
    exact .escape (hhex _ (by omega)) (hhex _ (by omega)) (isEncoded_escapes bytes)

theorem isEncoded_encode : ∀ text : List Char,
    IsEncoded (Text.Percent.encode Text.Percent.isUnreserved text)
  | [] => .nil
  | c :: text => by
    rw [Text.Percent.encode, List.flatMap_cons]
    refine isEncoded_append ?_ (isEncoded_encode text)
    split
    · rename_i hc
      exact .mark (Or.inr hc) .nil
    · exact isEncoded_escapes _

/-- A literal is written, whatever is in it. -/
theorem written?_literals (ls : List String) :
    (ls.map Segment.literal).map Segment.written?
      = (ls.map Text.Percent.encodeComponent).map some := by
  rw [List.map_map, List.map_map]
  rfl

/-- What literals are written as, each behind its slash. -/
theorem toList_literals (params : Params) (ls : List String) :
    (pathText .expanded params (ls.map .literal)).toList
      = (ls.map Text.Percent.encodeComponent).flatMap fun text => '/' :: text.toList :=
  toList_pathText (written?_literals ls)

/-- **The text of some literals is an encoded path.** -/
theorem isPath_text (params : Params) (ls : List String) :
    IsPath (pathText .expanded params (ls.map .literal)).toList := by
  rw [toList_literals]
  constructor
  · cases ls with
    | nil => exact Or.inl rfl
    | cons text ls => exact Or.inr ⟨_, rfl⟩
  · induction ls with
    | nil => exact .nil
    | cons text ls ih =>
      rw [List.map_cons, List.flatMap_cons, Text.Percent.encodeComponent, String.toList_ofList]
      exact isEncoded_append (.mark (Or.inl rfl) (isEncoded_encode _)) ih

/-- **The text of some literals is read as these literals.** -/
theorem plainSegments_text (params : Params) (ls : List String) :
    plainSegments (pathText .expanded params (ls.map .literal)).toList = ls.map .literal := by
  cases ls with
  | nil => rfl
  | cons text ls =>
    have hne : (pathText .expanded params ((text :: ls).map .literal)).toList ≠ [] := by
      rw [toList_literals]
      exact List.cons_ne_nil _ _
    have hslash : ∀ t ∈ (text :: ls).map Text.Percent.encodeComponent, '/' ∉ t.toList := by
      intro t ht
      obtain ⟨l, -, rfl⟩ := List.mem_map.mp ht
      rw [Text.Percent.encodeComponent, String.toList_ofList]
      exact Text.Percent.slash_not_mem_encode l.toList
    have hread : Path.components (pathText .expanded params ((text :: ls).map .literal))
        = text :: ls := by
      rw [components_pathText (by simp) (written?_literals _) hslash, List.map_map]
      exact (List.map_congr_left fun l _ => Text.Percent.decode_encodeComponent l).trans
        (List.map_id' _)
    rw [plainSegments, if_neg hne]
    exact congrArg (List.map Segment.literal) hread

theorem plainSegments_literal (path : List Char) :
    ∃ ls : List String, plainSegments path = ls.map .literal := by
  unfold plainSegments
  split
  · exact ⟨[], rfl⟩
  · exact ⟨_, rfl⟩

/-! ## 2. Schemes -/

theorem splitScheme?_of_not_mem {text : List Char} (h : ':' ∉ text) : splitScheme? text = none := by
  have hnil : text.dropWhile (· ≠ ':') = [] :=
    List.dropWhile_eq_nil_iff.mpr fun c hc => decide_eq_true fun he => h (he ▸ hc)
  rw [splitScheme?, hnil]

/-- A scheme is found again in front of its colon. -/
theorem splitScheme?_append {scheme : List Char} (h : IsScheme scheme) (rest : List Char) :
    splitScheme? (scheme ++ ':' :: rest) = some (scheme, rest) := by
  obtain ⟨c, cs, rfl, hc, hcs⟩ := h
  have hcolon : ∀ d ∈ c :: cs, decide (d ≠ ':') = true := by
    intro d hd
    refine decide_eq_true fun he => ?_
    subst he
    rcases List.mem_cons.mp hd with he | hd
    · rw [← he] at hc
      revert hc
      decide
    · have := hcs ':' hd
      revert this
      decide
  have htake : (c :: cs ++ ':' :: rest).takeWhile (· ≠ ':') = c :: cs := by
    rw [List.takeWhile_append_of_pos hcolon]
    simp
  have hdrop : (c :: cs ++ ':' :: rest).dropWhile (· ≠ ':') = ':' :: rest := by
    rw [List.dropWhile_append_of_pos hcolon]
    simp
  have hscheme : (c.isAlpha && cs.all Origin.isSchemeChar) = true :=
    Bool.and_eq_true_iff.mpr ⟨hc, List.all_eq_true.mpr hcs⟩
  rw [splitScheme?, hdrop]
  dsimp only
  rw [htake]
  exact if_pos hscheme

theorem isScheme_of_split {text scheme rest : List Char}
    (h : splitScheme? text = some (scheme, rest)) : IsScheme scheme := by
  unfold splitScheme? at h
  split at h
  · cases h
  · split at h
    · cases h
    · rename_i c cs _
      split at h
      · rename_i hscheme
        cases h
        obtain ⟨hc, hcs⟩ := Bool.and_eq_true_iff.mp hscheme
        exact ⟨c, cs, rfl, hc, List.all_eq_true.mp hcs⟩
      · cases h

/-! ## 3. Origins -/

section
variable {norm : Origin.Normalizer}

/-- What an origin came from, if there is one. -/
theorem splitOriginBy_cases {input : String} {origin : Option String} {path : List Char}
    (h : splitOriginBy norm input = .ok (origin, path)) : origin = none ∨
      ∃ scheme rest text, splitScheme? input.toList = some (scheme, '/' :: '/' :: rest) ∧
        norm scheme ('/' :: '/' :: rest) = .ok text ∧ origin = some (String.ofList text) ∧
        ¬ (rest.dropWhile (!startsPath ·)).any (fun c => c = '?' || c = '#') = true := by
  unfold splitOriginBy at h
  split at h
  · cases h
    exact Or.inl rfl
  · rename_i scheme rest hsplit
    split at h
    · cases h
    · rename_i text hnorm
      split at h
      · rename_i rest
        dsimp only at h
        split at h
        · cases h
        · rename_i hquery
          cases h
          exact Or.inr ⟨scheme, rest, text, hsplit, hnorm, rfl, hquery⟩
      · cases h

theorem not_mem_of_isPath {path : List Char} (h : IsPath path) : ':' ∉ path ∧ '?' ∉ path ∧ '#' ∉ path := by
  have hplain : ∀ c ∈ path, c ∉ [':', '|', '?', '#', '\\'] := fun c hc =>
    (Origin.plain_of_isPathChar (Origin.isPathChar_of_encoded h.2 c hc)).2
  refine ⟨fun hc => ?_, fun hc => ?_, fun hc => ?_⟩ <;> exact hplain _ hc (by simp)

/-- A path is no absolute URI. -/
theorem splitOriginBy_path {path : List Char} (h : IsPath path) :
    splitOriginBy norm (String.ofList path) = .ok (none, path) := by
  rw [splitOriginBy, String.toList_ofList, splitScheme?_of_not_mem (not_mem_of_isPath h).1]

/-- Behind a scheme and two slashes, the path starts at the first sign that starts one. -/
theorem splitOriginBy_scheme {scheme text : List Char} (hs : IsScheme scheme)
    (hq : '?' ∉ text ∧ '#' ∉ text) :
    splitOriginBy norm (String.ofList (scheme ++ ':' :: '/' :: '/' :: text))
      = match norm scheme ('/' :: '/' :: text) with
        | .error fault =>
          .error (.origin (String.ofList (scheme ++ ':' :: '/' :: '/' :: text)) fault)
        | .ok origin => .ok (some (String.ofList origin), text.dropWhile (!startsPath ·)) := by
  have hquery : ¬ (text.dropWhile (!startsPath ·)).any (fun c => c = '?' || c = '#') = true := by
    intro hany
    obtain ⟨c, hc, hmark⟩ := List.any_eq_true.mp hany
    have hmem : c ∈ text := (List.dropWhile_sublist _).subset hc
    rcases Bool.or_eq_true_iff.mp hmark with he | he
    · exact hq.1 (of_decide_eq_true he ▸ hmem)
    · exact hq.2 (of_decide_eq_true he ▸ hmem)
  rw [splitOriginBy, String.toList_ofList, splitScheme?_append hs]
  dsimp only
  cases norm scheme ('/' :: '/' :: text) with
  | error fault => rfl
  | ok origin => exact if_neg hquery

/-- Neither query nor fragment starts in an authority and a path that hold none. -/
theorem not_mem_behind {a path : List Char} (ha : ∀ c ∈ a, c ∉ ['/', '?', '#'])
    (hq : '?' ∉ path ∧ '#' ∉ path) : '?' ∉ a ++ path ∧ '#' ∉ a ++ path := by
  refine ⟨fun hm => ?_, fun hm => ?_⟩
  · exact (List.mem_append.mp hm).elim (fun hm => ha _ hm (by simp)) hq.1
  · exact (List.mem_append.mp hm).elim (fun hm => ha _ hm (by simp)) hq.2

/-- **An origin in normal form is found again** in front of a path. -/
theorem splitOriginBy_written {scheme a path : List Char} (hs : IsScheme scheme)
    (ha : ∀ c ∈ a, c ∉ ['/', '?', '#']) (hp : Origin.IsRooted path) (hq : '?' ∉ path ∧ '#' ∉ path)
    {origin : List Char} (hn : norm scheme ('/' :: '/' :: (a ++ path)) = .ok origin) :
    splitOriginBy norm (String.ofList (scheme ++ ':' :: '/' :: '/' :: (a ++ path)))
      = .ok (some (String.ofList origin), path) := by
  have hin : ∀ c ∈ a, (!startsPath c) = true := fun c hc => by
    have hmarks := ha c hc
    simp only [List.mem_cons, List.not_mem_nil, or_false, not_or] at hmarks
    simp [startsPath, hmarks]
  have hdrop : (a ++ path).dropWhile (!startsPath ·) = path := by
    rw [List.dropWhile_append_of_pos hin]
    rcases hp with rfl | ⟨rest, rfl⟩
    · rfl
    · rfl
  rw [splitOriginBy_scheme hs (not_mem_behind ha hq), hn, hdrop]

/-! ## 4. URIs -/

/-- The text of some literals is read as these literals, without an origin. -/
theorem parseBy_literals (ls : List String) :
    parseBy norm (ofSegments (ls.map .literal)).text = .ok (ofSegments (ls.map .literal)) := by
  have htext : (ofSegments (ls.map .literal)).text
      = String.ofList (pathText .expanded [] (ls.map .literal)).toList := by
    rw [text_ofSegments, String.ofList_toList]
  rw [parseBy, htext, splitOriginBy_path (isPath_text [] ls)]
  dsimp only
  rw [plainSegments_text]
  rfl

/-- **The text of a URI that was read is read as this URI**, if origins are normalised under the
    laws. -/
theorem parseBy_text (hnorm : Origin.Laws norm) {input : String} {u : Uri}
    (h : parseBy norm input = .ok u) : parseBy norm u.text = .ok u := by
  obtain ⟨origin, path, hsplit, rfl⟩ := parse_cases h
  obtain ⟨ls, hls⟩ := plainSegments_literal path
  rw [hls]
  rcases splitOriginBy_cases hsplit with rfl | ⟨scheme, rest, text, hs, hn, rfl, -⟩
  · exact parseBy_literals ls
  · obtain ⟨s, a, rfl, hs', ha, hagain⟩ := hnorm (isScheme_of_split hs) hn
    have hp := isPath_text [] ls
    have htext : (ofParts (some (String.ofList (s ++ ':' :: '/' :: '/' :: a)))
        (ls.map .literal)).text = String.ofList (s ++ ':' :: '/' :: '/' ::
          (a ++ (pathText .expanded [] (ls.map .literal)).toList)) := by
      rw [text_ofParts, Option.getD_some, ← String.toList_inj]
      simp
    rw [parseBy, htext, splitOriginBy_written hs' ha hp.1 (not_mem_of_isPath hp).2 (hagain _ hp)]
    dsimp only
    rw [plainSegments_text]

end

/-- **Reading undoes writing.** The text of any literals, with whatever characters in them, is read as
    these literals and as nothing else, without an origin, however origins are normalised. And the text of
    any URI that was read, with or without an origin, is read as this URI, with the same segments and the
    same origin. This part holds for every way to normalise origins that keeps the laws, as the one here
    does. -/
theorem parse_text :
    (∀ norm (ls : List String),
      parseBy norm (ofSegments (ls.map .literal)).text = .ok (ofSegments (ls.map .literal))) ∧
    (∀ input u, parse input = .ok u → parse u.text = .ok u) ∧
    ∀ norm, Origin.Laws norm → ∀ input u, parseBy norm input = .ok u →
      parseBy norm u.text = .ok u := by
  refine ⟨fun norm ls => parseBy_literals ls, fun input u h => ?_, fun norm hnorm input u h =>
    parseBy_text hnorm h⟩
  exact parseBy_text Origin.laws_normalize h

/-- A URI whose text is not the one it was read from: its origin comes into normal form, and its
    components are written with fewer characters. -/
theorem parse_text_site :
    ∃ u, parse "HTTP://Me@EXAMPLE.org:80/a:b%2F/%C3%A9/" = .ok u ∧
      u.text = "http://Me@example.org/a%3Ab%2F/%C3%A9/" ∧ parse u.text = .ok u := by
  let u : Uri := ofParts (some "http://Me@example.org") [.literal "a:b/", .literal "é", .literal ""]
  have hu : parse "HTTP://Me@EXAMPLE.org:80/a:b%2F/%C3%A9/" = .ok u := by
    decide +kernel
  have htext : u.text = "http://Me@example.org/a%3Ab%2F/%C3%A9/" := by
    decide +kernel
  exact ⟨u, hu, htext, parse_text.2.1 _ u hu⟩

end RouteTree.Uri
