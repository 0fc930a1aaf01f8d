import RouteTree.Proofs.Uri.Absolute

/-!
# An authority without its path

The origin of an absolute URI is worked out of the whole text, and its path is cut off at a slash. The
text in front of that slash is an absolute URI too, or is refused as one:

* `absolute_cases` says what an absolute URI has been read from;
* `parse_originText_iff` is what is read without a path;
* `parse_authorityText_iff` says when both have the same origin: exactly if what stands behind the
  authority does not count for it (`PathCounts`). It says so for every way to normalise origins that keeps
  `Origin.Rules`.
-/

namespace RouteTree.Uri

open Origin (IsScheme Borrows kindOf)

variable {norm : Origin.Normalizer}

/-! ## 1. The text of an authority -/

/-- An absolute URI up to the first slash behind the two of its origin, and any other text as it is. -/
def authorityText (s : String) : String :=
  match splitScheme? s.toList with
  | some (scheme, '/' :: '/' :: rest) => originText scheme (rest.takeWhile (· ≠ '/'))
  | _ => s

/-- What stands behind the authority of an absolute URI has a say in its origin. -/
def PathCounts (norm : Origin.Normalizer) (s : String) : Prop :=
  ∃ scheme front back, IsScheme scheme ∧ '/' ∉ front ∧ s = originText scheme (front ++ '/' :: back) ∧
    Borrows norm scheme front back

section
variable {scheme : List Char}

theorem authorityText_originText (hs : IsScheme scheme) (rest : List Char) :
    authorityText (originText scheme rest) = originText scheme (rest.takeWhile (· ≠ '/')) := by
  rw [authorityText, toList_originText, splitScheme?_append hs]
  rfl

theorem pathCounts_iff (hs : IsScheme scheme) {front : List Char} (hslash : '/' ∉ front)
    (back : List Char) : PathCounts norm (originText scheme (front ++ '/' :: back)) ↔
      Borrows norm scheme front back := by
  constructor
  · rintro ⟨scheme', front', back', hs', hslash', htext, hborrows⟩
    obtain ⟨rfl, hrest⟩ := (originText_inj hs hs').mp htext
    have htake := congrArg (List.takeWhile (· ≠ '/')) hrest
    rw [Pattern.takeWhile_append_sign hslash, Pattern.takeWhile_append_sign hslash'] at htake
    subst htake
    obtain rfl := (List.cons.inj (List.append_cancel_left hrest)).2
    exact hborrows
  · exact fun hborrows => ⟨scheme, front, back, hs, hslash, rfl, hborrows⟩

theorem eq_of_splitScheme? {text rest : List Char} (h : splitScheme? text = some (scheme, rest)) :
    text = scheme ++ ':' :: rest := by
  unfold splitScheme? at h
  split at h
  · cases h
  · rename_i c tail hdrop
    have htext := Pattern.eq_of_dropWhile_sign hdrop
    split at h
    · cases h
    · rename_i d ds htake
      split at h
      · cases h
        rw [← htake, ← htext]
      · cases h

theorem unmarked {text : List Char} (hslash : '/' ∉ text) (hq : '?' ∉ text ∧ '#' ∉ text) :
    ∀ c ∈ text, c ∉ ['/', '?', '#'] := by
  intro c hc hmark
  simp only [List.mem_cons, List.not_mem_nil, or_false] at hmark
  rcases hmark with rfl | rfl | rfl
  · exact hslash hc
  · exact hq.1 hc
  · exact hq.2 hc

/-- A mark that starts the path of a text stands in its path. -/
theorem mem_dropWhile_startsPath {text : List Char} {c : Char} (hc : startsPath c = true)
    (hm : c ∈ text) : c ∈ text.dropWhile (!startsPath ·) := by
  have hparts : c ∈ text.takeWhile (!startsPath ·) ++ text.dropWhile (!startsPath ·) := by
    rwa [List.takeWhile_append_dropWhile]
  rcases List.mem_append.mp hparts with hfront | hback
  · have hstays := List.mem_takeWhile_imp hfront
    rw [hc] at hstays
    cases hstays
  · exact hback

/-- What an absolute URI has been read from. -/
theorem absolute_cases {s o : String} {u : Uri} (h : parseBy norm s = .ok u) (ho : u.origin = some o) :
    ∃ scheme rest, IsScheme scheme ∧ s = originText scheme rest ∧ ('?' ∉ rest ∧ '#' ∉ rest) ∧
      norm scheme ('/' :: '/' :: rest) = .ok o.toList := by
  obtain ⟨origin, path, hsplit, rfl⟩ := parse_cases h
  obtain rfl : origin = some o := ho
  rcases splitOriginBy_cases hsplit with hnone | ⟨scheme, rest, text, hscheme, hn, hsome, hquery⟩
  · cases hnone
  · have htext : s = originText scheme rest := by
      rw [originText, ← eq_of_splitScheme? hscheme, String.ofList_toList]
    have hmark (c : Char) (hc : startsPath c = true) (hm : (c = '?' || c = '#') = true) : c ∉ rest :=
      fun hmem => hquery (List.any_eq_true.mpr ⟨c, mem_dropWhile_startsPath hc hmem, hm⟩)
    refine ⟨scheme, rest, isScheme_of_split hscheme, htext, ⟨hmark _ rfl rfl, hmark _ rfl rfl⟩, ?_⟩
    rw [hn, Option.some.inj hsome, String.toList_ofList]

/-- What is read of an origin with neither path, query nor fragment behind it. -/
theorem parse_originText (hs : IsScheme scheme) {front : List Char}
    (hmarks : ∀ c ∈ front, c ∉ ['/', '?', '#']) :
    parseBy norm (originText scheme front)
      = match norm scheme ('/' :: '/' :: front) with
        | .error fault => .error (.invalidPath (.origin (originText scheme front) fault))
        | .ok origin => .ok (ofParts (some (String.ofList origin)) []) := by
  have hnone : ∀ c ∈ front, startsPath c = false := fun c hc => by
    have hmark := hmarks c hc
    simp only [List.mem_cons, List.not_mem_nil, or_false, not_or] at hmark
    simp [startsPath, hmark]
  have hq : '?' ∉ front ∧ '#' ∉ front :=
    ⟨fun hm => hmarks _ hm (by simp), fun hm => hmarks _ hm (by simp)⟩
  have hpath : front.dropWhile (!startsPath ·) = [] :=
    List.dropWhile_eq_nil_iff.mpr fun c hc => by rw [hnone c hc]; rfl
  rw [parseBy, originText, splitOriginBy_scheme hs hq, hpath]
  cases norm scheme ('/' :: '/' :: front) <;> rfl

/-- Such an origin is read without segments, if it is read at all. -/
theorem parse_originText_iff (hs : IsScheme scheme) {front : List Char}
    (hmarks : ∀ c ∈ front, c ∉ ['/', '?', '#']) (o : String) :
    (∃ v, parseBy norm (originText scheme front) = .ok v ∧ v.segments = [] ∧ v.origin = some o) ↔
      norm scheme ('/' :: '/' :: front) = .ok o.toList := by
  rw [parse_originText hs hmarks]
  cases norm scheme ('/' :: '/' :: front) with
  | error fault => simp
  | ok origin =>
    constructor
    · rintro ⟨v, hv, -, horigin⟩
      cases hv
      rw [← Option.some.inj horigin, String.toList_ofList]
    · intro horigin
      refine ⟨_, rfl, rfl, congrArg some ?_⟩
      rw [Except.ok.inj horigin, String.ofList_toList]

end

/-- **The authority of an absolute URI has the same origin on its own exactly if what stands behind it
    does not count for the origin.** This holds for every way to normalise origins that keeps the rules. -/
theorem parse_authorityText_iff (hrules : Origin.Rules norm) {s o : String} {u : Uri}
    (h : parseBy norm s = .ok u) (ho : u.origin = some o) :
    (∃ v, parseBy norm (authorityText s) = .ok v ∧ v.segments = [] ∧ v.origin = some o) ↔
      ¬ PathCounts norm s := by
  obtain ⟨scheme, rest, hs, rfl, hq, hn⟩ := absolute_cases h ho
  rw [authorityText_originText hs]
  by_cases hslash : '/' ∈ rest
  · obtain ⟨front, back, rfl, hfront⟩ := List.eq_append_cons_of_mem hslash
    have hmarks := unmarked hfront
      ⟨fun hm => hq.1 (List.mem_append_left _ hm), fun hm => hq.2 (List.mem_append_left _ hm)⟩
    rw [Pattern.takeWhile_append_sign hfront, parse_originText_iff hs hmarks,
      pathCounts_iff hs hfront, hrules.front_iff hs hmarks hn]
  · -- the text is its own authority
    rw [List.takeWhile_eq_self_iff.mpr (Pattern.decide_ne_of_not_mem hslash),
      parse_originText_iff hs (unmarked hslash hq)]
    refine iff_of_true hn ?_
    rintro ⟨scheme', front, back, hs', -, htext, -⟩
    obtain ⟨-, rfl⟩ := (originText_inj hs hs').mp htext
    exact hslash (List.mem_append_right _ List.mem_cons_self)

/-- A host in capital letters, with its user and its port, is worked out without the path. -/
theorem parse_authorityText_site :
    ∃ u, parse "https://Me@EXAMPLE.org:443/a//b" = .ok u ∧
      u.origin = some "https://Me@example.org" ∧
      authorityText "https://Me@EXAMPLE.org:443/a//b" = "https://Me@EXAMPLE.org:443" ∧
      ∃ v, parse (authorityText "https://Me@EXAMPLE.org:443/a//b") = .ok v ∧ v.segments = [] ∧
        v.origin = some "https://Me@example.org" := by
  let u : Uri := ofParts (some "https://Me@example.org") [.literal "a", .literal "", .literal "b"]
  have hu : parse "https://Me@EXAMPLE.org:443/a//b" = .ok u := by decide +kernel
  refine ⟨u, hu, rfl, by decide +kernel,
    (parse_authorityText_iff Origin.rules_normalize hu rfl).mpr ?_⟩
  have hs : IsScheme ['h', 't', 't', 'p', 's'] :=
    ⟨'h', ['t', 't', 'p', 's'], rfl, rfl, List.all_eq_true.mp rfl⟩
  have htext : "https://Me@EXAMPLE.org:443/a//b"
      = originText ['h', 't', 't', 'p', 's'] ("Me@EXAMPLE.org:443".toList ++ '/' :: "a//b".toList) := by
    decide +kernel
  rw [htext, pathCounts_iff hs (by decide)]
  intro hborrows
  cases hborrows with
  | host _ hback => exact absurd (hback 'M' (by decide)) (by decide)
  | blank hk _ _ => cases hk
  | drive hk _ _ => cases hk

/-- A host that is named twice, one that a drive letter takes the place of, and one that ends in a
    control character. -/
theorem origin_from_path :
    (parse "https:///example.org/x"
        = .ok (ofParts (some "https://example.org") [.literal "example.org", .literal "x"]) ∧
      ¬ ∃ v, parse (authorityText "https:///example.org/x") = .ok v ∧ v.segments = [] ∧
        v.origin = some "https://example.org") ∧
    (parse "file://host/C:/x" = .ok (ofParts (some "file://") [.literal "C:", .literal "x"]) ∧
      parse (authorityText "file://host/C:/x") = .ok (ofParts (some "file://host") [])) ∧
    (parse "foo://h\x01/x" = .ok (ofParts (some "foo://h%01") [.literal "x"]) ∧
      parse (authorityText "foo://h\x01/x") = .ok (ofParts (some "foo://h") [])) := by
  have htwice : parse (authorityText "https:///example.org/x")
      = .error (.invalidPath (.origin "https://" .emptyHost)) := by
    decide +kernel
  refine ⟨⟨by decide +kernel, ?_⟩, ⟨by decide +kernel, by decide +kernel⟩,
    by decide +kernel, by decide +kernel⟩
  rintro ⟨v, hv, -⟩
  rw [htwice] at hv
  cases hv

end RouteTree.Uri
