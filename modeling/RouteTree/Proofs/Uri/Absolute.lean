import RouteTree.Proofs.Origin.Rules
import RouteTree.Proofs.Pattern.Grammar
import RouteTree.Proofs.Uri.RoundTrip

/-!
# Absolute patterns

An absolute pattern is an origin with a pattern behind it. Two things can go wrong where they meet:

* an authority ends at a slash, a question mark or a number sign, and a brace is a character of it. A
  pattern that starts with a brace is therefore read from its first slash on, and
  `parse_fromSlash_ne` says that this is never the pattern it was;
* the origin is normalised with the pattern behind it, and a drive letter in the pattern may take the
  place of the host of a `file` URI (`LosesHost`).

`parsePattern_append_iff` says that nothing else can go wrong, however origins are normalised, as long as
`Origin.Laws` and `Origin.Rules` are kept.
-/

namespace RouteTree

namespace Pattern

/-! ## 1. A pattern from its first slash on -/

/-- A template that is read behind a slash has its brace there. -/
theorem exists_templateGroup {text rest : List Char} {t : Template}
    (h : group ('/' :: text) = .ok (.param t, rest)) :
    ∃ inside, text = '{' :: inside ∧ templateGroup false inside = .ok (t, rest) := by
  unfold group at h
  split at h
  · cases h
  · cases h
  · rename_i inside _ htext
    obtain rfl := (List.cons.inj htext).2
    split at h
    · cases h
    · rename_i ht
      cases h
      exact ⟨inside, rfl, ht⟩
  · cases h
  · rename_i htext
    cases (List.cons.inj htext).1
  · cases h

/-- A pinned value is no longer than the body of its template. -/
theorem length_fixed_le {impliedSlash : Bool} {body : List Char} {t : Template}
    (h : template impliedSlash body = .ok t) :
    ∀ v, t.fixed = some v → v.toList.length ≤ body.length := by
  obtain ⟨modifier, declaration, name, fixed, hm, -, hcut, -, -, -, rfl⟩ := template_cases h
  intro v hv
  obtain ⟨w, rfl, rfl⟩ := Option.map_eq_some_iff.mp hv
  have hvalue : w.length ≤ declaration.length := by
    rw [(eq_of_nameAndValue hcut).2, declared, List.length_append, List.length_cons]
    omega
  have hbody : declaration.length ≤ body.length := by
    rcases modifierOf_cases hm with ⟨-, rfl⟩ | ⟨-, -, rfl⟩ | ⟨-, rfl, -⟩ <;> simp
  rw [String.toList_ofList]
  omega

/-- A template that is read behind a slash ends at the first closing brace, and its value is shorter
    than what stands in front of that brace. -/
theorem template_in_front {inside back rest : List Char} {t : Template} (hbrace : '}' ∉ inside)
    (h : group ('/' :: (inside ++ '}' :: back)) = .ok (.param t, rest)) :
    rest = back ∧ ∀ v, t.fixed = some v → v.toList.length < inside.length := by
  obtain ⟨body, htext, ht⟩ := exists_templateGroup h
  cases inside with
  | nil => cases htext
  | cons c inside =>
    obtain rfl : inside ++ '}' :: back = body := (List.cons.inj htext).2
    have hinside : '}' ∉ inside := fun hm => hbrace (List.mem_cons_of_mem c hm)
    rw [templateGroup_append hinside] at ht
    cases hbody : template false inside with
    | error fault =>
      rw [hbody] at ht
      cases ht
    | ok t' =>
      rw [hbody] at ht
      cases ht
      exact ⟨rfl, fun v hv => Nat.lt_succ_of_le (length_fixed_le hbody v hv)⟩

/-- A slash inside a template stands in its value. -/
theorem Declaration.exists_slash {d : Declaration} (h : '/' ∈ d.text) :
    ∃ v inside, d.value = some v ∧ d.text.dropWhile (· ≠ '/') = '/' :: inside ∧
      inside.length < v.toList.length := by
  have hname : '/' ∉ d.name.toList := fun hm => (d.name_plain '/' hm).1 rfl
  rw [Declaration.text] at h ⊢
  cases hv : d.value with
  | none =>
    rw [hv] at h
    exact absurd h hname
  | some v =>
    rw [hv] at h
    have hmem : '/' ∈ v.toList := by
      rcases List.mem_append.mp h with h | h
      · exact absurd h hname
      · exact (List.mem_cons.mp h).resolve_left (by decide)
    obtain ⟨front, inside, hcut, hfront⟩ := List.eq_append_cons_of_mem hmem
    have hsign : '/' ∉ d.name.toList ++ ':' :: front := by
      simp [hname, hfront]
    refine ⟨v, inside, rfl, ?_, ?_⟩
    · have hdrop := dropWhile_append_sign hsign inside
      rw [List.append_assoc, List.cons_append, ← hcut] at hdrop
      exact hdrop
    · rw [hcut, List.length_append, List.length_cons]
      omega

variable {gs : List Group} {d : Declaration} {t : Template} {more : List Segment}

/-- **What can be a template when a text is read from its first slash on**, if the text starts with a
    template in braces: one that stands behind this template, or the end of its value. -/
theorem implied_cases {modifier : Modifier} (hgs : Separate gs)
    (h : parseChars ((textOf (.implied modifier d :: gs)).dropWhile (· ≠ '/'))
      = .ok (.param t :: more)) :
    parseChars ((textOf gs).dropWhile (· ≠ '/')) = .ok (.param t :: more) ∨
      (t.fixed ≠ d.value ∧ more = gs.map Group.segment) := by
  cases modifier with
  | optional =>
    -- what is left starts with a slash and the name, and is no template
    have hleft : (textOf (.implied .optional d :: gs)).dropWhile (· ≠ '/')
        = '/' :: (d.text ++ '}' :: textOf gs) := by
      simp [Group.text, Modifier.symbol]
    rw [hleft] at h
    obtain ⟨s, rest, others, hg, -, hs⟩ := parseChars_cons h
    obtain ⟨rfl, -⟩ := List.cons.inj hs
    obtain ⟨inside, htext, -⟩ := exists_templateGroup hg
    obtain ⟨c, cs, tail, hname, hd⟩ := d.text_eq_cons
    rw [hd] at htext
    obtain rfl : c = '{' := (List.cons.inj htext).1
    exact absurd rfl (d.name_plain '{' (hname ▸ List.mem_cons_self)).2.1
  | catchAll =>
    have hleft : (textOf (.implied .catchAll d :: gs)).dropWhile (· ≠ '/')
        = (d.text ++ '}' :: textOf gs).dropWhile (· ≠ '/') := by
      simp [Group.text, Modifier.symbol]
    rw [hleft] at h
    by_cases hslash : '/' ∈ d.text
    · right
      obtain ⟨v, inside, hv, hdrop, hlen⟩ := Declaration.exists_slash hslash
      have hbrace : '}' ∉ inside := fun hm => d.brace_not_mem_text
        ((List.dropWhile_sublist _).subset (hdrop ▸ List.mem_cons_of_mem '/' hm))
      rw [List.dropWhile_append, hdrop] at h
      obtain ⟨s, rest, others, hg, hrest, hs⟩ := parseChars_cons h
      obtain ⟨rfl, rfl⟩ := List.cons.inj hs
      obtain ⟨rfl, hshort⟩ := template_in_front hbrace hg
      rw [parseChars_textOf_of_separate hgs] at hrest
      refine ⟨fun hfixed => ?_, (Except.ok.inj hrest).symm⟩
      have hlt := hshort v (hfixed.trans hv)
      omega
    · left
      rw [List.dropWhile_append_of_pos (decide_ne_of_not_mem hslash)] at h
      simpa using h

/-- If what is read of a text from its first slash on starts with a template, it has no more segments
    than the text has groups. -/
theorem length_lt_of_parseChars_dropWhile (hgs : Separate gs)
    (h : parseChars ((textOf gs).dropWhile (· ≠ '/')) = .ok (.param t :: more)) :
    more.length < gs.length := by
  induction gs with
  | nil =>
    have hnil : parseChars ((textOf []).dropWhile (· ≠ '/')) = .ok [] := by
      rw [textOf_nil, List.dropWhile_nil, parseChars]
    rw [hnil] at h
    cases h
  | cons g gs ih =>
    have hall : ∀ front : List Char, g.text = '/' :: front → more.length < (g :: gs).length := by
      intro front hfront
      have hdrop : (textOf (g :: gs)).dropWhile (· ≠ '/') = textOf (g :: gs) := by
        rw [textOf_cons, hfront]
        simp
      rw [hdrop, parseChars_textOf_of_separate hgs] at h
      have hread := congrArg List.length (Except.ok.inj h)
      simp only [List.length_map, List.length_cons] at hread ⊢
      omega
    cases g with
    | literal text plain => exact hall _ rfl
    | slashed plus d bare => cases plus <;> exact hall _ rfl
    | implied modifier d =>
      have hrest := (separate_cons.mp hgs).2
      rcases implied_cases hrest h with hbehind | ⟨-, rfl⟩
      · exact Nat.lt_succ_of_lt (ih hrest hbehind)
      · simp

/-- **A pattern that starts with a brace is another one from its first slash on**, if it is one there
    at all. -/
theorem parse_fromSlash_ne {p : String} {segments : List Segment} (hp : parse p = .ok segments)
    (hbrace : p.toList.head? = some '{') :
    parse (String.ofList (p.toList.dropWhile (· ≠ '/'))) ≠ .ok segments := by
  intro h
  obtain ⟨gs, hgs, htext, rfl⟩ := parseChars_eq_ok_iff.mp (parse_eq_ok_iff.mp hp)
  rw [parse_eq_ok_iff, String.toList_ofList, ← htext] at h
  rw [← htext] at hbrace
  obtain ⟨tail, htail⟩ := List.head?_eq_some_iff.mp hbrace
  obtain ⟨modifier, d, more, rfl⟩ := Group.eq_implied_of_textOf htail
  have hrest := (separate_cons.mp hgs).2
  rcases implied_cases hrest h with hbehind | ⟨hfixed, -⟩
  · have hlt := length_lt_of_parseChars_dropWhile hrest hbehind
    rw [List.length_map] at hlt
    exact Nat.lt_irrefl _ hlt
  · exact hfixed rfl

end Pattern

namespace Uri

open Origin (IsScheme IsRooted IsPath HasDriveMark kindOf)

variable {norm : Origin.Normalizer}

/-! ## 2. Origins in front of patterns -/

/-- The text is the origin of a URI that was read. -/
def IsOrigin (norm : Origin.Normalizer) (o : String) : Prop :=
  ∃ input u, parseBy norm input = .ok u ∧ u.origin = some o

/-- An origin as it is written: a scheme and an authority. -/
def originText (scheme a : List Char) : String := String.ofList (scheme ++ ':' :: '/' :: '/' :: a)

/-- Behind this origin the pattern has a say in it: the origin is that of a file, there is a mark of a drive
    letter in the pattern, and what the two are read as together has another origin. -/
def LosesHost (norm : Origin.Normalizer) (o p : String) : Prop :=
  ∃ scheme a, IsScheme scheme ∧ kindOf scheme = .file ∧ o = originText scheme a ∧
    HasDriveMark (a ++ p.toList) ∧ norm scheme ('/' :: '/' :: (a ++ p.toList)) ≠ .ok o.toList

theorem toList_originText (scheme a : List Char) :
    (originText scheme a).toList = scheme ++ ':' :: '/' :: '/' :: a := String.toList_ofList

theorem originText_append (scheme a : List Char) (p : String) :
    originText scheme a ++ p = originText scheme (a ++ p.toList) := by
  rw [originText, originText, ← String.toList_inj]
  simp

theorem originText_inj {scheme scheme' a a' : List Char} (hs : IsScheme scheme)
    (hs' : IsScheme scheme') :
    originText scheme a = originText scheme' a' ↔ scheme = scheme' ∧ a = a' := by
  constructor
  · intro h
    have htext : scheme ++ ':' :: '/' :: '/' :: a = scheme' ++ ':' :: '/' :: '/' :: a' := by
      simpa [originText] using congrArg String.toList h
    have hsplit := congrArg splitScheme? htext
    rw [splitScheme?_append hs, splitScheme?_append hs'] at hsplit
    simpa using hsplit
  · rintro ⟨rfl, rfl⟩
    rfl

/-- An authority as the laws leave it: it is found again in front of any encoded path. -/
structure Settled (norm : Origin.Normalizer) (scheme a : List Char) : Prop where
  isScheme : IsScheme scheme
  unmarked : ∀ c ∈ a, c ∉ ['/', '?', '#']
  again : ∀ path, IsPath path →
    norm scheme ('/' :: '/' :: (a ++ path)) = .ok (originText scheme a).toList

/-- **Every origin is a settled one.** -/
theorem IsOrigin.settled (hlaws : Origin.Laws norm) {o : String} (h : IsOrigin norm o) :
    ∃ scheme a, Settled norm scheme a ∧ o = originText scheme a := by
  obtain ⟨input, u, hu, ho⟩ := h
  obtain ⟨origin, path, hsplit, rfl⟩ := parse_cases hu
  obtain rfl : origin = some o := ho
  rcases splitOriginBy_cases hsplit with hnone | ⟨scheme, rest, text, hs, hn, hsome, -⟩
  · cases hnone
  · obtain ⟨s, a, rfl, hs', ha, hagain⟩ := hlaws (isScheme_of_split hs) hn
    refine ⟨s, a, ⟨hs', ha, fun path hp => ?_⟩, Option.some.inj hsome⟩
    rw [toList_originText, hagain path hp]

/-- **An origin stays as it is in front of a path**, unless it is that of a file and there is a mark of a
    drive letter in the path. -/
theorem Settled.norm_behind {scheme a : List Char} (h : Settled norm scheme a)
    (hrules : Origin.Rules norm) {path : List Char} (hp : IsRooted path)
    (hfile : kindOf scheme = .file → ¬ HasDriveMark (a ++ path)) :
    norm scheme ('/' :: '/' :: (a ++ path)) = .ok (originText scheme a).toList := by
  have hempty : IsPath [] := ⟨Or.inl rfl, .nil⟩
  have hslash : IsPath ['/'] := ⟨Or.inr ⟨[], rfl⟩, .mark (Or.inl rfl) .nil⟩
  rcases hp with rfl | ⟨rest, rfl⟩
  · exact h.again [] hempty
  · have hbare : ∀ port, kindOf scheme = .web port → Origin.core (kindOf scheme) a ≠ [] := by
      intro port hk hnil
      have halone := h.again [] hempty
      rw [List.append_nil] at halone
      exact hrules.norm_ne_ok_of_bare h.isScheme hk (hk ▸ hnil) _ halone
    have hend : kindOf scheme = .file → ¬ HasDriveMark (a ++ ['/']) := fun hk hmark => by
      have hmore := hmark.append rest
      rw [List.append_assoc] at hmore
      exact hfile hk hmore
    rw [hrules.behind h.isScheme h.unmarked hbare hfile,
      ← hrules.behind h.isScheme h.unmarked hbare hend]
    exact h.again ['/'] hslash

theorem losesHost_iff {scheme a : List Char} (h : Settled norm scheme a) (hrules : Origin.Rules norm)
    {p : String} (hp : IsRooted p.toList) : LosesHost norm (originText scheme a) p
      ↔ norm scheme ('/' :: '/' :: (a ++ p.toList)) ≠ .ok (originText scheme a).toList := by
  constructor
  · rintro ⟨scheme', a', hs', -, ho, -, hne⟩
    obtain ⟨rfl, rfl⟩ := (originText_inj h.isScheme hs').mp ho
    exact hne
  · intro hne
    by_contra hkeep
    refine hne (h.norm_behind hrules hp fun hk hmark => hkeep ?_)
    exact ⟨scheme, a, h.isScheme, hk, rfl, hmark, hne⟩

/-! ## 3. Absolute patterns -/

section
variable {scheme a : List Char} {p : String} {segments : List Segment}

/-- A pattern behind an origin, if it does not start with a brace, is read as this pattern behind the
    origin that the two have together. -/
theorem parsePattern_behind (h : Settled norm scheme a) (hrooted : IsRooted p.toList)
    (hq : '?' ∉ p.toList ∧ '#' ∉ p.toList) (hp : Pattern.parse p = .ok segments) (o : String) :
    parsePatternBy norm (originText scheme a ++ p) = .ok (ofParts (some o) segments)
      ↔ norm scheme ('/' :: '/' :: (a ++ p.toList)) = .ok o.toList := by
  rw [originText_append]
  constructor
  · intro hread
    obtain ⟨origin, path, read, hsplit, -, hu⟩ := parsePattern_cases hread
    obtain rfl : some o = origin := congrArg Uri.origin hu
    rw [originText, splitOriginBy_scheme h.isScheme (not_mem_behind h.unmarked hq)] at hsplit
    split at hsplit
    · cases hsplit
    · rename_i text hn
      cases hsplit
      rw [hn, String.toList_ofList]
  · intro hn
    have hsplit : splitOriginBy norm (originText scheme (a ++ p.toList)) = .ok (some o, p.toList) := by
      rw [originText, splitOriginBy_written h.isScheme h.unmarked hrooted hq hn, String.ofList_toList]
    exact parsePattern_of_split hsplit (by rw [String.ofList_toList, hp])

/-- Where neither query nor fragment starts, the path starts at the first slash. -/
theorem dropWhile_startsPath {text : List Char} (hq : '?' ∉ text ∧ '#' ∉ text) :
    text.dropWhile (!startsPath ·) = text.dropWhile (· ≠ '/') := by
  induction text with
  | nil => rfl
  | cons c text ih =>
    have hc : c ≠ '?' ∧ c ≠ '#' :=
      ⟨fun h => hq.1 (h ▸ List.mem_cons_self), fun h => hq.2 (h ▸ List.mem_cons_self)⟩
    have hrest : '?' ∉ text ∧ '#' ∉ text :=
      ⟨fun h => hq.1 (List.mem_cons_of_mem c h), fun h => hq.2 (List.mem_cons_of_mem c h)⟩
    have hstart : startsPath c = decide (c = '/') := by simp [startsPath, hc]
    rw [List.dropWhile_cons, List.dropWhile_cons, hstart, ih hrest, decide_not]

/-- The path of an absolute pattern is its text from the first slash on, the two behind the scheme not
    counted. -/
theorem path_of_splitOrigin {text path : List Char} {origin : Option String} (hs : IsScheme scheme)
    (hq : '?' ∉ text ∧ '#' ∉ text)
    (h : splitOriginBy norm (originText scheme text) = .ok (origin, path)) :
    path = text.dropWhile (· ≠ '/') := by
  rw [originText, splitOriginBy_scheme hs hq] at h
  split at h
  · cases h
  · cases h
    exact dropWhile_startsPath hq

/-- A pattern that starts with a brace is not read behind an origin, whatever origin is found there. -/
theorem parsePattern_brace_ne (h : Settled norm scheme a) (hbrace : p.toList.head? = some '{')
    (hq : '?' ∉ p.toList ∧ '#' ∉ p.toList) (hp : Pattern.parse p = .ok segments)
    (origin : Option String) :
    parsePatternBy norm (originText scheme a ++ p) ≠ .ok (ofParts origin segments) := by
  intro hread
  have hslash : ∀ c ∈ a, decide (c ≠ '/') = true := fun c hc =>
    decide_eq_true fun he => h.unmarked c hc (he ▸ List.mem_cons_self)
  rw [originText_append] at hread
  obtain ⟨found, path, read, hsplit, hpath, hu⟩ := parsePattern_cases hread
  obtain rfl : segments = read := congrArg Uri.segments hu
  rw [path_of_splitOrigin h.isScheme (not_mem_behind h.unmarked hq) hsplit,
    List.dropWhile_append_of_pos hslash] at hpath
  exact Pattern.parse_fromSlash_ne hp hbrace hpath

end

/-- A pattern starts with a slash or a brace, if it is not empty. -/
theorem isRooted_or_brace {p : String} {segments : List Segment} (hp : Pattern.parse p = .ok segments) :
    IsRooted p.toList ∨ p.toList.head? = some '{' := by
  have hread := Pattern.parseChars_of_parse hp
  cases htext : p.toList with
  | nil => exact Or.inl (Or.inl rfl)
  | cons c cs =>
    rw [htext] at hread
    rcases Pattern.head_of_parseChars hread with rfl | rfl
    · exact Or.inl (Or.inr ⟨cs, rfl⟩)
    · exact Or.inr rfl

/-- **An origin and a pattern behind it are read as these two exactly if the pattern does not start with
    a brace and the origin does not lose its host to it.** This holds for every way to normalise origins
    that keeps the laws and the rules. -/
theorem parsePattern_append_iff (hlaws : Origin.Laws norm) (hrules : Origin.Rules norm) {o p : String}
    {segments : List Segment} (ho : IsOrigin norm o) (hq : '?' ∉ p.toList ∧ '#' ∉ p.toList)
    (hp : Pattern.parse p = .ok segments) :
    parsePatternBy norm (o ++ p) = .ok (ofParts (some o) segments) ↔
      p.toList.head? ≠ some '{' ∧ ¬ LosesHost norm o p := by
  obtain ⟨scheme, a, hsettled, rfl⟩ := ho.settled hlaws
  rcases isRooted_or_brace hp with hrooted | hbrace
  · have hhead : p.toList.head? ≠ some '{' := by
      rcases hrooted with hnil | ⟨rest, hrest⟩
      · simp [hnil]
      · simp [hrest]
    rw [parsePattern_behind hsettled hrooted hq hp, losesHost_iff hsettled hrules hrooted, not_not,
      and_iff_right hhead]
  · refine ⟨fun h => ?_, fun h => absurd hbrace h.1⟩
    exact absurd h (parsePattern_brace_ne hsettled hbrace hq hp _)

/-- Behind the host of a web site a drive letter is read like any other text, behind that of a `file`
    URI it is not. -/
theorem parsePattern_append_site :
    parsePattern ("https://example.org" ++ "/C:{/lang}")
      = .ok (ofParts (some "https://example.org")
          [.literal "C:", .param ⟨"lang", some .optional, none⟩]) ∧
    parsePattern ("file://host" ++ "/C:/x")
      ≠ .ok (ofParts (some "file://host") [.literal "C:", .literal "x"]) := by
  have hweb : parse "https://example.org" = .ok (ofParts (some "https://example.org") []) := by
    decide +kernel
  have hfile : parse "file://host" = .ok (ofParts (some "file://host") []) := by
    decide +kernel
  have hdrive : Pattern.parse "/C:{/lang}"
      = .ok [.literal "C:", .param ⟨"lang", some .optional, none⟩] := by
    decide +kernel
  have hpath : Pattern.parse "/C:/x" = .ok [.literal "C:", .literal "x"] := by
    decide +kernel
  have hscheme : IsScheme ['f', 'i', 'l', 'e'] :=
    ⟨'f', ['i', 'l', 'e'], rfl, rfl, List.all_eq_true.mp rfl⟩
  have hsite : IsScheme ['h', 't', 't', 'p', 's'] :=
    ⟨'h', ['t', 't', 'p', 's'], rfl, rfl, List.all_eq_true.mp rfl⟩
  refine ⟨?_, fun h => ?_⟩
  · refine (parsePattern_append_iff Origin.laws_normalize Origin.rules_normalize ⟨_, _, hweb, rfl⟩
      (by decide) hdrive).mpr ⟨by decide, ?_⟩
    rintro ⟨scheme, a, hs, hk, ho, -⟩
    have hwritten : "https://example.org"
        = originText ['h', 't', 't', 'p', 's'] "example.org".toList := by
      decide +kernel
    obtain ⟨rfl, -⟩ := (originText_inj hsite hs).mp (hwritten.symm.trans ho)
    cases hk
  · refine ((parsePattern_append_iff Origin.laws_normalize Origin.rules_normalize
      ⟨_, _, hfile, rfl⟩ (by decide) hpath).mp h).2 ?_
    exact ⟨['f', 'i', 'l', 'e'], "host".toList, hscheme, rfl, by decide +kernel,
      ⟨':', by decide +kernel, Or.inl rfl⟩, by decide +kernel⟩

/-- A brace that opens a pattern is taken for a character of the host in front of it. -/
theorem parsePattern_brace_in_host :
    IsOrigin Origin.normalize "https://example.org" ∧
    Pattern.parse "{/lang}/x" = .ok [.param ⟨"lang", some .optional, none⟩, .literal "x"] ∧
    parsePattern ("https://example.org" ++ "{/lang}/x")
      = .ok (ofParts (some "https://example.org\x7b") [.literal "lang\x7d", .literal "x"]) ∧
    parsePattern ("https://example.org" ++ "{/lang}/x")
      ≠ .ok (ofParts (some "https://example.org")
          [.param ⟨"lang", some .optional, none⟩, .literal "x"]) := by
  have hu : parse "https://example.org" = .ok (ofParts (some "https://example.org") []) := by
    decide +kernel
  have hlang : Pattern.parse "{/lang}/x"
      = .ok [.param ⟨"lang", some .optional, none⟩, .literal "x"] := by
    decide +kernel
  have hread : parsePattern ("https://example.org" ++ "{/lang}/x")
      = .ok (ofParts (some "https://example.org\x7b") [.literal "lang\x7d", .literal "x"]) := by
    decide +kernel
  refine ⟨⟨_, _, hu, rfl⟩, hlang, hread, ?_⟩
  rw [hread]
  decide +kernel

end Uri

end RouteTree
