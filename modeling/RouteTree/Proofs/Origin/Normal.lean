import RouteTree.Proofs.Origin.Authority
import RouteTree.Proofs.Origin.Rules

/-!
# Origins in normal form

What stands before the path of an absolute URI is written in normal form, and is then in normal form
whatever encoded path is written behind it:

* `isPathChar_of_encoded` and `plain_of_isPathChar` say what stands in an encoded path;
* `Settled` is an authority in normal form: `settled_of_inAuthority` finds it in what has been worked
  out of a text, and `normalize_settled` normalises it again with a path written behind it;
* `laws_normalize` draws the conclusion.
-/

namespace RouteTree.Origin

open Text.Percent (isUnreserved isHex)

/-! ## 1. Encoded paths -/

/-- A character of an encoded text. -/
def isPathChar (c : Char) : Bool := c = '/' || c = '%' || isUnreserved c

theorem isAlphanum_of_isHex {c : Char} (h : isHex c = true) : c.isAlphanum = true := by
  unfold isHex Text.Percent.hexValue? at h
  split at h
  · rename_i hdigit
    exact Bool.or_eq_true_iff.mpr (Or.inr hdigit)
  · split at h
    · rename_i hlower
      have hle : c.val ≤ 122 := UInt32.le_trans hlower.2 (by decide)
      have halpha : c.isAlpha = true :=
        Bool.or_eq_true_iff.mpr (Or.inr (Bool.and_eq_true_iff.mpr
          ⟨decide_eq_true hlower.1, decide_eq_true hle⟩))
      exact Bool.or_eq_true_iff.mpr (Or.inl halpha)
    · split at h
      · rename_i hupper
        have hle : c.val ≤ 90 := UInt32.le_trans hupper.2 (by decide)
        have halpha : c.isAlpha = true :=
          Bool.or_eq_true_iff.mpr (Or.inl (decide_eq_true ⟨hupper.1, hle⟩))
        exact Bool.or_eq_true_iff.mpr (Or.inl halpha)
      · cases h

theorem isPathChar_of_encoded {path : List Char} (h : IsEncoded path) :
    ∀ c ∈ path, isPathChar c = true := by
  have hunreserved : ∀ c, isUnreserved c = true → isPathChar c = true := fun c hc => by
    rw [isPathChar, hc, Bool.or_true]
  have hhex : ∀ c, isHex c = true → isPathChar c = true := fun c hc =>
    hunreserved c (by rw [isUnreserved, isAlphanum_of_isHex hc, Bool.true_or])
  induction h with
  | nil => exact fun c hc => nomatch hc
  | @mark c rest hmark _ ih =>
    intro d hd
    rcases List.mem_cons.mp hd with rfl | hd
    · rcases hmark with rfl | hc
      · rfl
      · exact hunreserved d hc
    · exact ih d hd
  | @escape hi lo rest hhi hlo _ ih =>
    intro d hd
    simp only [List.mem_cons] at hd
    rcases hd with rfl | rfl | rfl | hd
    · rfl
    · exact hhex d hhi
    · exact hhex d hlo
    · exact ih d hd

/-- No blank, no colon, no bar and nothing that ends a path stands in a path. -/
theorem plain_of_isPathChar {c : Char} (h : isPathChar c = true) :
    0x20 < c.toNat ∧ c ∉ [':', '|', '?', '#', '\\'] := by
  have hascii : ∀ c, isPathChar c = true → c.toNat < 128 := fun c hc => by
    simp only [isPathChar, isUnreserved, Bool.or_eq_true, decide_eq_true_eq] at hc
    rcases hc with (rfl | rfl) | halpha | hmark
    · decide
    · decide
    · exact ascii_of_isAlphanum c halpha
    · have hmarks : Text.Percent.unreservedMarks.all (fun m => m.toNat < 128) = true := by decide
      exact of_decide_eq_true (List.all_eq_true.mp hmarks c (List.contains_iff_mem.mp hmark))
  exact of_ascii (q := fun c => 0x20 < c.toNat ∧ c ∉ [':', '|', '?', '#', '\\']) hascii
    (by decide +kernel) h

/-! ## 2. Authorities in normal form -/

theorem ne_of_isOriginChar {c : Char} (h : isOriginChar c = true) :
    c ≠ '/' ∧ c ≠ '?' ∧ c ≠ '#' ∧ c ≠ '\\' := by
  have hmarks := (Bool.and_eq_true_iff.mp h).2
  simpa [originStops] using hmarks

theorem lt_of_isOriginChar {c : Char} (h : isOriginChar c = true) : 0x20 < c.toNat :=
  of_decide_eq_true (Bool.and_eq_true_iff.mp h).1

section
variable {kind : SchemeKind} {a : List Char} (h : ∀ c ∈ a, isOriginChar c = true)
include h

/-- The authority ends behind all of it. -/
theorem endsAuthority_eq_false : ∀ c ∈ a, kind.endsAuthority c = false := by
  intro c hc
  obtain ⟨h1, h2, h3, h4⟩ := ne_of_isOriginChar (h c hc)
  simp [SchemeKind.endsAuthority, h1, h2, h3, h4]

theorem dropTabs_eq_self : dropTabs a = a :=
  List.filter_eq_self.mpr fun c hc => by rw [isTabOrBreak_of_lt (lt_of_isOriginChar (h c hc))]; rfl

theorem not_endsInBlank : ¬ EndsInBlank a := by
  rintro ⟨c, hc, hle⟩
  exact Nat.not_le.mpr (lt_of_isOriginChar (h c (List.mem_of_getLast? hc))) hle

end

/-- An authority that a scheme of this kind leaves as it is. -/
structure Settled (kind : SchemeKind) (a : List Char) : Prop where
  isOriginChar : ∀ c ∈ a, isOriginChar c = true
  ne_nil : ∀ port, kind = .web port → a ≠ []
  again : inAuthority kind (a ++ ['/']) = .ok a

/-! ## 3. What has been normalised -/

theorem settled_of_authority {kind : SchemeKind} (hk : kind ≠ .file) {text a : List Char} {more : Bool}
    (h : authority kind text more = .ok a) : Settled kind a := by
  have hchars := isOriginChar_of_authority h
  have hne : ∀ port, kind = .web port → a ≠ [] := by
    rintro port rfl
    exact authority_ne_nil rfl h
  refine ⟨hchars, hne, ?_⟩
  have hself := dropTabs_eq_self hchars
  rw [inAuthority_ends hk (endsAuthority_eq_false hchars) (by rwa [hself]) rfl, hself,
    authority_again h]

/-- A host is no drive letter. -/
theorem isDriveLetter_render {h : Host} (hw : Host.OfWeb h) : isDriveLetter h.render = false := by
  have hdomain : ∀ {text : List Char}, Host.IsDomain text → isDriveLetter text = false := by
    intro text ht
    refine isDriveLetter_eq_false ⟨fun hm => ?_, fun hm => ?_⟩
    · have := (ht _ hm).1
      revert this
      decide
    · have := (ht _ hm).1
      revert this
      decide
  cases hw with
  | @ipv6 groups _ =>
    show isDriveLetter ('[' :: (Ipv6.render groups ++ [']'])) = false
    unfold isDriveLetter
    split
    · rename_i letter mark heq
      rw [← (List.cons.inj heq).1]
      rfl
    · rfl
  | ipv4 _ => exact hdomain (Host.isDomain_ipv4 _)
  | name _ ht _ => exact hdomain ht

theorem writtenHost_render {h : Host} (hw : Host.OfWeb h) (hlocal : h ≠ .name localhost) :
    writtenHost h.render = .ok h.render := by
  have hsome : ¬ (h.render = [] ∨ isDriveLetter h.render = true) := by
    rintro (hnil | hdrive)
    · exact hw.render_ne_nil hnil
    · rw [isDriveLetter_render hw] at hdrive
      cases hdrive
  rw [writtenHost, if_neg hsome, hw.again]
  dsimp only [Except.map]
  rw [if_neg hlocal]

/-- A `file` URI has no host, or one that is written in it. -/
theorem fileHost_cases {text a : List Char} (h : fileHost text = .ok a) :
    a = [] ∨ ∃ host, Host.OfWeb host ∧ host ≠ .name localhost ∧ a = host.render := by
  unfold fileHost at h
  dsimp only at h
  split at h
  · cases h
    exact Or.inl rfl
  · obtain ⟨host, hh, h⟩ := Attempt.ok_of_bind h
    split at h
    · cases h
      exact Or.inl rfl
    · rename_i hlocal
      split at h
      · cases h
        exact Or.inl rfl
      · cases h
        exact Or.inr ⟨host, Host.ofWeb_of_read hh, hlocal, rfl⟩

theorem settled_of_fileHost {text a : List Char} (h : fileHost text = .ok a) : Settled .file a := by
  obtain ⟨hchars, hwritten⟩ : (∀ c ∈ a, isOriginChar c = true) ∧ writtenHost a = .ok a := by
    rcases fileHost_cases h with rfl | ⟨host, hw, hlocal, rfl⟩
    · exact ⟨List.forall_mem_nil _, rfl⟩
    · have hk : Host.Of .file host := hw
      exact ⟨fun c hc => (Bool.and_eq_true_iff.mp (hk.isHostChar c hc)).1, writtenHost_render hw hlocal⟩
  refine ⟨hchars, nofun, ?_⟩
  rw [inAuthority_file_ends (endsAuthority_eq_false hchars) rfl ⟨List.not_mem_nil, List.not_mem_nil⟩,
    dropTabs_eq_self hchars, hwritten]

/-- **What has been normalised is settled.** -/
theorem settled_of_inAuthority {kind : SchemeKind} {text a : List Char}
    (h : inAuthority kind text = .ok a) : Settled kind a := by
  by_cases hk : kind = .file
  · subst hk
    exact settled_of_fileHost h
  · rw [inAuthority_of_ne_file hk, cutAuthority] at h
    exact settled_of_authority hk h

/-! ## 4. Normalising again -/

/-- **What is settled is left as it is**, whatever path is written behind it. -/
theorem normalize_settled {scheme a path : List Char} (hlow : scheme.map Char.toLower = scheme)
    (ha : Settled (kindOf scheme) a) (hp : IsPath path) :
    normalize scheme ('/' :: '/' :: (a ++ path)) = .ok (scheme ++ ':' :: '/' :: '/' :: a) := by
  have hin : ∀ c ∈ a, (kindOf scheme).endsAuthority c = false := endsAuthority_eq_false ha.isOriginChar
  have hslash : normalize scheme ('/' :: '/' :: (a ++ ['/'])) = .ok (scheme ++ ':' :: '/' :: '/' :: a) := by
    rw [normalize_slashes, ha.again, hlow]
    rfl
  rcases hp.1 with rfl | ⟨rest, rfl⟩
  · rw [List.append_nil]
    exact normalize_alone hin (fun _ => not_endsInBlank ha.isOriginChar) hslash
  · have hmarks : ∀ c ∈ rest, c ∉ [':', '|', '?', '#', '\\'] := fun c hc =>
      (plain_of_isPathChar (isPathChar_of_encoded hp.2 c (List.mem_cons_of_mem '/' hc))).2
    have hne : ∀ port, kindOf scheme = .web port → dropTabs a ≠ [] := by
      rw [dropTabs_eq_self ha.isOriginChar]
      exact ha.ne_nil
    rw [normalize_ends hin hne rfl fun _ =>
      ⟨fun hm => hmarks _ hm (by simp), fun hm => hmarks _ hm (by simp)⟩, hslash]

theorem isScheme_lower {scheme : List Char} (h : IsScheme scheme) :
    IsScheme (scheme.map Char.toLower) ∧
      (scheme.map Char.toLower).map Char.toLower = scheme.map Char.toLower := by
  have hascii : ∀ c, isSchemeChar c = true → c.toNat < 128 := fun c hc => by
    simp only [isSchemeChar, Bool.or_eq_true, decide_eq_true_eq] at hc
    rcases hc with ((halpha | rfl) | rfl) | rfl
    · exact ascii_of_isAlphanum c halpha
    all_goals decide
  have hlower : ∀ c, isSchemeChar c = true → isSchemeChar c.toLower = true ∧
      c.toLower.toLower = c.toLower ∧ (c.isAlpha = true → c.toLower.isAlpha = true) := fun c hc =>
    of_ascii (q := fun c => isSchemeChar c.toLower = true ∧ c.toLower.toLower = c.toLower ∧
      (c.isAlpha = true → c.toLower.isAlpha = true)) hascii (by decide +kernel) hc
  obtain ⟨c, rest, rfl, hc, hrest⟩ := h
  have hfirst : isSchemeChar c = true := by simp [isSchemeChar, Char.isAlphanum, hc]
  refine ⟨⟨c.toLower, rest.map Char.toLower, rfl, (hlower c hfirst).2.2 hc, fun d hd => ?_⟩, ?_⟩
  · obtain ⟨e, he, rfl⟩ := List.mem_map.mp hd
    exact (hlower e (hrest e he)).1
  · rw [List.map_map]
    refine List.map_congr_left fun d hd => ?_
    rcases List.mem_cons.mp hd with rfl | hd
    · exact (hlower d hfirst).2.1
    · exact (hlower d (hrest d hd)).2.1

/-- **The way origins are normalised here keeps the laws.** -/
theorem laws_normalize : Laws normalize := by
  intro scheme authority origin hs h
  rw [normalize_slashes] at h
  obtain ⟨a, ha, rfl⟩ := Attempt.ok_of_map h
  obtain ⟨hscheme, hlow⟩ := isScheme_lower hs
  have hkind : kindOf (scheme.map Char.toLower) = kindOf scheme := by
    rw [kindOf, kindOf, hlow]
  have hsettled := settled_of_inAuthority ha
  refine ⟨_, a, rfl, hscheme, fun c hc hmark => ?_, fun path hp =>
    normalize_settled hlow (hkind ▸ hsettled) hp⟩
  obtain ⟨h1, h2, h3, -⟩ := ne_of_isOriginChar (hsettled.isOriginChar c hc)
  simp [h1, h2, h3] at hmark

end RouteTree.Origin
