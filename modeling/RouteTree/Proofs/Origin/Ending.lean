import Mathlib.Data.List.DropRight
import RouteTree.Proofs.Origin.Authority
import RouteTree.Proofs.Origin.Laws
import RouteTree.Proofs.Text.Runs

/-!
# The end of an authority

Blanks and control characters at the end of an input do not count, but in front of a path they do. This
file says when it makes no difference whether an authority ends its input:

* `trimEnd_concat` and `dropTabs_trimEnd` are how a text is trimmed;
* `trimEnd_of_ofWeb`: no host of the web ends in a blank;
* `splitUserinfo_trimEnd` and `splitPort_colon` cut a trimmed authority into its parts;
* `authority_trimEnd` puts them together: the trimmed authority has the same normal form, unless it
  is one of another scheme and ends in a blank.
-/

namespace RouteTree

/-! ## 1. Trimming -/

namespace Origin

theorem trimEnd_eq_rdropWhile (text : List Char) :
    trimEnd text = text.rdropWhile (·.toNat ≤ 0x20) := rfl

theorem trimEnd_concat (text : List Char) (c : Char) :
    trimEnd (text ++ [c]) = if c.toNat ≤ 0x20 then trimEnd text else text ++ [c] := by
  rw [trimEnd_eq_rdropWhile, trimEnd_eq_rdropWhile, List.rdropWhile_concat]
  simp only [decide_eq_true_eq]

theorem isPrefix_trimEnd (text : List Char) : trimEnd text <+: text := List.rdropWhile_prefix _ _

/-- A text is trimmed behind a character that is no blank. -/
theorem trimEnd_append_cons {c : Char} (hc : 0x20 < c.toNat) (front back : List Char) :
    trimEnd (front ++ c :: back) = front ++ c :: trimEnd back := by
  induction back using List.reverseRecOn with
  | nil =>
    rw [trimEnd_concat, if_neg (Nat.not_le.mpr hc)]
    rfl
  | append_singleton back d ih =>
    rw [← List.cons_append, ← List.append_assoc, trimEnd_concat, trimEnd_concat, ih]
    split
    · rfl
    · simp

theorem trimEnd_cons {c : Char} (hc : 0x20 < c.toNat) (text : List Char) :
    trimEnd (c :: text) = c :: trimEnd text := trimEnd_append_cons hc [] text

/-- A text that is trimmed ends in a blank. -/
theorem exists_concat_of_trimEnd_ne {text : List Char} (h : trimEnd text ≠ text) :
    ∃ front c, text = front ++ [c] ∧ c.toNat ≤ 0x20 := by
  rcases List.eq_nil_or_concat text with rfl | ⟨front, c, rfl⟩
  · exact absurd rfl h
  · rw [List.concat_eq_append] at h ⊢
    by_cases hc : c.toNat ≤ 0x20
    · exact ⟨front, c, rfl, hc⟩
    · exact absurd (by rw [trimEnd_concat, if_neg hc]) h

theorem trimEnd_of_not_endsInBlank {text : List Char} (h : ¬ EndsInBlank text) :
    trimEnd text = text := by
  by_contra hne
  obtain ⟨front, c, rfl, hc⟩ := exists_concat_of_trimEnd_ne hne
  exact h ⟨c, List.getLast?_concat, hc⟩

theorem blank_of_isTabOrBreak {c : Char} (h : isTabOrBreak c = true) : c.toNat ≤ 0x20 := by
  simp only [isTabOrBreak, Bool.or_eq_true, decide_eq_true_eq] at h
  rcases h with (rfl | rfl) | rfl <;> decide

theorem isTabOrBreak_of_lt {c : Char} (h : 0x20 < c.toNat) : isTabOrBreak c = false :=
  Bool.eq_false_iff.mpr fun ht => Nat.not_le.mpr h (blank_of_isTabOrBreak ht)

/-- It does not matter whether a text is trimmed before or after its tabs are dropped. -/
theorem dropTabs_trimEnd (text : List Char) : dropTabs (trimEnd text) = trimEnd (dropTabs text) := by
  induction text using List.reverseRecOn with
  | nil => rfl
  | append_singleton text c ih =>
    rw [trimEnd_concat, dropTabs_append]
    by_cases ht : isTabOrBreak c = true
    · have hnone : dropTabs [c] = [] := by simp [dropTabs, ht]
      rw [if_pos (blank_of_isTabOrBreak ht), hnone, List.append_nil, ih]
    · have hone : dropTabs [c] = [c] := dropTabs_cons (Bool.eq_false_iff.mpr ht) []
      rw [hone, trimEnd_concat]
      split
      · exact ih
      · rw [dropTabs_append, hone]

end Origin

/-! ## 2. Hosts -/

namespace Text.Percent

/-- A character that is part of no escape is a piece of its own at the end of a text. -/
theorem pieces_concat {c : Char} (hc : c ≠ '%') (hhex : isHex c = false) (text : List Char) :
    pieces (text ++ [c]) = pieces text ++ [.plain c] := by
  have hlast : pieces [c] = [.plain c] := pieces_plain hc []
  fun_induction pieces text with
  | case1 => exact hlast
  | case2 hi lo tail hd ih =>
    have hstep : pieces ('%' :: hi :: lo :: (tail ++ [c]))
        = .escape hi lo :: pieces (tail ++ [c]) := by
      rw [pieces.eq_def]
      simp only [if_true, if_pos hd]
    rw [List.cons_append, List.cons_append, List.cons_append, hstep, ih]
    rfl
  | case3 hi lo tail hd ih =>
    have hstep : pieces ('%' :: hi :: lo :: (tail ++ [c]))
        = .plain '%' :: pieces (hi :: lo :: tail ++ [c]) := by
      rw [pieces.eq_def]
      simp only [if_true, if_neg hd]
      rfl
    rw [List.cons_append, List.cons_append, List.cons_append, hstep, ih]
    rfl
  | case4 hi ih =>
    have hstep : pieces ['%', hi, c] = .plain '%' :: pieces ([hi] ++ [c]) := by
      rw [pieces.eq_def]
      simp [hhex]
    rw [List.cons_append, List.cons_append, List.nil_append, hstep, ih]
    rfl
  | case5 =>
    have hstep : pieces ['%', c] = .plain '%' :: pieces [c] := by rw [pieces.eq_def]; rfl
    rw [List.cons_append, List.nil_append, hstep, hlast]
    rfl
  | case6 d rest hd ih =>
    rw [List.cons_append, pieces_plain hd, ih]
    rfl

end Text.Percent

namespace Origin

namespace Host

variable {c : Char}

theorem not_mark_of_blank (h : c.toNat ≤ 0x20) :
    c ≠ '%' ∧ c ≠ ']' ∧ Text.Percent.isHex c = false ∧ isDomainChar c = false := by
  have hascii : ∀ c : Char, decide (c.toNat ≤ 0x20) = true → c.toNat < 128 := fun c hc => by
    have := of_decide_eq_true hc
    omega
  exact of_ascii (q := fun c => c ≠ '%' ∧ c ≠ ']' ∧ Text.Percent.isHex c = false ∧
    isDomainChar c = false) hascii (by decide +kernel) (decide_eq_true h)

/-- No domain ends in a blank. -/
theorem domain?_concat (h : c.toNat ≤ 0x20) (front : List Char) : domain? (front ++ [c]) = none := by
  obtain ⟨hpercent, -, hhex, hchar⟩ := not_mark_of_blank h
  have hbytes : (Text.Percent.pieces (front ++ [c])).flatMap Text.Percent.Piece.bytes
      = (Text.Percent.pieces front).flatMap Text.Percent.Piece.bytes ++ Text.Utf8.encode [c] := by
    rw [Text.Percent.pieces_concat hpercent hhex, List.flatMap_append]
    rfl
  have hhead : ∀ b ∈ (Text.Utf8.encode [c]).head?, Text.Utf8.isContinuation b = false := by
    rw [Text.Utf8.encode_cons, Text.Utf8.encode_nil, List.append_nil]
    exact Text.Utf8.isContinuation_head c
  have hall (decoded : List Char) : ¬ (decoded ++ [c]).all isDomainChar = true := fun hall => by
    have hlast := List.all_eq_true.mp hall c (List.mem_append_right _ List.mem_cons_self)
    rw [hchar] at hlast
    cases hlast
  rw [domain?, hbytes, Text.Utf8.decode?_append hhead, Text.Utf8.decode?_encode]
  cases Text.Utf8.decode? ((Text.Percent.pieces front).flatMap Text.Percent.Piece.bytes) with
  | none => rfl
  | some decoded =>
    exact if_neg (hall decoded)

/-- No address in brackets ends in a blank. -/
theorem bracketed_concat (h : c.toNat ≤ 0x20) (front : List Char) :
    bracketed (front ++ [c]) = .error .ipv6Address := by
  have hnone : unbracket? (front ++ [c]) = none := by
    cases front with
    | nil =>
      unfold unbracket?
      split
      · rename_i rest hrest
        rw [← (List.cons.inj hrest).2]
        rfl
      · rfl
    | cons d front =>
      unfold unbracket?
      split
      · rename_i rest hrest
        have htail : rest = front ++ [c] := (List.cons.inj hrest).2.symm
        rw [htail, List.getLast?_concat,
          if_neg fun he => (not_mark_of_blank h).2.1 (Option.some.inj he)]
      · rfl
  rw [bracketed, hnone]
  rfl

/-- **A host of the web does not end in a blank.** -/
theorem trimEnd_of_ofWeb {text : List Char} {host : Host} (h : ofWeb text = .ok host) :
    trimEnd text = text := by
  by_contra hne
  obtain ⟨front, c, rfl, hc⟩ := exists_concat_of_trimEnd_ne hne
  rw [ofWeb, bracketed_concat hc, domain?_concat hc] at h
  split at h <;> cases h

end Host

/-! ## 3. The parts of an authority -/

/-- User information ends before the end of the text, so that trimming leaves it alone. -/
theorem splitUserinfo_cases (text : List Char) :
    ('@' ∉ text ∧ splitUserinfo text = (none, text)) ∨
      ∃ user rest, text = user ++ '@' :: rest ∧ '@' ∉ rest ∧
        splitUserinfo text = (some user, rest) := by
  by_cases hat : '@' ∈ text
  · right
    obtain ⟨back, front, hcut, hback⟩ := List.eq_append_cons_of_mem (List.mem_reverse.mpr hat)
    have htext : text = front.reverse ++ '@' :: back.reverse := by
      simpa using congrArg List.reverse hcut
    have hrest : '@' ∉ back.reverse := fun hm => hback (List.mem_reverse.mp hm)
    exact ⟨front.reverse, back.reverse, htext, hrest, htext ▸ splitUserinfo_append hrest _⟩
  · exact Or.inl ⟨hat, splitUserinfo_of_not_mem hat⟩

/-- **The user information of a trimmed authority is the same.** -/
theorem splitUserinfo_trimEnd (text : List Char) : splitUserinfo (trimEnd text)
    = ((splitUserinfo text).1, trimEnd (splitUserinfo text).2) := by
  have hnone : ∀ {text : List Char}, '@' ∉ text → '@' ∉ trimEnd text := fun {text} h hm =>
    h ((isPrefix_trimEnd text).subset hm)
  rcases splitUserinfo_cases text with ⟨hat, hsplit⟩ | ⟨user, rest, rfl, hat, hsplit⟩
  · rw [hsplit, splitUserinfo_of_not_mem (hnone hat)]
  · rw [hsplit, trimEnd_append_cons (by decide), splitUserinfo_append (hnone hat)]

section
variable {inside : Bool} {text hostText portText : List Char}

/-- A text is cut into two parts, and the second one, if there is one, starts with a colon. -/
theorem splitPort_cases (h : splitPort inside text = (hostText, portText)) :
    text = hostText ++ portText ∧ (portText = [] ∨ ∃ digits, portText = ':' :: digits) := by
  induction text generalizing inside hostText portText with
  | nil =>
    cases h
    exact ⟨rfl, Or.inl rfl⟩
  | cons c rest ih =>
    by_cases hcolon : c = ':' ∧ inside = false
    · rw [splitPort, if_pos hcolon] at h
      cases h
      exact ⟨rfl, Or.inr ⟨rest, by rw [hcolon.1]⟩⟩
    · rw [splitPort_cons hcolon] at h
      cases h
      obtain ⟨htext, hport⟩ := ih rfl
      exact ⟨congrArg (c :: ·) htext, hport⟩

/-- Behind the colon it does not matter what follows. -/
theorem splitPort_colon {digits : List Char} (h : splitPort inside text = (hostText, ':' :: digits))
    (digits' : List Char) :
    splitPort inside (hostText ++ ':' :: digits') = (hostText, ':' :: digits') := by
  induction text generalizing inside hostText with
  | nil => cases h
  | cons c rest ih =>
    by_cases hcolon : c = ':' ∧ inside = false
    · rw [splitPort, if_pos hcolon] at h
      cases h
      rw [List.nil_append, splitPort, if_pos ⟨rfl, hcolon.2⟩]
    · rw [splitPort_cons hcolon] at h
      obtain ⟨rfl, hport⟩ := Prod.mk.inj h
      rw [List.cons_append, splitPort_cons hcolon, ih (Prod.ext rfl hport)]

end

theorem lt_of_isDigit {c : Char} (h : c.isDigit = true) : 0x20 < c.toNat := by
  have hle : (48 : UInt32) ≤ c.val := (of_decide_eq_true (Bool.and_eq_true_iff.mp h).1)
  exact Nat.lt_of_lt_of_le (by decide) (UInt32.le_iff_toNat_le.mp hle)

/-- The number of a port ends before the end of its text. -/
theorem portNumber_trimEnd : ∀ {digits : List Char} {seen n : Option Nat},
    portNumber seen digits = .ok n → portNumber seen (trimEnd digits) = .ok n
  | [], _, _, h => h
  | c :: rest, seen, n, h => by
    rw [portNumber] at h
    split at h
    · rename_i hdigit
      rw [trimEnd_cons (lt_of_isDigit hdigit), portNumber, if_pos hdigit]
      dsimp only at h ⊢
      split at h
      · rename_i hlt
        rw [if_pos hlt]
        exact portNumber_trimEnd h
      · cases h
    · split at h
      · rename_i hdigit hslash
        rw [trimEnd_cons (hslash ▸ by decide), portNumber, if_neg hdigit, if_pos hslash, h]
      · cases h

theorem port_trimEnd {kind : SchemeKind} {digits p : List Char} (h : port kind (':' :: digits) = .ok p) :
    port kind (':' :: trimEnd digits) = .ok p := by
  rw [port, List.drop_succ_cons, List.drop_zero] at h ⊢
  cases hn : portNumber none digits with
  | error fault =>
    rw [hn] at h
    cases h
  | ok n =>
    rw [hn] at h
    rw [portNumber_trimEnd hn]
    exact h

/-! ## 4. Authorities -/

/-- What the parts of an authority have to be for it to be read. -/
theorem authority_ok_iff {kind : SchemeKind} {text rest hostText portText a : List Char}
    {user : Option (List Char)} (hu : splitUserinfo text = (user, rest))
    (hp : splitPort false rest = (hostText, portText)) (more : Bool) :
    authority kind text more = .ok a ↔ ¬ (user = some [] ∧ rest = [] ∧ more) ∧
      ∃ h p, host kind hostText = .ok h ∧
        ¬ (h = .name [] ∧ (portText ≠ [] ∨ userinfo (user.getD []) ≠ [])) ∧
        port kind portText = .ok p ∧ a = userinfo (user.getD []) ++ h.render ++ p := by
  rw [authority_eq hu hp]
  constructor
  · intro h
    split at h
    · cases h
    · rename_i hmore
      obtain ⟨found, hh, h⟩ := Attempt.ok_of_bind h
      split at h
      · cases h
      · rename_i hempty
        obtain ⟨p, hport, rfl⟩ := Attempt.ok_of_map h
        exact ⟨hmore, found, p, hh, hempty, hport, rfl⟩
  · rintro ⟨hmore, found, p, hh, hempty, hport, rfl⟩
    rw [if_neg hmore, hh]
    dsimp only [Except.bind]
    rw [if_neg hempty, hport]
    rfl

theorem trimEnd_of_host {kind : SchemeKind} (hs : kind.isSpecial = true) {text : List Char}
    {h : Host} (hread : host kind text = .ok h) : trimEnd text = text := by
  rw [host, if_pos hs] at hread
  split at hread
  · cases hread
  · exact Host.trimEnd_of_ofWeb hread

/-- **An authority that is read in front of a path is read at the end of the text as well**, trimmed
    there, unless a blank at its end belongs to it. -/
theorem authority_trimEnd {kind : SchemeKind} {text a : List Char} {more : Bool}
    (h : authority kind text more = .ok a) (hblank : kind = .other → ¬ EndsInBlank text) :
    authority kind (trimEnd text) false = .ok a := by
  obtain ⟨user, rest, hu⟩ : ∃ user rest, splitUserinfo text = (user, rest) := ⟨_, _, rfl⟩
  obtain ⟨hostText, portText, hcut⟩ : ∃ hostText portText,
      splitPort false rest = (hostText, portText) := ⟨_, _, rfl⟩
  have hu' : splitUserinfo (trimEnd text) = (user, trimEnd rest) := by
    rw [splitUserinfo_trimEnd, hu]
  obtain ⟨-, found, p, hhost, hempty, hp, rfl⟩ := (authority_ok_iff hu hcut more).mp h
  obtain ⟨rfl, rfl | ⟨digits, rfl⟩⟩ := splitPort_cases hcut
  · -- the host is the end
    have hsame : trimEnd hostText = hostText := by
      by_cases hs : kind.isSpecial = true
      · exact trimEnd_of_host hs hhost
      · have hkind : kind = .other := by simpa [SchemeKind.isSpecial] using hs
        rw [trimEnd_of_not_endsInBlank (hblank hkind), hu, List.append_nil] at hu'
        exact (Prod.mk.inj hu').2.symm
    rw [List.append_nil] at hu' hcut
    rw [hsame] at hu'
    exact (authority_ok_iff hu' hcut false).mpr ⟨by simp, found, p, hhost, hempty, hp, rfl⟩
  · -- a port follows the host, and is trimmed in its place
    have hcut' : splitPort false (trimEnd (hostText ++ ':' :: digits))
        = (hostText, ':' :: trimEnd digits) := by
      rw [trimEnd_append_cons (by decide), splitPort_colon hcut]
    exact (authority_ok_iff hu' hcut' false).mpr ⟨by simp, found, p, hhost,
      fun hnone => hempty ⟨hnone.1, Or.inl (List.cons_ne_nil _ _)⟩, port_trimEnd hp, rfl⟩

end Origin
end RouteTree
