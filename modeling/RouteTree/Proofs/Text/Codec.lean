import RouteTree.Path

/-!
# Reading back what is written

Each text that a path is written with is read back:

* `Utf8.decode?_encode`: the bytes of a text;
* `Percent.decodeChars_encode`: a text with some characters escaped, whatever characters are kept, as
  long as the sign that starts an escape is not;
* `Percent.encode_encode`: a component that is written once more as the value of a catch-all stays as
  it is.
-/

namespace RouteTree

/-! ## 1. Bytes -/

namespace Text.Utf8

theorem charFrom?_toNat {least : Nat} (c : Char) (h : least ≤ c.toNat) :
    charFrom? least c.toNat = some c := by
  rw [charFrom?, if_pos ⟨h, c.valid⟩, Char.ofNat_toNat]

theorem toNat_ofNat_of_lt {n : Nat} (h : n < 256) : (UInt8.ofNat n).toNat = n := by
  rw [UInt8.toNat_ofNat']
  exact Nat.mod_eq_of_lt h

theorem isContinuation_ofNat {n : Nat} (hl : 0x80 ≤ n) (hu : n < 0xC0) :
    isContinuation (UInt8.ofNat n) = true := by
  simp [isContinuation, toNat_ofNat_of_lt (show n < 256 by omega), hl, hu]

theorem decode?_one {a : UInt8} (h : a.toNat < 0x80) (rest : List UInt8) :
    decode? (a :: rest) = (decode? rest).map (Char.ofNat a.toNat :: ·) := by
  rw [decode?.eq_def]
  simp [h]

theorem decode?_two {a b : UInt8} (h : 0x80 ≤ a.toNat) (h' : a.toNat < 0xE0) (rest : List UInt8) :
    decode? (a :: b :: rest) = (twoByte? a b).bind fun x => (decode? rest).map (x :: ·) := by
  rw [decode?.eq_def]
  dsimp only
  rw [if_neg (Nat.not_lt.mpr h), if_pos h']

theorem decode?_three {a b c : UInt8} (h : 0xE0 ≤ a.toNat) (h' : a.toNat < 0xF0)
    (rest : List UInt8) : decode? (a :: b :: c :: rest)
      = (threeByte? a b c).bind fun x => (decode? rest).map (x :: ·) := by
  rw [decode?.eq_def]
  dsimp only
  rw [if_neg (by omega), if_neg (by omega), if_pos h']

theorem decode?_four {a b c d : UInt8} (h : 0xF0 ≤ a.toNat) (rest : List UInt8) :
    decode? (a :: b :: c :: d :: rest)
      = (fourByte? a b c d).bind fun x => (decode? rest).map (x :: ·) := by
  rw [decode?.eq_def]
  dsimp only
  rw [if_neg (by omega), if_neg (by omega), if_neg (by omega)]

section
variable (c : Char)

theorem twoByte?_ofNat (hl : 0x80 ≤ c.toNat) (hu : c.toNat ≤ 0x7FF) :
    twoByte? (UInt8.ofNat (c.toNat / 64 % 0x20 + 0xC0)) (UInt8.ofNat (c.toNat % 0x40 + 0x80))
      = some c := by
  have ha : (UInt8.ofNat (c.toNat / 64 % 0x20 + 0xC0)).toNat = c.toNat / 64 % 0x20 + 0xC0 :=
    toNat_ofNat_of_lt (by omega)
  have hb : (UInt8.ofNat (c.toNat % 0x40 + 0x80)).toNat = c.toNat % 0x40 + 0x80 :=
    toNat_ofNat_of_lt (by omega)
  have hn : (c.toNat / 64 % 0x20 + 0xC0 - 0xC0) * 0x40 + (c.toNat % 0x40 + 0x80 - 0x80)
      = c.toNat := by omega
  rw [twoByte?, if_pos ⟨by omega, by omega, isContinuation_ofNat (by omega) (by omega)⟩, ha, hb, hn,
    charFrom?_toNat c hl]

theorem threeByte?_ofNat (hl : 0x800 ≤ c.toNat) (hu : c.toNat ≤ 0xFFFF) :
    threeByte? (UInt8.ofNat (c.toNat / 4096 % 0x10 + 0xE0))
        (UInt8.ofNat (c.toNat / 64 % 0x40 + 0x80)) (UInt8.ofNat (c.toNat % 0x40 + 0x80))
      = some c := by
  have ha : (UInt8.ofNat (c.toNat / 4096 % 0x10 + 0xE0)).toNat = c.toNat / 4096 % 0x10 + 0xE0 :=
    toNat_ofNat_of_lt (by omega)
  have hb : (UInt8.ofNat (c.toNat / 64 % 0x40 + 0x80)).toNat = c.toNat / 64 % 0x40 + 0x80 :=
    toNat_ofNat_of_lt (by omega)
  have hd : (UInt8.ofNat (c.toNat % 0x40 + 0x80)).toNat = c.toNat % 0x40 + 0x80 :=
    toNat_ofNat_of_lt (by omega)
  have hn : (c.toNat / 4096 % 0x10 + 0xE0 - 0xE0) * 0x1000
      + (c.toNat / 64 % 0x40 + 0x80 - 0x80) * 0x40 + (c.toNat % 0x40 + 0x80 - 0x80)
      = c.toNat := by omega
  rw [threeByte?, if_pos ⟨by omega, by omega, isContinuation_ofNat (by omega) (by omega),
    isContinuation_ofNat (by omega) (by omega)⟩, ha, hb, hd, hn, charFrom?_toNat c hl]

theorem fourByte?_ofNat (hl : 0x10000 ≤ c.toNat) (hu : c.toNat < 0x110000) :
    fourByte? (UInt8.ofNat (c.toNat / 262144 % 0x08 + 0xF0))
        (UInt8.ofNat (c.toNat / 4096 % 0x40 + 0x80)) (UInt8.ofNat (c.toNat / 64 % 0x40 + 0x80))
        (UInt8.ofNat (c.toNat % 0x40 + 0x80))
      = some c := by
  have ha : (UInt8.ofNat (c.toNat / 262144 % 0x08 + 0xF0)).toNat = c.toNat / 262144 % 0x08 + 0xF0 :=
    toNat_ofNat_of_lt (by omega)
  have hb : (UInt8.ofNat (c.toNat / 4096 % 0x40 + 0x80)).toNat = c.toNat / 4096 % 0x40 + 0x80 :=
    toNat_ofNat_of_lt (by omega)
  have hd : (UInt8.ofNat (c.toNat / 64 % 0x40 + 0x80)).toNat = c.toNat / 64 % 0x40 + 0x80 :=
    toNat_ofNat_of_lt (by omega)
  have he : (UInt8.ofNat (c.toNat % 0x40 + 0x80)).toNat = c.toNat % 0x40 + 0x80 :=
    toNat_ofNat_of_lt (by omega)
  have hn : (c.toNat / 262144 % 0x08 + 0xF0 - 0xF0) * 0x40000
      + (c.toNat / 4096 % 0x40 + 0x80 - 0x80) * 0x1000
      + (c.toNat / 64 % 0x40 + 0x80 - 0x80) * 0x40 + (c.toNat % 0x40 + 0x80 - 0x80)
      = c.toNat := by omega
  rw [fourByte?, if_pos ⟨by omega, by omega, isContinuation_ofNat (by omega) (by omega),
    isContinuation_ofNat (by omega) (by omega), isContinuation_ofNat (by omega) (by omega)⟩, ha, hb,
    hd, he, hn, charFrom?_toNat c hl]

/-- **A character is read back from its bytes**, whatever follows them. The number of bytes is that
    which the lead byte announces. -/
theorem decode?_encodeChar (rest : List UInt8) :
    decode? (String.utf8EncodeChar c ++ rest) = (decode? rest).map (c :: ·) := by
  have hmax : c.toNat < 0x110000 := by
    have h : c.toNat.isValidChar := c.valid
    unfold Nat.isValidChar at h
    omega
  have lead : ∀ n, n < 256 → (UInt8.ofNat n).toNat = n := fun n h => toNat_ofNat_of_lt h
  rw [String.utf8EncodeChar]
  rw [show c.val.toNat = c.toNat from rfl]
  by_cases h1 : c.toNat ≤ 0x7F
  · have ha := lead c.toNat (by omega)
    rw [if_pos h1, List.cons_append, List.nil_append, decode?_one (by omega), ha, Char.ofNat_toNat]
  · rw [if_neg h1]
    by_cases h2 : c.toNat ≤ 0x7FF
    · have ha := lead (c.toNat / 64 % 0x20 + 0xC0) (by omega)
      rw [if_pos h2]
      simp only [List.cons_append, List.nil_append]
      rw [decode?_two (by omega) (by omega), twoByte?_ofNat c (by omega) h2]
      rfl
    · rw [if_neg h2]
      by_cases h3 : c.toNat ≤ 0xFFFF
      · have ha := lead (c.toNat / 4096 % 0x10 + 0xE0) (by omega)
        rw [if_pos h3]
        simp only [List.cons_append, List.nil_append]
        rw [decode?_three (by omega) (by omega), threeByte?_ofNat c (by omega) h3]
        rfl
      · have ha := lead (c.toNat / 262144 % 0x08 + 0xF0) (by omega)
        rw [if_neg h3]
        simp only [List.cons_append, List.nil_append]
        rw [decode?_four (by omega), fourByte?_ofNat c (by omega) hmax]
        rfl

end

theorem decode?_encode : ∀ text : List Char, decode? (encode text) = some text
  | [] => rfl
  | c :: text => by
    rw [encode_cons, decode?_encodeChar, decode?_encode text]
    rfl

end Text.Utf8

/-! ## 2. Escapes -/

namespace Text.Percent

theorem hexValue?_hexDigit : ∀ n : Nat, n < 16 → hexValue? (hexDigit n) = some n := by
  decide

theorem pieces_escape (b : UInt8) (rest : List Char) :
    pieces (escape b ++ rest)
      = .escape (hexDigit (b.toNat / 16)) (hexDigit (b.toNat % 16)) :: pieces rest := by
  have hb := b.toNat_lt
  have hi := hexValue?_hexDigit (b.toNat / 16) (by omega)
  have lo := hexValue?_hexDigit (b.toNat % 16) (by omega)
  simp only [escape, List.cons_append, List.nil_append]
  rw [pieces.eq_def]
  simp [isHex, hi, lo]

theorem bytes_escape (b : UInt8) :
    (Piece.escape (hexDigit (b.toNat / 16)) (hexDigit (b.toNat % 16))).bytes = [b] := by
  have hb := b.toNat_lt
  have hi := hexValue?_hexDigit (b.toNat / 16) (by omega)
  have lo := hexValue?_hexDigit (b.toNat % 16) (by omega)
  simp only [Piece.bytes, hi, lo, Option.getD_some]
  rw [Nat.div_add_mod']
  simp

theorem bytes_pieces_escapes (rest : List Char) : ∀ bs : List UInt8,
    (pieces (bs.flatMap escape ++ rest)).flatMap Piece.bytes
      = bs ++ (pieces rest).flatMap Piece.bytes
  | [] => rfl
  | b :: bs => by
    rw [List.flatMap_cons, List.append_assoc, pieces_escape, List.flatMap_cons, bytes_escape,
      bytes_pieces_escapes rest bs]
    rfl

theorem pieces_plain {c : Char} (hc : c ≠ '%') (rest : List Char) :
    pieces (c :: rest) = .plain c :: pieces rest := by
  rw [pieces.eq_def]
  simp [hc]

section
variable {keep : Char → Bool} (hkeep : keep '%' = false)
include hkeep

/-- The pieces of an encoded text stand for the bytes of the text. -/
theorem bytes_pieces_encode : ∀ text : List Char,
    (pieces (encode keep text)).flatMap Piece.bytes = Utf8.encode text
  | [] => rfl
  | c :: text => by
    have ih := bytes_pieces_encode text
    rw [Utf8.encode_cons, ← ih, encode, List.flatMap_cons]
    by_cases hc : keep c = true
    · have hne : c ≠ '%' := fun h => by
        rw [h, hkeep] at hc
        cases hc
      rw [if_pos hc, List.cons_append, List.nil_append, pieces_plain hne]
      rfl
    · rw [if_neg hc]
      exact bytes_pieces_escapes _ (String.utf8EncodeChar c)

omit hkeep in
/-- A text that is encoded without an escape is as it was. -/
theorem encode_of_no_escape : ∀ {text : List Char}, '%' ∉ encode keep text → encode keep text = text
  | [], _ => rfl
  | c :: text, h => by
    rw [encode, List.flatMap_cons, List.mem_append, not_or] at h
    rw [encode, List.flatMap_cons]
    by_cases hc : keep c = true
    · rw [if_pos hc]
      exact congrArg (c :: ·) (encode_of_no_escape h.2)
    · rw [if_neg hc] at h
      refine absurd ?_ h.1
      cases hb : String.utf8EncodeChar c with
      | nil => exact absurd hb String.utf8EncodeChar_ne_nil
      | cons b bs => simp [escapeChar, hb, escape]

/-- **An encoded text is read back**: as bytes if there is an escape in it, else as it stands. -/
theorem decodeChars_encode (text : List Char) : decodeChars (encode keep text) = text := by
  unfold decodeChars
  by_cases h : '%' ∈ encode keep text
  · rw [if_pos (by simpa using h)]
    dsimp only
    rw [bytes_pieces_encode hkeep, Utf8.decode?_encode]
    rfl
  · rw [if_neg (by simpa using h)]
    exact encode_of_no_escape h

end

/-- The characters of an escape. -/
theorem mem_escape {b : UInt8} {c : Char} (h : c ∈ escape b) :
    c = '%' ∨ ∃ n < 16, c = hexDigit n := by
  have hb := b.toNat_lt
  simp only [escape, List.mem_cons, List.not_mem_nil, or_false] at h
  rcases h with rfl | rfl | rfl
  · exact Or.inl rfl
  · exact Or.inr ⟨_, by omega, rfl⟩
  · exact Or.inr ⟨_, by omega, rfl⟩

theorem isUnreserved_hexDigit : ∀ n : Nat, n < 16 → isUnreserved (hexDigit n) = true := by
  decide

/-- The characters of an encoded text: those that were kept, and those of escapes. -/
theorem mem_encode {keep : Char → Bool} {text : List Char} {c : Char} (h : c ∈ encode keep text) :
    (c ∈ text ∧ keep c = true) ∨ c = '%' ∨ ∃ n < 16, c = hexDigit n := by
  obtain ⟨d, hd, hc⟩ := List.mem_flatMap.mp h
  split at hc
  · rename_i hk
    rw [List.mem_singleton] at hc
    rw [hc]
    exact Or.inl ⟨hd, hk⟩
  · obtain ⟨b, -, hb⟩ := List.mem_flatMap.mp hc
    exact Or.inr (mem_escape hb)

/-- The characters of an encoded component. -/
theorem mem_encodeComponent {text : List Char} {c : Char} (h : c ∈ encode isUnreserved text) :
    c = '%' ∨ isUnreserved c = true := by
  rcases mem_encode h with ⟨-, hk⟩ | hc | ⟨n, hn, rfl⟩
  · exact Or.inr hk
  · exact Or.inl hc
  · exact Or.inr (isUnreserved_hexDigit n hn)

theorem slash_ne_hexDigit : ∀ n : Nat, n < 16 → '/' ≠ hexDigit n := by
  decide

/-- No slash comes into a text when it is encoded. -/
theorem slash_mem_of_mem_encode {keep : Char → Bool} {text : List Char}
    (h : '/' ∈ encode keep text) : '/' ∈ text ∧ keep '/' = true := by
  rcases mem_encode h with hk | hc | ⟨n, hn, hd⟩
  · exact hk
  · cases hc
  · exact absurd hd (slash_ne_hexDigit n hn)

theorem slash_not_mem_encode (text : List Char) : '/' ∉ encode isUnreserved text := by
  intro h
  have hk : isUnreserved '/' = true := (slash_mem_of_mem_encode h).2
  revert hk
  decide

theorem encode_congr {keep keep' : Char → Bool} {text : List Char}
    (h : ∀ c ∈ text, keep c = keep' c) : encode keep text = encode keep' text := by
  rw [encode, encode, List.flatMap_def, List.flatMap_def]
  refine congrArg List.flatten (List.map_congr_left fun c hc => ?_)
  rw [h c hc]

/-- Without a percent sign in it, a text that is written as a part of a catch-all value is read
    back. -/
theorem decode_encodeReserved {text : String} (h : '%' ∉ text.toList) :
    decode (encodeReserved text) = text := by
  have hsafe : encode isReservedSafe text.toList
      = encode (fun c => isReservedSafe c && c ≠ '%') text.toList := by
    refine encode_congr fun c hc => ?_
    have hne : c ≠ '%' := fun e => h (e ▸ hc)
    simp [hne]
  rw [decode, encodeReserved, String.toList_ofList, hsafe, decodeChars_encode (by decide),
    String.ofList_toList]

/-- A component is read back. -/
theorem decode_encodeComponent (text : String) : decode (encodeComponent text) = text := by
  rw [decode, encodeComponent, String.toList_ofList, decodeChars_encode (by decide),
    String.ofList_toList]

theorem length_escapeChar_gt (c : Char) : 1 < (escapeChar c).length := by
  cases hb : String.utf8EncodeChar c with
  | nil => exact absurd hb String.utf8EncodeChar_ne_nil
  | cons b bs =>
    simp only [escapeChar, hb, List.flatMap_cons, escape, List.length_append, List.length_cons]
    omega

theorem length_le_length_encode (keep : Char → Bool) : ∀ text : List Char,
    text.length ≤ (encode keep text).length
  | [] => Nat.le_refl _
  | c :: text => by
    have ih := length_le_length_encode keep text
    have hc := length_escapeChar_gt c
    rw [encode, List.flatMap_cons, ← encode]
    split <;> simp only [List.length_append, List.length_cons, List.length_nil] <;> omega

/-- A text stays as it is exactly if all its characters are kept. -/
theorem encode_eq_self_iff {keep : Char → Bool} : ∀ {text : List Char},
    encode keep text = text ↔ ∀ c ∈ text, keep c = true
  | [] => by simp [encode]
  | c :: text => by
    have ih : encode keep text = text ↔ ∀ c ∈ text, keep c = true := encode_eq_self_iff
    rw [encode, List.flatMap_cons, ← encode, List.forall_mem_cons, ← ih]
    by_cases hc : keep c = true
    · rw [if_pos hc]
      simp [hc]
    · rw [if_neg hc]
      refine iff_of_false (fun h => ?_) fun h => hc h.1
      have hlen := congrArg List.length h
      have hle := length_le_length_encode keep text
      have hgt := length_escapeChar_gt c
      simp only [List.length_append, List.length_cons] at hlen
      omega

theorem encode_of_all {keep : Char → Bool} {text : List Char} (h : ∀ c ∈ text, keep c = true) :
    encode keep text = text :=
  encode_eq_self_iff.mpr h

/-- **A component stays as it is written** when it is written once more as a part of a catch-all
    value. -/
theorem encodeReserved_encodeComponent (text : String) :
    encodeReserved (encodeComponent text) = encodeComponent text := by
  rw [encodeReserved, encodeComponent, String.toList_ofList, encode_of_all]
  intro c hc
  rcases mem_encodeComponent hc with rfl | h
  · decide
  · simp [isReservedSafe, h]

theorem encodeComponent_eq_self_iff {text : String} :
    encodeComponent text = text ↔ ∀ c ∈ text.toList, isUnreserved c = true := by
  rw [encodeComponent, ← encode_eq_self_iff, ← String.toList_inj, String.toList_ofList]

theorem encodeComponent_ne_empty {text : String} (h : text ≠ "") : encodeComponent text ≠ "" := by
  intro he
  have := decode_encodeComponent text
  rw [he] at this
  exact h this.symm

/-- No delimiter of a pattern comes into an encoded component. -/
theorem encodeComponent_plain {text : String} : ∀ c ∈ (encodeComponent text).toList,
    c ≠ '/' ∧ c ≠ '{' ∧ c ≠ ':' ∧ c ≠ '}' := by
  intro c hc
  rw [encodeComponent, String.toList_ofList] at hc
  rcases mem_encodeComponent hc with rfl | hc
  · decide
  · refine ⟨?_, ?_, ?_, ?_⟩ <;> rintro rfl <;> revert hc <;> decide

/-- An encoded component starts as the text does, or with an escape. -/
theorem head?_encodeComponent {text : String} : ∀ c ∈ (encodeComponent text).toList.head?,
    c = '%' ∨ c ∈ text.toList.head? := by
  intro c hc
  rw [encodeComponent, String.toList_ofList] at hc
  cases ht : text.toList with
  | nil =>
    rw [ht] at hc
    cases hc
  | cons d ds =>
    rw [ht, encode, List.flatMap_cons] at hc
    split at hc
    · exact Or.inr hc
    · refine Or.inl ?_
      cases hb : String.utf8EncodeChar d with
      | nil => exact absurd hb String.utf8EncodeChar_ne_nil
      | cons b bs =>
        simp only [escapeChar, hb, List.flatMap_cons, escape, List.cons_append, List.head?_cons,
          Option.mem_some] at hc
        exact hc.symm

end Text.Percent

/-! ## 3. Slashes -/

namespace Path

/-- A text is cut into pieces of itself, none of which holds the sign that it was cut at. -/
theorem mem_of_mem_splitOn {sep c : Char} : ∀ {text piece : List Char}, piece ∈ text.splitOn sep →
    c ∈ piece → c ∈ text ∧ c ≠ sep
  | [], piece, hp, hc => by
    rw [List.splitOn_nil] at hp
    rw [List.mem_singleton.mp hp] at hc
    cases hc
  | d :: rest, piece, hp, hc => by
    have ih : ∀ p ∈ rest.splitOn sep, c ∈ p → c ∈ d :: rest ∧ c ≠ sep := fun p hp hm =>
      (mem_of_mem_splitOn hp hm).imp_left (List.mem_cons_of_mem d)
    rw [List.splitOn_cons_eq_if_modifyHead] at hp
    split at hp
    · rcases List.mem_cons.mp hp with rfl | hp
      · cases hc
      · exact ih piece hp hc
    · rename_i hd
      cases hs : rest.splitOn sep with
      | nil => exact absurd hs (List.splitOn_ne_nil sep rest)
      | cons p pieces =>
        rw [hs] at ih
        rw [hs, List.modifyHead_cons] at hp
        rcases List.mem_cons.mp hp with rfl | hp
        · rcases List.mem_cons.mp hc with rfl | hc
          · exact ⟨List.mem_cons_self, fun he => hd (beq_iff_eq.mpr he)⟩
          · exact ih p List.mem_cons_self hc
        · exact ih piece (List.mem_cons_of_mem p hp) hc

end Path

end RouteTree
