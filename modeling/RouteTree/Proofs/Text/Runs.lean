import RouteTree.Proofs.Text.Codec

/-!
# Reading by runs of escapes

A text is read as a whole if that gives a text, and run by run otherwise. This file proves that the two
never differ, so that the first is only a short cut:

* `Utf8.decode?_append` says where bytes may be cut: in front of any byte that does not continue a
  character. The bytes of a plain character start with such a byte, and so does what follows a run;
* `InStretches` cuts a text into its runs of escapes, each as long as it can be, and what stands between
  them. It speaks of the text only; `pieces_run` and `pieces_gap` find the stretches among the pieces;
* `decoded_of_decode?` reads a text as a whole stretch by stretch;
* `decode_by_runs` puts them together.
-/

namespace RouteTree.Text

/-! ## 1. Where bytes may be cut -/

namespace Utf8

/-- The first byte of a character does not continue one. -/
theorem isContinuation_head (c : Char) :
    ∀ b ∈ (String.utf8EncodeChar c).head?, isContinuation b = false := by
  have hmax : c.toNat < 0x110000 := by
    have h : c.toNat.isValidChar := c.valid
    unfold Nat.isValidChar at h
    omega
  have lead : ∀ n, n < 256 → (n < 0x80 ∨ 0xC0 ≤ n) → isContinuation (UInt8.ofNat n) = false := by
    intro n hn hlead
    simp only [isContinuation, toNat_ofNat_of_lt hn, Bool.and_eq_false_iff, decide_eq_false_iff_not]
    omega
  rw [String.utf8EncodeChar]
  rw [show c.val.toNat = c.toNat from rfl]
  intro b hb
  split at hb
  · obtain rfl := Option.some.inj hb
    exact lead _ (by omega) (by omega)
  · split at hb
    · obtain rfl := Option.some.inj hb
      exact lead _ (by omega) (by omega)
    · split at hb
      · obtain rfl := Option.some.inj hb
        exact lead _ (by omega) (by omega)
      · obtain rfl := Option.some.inj hb
        exact lead _ (by omega) (by omega)

theorem twoByte?_of_not_continuation {a b : UInt8} (h : isContinuation b = false) :
    twoByte? a b = none := by
  simp [twoByte?, h]

theorem threeByte?_of_not_continuation {a b c : UInt8}
    (h : isContinuation b = false ∨ isContinuation c = false) : threeByte? a b c = none := by
  rcases h with h | h <;> simp [threeByte?, h]

theorem fourByte?_of_not_continuation {a b c d : UInt8}
    (h : isContinuation b = false ∨ isContinuation c = false ∨ isContinuation d = false) :
    fourByte? a b c d = none := by
  rcases h with h | h | h <;> simp [fourByte?, h]

section
variable {back : List UInt8} (hback : ∀ b ∈ back.head?, isContinuation b = false)
include hback

/-- A lead byte is not read with what stands behind the cut. -/
theorem decode?_cut_one {a : UInt8} (ha : 0x80 ≤ a.toNat) : decode? (a :: back) = none := by
  cases back with
  | nil =>
    rw [decode?.eq_def]
    simp [Nat.not_lt.mpr ha]
  | cons b rest =>
    have hb := hback b rfl
    by_cases h2 : a.toNat < 0xE0
    · rw [decode?_two ha h2, twoByte?_of_not_continuation hb]
      rfl
    rw [Nat.not_lt] at h2
    cases rest with
    | nil =>
      rw [decode?.eq_def]
      simp [Nat.not_lt.mpr ha, Nat.not_lt.mpr h2]
    | cons c rest =>
      by_cases h3 : a.toNat < 0xF0
      · rw [decode?_three h2 h3, threeByte?_of_not_continuation (.inl hb)]
        rfl
      rw [Nat.not_lt] at h3
      cases rest with
      | nil =>
        rw [decode?.eq_def]
        simp [Nat.not_lt.mpr ha, Nat.not_lt.mpr h2, Nat.not_lt.mpr h3]
      | cons d rest =>
        rw [decode?_four h3, fourByte?_of_not_continuation (.inl hb)]
        rfl

theorem decode?_cut_two {a b : UInt8} (ha : 0xE0 ≤ a.toNat) : decode? (a :: b :: back) = none := by
  cases back with
  | nil =>
    rw [decode?.eq_def]
    simp [Nat.not_lt.mpr (show 0x80 ≤ a.toNat by omega), Nat.not_lt.mpr ha]
  | cons c rest =>
    have hc := hback c rfl
    by_cases h3 : a.toNat < 0xF0
    · rw [decode?_three ha h3, threeByte?_of_not_continuation (.inr hc)]
      rfl
    rw [Nat.not_lt] at h3
    cases rest with
    | nil =>
      rw [decode?.eq_def]
      simp [Nat.not_lt.mpr (show 0x80 ≤ a.toNat by omega), Nat.not_lt.mpr ha, Nat.not_lt.mpr h3]
    | cons d rest =>
      rw [decode?_four h3, fourByte?_of_not_continuation (.inr (.inl hc))]
      rfl

theorem decode?_cut_three {a b c : UInt8} (ha : 0xF0 ≤ a.toNat) :
    decode? (a :: b :: c :: back) = none := by
  cases back with
  | nil =>
    rw [decode?.eq_def]
    simp [Nat.not_lt.mpr ha, Nat.not_lt.mpr (show 0x80 ≤ a.toNat by omega),
      Nat.not_lt.mpr (show 0xE0 ≤ a.toNat by omega)]
  | cons d rest =>
    rw [decode?_four ha, fourByte?_of_not_continuation (.inr (.inr (hback d rfl)))]
    rfl

/-- **Bytes may be cut in front of a byte that does not continue a character**: what stands before the
    cut is read on its own, and so is what stands behind it. -/
theorem decode?_append (front : List UInt8) : decode? (front ++ back)
    = (decode? front).bind fun text => (decode? back).map (text ++ ·) := by
  have step : ∀ (x : Char) (r : Option (List Char)),
      (r.bind fun text => (decode? back).map (text ++ ·)).map (x :: ·)
        = (r.map (x :: ·)).bind fun text => (decode? back).map (text ++ ·) := by
    intro x r
    cases r <;> cases decode? back <;> rfl
  have form : ∀ (f : Option Char) (r : Option (List Char)),
      (f.bind fun x => (r.bind fun text => (decode? back).map (text ++ ·)).map (x :: ·))
        = (f.bind fun x => r.map (x :: ·)).bind fun text => (decode? back).map (text ++ ·) := by
    intro f r
    cases f with
    | none => rfl
    | some x => exact step x r
  -- one case for each way the lead byte and the end of `front` can meet
  fun_induction decode? front with
  | case1 => simp
  | case2 a rest ha ih => rw [List.cons_append, decode?_one ha, ih, step]
  | case3 a ha => exact decode?_cut_one hback (by omega)
  | case4 a ha b rest hb ih =>
    rw [List.cons_append, List.cons_append, decode?_two (by omega) hb, ih, form]
  | case5 a ha b hb => exact decode?_cut_two hback (by omega)
  | case6 a ha b hb c rest hc ih =>
    rw [List.cons_append, List.cons_append, List.cons_append, decode?_three (by omega) hc, ih, form]
  | case7 a ha b hb c hc => exact decode?_cut_three hback (by omega)
  | case8 a ha b hb c hc d rest ih =>
    rw [List.cons_append, List.cons_append, List.cons_append, List.cons_append,
      decode?_four (by omega), ih, form]

end

/-- A text is read from its bytes whatever follows them. -/
theorem decode?_encode_append (rest : List UInt8) : ∀ text : List Char,
    decode? (encode text ++ rest) = (decode? rest).map (text ++ ·)
  | [] => by simp
  | c :: text => by
    rw [encode_cons, List.append_assoc, decode?_encodeChar, decode?_encode_append rest text,
      Option.map_map]
    rfl

end Utf8

namespace Percent

/-! ## 2. The stretches of a text -/

/-- An escape stands at the start of the text. -/
def StartsEscape (text : List Char) : Prop :=
  ∃ hi lo rest, text = '%' :: hi :: lo :: rest ∧ isHex hi = true ∧ isHex lo = true

/-- A piece that is a percent sign with two digits behind it. -/
def Piece.IsEscape (p : Piece) : Prop :=
  ∃ hi lo, p = .escape hi lo ∧ isHex hi = true ∧ isHex lo = true

/-- A stretch of a text: a run of neighbouring escapes, or what stands between two runs. -/
inductive Stretch where
  | run (escapes : List Piece)
  | gap (text : List Char)

/-- What is read of a stretch: a run as its bytes if they are a text, all else as it is written. -/
def Stretch.decoded : Stretch → List Char
  | run escapes => decodeRun escapes
  | gap text => text

/-- A text cut into its stretches. Each is as long as it can be: no escape follows a run, no escape
    starts inside a gap, and a gap ends with the text or where an escape starts. -/
inductive InStretches : List Char → List Stretch → Prop where
  | nil : InStretches [] []
  | run {escapes : List Piece} {rest : List Char} {parts : List Stretch} (hne : escapes ≠ [])
      (hes : ∀ p ∈ escapes, p.IsEscape) (hlast : ¬ StartsEscape rest) (h : InStretches rest parts) :
      InStretches (escapes.flatMap Piece.text ++ rest) (.run escapes :: parts)
  | gap {text rest : List Char} {parts : List Stretch} (hne : text ≠ [])
      (hplain : ∀ tail, tail <:+ text → tail ≠ [] → ¬ StartsEscape (tail ++ rest))
      (hlast : rest = [] ∨ StartsEscape rest) (h : InStretches rest parts) :
      InStretches (text ++ rest) (.gap text :: parts)

theorem not_startsEscape_nil : ¬ StartsEscape [] := by
  intro h
  obtain ⟨hi, lo, rest, h, -⟩ := h
  cases h

theorem not_startsEscape_cons {c : Char} (hc : c ≠ '%') (rest : List Char) :
    ¬ StartsEscape (c :: rest) := by
  intro h
  obtain ⟨hi, lo, tail, h, -⟩ := h
  exact hc (List.cons.inj h).1

theorem Piece.IsEscape.startsEscape {p : Piece} (hp : p.IsEscape) (rest : List Char) :
    StartsEscape (p.text ++ rest) := by
  obtain ⟨hi, lo, rfl, hhi, hlo⟩ := hp
  exact ⟨hi, lo, rest, rfl, hhi, hlo⟩

namespace InStretches

/-- One more escape in front of a text that is cut. -/
theorem cons_escape {p : Piece} (hp : p.IsEscape) {rest : List Char} {parts : List Stretch}
    (h : InStretches rest parts) : ∃ parts', InStretches (p.text ++ rest) parts' := by
  have alone : ∀ {rest parts}, ¬ StartsEscape rest → InStretches rest parts →
      InStretches (p.text ++ rest) (.run [p] :: parts) := fun hlast h => by
    have := InStretches.run (List.cons_ne_nil p []) (fun q hq => List.mem_singleton.mp hq ▸ hp) hlast h
    simpa using this
  cases h with
  | nil => exact ⟨_, alone not_startsEscape_nil .nil⟩
  | gap hne hplain hlast h =>
    exact ⟨_, alone (hplain _ (List.suffix_refl _) hne) (.gap hne hplain hlast h)⟩
  | @run escapes rest parts hne hes hlast h =>
    refine ⟨.run (p :: escapes) :: parts, ?_⟩
    rw [← List.append_assoc, ← List.flatMap_cons]
    exact .run (List.cons_ne_nil p escapes) (List.forall_mem_cons.mpr ⟨hp, hes⟩) hlast h

/-- One more character in front of a text that is cut, where no escape starts. -/
theorem cons_plain {c : Char} {rest : List Char} (hc : ¬ StartsEscape (c :: rest))
    {parts : List Stretch} (h : InStretches rest parts) :
    ∃ parts', InStretches (c :: rest) parts' := by
  have alone : ∀ {rest parts}, ¬ StartsEscape (c :: rest) → rest = [] ∨ StartsEscape rest →
      InStretches rest parts → InStretches (c :: rest) (.gap [c] :: parts) := fun hc hlast h => by
    refine .gap (List.cons_ne_nil c []) (fun tail htail hne => ?_) hlast h
    rcases List.suffix_cons_iff.mp htail with rfl | htail
    · exact hc
    · exact absurd (List.suffix_nil.mp htail) hne
  cases h with
  | nil => exact ⟨_, alone hc (.inl rfl) .nil⟩
  | @run escapes rest parts hne hes hlast h =>
    refine ⟨_, alone hc (.inr ?_) (.run hne hes hlast h)⟩
    obtain ⟨p, escapes, rfl⟩ := List.exists_cons_of_ne_nil hne
    rw [List.flatMap_cons, List.append_assoc]
    exact (hes p List.mem_cons_self).startsEscape _
  | @gap text rest parts hne hplain hlast h =>
    refine ⟨.gap (c :: text) :: parts, .gap (List.cons_ne_nil c text) (fun tail ht htne => ?_) hlast h⟩
    rcases List.suffix_cons_iff.mp ht with rfl | ht
    · exact hc
    · exact hplain tail ht htne

end InStretches

/-! ## 3. The pieces of a stretch -/

theorem pieces_isEscape {p : Piece} (hp : p.IsEscape) (rest : List Char) :
    pieces (p.text ++ rest) = p :: pieces rest := by
  obtain ⟨hi, lo, rfl, hhi, hlo⟩ := hp
  rw [Piece.text, pieces.eq_def]
  simp [hhi, hlo]

theorem pieces_of_not_startsEscape {c : Char} {rest : List Char} (h : ¬ StartsEscape (c :: rest)) :
    pieces (c :: rest) = .plain c :: pieces rest := by
  by_cases hc : c = '%'
  · subst hc
    match rest, h with
    | [], _ => rfl
    | [hi], _ => rfl
    | hi :: lo :: tail, h =>
      have hdigits : ¬ (isHex hi && isHex lo) = true := fun hd => by
        rw [Bool.and_eq_true] at hd
        exact h ⟨hi, lo, tail, rfl, hd.1, hd.2⟩
      rw [pieces.eq_def]
      dsimp only
      rw [if_pos rfl, if_neg hdigits]
  · exact pieces_plain hc rest

/-- The pieces of a run are its escapes. -/
theorem pieces_run (rest : List Char) : ∀ {escapes : List Piece}, (∀ p ∈ escapes, p.IsEscape) →
    pieces (escapes.flatMap Piece.text ++ rest) = escapes ++ pieces rest
  | [], _ => rfl
  | p :: escapes, h => by
    rw [List.flatMap_cons, List.append_assoc, pieces_isEscape (h p List.mem_cons_self),
      pieces_run rest fun q hq => h q (List.mem_cons_of_mem p hq)]
    rfl

/-- The pieces of a gap are its characters. -/
theorem pieces_gap {rest : List Char} : ∀ {text : List Char},
    (∀ tail, tail <:+ text → tail ≠ [] → ¬ StartsEscape (tail ++ rest)) →
    pieces (text ++ rest) = text.map .plain ++ pieces rest
  | [], _ => rfl
  | c :: text, h => by
    have hc : ¬ StartsEscape (c :: (text ++ rest)) :=
      h (c :: text) (List.suffix_refl _) (List.cons_ne_nil c text)
    have ih : pieces (text ++ rest) = text.map .plain ++ pieces rest :=
      pieces_gap fun tail ht => h tail (ht.trans (List.suffix_cons c text))
    rw [List.cons_append, pieces_of_not_startsEscape hc, ih]
    rfl

/-- **Every text can be cut into stretches.** -/
theorem exists_inStretches (text : List Char) : ∃ parts, InStretches text parts := by
  induction hn : text.length using Nat.strongRecOn generalizing text with
  | ind n ih =>
    cases text with
    | nil => exact ⟨[], .nil⟩
    | cons c rest =>
      by_cases h : StartsEscape (c :: rest)
      · obtain ⟨hi, lo, tail, htext, hhi, hlo⟩ := h
        rw [htext] at hn ⊢
        simp only [List.length_cons] at hn
        obtain ⟨parts, hparts⟩ := ih tail.length (by omega) tail rfl
        exact hparts.cons_escape ⟨hi, lo, rfl, hhi, hlo⟩
      · simp only [List.length_cons] at hn
        obtain ⟨parts, hparts⟩ := ih rest.length (by omega) rest rfl
        exact hparts.cons_plain h

/-! ## 4. Reading run by run -/

theorem decodeRuns_escapes (rest : List Piece) : ∀ (run : List Piece) {escapes : List Piece},
    (∀ p ∈ escapes, p.IsEscape) →
    decodeRuns run (escapes ++ rest) = decodeRuns (run ++ escapes) rest
  | run, [], _ => by rw [List.nil_append, List.append_nil]
  | run, p :: escapes, h => by
    obtain ⟨hi, lo, rfl, -⟩ := h p List.mem_cons_self
    rw [List.cons_append, decodeRuns,
      decodeRuns_escapes rest _ fun q hq => h q (List.mem_cons_of_mem _ hq), List.append_assoc]
    rfl

/-- A run is read where no escape follows it. -/
theorem decodeRuns_close (run : List Piece) {rest : List Char} (h : ¬ StartsEscape rest) :
    decodeRuns run (pieces rest) = decodeRun run ++ decodeRuns [] (pieces rest) := by
  cases rest with
  | nil => exact (List.append_nil _).symm
  | cons c rest =>
    rw [pieces_of_not_startsEscape h]
    rfl

theorem decodeRuns_plain (rest : List Piece) : ∀ text : List Char,
    decodeRuns [] (text.map .plain ++ rest) = text ++ decodeRuns [] rest
  | [] => rfl
  | c :: text => by
    rw [List.map_cons, List.cons_append, decodeRuns, decodeRuns_plain rest text]
    rfl

/-- **Reading run by run reads each stretch on its own.** -/
theorem decodeRuns_pieces {text : List Char} {parts : List Stretch} (h : InStretches text parts) :
    decodeRuns [] (pieces text) = parts.flatMap Stretch.decoded := by
  induction h with
  | nil => rfl
  | run hne hes hlast h ih =>
    rw [pieces_run _ hes, decodeRuns_escapes _ _ hes, List.nil_append, decodeRuns_close _ hlast, ih,
      List.flatMap_cons]
    rfl
  | gap hne hplain hlast h ih =>
    rw [pieces_gap hplain, decodeRuns_plain, ih, List.flatMap_cons]
    rfl

/-! ## 5. Reading as a whole -/

/-- The bytes that stand for a text. -/
def bytes (text : List Char) : List UInt8 :=
  (pieces text).flatMap Piece.bytes

theorem bytes_run (rest : List Char) {escapes : List Piece} (h : ∀ p ∈ escapes, p.IsEscape) :
    bytes (escapes.flatMap Piece.text ++ rest) = escapes.flatMap Piece.bytes ++ bytes rest := by
  rw [bytes, pieces_run rest h, List.flatMap_append]
  rfl

theorem bytes_gap {text rest : List Char}
    (h : ∀ tail, tail <:+ text → tail ≠ [] → ¬ StartsEscape (tail ++ rest)) :
    bytes (text ++ rest) = Utf8.encode text ++ bytes rest := by
  rw [bytes, pieces_gap h, List.flatMap_append, List.flatMap_map]
  rfl

/-- What follows a run does not continue a character of it. -/
theorem isContinuation_head_bytes {rest : List Char} (h : ¬ StartsEscape rest) :
    ∀ b ∈ (bytes rest).head?, Utf8.isContinuation b = false := by
  cases rest with
  | nil =>
    intro b hb
    cases hb
  | cons c rest =>
    rw [bytes, pieces_of_not_startsEscape h, List.flatMap_cons, Piece.bytes]
    cases hc : String.utf8EncodeChar c with
    | nil => exact absurd hc String.utf8EncodeChar_ne_nil
    | cons b bs =>
      have hb := Utf8.isContinuation_head c
      rw [hc] at hb
      exact hb

/-- **A text that is read as a whole is read stretch by stretch**, and each of its runs is the bytes of a
    text. A run is cut off in front of a plain character, whose bytes do not continue it. -/
theorem decoded_of_decode? {text : List Char} {parts : List Stretch} (h : InStretches text parts) :
    ∀ {whole : List Char}, Utf8.decode? (bytes text) = some whole →
      parts.flatMap Stretch.decoded = whole ∧
        ∀ escapes, .run escapes ∈ parts → (Utf8.decode? (escapes.flatMap Piece.bytes)).isSome := by
  induction h with
  | nil =>
    intro whole hw
    exact ⟨Option.some.inj hw, fun escapes he => absurd he List.not_mem_nil⟩
  | @run escapes rest parts hne hes hlast h ih =>
    intro whole hw
    rw [bytes_run rest hes, Utf8.decode?_append (isContinuation_head_bytes hlast)] at hw
    obtain ⟨front, hfront, hw⟩ := Option.bind_eq_some_iff.mp hw
    obtain ⟨back, hback, rfl⟩ := Option.map_eq_some_iff.mp hw
    obtain ⟨hdecoded, hruns⟩ := ih hback
    refine ⟨?_, fun es he => ?_⟩
    · rw [List.flatMap_cons, hdecoded, Stretch.decoded, decodeRun, hfront]
      rfl
    · rcases List.mem_cons.mp he with he | he
      · rw [Stretch.run.inj he, hfront]
        rfl
      · exact hruns es he
  | @gap text rest parts hne hplain hlast h ih =>
    intro whole hw
    rw [bytes_gap hplain, Utf8.decode?_encode_append] at hw
    obtain ⟨back, hback, rfl⟩ := Option.map_eq_some_iff.mp hw
    obtain ⟨hdecoded, hruns⟩ := ih hback
    refine ⟨?_, fun es he => ?_⟩
    · rw [List.flatMap_cons, hdecoded]
      rfl
    · rcases List.mem_cons.mp he with he | he
      · cases he
      · exact hruns es he

theorem decodeRuns_pieces_plain {text : List Char} (h : '%' ∉ text) :
    decodeRuns [] (pieces text) = text := by
  have hplain : ∀ tail, tail <:+ text → tail ≠ [] → ¬ StartsEscape (tail ++ []) := by
    intro tail ht _ he
    obtain ⟨hi, lo, rest, he, -⟩ := he
    rw [List.append_nil] at he
    exact h (ht.mem (he ▸ List.mem_cons_self))
  have := decodeRuns_plain (pieces []) text
  rwa [← pieces_gap hplain, List.append_nil, show decodeRuns [] (pieces []) = [] from rfl,
    List.append_nil] at this

/-- **Reading as a whole is only a short cut.** Every text is read as it is when each of its runs of
    escapes is read on its own: as the text that its bytes spell, or as it is written if they spell none.
    If the bytes of the whole text spell one, so do those of each run. -/
theorem decode_by_runs (text : String) :
    decode text = String.ofList (decodeRuns [] (pieces text.toList)) ∧
      (∃ parts, InStretches text.toList parts) ∧
      ∀ parts, InStretches text.toList parts →
        (decode text).toList = parts.flatMap Stretch.decoded ∧
          ((Utf8.decode? (bytes text.toList)).isSome → ∀ escapes, .run escapes ∈ parts →
            (Utf8.decode? (escapes.flatMap Piece.bytes)).isSome) := by
  have hread : decodeChars text.toList = decodeRuns [] (pieces text.toList) := by
    rw [decodeChars]
    by_cases hp : '%' ∈ text.toList
    · rw [if_pos (by simpa using hp)]
      cases hw : Utf8.decode? ((pieces text.toList).flatMap Piece.bytes) with
      | none => simp [hw]
      | some whole =>
        obtain ⟨parts, h⟩ := exists_inStretches text.toList
        rw [decodeRuns_pieces h, (decoded_of_decode? h hw).1]
        simp [hw]
    · rw [if_neg (by simpa using hp), decodeRuns_pieces_plain hp]
  refine ⟨congrArg String.ofList hread, exists_inStretches text.toList, fun parts h => ⟨?_, ?_⟩⟩
  · rw [decode, String.toList_ofList, hread, decodeRuns_pieces h]
  · intro hw
    obtain ⟨whole, hw⟩ := Option.isSome_iff_exists.mp hw
    exact (decoded_of_decode? h hw).2

/-- Two runs, of which the second breaks off in the middle of a character. -/
theorem decode_by_runs_broken :
    InStretches "%C3%A4-%E2%82".toList
        [.run [.escape 'C' '3', .escape 'A' '4'], .gap ['-'], .run [.escape 'E' '2', .escape '8' '2']] ∧
      (decode "%C3%A4-%E2%82").toList = "ä-%E2%82".toList := by
  have escapes : ∀ {a b c d : Char}, isHex a ∧ isHex b ∧ isHex c ∧ isHex d →
      ∀ p ∈ [Piece.escape a b, Piece.escape c d], p.IsEscape := by
    intro a b c d h
    obtain ⟨ha, hb, hc, hd⟩ := h
    rw [List.forall_mem_cons, List.forall_mem_singleton]
    exact ⟨⟨a, b, rfl, ha, hb⟩, ⟨c, d, rfl, hc, hd⟩⟩
  have hgap : ∀ tail, tail <:+ ['-'] → tail ≠ [] → ¬ StartsEscape (tail ++ "%E2%82".toList) := by
    intro tail ht hne
    rcases List.suffix_cons_iff.mp ht with rfl | ht
    · exact not_startsEscape_cons (by decide) _
    · exact absurd (List.suffix_nil.mp ht) hne
  have hcut : InStretches "%C3%A4-%E2%82".toList
      [.run [.escape 'C' '3', .escape 'A' '4'], .gap ['-'], .run [.escape 'E' '2', .escape '8' '2']] :=
    .run (List.cons_ne_nil _ _) (escapes (by decide)) (not_startsEscape_cons (by decide) _)
      (.gap (List.cons_ne_nil _ _) hgap (.inr ⟨'E', '2', _, rfl, by decide, by decide⟩)
        (.run (List.cons_ne_nil _ _) (escapes (by decide)) not_startsEscape_nil .nil))
  exact ⟨hcut, ((decode_by_runs _).2.2 _ hcut).1.trans (by decide +kernel)⟩

end Percent
end RouteTree.Text
