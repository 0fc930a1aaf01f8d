import Mathlib.Data.List.Induction
import RouteTree.Origin.Ipv6
import RouteTree.Proofs.Text.Codec

/-!
# Addresses are read back

An address in a host is written in one form and read in many. What is written is read back:

* `number?_toDigits`: the digits of a number, in any base that an address uses;
* `Ipv4.parse?_render`: four decimal bytes, for every address that fits into them;
* `Ipv6.parse?_render`: groups in their shortest form, with the one gap that may stand for zeros.

And what is read can be written: `Ipv4.lt_of_parse?` and `Ipv6.isAddress_of_parse?`.
-/

namespace RouteTree.Origin

open Text.Percent (hexValue?)

/-! ## 1. Numbers -/

section
variable {base : Nat}

theorem hexValue?_digitChar : ∀ d < 16, hexValue? d.digitChar = some d := by
  decide

theorem isAlphanum_digitChar : ∀ d < 16, d.digitChar.isAlphanum = true := by
  decide

/-- The digits of a number are letters and digits. -/
theorem isAlphanum_of_mem_toDigits (h1 : 1 < base) (h16 : base ≤ 16) (n : Nat) :
    ∀ c ∈ Nat.toDigits base n, c.isAlphanum = true := by
  induction n using Nat.strongRecOn with
  | ind n ih =>
    intro c hc
    rw [Nat.toDigits_eq_if h1] at hc
    split at hc
    · rw [List.mem_singleton.mp hc]
      exact isAlphanum_digitChar n (by omega)
    · rename_i hn
      have hmod : n % base < base := Nat.mod_lt n (by omega)
      rcases List.mem_append.mp hc with hc | hc
      · exact ih (n / base) (Nat.div_lt_self (by omega) h1) c hc
      · rw [List.mem_singleton.mp hc]
        exact isAlphanum_digitChar _ (by omega)

theorem not_mem_toDigits (h1 : 1 < base) (h16 : base ≤ 16) (n : Nat) {c : Char}
    (hc : c.isAlphanum = false) : c ∉ Nat.toDigits base n := fun h => by
  rw [isAlphanum_of_mem_toDigits h1 h16 n c h] at hc
  cases hc

/-- Only the digits of zero start with a zero. -/
theorem head?_toDigits (h1 : 1 < base) (h16 : base ≤ 16) {n : Nat} (hn : n ≠ 0) :
    (Nat.toDigits base n).head? ≠ some '0' := by
  have hdigit : ∀ d < 16, d.digitChar = '0' → d = 0 := by decide
  induction n using Nat.strongRecOn with
  | ind n ih =>
    rw [Nat.toDigits_eq_if h1]
    split
    · exact fun h => hn (hdigit n (by omega) (Option.some.inj h))
    · rename_i hb
      have hfront : (Nat.toDigits base (n / base) ++ [(n % base).digitChar]).head?
          = (Nat.toDigits base (n / base)).head? := by
        cases h : Nat.toDigits base (n / base) with
        | nil => exact absurd h Nat.toDigits_ne_nil
        | cons c rest => rfl
      rw [hfront]
      exact ih (n / base) (Nat.div_lt_self (by omega) h1)
        (Nat.pos_iff_ne_zero.mp (Nat.div_pos (Nat.not_lt.mp hb) (by omega)))

namespace Ipv4

theorem number?_append_one (text : List Char) (c : Char) :
    number? base (text ++ [c]) = (number? base text).bind fun n =>
      ((hexValue? c).filter (· < base)).map fun d => n * base + d := by
  unfold number?
  rw [List.mapM_append, List.mapM_cons, List.mapM_nil]
  cases text.mapM fun c => (hexValue? c).filter (· < base) with
  | none => rfl
  | some ds =>
    cases (hexValue? c).filter (· < base) with
    | none => rfl
    | some d =>
      show some (ofDigits base (ds ++ [d])) = some (ofDigits base ds * base + d)
      rw [ofDigits, List.foldl_append]
      rfl

theorem number?_digitChar {d : Nat} (hd : d < base) (h16 : base ≤ 16) :
    (hexValue? d.digitChar).filter (· < base) = some d := by
  rw [hexValue?_digitChar d (by omega), Option.filter_some, if_pos (decide_eq_true hd)]

/-- **The digits of a number write this number.** -/
theorem number?_toDigits (h1 : 1 < base) (h16 : base ≤ 16) (n : Nat) :
    number? base (Nat.toDigits base n) = some n := by
  have hnil : number? base [] = some 0 := rfl
  induction n using Nat.strongRecOn with
  | ind n ih =>
    rw [Nat.toDigits_eq_if h1]
    split
    · rename_i hn
      rw [← List.nil_append [n.digitChar], number?_append_one, hnil, Option.bind_some,
        number?_digitChar hn h16, Option.map_some, Nat.zero_mul, Nat.zero_add]
    · rename_i hn
      rw [number?_append_one, ih (n / base) (Nat.div_lt_self (by omega) h1), Option.bind_some,
        number?_digitChar (Nat.mod_lt n (by omega)) h16, Option.map_some, Nat.div_add_mod']

/-- Some digits write a number below the next power. -/
theorem lt_of_number? : ∀ {text : List Char} {n : Nat}, number? base text = some n →
    n < Nat.pow base text.length := by
  intro text
  induction text using List.reverseRecOn with
  | nil =>
    intro n h
    cases h
    exact Nat.one_pos
  | append_singleton text c ih =>
    intro n h
    rw [number?_append_one] at h
    obtain ⟨m, hm, h⟩ := Option.bind_eq_some_iff.mp h
    obtain ⟨d, hd, rfl⟩ := Option.map_eq_some_iff.mp h
    have hlt : d < base := of_decide_eq_true (Option.filter_eq_some_iff.mp hd).2
    have hm : m + 1 ≤ Nat.pow base text.length := ih hm
    have hlen : (text ++ [c]).length = text.length + 1 := by simp
    calc m * base + d < m * base + base := Nat.add_lt_add_left hlt _
      _ = (m + 1) * base := (Nat.succ_mul m base).symm
      _ ≤ Nat.pow base text.length * base := Nat.mul_le_mul_right base hm
      _ = Nat.pow base (text ++ [c]).length := by rw [hlen]; rfl

end Ipv4

end

/-! ## 2. Four decimal bytes -/

namespace Ipv4

theorem part?_toDigits (n : Nat) : part? (Nat.toDigits 10 n) = some n := by
  by_cases hn : n = 0
  · rw [hn]
    rfl
  · have hhead : (Nat.toDigits 10 n).head? ≠ some '0' := head?_toDigits (by omega) (by omega) hn
    have hnumber : number? 10 (Nat.toDigits 10 n) = some n :=
      number?_toDigits (by omega) (by omega) n
    unfold part?
    split
    · rename_i h
      exact absurd h Nat.toDigits_ne_nil
    · rename_i h
      exact absurd (congrArg List.head? h) hhead
    · rename_i h
      exact absurd (congrArg List.head? h) hhead
    · rename_i h
      exact absurd (congrArg List.head? h) hhead
    · exact hnumber

theorem mapM_part? : ∀ numbers : List Nat, (numbers.map (Nat.toDigits 10)).mapM part? = some numbers
  | [] => rfl
  | n :: numbers => by
    rw [List.map_cons, List.mapM_cons, part?_toDigits, mapM_part? numbers]
    rfl

/-- The bytes of an address, the first one first. -/
def bytesOf (address : Nat) : List Nat :=
  [address / 0x1000000 % 256, address / 0x10000 % 256, address / 0x100 % 256, address % 256]

theorem render_eq_intercalate (address : Nat) :
    render address = ['.'].intercalate ((bytesOf address).map (Nat.toDigits 10)) := by
  simp [render, bytesOf, List.intercalate_cons_cons]

/-- The characters of an address. -/
theorem mem_render {address : Nat} {c : Char} (h : c ∈ render address) :
    c.isDigit = true ∨ c = '.' := by
  unfold render at h
  simp only [List.mem_append, List.mem_cons] at h
  have hdigits : ∀ n, c ∈ Nat.toDigits 10 n → c.isDigit = true := fun n hc =>
    Nat.isDigit_of_mem_toDigits (by omega) (by omega) hc
  rcases h with ((h | h | h) | h | h) | h | h
  all_goals first
    | exact Or.inr h
    | exact Or.inl (hdigits _ h)

theorem labels_render (address : Nat) :
    labels (render address) = (bytesOf address).map (Nat.toDigits 10) := by
  have hsplit : (render address).splitOn '.' = (bytesOf address).map (Nat.toDigits 10) := by
    rw [render_eq_intercalate]
    refine List.splitOn_intercalate '.' (fun piece hp => ?_) (by simp [bytesOf])
    obtain ⟨n, -, rfl⟩ := List.mem_map.mp hp
    exact not_mem_toDigits (by omega) (by omega) n (by decide)
  unfold labels
  rw [hsplit]
  exact if_neg fun h => Nat.toDigits_ne_nil (Option.some.inj h)

theorem endsInNumber_render (address : Nat) : endsInNumber (render address) = true := by
  unfold endsInNumber
  rw [labels_render]
  show ((_ && _) || (part? (Nat.toDigits 10 (address % 256))).isSome) = true
  rw [part?_toDigits, Option.isSome_some, Bool.or_true]

/-- **An address is read back.** -/
theorem parse?_render {address : Nat} (h : address < 0x100000000) :
    parse? (render address) = some address := by
  unfold parse?
  rw [labels_render, mapM_part?]
  show ofParts? (bytesOf address) = _
  rw [bytesOf, ofParts?, if_pos (by omega)]
  exact congrArg some (by omega)

/-- What is read is an address. -/
theorem lt_of_parse? {host : List Char} {address : Nat} (h : parse? host = some address) :
    address < 0x100000000 := by
  obtain ⟨parts, -, h⟩ := Option.bind_eq_some_iff.mp h
  unfold ofParts? at h
  split at h
  case h_1 => cases h
  case h_6 => cases h
  all_goals
    split at h
    · cases h
      omega
    · cases h

end Ipv4

/-! ## 3. Eight groups -/

namespace Ipv6

/-- The groups are those of an address. -/
structure IsAddress (groups : List Nat) : Prop where
  length : groups.length = 8
  small : ∀ g ∈ groups, g < 0x10000

theorem colon_not_mem_toDigits (n : Nat) : ':' ∉ Nat.toDigits 16 n :=
  not_mem_toDigits (by omega) (by omega) n (by decide)

theorem joined_cons_cons (g h : Nat) (rest : List Nat) :
    joined (g :: h :: rest) = Nat.toDigits 16 g ++ ':' :: joined (h :: rest) := rfl

theorem joined_eq_intercalate : ∀ groups : List Nat,
    joined groups = [':'].intercalate (groups.map (Nat.toDigits 16))
  | [] => rfl
  | [g] => by simp [joined]
  | g :: h :: rest => by
    rw [joined_cons_cons, joined_eq_intercalate (h :: rest)]
    simp only [List.map_cons]
    rw [List.intercalate_cons_cons, List.append_assoc, List.singleton_append]

theorem joined_ne_nil {groups : List Nat} (h : groups ≠ []) : joined groups ≠ [] := by
  match groups, h with
  | [g], _ => exact Nat.toDigits_ne_nil
  | g :: h :: rest, _ =>
    rw [joined_cons_cons]
    exact List.append_ne_nil_of_left_ne_nil Nat.toDigits_ne_nil _

/-- Digits come first in a text of groups. -/
theorem head_joined {groups : List Nat} (h : groups ≠ []) (tail : List Char) :
    ∃ c rest, c ≠ ':' ∧ joined groups ++ tail = c :: rest := by
  have hfirst : ∀ g, ∃ c rest, c ≠ ':' ∧ Nat.toDigits 16 g = c :: rest := fun g => by
    obtain ⟨c, rest, hc⟩ := List.exists_cons_of_ne_nil (Nat.toDigits_ne_nil (b := 16) (n := g))
    refine ⟨c, rest, fun hcolon => colon_not_mem_toDigits g ?_, hc⟩
    rw [hc, hcolon]
    exact List.mem_cons_self
  match groups, h with
  | [g], _ =>
    obtain ⟨c, rest, hne, hc⟩ := hfirst g
    exact ⟨c, rest ++ tail, hne, by rw [joined, hc]; rfl⟩
  | g :: h :: more, _ =>
    obtain ⟨c, rest, hne, hc⟩ := hfirst g
    exact ⟨c, rest ++ ':' :: joined (h :: more) ++ tail, hne, by rw [joined_cons_cons, hc]; rfl⟩

theorem parts_joined (groups : List Nat) :
    parts (joined groups) = groups.map (Nat.toDigits 16) := by
  by_cases h : groups = []
  · rw [h]
    rfl
  · rw [parts, if_neg (joined_ne_nil h), joined_eq_intercalate]
    refine List.splitOn_intercalate ':' (fun piece hp => ?_) (by simpa using h)
    obtain ⟨n, -, rfl⟩ := List.mem_map.mp hp
    exact colon_not_mem_toDigits n

/-! ### The gap -/

theorem splitGap_cons {c : Char} (h : c ≠ ':') (rest : List Char) :
    splitGap (c :: rest) = (c :: (splitGap rest).1, (splitGap rest).2) := by
  rw [splitGap]
  intro _ hc _
  exact h hc

theorem splitGap_colon {c : Char} (h : c ≠ ':') (rest : List Char) :
    splitGap (':' :: c :: rest) = (':' :: (splitGap (c :: rest)).1, (splitGap (c :: rest)).2) := by
  rw [splitGap]
  intro _ _ hc
  exact h (List.cons.inj hc).1

theorem splitGap_append : ∀ {text : List Char}, ':' ∉ text → ∀ tail,
    splitGap (text ++ tail) = (text ++ (splitGap tail).1, (splitGap tail).2)
  | [], _, _ => rfl
  | c :: text, h, tail => by
    have hc : c ≠ ':' := fun e => h (e ▸ List.mem_cons_self)
    rw [List.cons_append, splitGap_cons hc,
      splitGap_append (fun hm => h (List.mem_cons_of_mem c hm)) tail]
    rfl

/-- No gap starts before the end of some groups. -/
theorem splitGap_joined : ∀ (groups : List Nat) (tail : List Char),
    splitGap (joined groups ++ tail) = (joined groups ++ (splitGap tail).1, (splitGap tail).2)
  | [], _ => rfl
  | [g], tail => splitGap_append (colon_not_mem_toDigits g) tail
  | g :: h :: rest, tail => by
    obtain ⟨c, more, hne, hc⟩ := head_joined (List.cons_ne_nil h rest) tail
    have ih := splitGap_joined (h :: rest) tail
    rw [hc] at ih
    rw [joined_cons_cons, List.append_assoc, splitGap_append (colon_not_mem_toDigits g),
      List.cons_append, hc, splitGap_colon hne, ih, List.append_assoc]
    rfl

/-! ### Groups -/

theorem group?_toDigits {g : Nat} (h : g < 0x10000) : group? (Nat.toDigits 16 g) = some g := by
  have hlen : (Nat.toDigits 16 g).length ≤ 4 :=
    (Nat.length_toDigits_le_iff (by omega) (by omega)).mpr (by omega)
  rw [group?, if_pos ⟨Nat.toDigits_ne_nil, hlen⟩]
  exact Ipv4.number?_toDigits (by omega) (by omega) g

theorem groups?_toDigits (atEnd : Bool) : ∀ {groups : List Nat}, (∀ g ∈ groups, g < 0x10000) →
    groups? atEnd (groups.map (Nat.toDigits 16)) = some groups
  | [], _ => rfl
  | [g], h => by
    have hmem : '.' ∉ Nat.toDigits 16 g := not_mem_toDigits (by omega) (by omega) g (by decide)
    have hdot : (Nat.toDigits 16 g).contains '.' = false := by simpa using hmem
    rw [List.map_singleton, groups?, hdot, if_neg (by simp),
      group?_toDigits (h g List.mem_cons_self)]
    rfl
  | g :: k :: rest, h => by
    have ih : groups? atEnd ((k :: rest).map (Nat.toDigits 16)) = some (k :: rest) :=
      groups?_toDigits atEnd fun x hx => h x (List.mem_cons_of_mem g hx)
    rw [List.map_cons] at ih ⊢
    rw [List.map_cons, groups?, group?_toDigits (h g List.mem_cons_self), ih]
    · rfl
    · simp

theorem lt_of_group? {text : List Char} {g : Nat} (h : group? text = some g) : g < 0x10000 := by
  unfold group? at h
  split at h
  · rename_i hlen
    calc g < Nat.pow 16 text.length := Ipv4.lt_of_number? h
      _ ≤ Nat.pow 16 4 := Nat.pow_le_pow_right (by omega) hlen.2
      _ = 0x10000 := rfl
  · cases h

theorem lt_of_byte? {text : List Char} {b : Nat} (h : byte? text = some b) : b < 256 := by
  unfold byte? at h
  split at h
  · exact of_decide_eq_true (Option.filter_eq_some_iff.mp h).2
  · cases h

theorem mapM_byte?_lt : ∀ {texts : List (List Char)} {bytes : List Nat},
    texts.mapM byte? = some bytes → ∀ b ∈ bytes, b < 256
  | [], bytes, h => by
    cases h
    intro b hb
    cases hb
  | text :: texts, bytes, h => by
    rw [List.mapM_cons] at h
    obtain ⟨first, hfirst, h⟩ := Option.bind_eq_some_iff.mp h
    obtain ⟨rest, hrest, h⟩ := Option.bind_eq_some_iff.mp h
    cases h
    intro b hb
    rcases List.mem_cons.mp hb with rfl | hb
    · exact lt_of_byte? hfirst
    · exact mapM_byte?_lt hrest b hb

theorem lt_of_dotted? {text : List Char} {groups : List Nat} (h : dotted? text = some groups) :
    ∀ g ∈ groups, g < 0x10000 := by
  unfold dotted? at h
  obtain ⟨bytes, hbytes, h⟩ := Option.bind_eq_some_iff.mp h
  split at h
  · rename_i a b c d
    cases h
    have hlt := mapM_byte?_lt hbytes
    simp only [List.mem_cons, List.not_mem_nil, or_false, forall_eq_or_imp, forall_eq] at hlt ⊢
    omega
  · cases h

/-- What is read as groups is small enough for them. -/
theorem lt_of_groups? {atEnd : Bool} : ∀ {texts : List (List Char)} {groups : List Nat},
    groups? atEnd texts = some groups → ∀ g ∈ groups, g < 0x10000
  | [], groups, h => by
    cases h
    intro g hg
    cases hg
  | [last], groups, h => by
    rw [groups?] at h
    split at h
    · exact lt_of_dotted? h
    · obtain ⟨value, hvalue, rfl⟩ := Option.map_eq_some_iff.mp h
      intro g hg
      rw [List.mem_singleton.mp hg]
      exact lt_of_group? hvalue
  | first :: next :: texts, groups, h => by
    rw [groups?] at h
    · obtain ⟨value, hvalue, h⟩ := Option.bind_eq_some_iff.mp h
      obtain ⟨rest, hrest, h⟩ := Option.bind_eq_some_iff.mp h
      cases h
      intro g hg
      rcases List.mem_cons.mp hg with rfl | hg
      · exact lt_of_group? hvalue
      · exact lt_of_groups? hrest g hg
    · intro hnil
      cases hnil

/-! ### Addresses -/

theorem replicate_leadingZeros : ∀ groups : List Nat,
    List.replicate (leadingZeros groups) 0 ++ groups.drop (leadingZeros groups) = groups
  | [] => rfl
  | g :: rest => by
    by_cases hg : g = 0
    · have hlead : leadingZeros (g :: rest) = leadingZeros rest + 1 := by
        simp [leadingZeros, hg]
      rw [hlead, List.replicate_succ, List.drop_succ_cons, List.cons_append,
        replicate_leadingZeros rest, hg]
    · have hlead : leadingZeros (g :: rest) = 0 := by
        simp [leadingZeros, hg]
      rw [hlead]
      rfl

/-- **The longest run is a run of zeros**, between what stands before and after it. -/
theorem replicate_longestRun : ∀ groups : List Nat,
    groups.take (longestRun groups).1 ++ List.replicate (longestRun groups).2 0
      ++ groups.drop ((longestRun groups).1 + (longestRun groups).2) = groups
  | [] => rfl
  | g :: rest => by
    have ih := replicate_longestRun rest
    rw [longestRun]
    dsimp only
    split
    · rw [Nat.zero_add]
      exact replicate_leadingZeros (g :: rest)
    · rw [List.take_succ_cons, Nat.add_right_comm, List.drop_succ_cons, List.cons_append,
        List.cons_append, ih]

/-- **An address is read back.** The gap is filled with the zeros that are missing. -/
theorem parse?_render {groups : List Nat} (h : IsAddress groups) :
    parse? (render groups) = some groups := by
  have hrun := replicate_longestRun groups
  unfold render
  dsimp only
  split
  · -- no run is long enough for a gap
    have hgap := splitGap_joined groups []
    rw [List.append_nil] at hgap
    have hnil : splitGap [] = ([], none) := rfl
    rw [hnil, List.append_nil] at hgap
    rw [parse?, hgap]
    dsimp only
    rw [parts_joined, groups?_toDigits true h.small, Option.filter_some,
      if_pos (decide_eq_true h.length)]
  · rename_i hlong
    generalize (longestRun groups).1 = start at hrun ⊢
    generalize hzeros : (longestRun groups).2 = zeros at hrun hlong ⊢
    generalize groups.take start = left at hrun ⊢
    generalize groups.drop (start + zeros) = right at hrun ⊢
    subst hrun
    have hlength := h.length
    simp only [List.length_append, List.length_replicate] at hlength
    have hleft : ∀ g ∈ left, g < 0x10000 := fun g hg => h.small g (by simp [hg])
    have hright : ∀ g ∈ right, g < 0x10000 := fun g hg => h.small g (by simp [hg])
    have hgap : splitGap (joined left ++ ':' :: ':' :: joined right)
        = (joined left, some (joined right)) := by
      have htail : splitGap (':' :: ':' :: joined right) = ([], some (joined right)) := rfl
      rw [splitGap_joined, htail, List.append_nil]
    rw [parse?, hgap]
    dsimp only
    rw [parts_joined, parts_joined, groups?_toDigits false hleft, groups?_toDigits true hright]
    show (if left.length + right.length < 8 then _ else _) = _
    rw [if_pos (by omega)]
    have hmissing : 8 - left.length - right.length = zeros := by omega
    rw [hmissing]

theorem mem_joined : ∀ {groups : List Nat} {c : Char}, c ∈ joined groups →
    c.isAlphanum = true ∨ c = ':'
  | [g], c, h => Or.inl (isAlphanum_of_mem_toDigits (by omega) (by omega) g c h)
  | g :: k :: rest, c, h => by
    rw [joined_cons_cons] at h
    rcases List.mem_append.mp h with h | h
    · exact Or.inl (isAlphanum_of_mem_toDigits (by omega) (by omega) g c h)
    · rcases List.mem_cons.mp h with rfl | h
      · exact Or.inr rfl
      · exact mem_joined h

/-- The characters of an address. -/
theorem mem_render {groups : List Nat} {c : Char} (h : c ∈ render groups) :
    c.isAlphanum = true ∨ c = ':' := by
  unfold render at h
  dsimp only at h
  split at h
  · exact mem_joined h
  · rcases List.mem_append.mp h with h | h
    · exact mem_joined h
    · rcases List.mem_cons.mp h with rfl | h
      · exact Or.inr rfl
      · rcases List.mem_cons.mp h with rfl | h
        · exact Or.inr rfl
        · exact mem_joined h

/-- What is read is an address. -/
theorem isAddress_of_parse? {text : List Char} {groups : List Nat} (h : parse? text = some groups) :
    IsAddress groups := by
  unfold parse? at h
  split at h
  · obtain ⟨hgroups, hlen⟩ := Option.filter_eq_some_iff.mp h
    exact ⟨of_decide_eq_true hlen, lt_of_groups? hgroups⟩
  · obtain ⟨left, hleft, h⟩ := Option.bind_eq_some_iff.mp h
    obtain ⟨right, hright, h⟩ := Option.bind_eq_some_iff.mp h
    split at h
    · rename_i hlt
      cases h
      refine ⟨?_, fun g hg => ?_⟩
      · simp only [List.length_append, List.length_replicate]
        omega
      · rcases List.mem_append.mp hg with hg | hg
        · rcases List.mem_append.mp hg with hg | hg
          · exact lt_of_groups? hleft g hg
          · rw [List.eq_of_mem_replicate hg]
            omega
        · exact lt_of_groups? hright g hg
    · cases h

end Ipv6

end RouteTree.Origin
