import RouteTree.Origin.Authority
import RouteTree.Proofs.Origin.Address

/-!
# Hosts in normal form

A host that has been read is written in normal form, and this form is read as the same host:

* `of_ascii` leaves finitely many characters to look at;
* `OfWeb` and `OfName` are the hosts that the two kinds of schemes read, `OfWeb.again` and
  `OfName.again` say that they are read back;
* `host_again` puts them together, and `Of.render_cases` says what such a host looks like: it is a name
  without colon and brackets, or an address in brackets.
-/

namespace RouteTree.Origin

open Text.Percent (encode)

/-! ## 1. Characters -/

/-- What holds of the characters of a class needs a look at the first 128 characters only, if the class
    has no others. -/
theorem of_ascii {p : Char → Bool} {q : Char → Prop} (hp : ∀ c, p c = true → c.toNat < 128)
    (h : ∀ n < 128, p (Char.ofNat n) = true → q (Char.ofNat n)) {c : Char} (hc : p c = true) : q c := by
  have hq := h c.toNat (hp c hc)
  rw [Char.ofNat_toNat] at hq
  exact hq hc

theorem ascii_of_isAlphanum (c : Char) (h : c.isAlphanum = true) : c.toNat < 128 := by
  rcases Bool.or_eq_true_iff.mp h with halpha | hdigit
  · rcases Bool.or_eq_true_iff.mp halpha with hupper | hlower
    · have hle : c.val ≤ 90 := (of_decide_eq_true hupper).2
      exact Nat.lt_of_le_of_lt (UInt32.le_iff_toNat_le.mp hle) (by decide)
    · have hle : c.val ≤ 122 := of_decide_eq_true (Bool.and_eq_true_iff.mp hlower).2
      exact Nat.lt_of_le_of_lt (UInt32.le_iff_toNat_le.mp hle) (by decide)
  · have hle : c.val ≤ 57 := of_decide_eq_true (Bool.and_eq_true_iff.mp hdigit).2
    exact Nat.lt_of_le_of_lt (UInt32.le_iff_toNat_le.mp hle) (by decide)

/-- The marks that no authority in normal form holds. -/
def originStops : List Char := ['/', '?', '#', '\\']

/-- A character of an authority in normal form. It is not dropped as a blank, and does not end the
    authority. -/
def isOriginChar (c : Char) : Bool := 0x20 < c.toNat && !originStops.contains c

/-- A character of a host or a port in normal form. It does not end the part in front of the host
    either. -/
def isHostChar (c : Char) : Bool := isOriginChar c && c ≠ '@'

theorem isHostChar_of_isAlphanum {c : Char} (h : c.isAlphanum = true) : isHostChar c = true :=
  of_ascii (q := fun c => isHostChar c = true) ascii_of_isAlphanum (by decide +kernel) h

/-! ## 2. Hosts -/

namespace Host

/-- A domain in lower case. -/
def IsDomain (text : List Char) : Prop := ∀ c ∈ text, isDomainChar c = true ∧ c.toLower = c

/-- A name without the marks that no name holds. -/
def IsName (text : List Char) : Prop :=
  ∀ c ∈ text, isPrintable c = true ∧ nameStops.contains c = false

/-- A host of a scheme of the web that has been read. -/
inductive OfWeb : Host → Prop where
  | ipv6 {groups} : Ipv6.IsAddress groups → OfWeb (.ipv6 groups)
  | ipv4 {address} : address < 0x100000000 → OfWeb (.ipv4 address)
  | name {text} : text ≠ [] → IsDomain text → Ipv4.endsInNumber text = false → OfWeb (.name text)

/-- A host of another scheme that has been read. -/
inductive OfName : Host → Prop where
  | ipv6 {groups} : Ipv6.IsAddress groups → OfName (.ipv6 groups)
  | name {text} : IsName text → OfName (.name text)

theorem isAddress_of_bracketed {text : List Char} {h : Host} (hb : bracketed text = .ok h) :
    ∃ groups, h = .ipv6 groups ∧ Ipv6.IsAddress groups := by
  unfold bracketed at hb
  split at hb
  · cases hb
  · rename_i groups hgroups
    cases hb
    obtain ⟨inner, -, hparse⟩ := Option.bind_eq_some_iff.mp hgroups
    exact ⟨groups, rfl, Ipv6.isAddress_of_parse? hparse⟩

/-- An address in brackets is read back. -/
theorem bracketed_render {groups : List Nat} (h : Ipv6.IsAddress groups) :
    bracketed (render (.ipv6 groups)) = .ok (.ipv6 groups) := by
  have hinner : unbracket? ('[' :: (Ipv6.render groups ++ [']'])) = some (Ipv6.render groups) := by
    rw [unbracket?, List.getLast?_concat, if_pos rfl, List.dropLast_concat]
  show bracketed ('[' :: (Ipv6.render groups ++ [']'])) = _
  rw [bracketed, hinner, Option.bind_some, Ipv6.parse?_render h]

/-! ### Domains -/

theorem ascii_of_isDomainChar (c : Char) (h : isDomainChar c = true) : c.toNat < 128 := by
  simp only [isDomainChar, Bool.and_eq_true, decide_eq_true_eq] at h
  omega

theorem toLower_domainChar {c : Char} (h : isDomainChar c = true) :
    isDomainChar c.toLower = true ∧ c.toLower.toLower = c.toLower :=
  of_ascii (q := fun c => isDomainChar c.toLower = true ∧ c.toLower.toLower = c.toLower)
    ascii_of_isDomainChar (by decide +kernel) h

/-- A domain in lower case is its own normal form. -/
theorem domain?_eq_self {text : List Char} (h : IsDomain text) : domain? text = some text := by
  have hencode : encode isDomainChar text = text :=
    Text.Percent.encode_of_all fun c hc => (h c hc).1
  have hbytes : (Text.Percent.pieces text).flatMap Text.Percent.Piece.bytes
      = Text.Utf8.encode text := by
    conv => lhs; rw [← hencode]
    exact Text.Percent.bytes_pieces_encode (by decide) text
  have hall : text.all isDomainChar = true := List.all_eq_true.mpr fun c hc => (h c hc).1
  have hlower : text.map Char.toLower = text := by
    rw [List.map_congr_left fun c hc => (h c hc).2, List.map_id']
  unfold domain?
  rw [hbytes, Text.Utf8.decode?_encode]
  show (if text.all isDomainChar = true then some (text.map Char.toLower) else none) = some text
  rw [if_pos hall, hlower]

theorem isDomain_of_domain? {text domain : List Char} (h : domain? text = some domain) :
    IsDomain domain := by
  unfold domain? at h
  obtain ⟨decoded, -, h⟩ := Option.bind_eq_some_iff.mp h
  split at h
  · rename_i hall
    cases h
    intro c hc
    obtain ⟨d, hd, rfl⟩ := List.mem_map.mp hc
    exact toLower_domainChar (List.all_eq_true.mp hall d hd)
  · cases h

/-- What the web reads is a host of the web. -/
theorem ofWeb_of_read {text : List Char} {h : Host} (hr : ofWeb text = .ok h) : OfWeb h := by
  unfold ofWeb at hr
  split at hr
  · obtain ⟨groups, rfl, hgroups⟩ := isAddress_of_bracketed hr
    exact .ipv6 hgroups
  · split at hr
    · cases hr
    · cases hr
    · rename_i domain hne hdomain
      split at hr
      · split at hr
        · cases hr
        · rename_i address haddress
          cases hr
          exact .ipv4 (Ipv4.lt_of_parse? haddress)
      · rename_i hnumber
        cases hr
        refine .name hne (isDomain_of_domain? hdomain) ?_
        exact Bool.eq_false_iff.mpr hnumber

theorem isDomain_ipv4 (address : Nat) : IsDomain (Ipv4.render address) := by
  have hascii : ∀ c : Char, c.isDigit = true → c.toNat < 128 := fun c hc =>
    ascii_of_isAlphanum c (Bool.or_eq_true_iff.mpr (Or.inr hc))
  intro c hc
  rcases Ipv4.mem_render hc with hdigit | rfl
  · exact of_ascii (q := fun c => isDomainChar c = true ∧ c.toLower = c) hascii (by decide +kernel)
      hdigit
  · decide

/-- A domain in lower case is an address if it ends in a number, and else a name. -/
theorem ofWeb_domain {text : List Char} (hne : text ≠ []) (hdomain : IsDomain text) : ofWeb text =
      if Ipv4.endsInNumber text then
        (Ipv4.parse? text).elim (.error .ipv4Address) fun address => .ok (.ipv4 address)
      else .ok (.name text) := by
  have hhead : text.head? ≠ some '[' := fun hb => by
    have := (hdomain '[' (List.mem_of_head? hb)).1
    revert this
    decide
  rw [ofWeb, if_neg hhead, domain?_eq_self hdomain]
  cases text with
  | nil => exact absurd rfl hne
  | cons c rest =>
    dsimp only
    split
    · cases Ipv4.parse? (c :: rest) <;> rfl
    · rfl

/-- **A host of the web is read back.** -/
theorem OfWeb.again {h : Host} (hw : OfWeb h) : ofWeb h.render = .ok h := by
  cases hw with
  | @ipv6 groups hgroups =>
    have hhead : (render (.ipv6 groups)).head? = some '[' := rfl
    rw [ofWeb, if_pos hhead, bracketed_render hgroups]
  | @ipv4 address hlt =>
    have hne : Ipv4.render address ≠ [] := by simp [Ipv4.render]
    show ofWeb (Ipv4.render address) = _
    rw [ofWeb_domain hne (isDomain_ipv4 address), if_pos (Ipv4.endsInNumber_render address),
      Ipv4.parse?_render hlt, Option.elim_some]
  | @name text hne hdomain hnumber =>
    show ofWeb text = _
    rw [ofWeb_domain hne hdomain, hnumber, if_neg Bool.false_ne_true]

/-! ### Names -/

theorem ofName_of_read {text : List Char} {h : Host} (hr : ofName text = .ok h) : OfName h := by
  unfold ofName at hr
  split at hr
  · obtain ⟨groups, rfl, hgroups⟩ := isAddress_of_bracketed hr
    exact .ipv6 hgroups
  · split at hr
    · cases hr
    · rename_i hstops
      cases hr
      have hdigit : ∀ n < 16, isPrintable (Text.Percent.hexDigit n) = true ∧
          nameStops.contains (Text.Percent.hexDigit n) = false := by decide
      refine .name fun c hc => ?_
      rcases Text.Percent.mem_encode hc with ⟨hmem, hprint⟩ | rfl | ⟨n, hn, rfl⟩
      · exact ⟨hprint, Bool.eq_false_iff.mpr fun hstop => hstops (List.any_eq_true.mpr ⟨c, hmem, hstop⟩)⟩
      · decide
      · exact hdigit n hn

/-- **A host of another scheme is read back.** -/
theorem OfName.again {h : Host} (hn : OfName h) : ofName h.render = .ok h := by
  cases hn with
  | @ipv6 groups hgroups =>
    have hhead : (render (.ipv6 groups)).head? = some '[' := rfl
    rw [ofName, if_pos hhead, bracketed_render hgroups]
  | @name text htext =>
    have hhead : text.head? ≠ some '[' := fun hb => by
      have := (htext '[' (List.mem_of_head? hb)).2
      revert this
      decide
    have hstops : ¬ text.any nameStops.contains = true := fun hany => by
      obtain ⟨c, hc, hstop⟩ := List.any_eq_true.mp hany
      rw [(htext c hc).2] at hstop
      cases hstop
    show ofName text = _
    rw [ofName, if_neg hhead, if_neg hstops,
      Text.Percent.encode_of_all fun c hc => (htext c hc).1]

/-! ### Hosts of a scheme -/

/-- A host that has been read under a scheme. -/
def Of (kind : SchemeKind) (h : Host) : Prop := if kind.isSpecial then OfWeb h else OfName h

theorem of_host {kind : SchemeKind} {text : List Char} {h : Host} (hr : host kind text = .ok h) :
    Of kind h := by
  unfold host at hr
  unfold Of
  split at hr
  · rename_i hs
    rw [if_pos hs]
    split at hr
    · cases hr
    · exact ofWeb_of_read hr
  · rename_i hs
    rw [if_neg hs]
    exact ofName_of_read hr

theorem OfWeb.render_ne_nil {h : Host} (hw : OfWeb h) : h.render ≠ [] := by
  cases hw with
  | ipv6 _ => exact List.cons_ne_nil _ _
  | ipv4 _ => simp [render, Ipv4.render]
  | name hne _ _ => exact hne

/-- **A host is its own normal form.** -/
theorem host_again {kind : SchemeKind} {h : Host} (hk : Of kind h) : host kind h.render = .ok h := by
  unfold Of at hk
  unfold host
  split at hk
  · rename_i hs
    rw [if_pos hs, if_neg hk.render_ne_nil, hk.again]
  · rename_i hs
    rw [if_neg hs, hk.again]

/-- A character of a name in normal form. -/
def isNameChar (c : Char) : Bool := isHostChar c && c ≠ ':' && c ≠ '[' && c ≠ ']'

theorem isNameChar_iff {c : Char} : isNameChar c = true ↔
    isHostChar c = true ∧ c ≠ ':' ∧ c ≠ '[' ∧ c ≠ ']' := by
  simp [isNameChar, and_assoc]

theorem isNameChar_of_domain {c : Char} (h : isDomainChar c = true) : isNameChar c = true :=
  of_ascii (q := fun c => isNameChar c = true) ascii_of_isDomainChar (by decide +kernel) h

theorem ascii_of_isPrintable (c : Char) (h : isPrintable c = true) : c.toNat < 128 := by
  simp only [isPrintable, Bool.and_eq_true, decide_eq_true_eq] at h
  omega

theorem isNameChar_of_printable {c : Char} (h : isPrintable c = true)
    (hs : nameStops.contains c = false) : isNameChar c = true :=
  of_ascii (q := fun c => nameStops.contains c = false → isNameChar c = true) ascii_of_isPrintable
    (by decide +kernel) h hs

/-- A host is a name without colon and brackets, or an address in brackets. -/
theorem Of.render_cases {kind : SchemeKind} {h : Host} (hk : Of kind h) :
    (∀ c ∈ h.render, isNameChar c = true) ∨ ∃ groups, h = .ipv6 groups := by
  unfold Of at hk
  split at hk
  · cases hk with
    | ipv6 _ => exact Or.inr ⟨_, rfl⟩
    | @ipv4 address _ =>
      exact Or.inl fun c hc => isNameChar_of_domain (isDomain_ipv4 address c hc).1
    | name _ hdomain _ => exact Or.inl fun c hc => isNameChar_of_domain (hdomain c hc).1
  · cases hk with
    | ipv6 _ => exact Or.inr ⟨_, rfl⟩
    | name htext =>
      exact Or.inl fun c hc => isNameChar_of_printable (htext c hc).1 (htext c hc).2

theorem Of.isHostChar {kind : SchemeKind} {h : Host} (hk : Of kind h) :
    ∀ c ∈ h.render, isHostChar c = true := by
  intro c hc
  rcases hk.render_cases with hname | ⟨groups, rfl⟩
  · exact (isNameChar_iff.mp (hname c hc)).1
  · rcases List.mem_cons.mp hc with rfl | hc
    · decide
    · rcases List.mem_append.mp hc with hc | hc
      · rcases Ipv6.mem_render hc with halpha | rfl
        · exact isHostChar_of_isAlphanum halpha
        · decide
      · rw [List.mem_singleton.mp hc]
        decide

end Host

end RouteTree.Origin
