import Mathlib.Data.List.TakeWhile
import RouteTree.Event
import RouteTree.Proofs.Origin.Host

/-!
# Authorities in normal form

The normal form of an authority is made of three parts: who asks, which host, which port. This file
says that each is its own normal form, and so is what they make together:

* `port_again` and `userinfo_again` are the parts beside the host;
* `splitPort_render` and `splitUserinfo_append` cut the parts apart again;
* `authority_cases` finds the parts in what has been read, and `authority_again` puts them together.
-/

namespace RouteTree.Origin

open Text.Percent (encode)

/-! ## 1. Ports -/

theorem splitPort_cons {inside : Bool} {c : Char} (h : ¬ (c = ':' ∧ inside = false))
    (rest : List Char) : splitPort inside (c :: rest) =
      (c :: (splitPort (if c = '[' then true else if c = ']' then false else inside) rest).1,
        (splitPort (if c = '[' then true else if c = ']' then false else inside) rest).2) := by
  rw [splitPort, if_neg h]

/-- Outside a bracket nothing but a colon starts the port, and inside nothing does. -/
theorem splitPort_append {inside : Bool} : ∀ {text : List Char},
    (∀ c ∈ text, c ≠ '[' ∧ c ≠ ']') → (inside = true ∨ ':' ∉ text) → ∀ tail : List Char,
    splitPort inside (text ++ tail) = (text ++ (splitPort inside tail).1, (splitPort inside tail).2)
  | [], _, _, _ => rfl
  | c :: text, hb, hc, tail => by
    obtain ⟨hopen, hclose⟩ := hb c List.mem_cons_self
    have hstay : ¬ (c = ':' ∧ inside = false) := by
      rintro ⟨rfl, rfl⟩
      rcases hc with hc | hc
      · cases hc
      · exact hc List.mem_cons_self
    have ih : splitPort inside (text ++ tail)
        = (text ++ (splitPort inside tail).1, (splitPort inside tail).2) :=
      splitPort_append (fun d hd => hb d (List.mem_cons_of_mem c hd))
        (hc.imp_right fun h hd => h (List.mem_cons_of_mem c hd)) tail
    rw [List.cons_append, splitPort_cons hstay, if_neg hopen, if_neg hclose, ih]
    rfl

/-- **A host and its port are cut apart again.** -/
theorem splitPort_render {kind : SchemeKind} {h : Host} (hk : Host.Of kind h) {tail : List Char}
    (ht : tail = [] ∨ ∃ digits, tail = ':' :: digits) :
    splitPort false (h.render ++ tail) = (h.render, tail) := by
  have htail : splitPort false tail = ([], tail) := by
    rcases ht with rfl | ⟨digits, rfl⟩ <;> rfl
  rcases hk.render_cases with hname | ⟨groups, rfl⟩
  · have hmarks : ∀ c ∈ h.render, c ≠ ':' ∧ c ≠ '[' ∧ c ≠ ']' := fun c hc =>
      (Host.isNameChar_iff.mp (hname c hc)).2
    rw [splitPort_append (fun c hc => (hmarks c hc).2) (Or.inr fun hc => (hmarks _ hc).1 rfl), htail,
      List.append_nil]
  · have hmarks : ∀ c ∈ Ipv6.render groups, c ≠ '[' ∧ c ≠ ']' := fun c hc => by
      constructor <;> rintro rfl <;> rcases Ipv6.mem_render hc with h | h <;> revert h <;> decide
    have hclose : splitPort true (']' :: tail) = ([']'], tail) := by
      rw [splitPort_cons (by simp), if_neg (by decide), if_pos rfl, htail]
    show splitPort false ('[' :: (Ipv6.render groups ++ [']'] ++ tail))
      = ('[' :: (Ipv6.render groups ++ [']']), tail)
    rw [splitPort_cons (by simp), if_pos rfl, List.append_assoc, List.singleton_append,
      splitPort_append hmarks (Or.inl rfl), hclose]

theorem lt_of_portNumber : ∀ {text : List Char} {seen : Option Nat} {n : Nat},
    (∀ m, seen = some m → m < 0x10000) → portNumber seen text = .ok (some n) → n < 0x10000
  | [], seen, n, hs, h => hs n (Except.ok.inj h)
  | c :: text, seen, n, hs, h => by
    rw [portNumber] at h
    split at h
    · dsimp only at h
      split at h
      · rename_i hlt
        refine lt_of_portNumber (fun m hm => ?_) h
        cases hm
        exact hlt
      · cases h
    · split at h
      · exact hs n (Except.ok.inj h)
      · cases h

theorem portNumber_append : ∀ {text : List Char} {seen n : Option Nat},
    (∀ c ∈ text, c.isDigit = true) → portNumber seen text = .ok n → ∀ tail,
    portNumber seen (text ++ tail) = portNumber n tail
  | [], seen, n, _, h, tail => by
    cases h
    rfl
  | c :: text, seen, n, hd, h, tail => by
    rw [portNumber, if_pos (hd c List.mem_cons_self)] at h
    rw [List.cons_append, portNumber, if_pos (hd c List.mem_cons_self)]
    dsimp only at h ⊢
    split at h
    · rename_i hlt
      rw [if_pos hlt]
      exact portNumber_append (fun d hm => hd d (List.mem_cons_of_mem c hm)) h tail
    · cases h

/-- The digits of a port are read back. -/
theorem portNumber_toDigits {n : Nat} (h : n < 0x10000) :
    portNumber none (Nat.toDigits 10 n) = .ok (some n) := by
  have hdigit : ∀ d < 10, d.digitChar.isDigit = true ∧ d.digitChar.toNat - 48 = d := by decide
  have hone : ∀ {seen : Option Nat} {d : Nat}, d < 10 → seen.getD 0 * 10 + d < 0x10000 →
      portNumber seen [d.digitChar] = .ok (some (seen.getD 0 * 10 + d)) := by
    intro seen d hd hlt
    rw [portNumber, if_pos (hdigit d hd).1]
    dsimp only
    rw [(hdigit d hd).2, if_pos hlt]
    rfl
  induction n using Nat.strongRecOn with
  | ind n ih =>
    rw [Nat.toDigits_eq_if (by omega)]
    split
    · rename_i hn
      rw [hone hn (by simpa using h)]
      simp
    · have hfront := ih (n / 10) (by omega) (by omega)
      have hsum : n / 10 * 10 + n % 10 = n := by omega
      rw [portNumber_append (fun c hc => Nat.isDigit_of_mem_toDigits (by omega) (by omega) hc) hfront,
        hone (Nat.mod_lt n (by omega)) (by rw [Option.getD_some, hsum]; exact h), Option.getD_some,
        hsum]

/-- A port in normal form is left out, or it has digits that are not those of its scheme. -/
theorem port_cases {kind : SchemeKind} {text p : List Char} (h : port kind text = .ok p) :
    p = [] ∨ ∃ n < 0x10000, kind.port? ≠ some n ∧ p = ':' :: Nat.toDigits 10 n := by
  unfold port at h
  split at h
  · cases h
  · cases h
    exact Or.inl rfl
  · rename_i n hn
    cases h
    split
    · exact Or.inl rfl
    · rename_i hkind
      exact Or.inr ⟨n, lt_of_portNumber (fun m hm => by cases hm) hn, hkind, rfl⟩

theorem port_text {kind : SchemeKind} {text p : List Char} (h : port kind text = .ok p) :
    (p = [] ∨ ∃ digits, p = ':' :: digits) ∧ ∀ c ∈ p, isHostChar c = true := by
  rcases port_cases h with rfl | ⟨n, -, -, rfl⟩
  · exact ⟨Or.inl rfl, fun c hc => nomatch hc⟩
  · refine ⟨Or.inr ⟨_, rfl⟩, fun c hc => ?_⟩
    rcases List.mem_cons.mp hc with rfl | hc
    · decide
    · exact isHostChar_of_isAlphanum (isAlphanum_of_mem_toDigits (by omega) (by omega) n c hc)

/-- **A port is its own normal form.** -/
theorem port_again {kind : SchemeKind} {text p : List Char} (h : port kind text = .ok p) :
    port kind p = .ok p := by
  rcases port_cases h with rfl | ⟨n, hn, hkind, rfl⟩
  · rfl
  · rw [port, List.drop_succ_cons, List.drop_zero, portNumber_toDigits hn]
    dsimp only
    rw [if_neg hkind]

/-! ## 2. User information -/

theorem splitUserinfo_of_not_mem {text : List Char} (h : '@' ∉ text) :
    splitUserinfo text = (none, text) := by
  have hnil : text.reverse.dropWhile (· ≠ '@') = [] := by
    refine List.dropWhile_eq_nil_iff.mpr fun c hc => decide_eq_true fun he => ?_
    exact h (List.mem_reverse.mp (he ▸ hc))
  rw [splitUserinfo, hnil]

/-- What stands in front of the last at sign is cut off there. -/
theorem splitUserinfo_append {text : List Char} (h : '@' ∉ text) (user : List Char) :
    splitUserinfo (user ++ '@' :: text) = (some user, text) := by
  have hall : ∀ c ∈ text.reverse, decide (c ≠ '@') = true := fun c hc =>
    decide_eq_true fun he => h (List.mem_reverse.mp (he ▸ hc))
  have hrev : (user ++ '@' :: text).reverse = text.reverse ++ '@' :: user.reverse := by simp
  rw [splitUserinfo, hrev, List.dropWhile_append_of_pos hall, List.takeWhile_append_of_pos hall]
  simp

/-- A character of user information in normal form. -/
def isUserChar (c : Char) : Bool := isUserinfoSafe c || c = ':'

theorem isUserinfoSafe_of_encode {text : List Char} :
    ∀ c ∈ encode isUserinfoSafe text, isUserinfoSafe c = true := by
  have hdigit : ∀ n < 16, isUserinfoSafe (Text.Percent.hexDigit n) = true := by decide
  intro c hc
  rcases Text.Percent.mem_encode hc with ⟨-, hk⟩ | rfl | ⟨n, hn, rfl⟩
  · exact hk
  · decide
  · exact hdigit n hn

/-- A name and a password in normal form, without the at sign. -/
def userText (name password : List Char) : List Char :=
  if password = [] then name else name ++ ':' :: password

theorem userinfo_eq (text : List Char) : ∃ name password,
    (∀ c ∈ name, isUserinfoSafe c = true) ∧ (∀ c ∈ password, isUserinfoSafe c = true) ∧
      userinfo text = if userText name password = [] then [] else userText name password ++ ['@'] :=
  ⟨_, _, isUserinfoSafe_of_encode, isUserinfoSafe_of_encode, rfl⟩

/-- The name and the password are found again. -/
theorem userinfo_userText {name password : List Char} (hn : ∀ c ∈ name, isUserinfoSafe c = true)
    (hp : ∀ c ∈ password, isUserinfoSafe c = true) : userinfo (userText name password)
      = if userText name password = [] then [] else userText name password ++ ['@'] := by
  have hcolon : ∀ c ∈ name, decide (c ≠ ':') = true := fun c hc => decide_eq_true fun he => by
    have := hn c hc
    rw [he] at this
    revert this
    decide
  have htake : (userText name password).takeWhile (· ≠ ':') = name := by
    unfold userText
    split
    · exact List.takeWhile_eq_self_iff.mpr hcolon
    · rw [List.takeWhile_append_of_pos hcolon]
      simp
  have hdrop : ((userText name password).dropWhile (· ≠ ':')).drop 1 = password := by
    unfold userText
    split
    · rename_i hnil
      rw [List.dropWhile_eq_nil_iff.mpr hcolon, hnil]
      rfl
    · rw [List.dropWhile_append_of_pos hcolon]
      simp
  unfold userinfo
  rw [htake, hdrop, Text.Percent.encode_of_all hn, Text.Percent.encode_of_all hp]
  rfl

/-- **User information is its own normal form**, without its at sign. -/
theorem userinfo_again (text : List Char) : userinfo text = [] ∨
    ∃ user, (∀ c ∈ user, isUserChar c = true) ∧ userinfo text = user ++ ['@'] ∧
      userinfo user = user ++ ['@'] := by
  obtain ⟨name, password, hn, hp, htext⟩ := userinfo_eq text
  by_cases hnil : userText name password = []
  · exact Or.inl (htext.trans (if_pos hnil))
  · refine Or.inr ⟨userText name password, fun c hc => ?_, htext.trans (if_neg hnil),
      (userinfo_userText hn hp).trans (if_neg hnil)⟩
    have hsafe : ∀ d, isUserinfoSafe d = true → isUserChar d = true := fun d hd => by
      rw [isUserChar, hd, Bool.true_or]
    unfold userText at hc
    split at hc
    · exact hsafe c (hn c hc)
    · rcases List.mem_append.mp hc with hc | hc
      · exact hsafe c (hn c hc)
      · rcases List.mem_cons.mp hc with rfl | hc
        · rfl
        · exact hsafe c (hp c hc)

/-! ## 3. Authorities -/

/-- What an authority comes to, once it is cut into its parts. -/
theorem authority_eq {kind : SchemeKind} {text rest hostText portText : List Char}
    {user : Option (List Char)} (hu : splitUserinfo text = (user, rest))
    (hp : splitPort false rest = (hostText, portText)) (more : Bool) :
    authority kind text more =
      if user = some [] ∧ rest = [] ∧ more then .error .emptyHost
      else (host kind hostText).bind fun h =>
        if h = .name [] ∧ (portText ≠ [] ∨ userinfo (user.getD []) ≠ []) then .error .emptyHost
        else (port kind portText).map fun p => userinfo (user.getD []) ++ h.render ++ p := by
  unfold authority
  rw [hu]
  dsimp only
  rw [hp]
  dsimp only
  split
  · rfl
  · cases host kind hostText with
    | error fault => rfl
    | ok h =>
      dsimp only [Except.bind, bind]
      split
      · rfl
      · cases port kind portText <;> rfl

/-- The parts of an authority that has been read. Without a host there is nothing. -/
theorem authority_cases {kind : SchemeKind} {text a : List Char} {more : Bool}
    (h : authority kind text more = .ok a) : ∃ user host p portText,
      a = userinfo user ++ host.render ++ p ∧ Host.Of kind host ∧ port kind portText = .ok p ∧
        (host = .name [] → userinfo user = [] ∧ p = []) := by
  obtain ⟨user, rest, hu⟩ : ∃ user rest, splitUserinfo text = (user, rest) := ⟨_, _, rfl⟩
  obtain ⟨hostText, portText, hcut⟩ : ∃ hostText portText,
      splitPort false rest = (hostText, portText) := ⟨_, _, rfl⟩
  rw [authority_eq hu hcut] at h
  split at h
  · cases h
  · obtain ⟨host, hh, h⟩ := Attempt.ok_of_bind h
    split at h
    · cases h
    · rename_i hempty
      obtain ⟨p, hp, rfl⟩ := Attempt.ok_of_map h
      refine ⟨user.getD [], host, p, portText, rfl, Host.of_host hh, hp, fun hname => ?_⟩
      have hnone := not_or.mp fun hsome => hempty ⟨hname, hsome⟩
      rw [not_not.mp hnone.1] at hp
      cases hp
      exact ⟨not_not.mp hnone.2, rfl⟩

/-- An authority is made of its parts again, once they are cut apart. -/
theorem authority_of_parts {kind : SchemeKind} {text p : List Char} {user : Option (List Char)}
    {host : Host} (hk : Host.Of kind host) (hp : port kind p = .ok p)
    (hport : p = [] ∨ ∃ digits, p = ':' :: digits)
    (hu : splitUserinfo text = (user, host.render ++ p)) (hne : user ≠ some [])
    (hempty : host = .name [] → userinfo (user.getD []) = [] ∧ p = []) (more : Bool) :
    authority kind text more = .ok (userinfo (user.getD []) ++ host.render ++ p) := by
  have hwhole : ¬ (host = .name [] ∧ (p ≠ [] ∨ userinfo (user.getD []) ≠ [])) := by
    rintro ⟨hname, hsome | hsome⟩
    · exact hsome (hempty hname).2
    · exact hsome (hempty hname).1
  rw [authority_eq hu (splitPort_render hk hport), if_neg fun h => hne h.1, Host.host_again hk]
  dsimp only [Except.bind]
  rw [if_neg hwhole, hp]
  rfl

theorem isOriginChar_of_user {c : Char} (h : isUserChar c = true) : isOriginChar c = true := by
  have hascii : ∀ c, isUserinfoSafe c = true → c.toNat < 128 := fun c hc =>
    Host.ascii_of_isPrintable c (Bool.and_eq_true_iff.mp hc).1
  rcases Bool.or_eq_true_iff.mp h with hsafe | hcolon
  · exact of_ascii (q := fun c => isOriginChar c = true) hascii (by decide +kernel) hsafe
  · rw [of_decide_eq_true hcolon]
    decide

/-- The characters of an authority in normal form. -/
theorem isOriginChar_of_authority {kind : SchemeKind} {text a : List Char} {more : Bool}
    (h : authority kind text more = .ok a) : ∀ c ∈ a, isOriginChar c = true := by
  obtain ⟨text, host, p, portText, rfl, hk, hp, -⟩ := authority_cases h
  intro c hc
  rcases List.mem_append.mp hc with hc | hc
  · rcases List.mem_append.mp hc with hc | hc
    · rcases userinfo_again text with hnone | ⟨user, huser, hsome, -⟩
      · rw [hnone] at hc
        cases hc
      · rw [hsome] at hc
        rcases List.mem_append.mp hc with hc | hc
        · exact isOriginChar_of_user (huser c hc)
        · rw [List.mem_singleton.mp hc]
          decide
    · exact (Bool.and_eq_true_iff.mp (hk.isHostChar c hc)).1
  · exact (Bool.and_eq_true_iff.mp ((port_text hp).2 c hc)).1

/-- An authority of a special scheme is not empty. -/
theorem authority_ne_nil {kind : SchemeKind} (hs : kind.isSpecial = true) {text a : List Char}
    {more : Bool} (h : authority kind text more = .ok a) : a ≠ [] := by
  obtain ⟨text, host, p, portText, rfl, hk, -, -⟩ := authority_cases h
  rw [Host.Of, if_pos hs] at hk
  simp [hk.render_ne_nil]

/-- **An authority is its own normal form**, whatever follows it. -/
theorem authority_again {kind : SchemeKind} {text a : List Char} {more : Bool}
    (h : authority kind text more = .ok a) (more' : Bool) : authority kind a more' = .ok a := by
  obtain ⟨text, host, p, portText, rfl, hk, hp, hempty⟩ := authority_cases h
  have hat : ∀ c, isHostChar c = true → c ≠ '@' := fun c hc =>
    of_decide_eq_true (Bool.and_eq_true_iff.mp hc).2
  obtain ⟨hport, hportChar⟩ := port_text hp
  have hrest : '@' ∉ host.render ++ p := fun hm => by
    rcases List.mem_append.mp hm with hm | hm
    · exact hat _ (hk.isHostChar _ hm) rfl
    · exact hat _ (hportChar _ hm) rfl
  rcases userinfo_again text with hnone | ⟨user, -, hsome, hagain⟩
  · have hnil : userinfo [] = [] := rfl
    have hparts := authority_of_parts hk (port_again hp) hport
      (splitUserinfo_of_not_mem hrest) (by simp) (fun hname => ⟨hnil, (hempty hname).2⟩) more'
    rw [Option.getD_none, hnil] at hparts
    rw [hnone]
    exact hparts
  · have hne : some user ≠ some [] := fun he => by
      rw [Option.some.inj he] at hagain
      cases hagain
    have hparts := authority_of_parts hk (port_again hp) hport
      (splitUserinfo_append hrest user) hne
      (fun hname => ⟨hagain.trans (hsome.symm.trans (hempty hname).1), (hempty hname).2⟩) more'
    rw [Option.getD_some, hagain] at hparts
    rw [hsome]
    simpa using hparts

end RouteTree.Origin
