import RouteTree.Proofs.Origin.Ending
import RouteTree.Proofs.Origin.FirstSlash

/-!
# The rules of normalising origins are kept

`normalize` keeps the rules that the theory of absolute URIs relies on:

* `normalize_slashes` is what it works out of a text behind two slashes, by the kind of the scheme;
* `inAuthority_ends` and `inAuthority_alone` say where it finds the end of the authority, and
  `inAuthority_file_ends` and `inAuthority_file_alone` the same of `file` URIs without the marks of a
  drive letter;
* `rules_normalize` draws the conclusion.
-/

namespace RouteTree.Origin

/-! ## 1. What stands behind two slashes -/

/-- The authority at the head of a text. It ends at the first sign that ends it. -/
def cutAuthority (kind : SchemeKind) (text : List Char) : Except OriginFault (List Char) :=
  authority kind (insideOf kind text) (text.length ≠ (insideOf kind text).length)

/-- What is worked out of a text behind two slashes. -/
def inAuthority (kind : SchemeKind) (text : List Char) : Except OriginFault (List Char) :=
  match kind with
  | .file => fileHost (trimEnd text)
  | .web port => cutAuthority (.web port) (trimEnd (core (.web port) text))
  | .other => cutAuthority .other (trimEnd (core .other text))

theorem lt_of_isSlash {c : Char} (h : isSlash c = true) : 0x20 < c.toNat := by
  simp only [isSlash, Bool.or_eq_true, decide_eq_true_eq] at h
  rcases h with rfl | rfl <;> decide

/-- The slashes at the head of a text and the blanks at its end are dropped in any order. -/
theorem dropWhile_trimEnd (text : List Char) :
    (trimEnd text).dropWhile isSlash = trimEnd (text.dropWhile isSlash) := by
  induction text with
  | nil => rfl
  | cons c text ih =>
    by_cases hc : isSlash c = true
    · rw [trimEnd_cons (lt_of_isSlash hc), List.dropWhile_cons_of_pos hc,
        List.dropWhile_cons_of_pos hc, ih]
    · rw [List.dropWhile_cons_of_neg hc]
      obtain ⟨back, hback⟩ := isPrefix_trimEnd (c :: text)
      cases htrim : trimEnd (c :: text) with
      | nil => rfl
      | cons d rest =>
        rw [htrim] at hback
        rw [(List.cons.inj hback).1, List.dropWhile_cons_of_neg hc]

theorem normalize_slashes (scheme text : List Char) : normalize scheme ('/' :: '/' :: text)
    = (inAuthority (kindOf scheme) text).map
        fun a => scheme.map Char.toLower ++ ':' :: '/' :: '/' :: a := by
  have htrim : trimEnd ('/' :: '/' :: text) = '/' :: '/' :: trimEnd text := by
    rw [trimEnd_cons (by decide), trimEnd_cons (by decide)]
  have hattempt (attempt : Except OriginFault (List Char)) : (do
      return scheme.map Char.toLower ++ [':', '/', '/'] ++ (← attempt))
        = attempt.map fun a => scheme.map Char.toLower ++ ':' :: '/' :: '/' :: a := by
    cases attempt with
    | error fault => rfl
    | ok a =>
      refine congrArg Except.ok ?_
      rw [List.append_assoc]
      rfl
  unfold normalize
  dsimp only
  rw [htrim, kindOf]
  cases SchemeKind.ofScheme (scheme.map Char.toLower) with
  | file => exact hattempt (fileHost (trimEnd text))
  | web port =>
    rw [inAuthority, core, ← dropWhile_trimEnd, ← dropTabs_trimEnd]
    exact hattempt (cutAuthority (.web port) ((dropTabs (trimEnd text)).dropWhile isSlash))
  | other =>
    rw [inAuthority, core, ← dropTabs_trimEnd]
    exact hattempt (cutAuthority .other (dropTabs (trimEnd text)))

section
variable {kind : SchemeKind} {text inside a : List Char}

theorem lt_of_endsAuthority {c : Char} (h : kind.endsAuthority c = true) : 0x20 < c.toNat := by
  simp only [SchemeKind.endsAuthority, Bool.or_eq_true, Bool.and_eq_true, decide_eq_true_eq] at h
  rcases h with ((rfl | rfl) | rfl) | ⟨-, rfl⟩ <;> decide

/-- What follows the end of an authority does not count. -/
theorem cutAuthority_append {e : Char} (he : kind.endsAuthority e = true) (front back : List Char) :
    cutAuthority kind (front ++ e :: back) = authority kind (insideOf kind front) true := by
  have hinside : insideOf kind (front ++ e :: back) = insideOf kind front :=
    takeWhile_append_stop (by rw [he]; rfl) front back
  have hlen : (insideOf kind front).length ≤ front.length := (List.takeWhile_sublist _).length_le
  have hmore : (front ++ e :: back).length ≠ (insideOf kind front).length := by
    rw [List.length_append, List.length_cons]
    omega
  rw [cutAuthority, hinside, decide_eq_true hmore]

theorem cutAuthority_of_all (h : ∀ c ∈ text, kind.endsAuthority c = false) :
    cutAuthority kind text = authority kind text false := by
  rw [cutAuthority, insideOf_of_all h]
  simp

/-- What is left of an authority that nothing ends is all but its tabs. -/
theorem core_of_all (hk : kind ≠ .file) (h : ∀ c ∈ inside, kind.endsAuthority c = false) :
    core kind inside = dropTabs inside := by
  cases kind with
  | file => exact absurd rfl hk
  | web port =>
    refine List.dropWhile_eq_self_iff.mpr fun hpos => ?_
    have hmem := (List.mem_filter.mp (List.getElem_mem hpos)).1
    have hends := h _ hmem
    simp only [SchemeKind.endsAuthority, Bool.or_eq_false_iff] at hends
    have hback : decide ((dropTabs inside)[0] = '\\') = false := hends.2
    rw [isSlash, hends.1.1.1, hback]
    exact Bool.false_ne_true
  | other => rfl

theorem inAuthority_of_ne_file (hk : kind ≠ .file) :
    inAuthority kind text = cutAuthority kind (trimEnd (core kind text)) := by
  cases kind with
  | file => exact absurd rfl hk
  | web port => rfl
  | other => rfl

theorem endsAuthority_of_mem_dropTabs (h : ∀ c ∈ inside, kind.endsAuthority c = false) :
    ∀ c ∈ dropTabs inside, kind.endsAuthority c = false :=
  fun c hc => h c (List.mem_filter.mp hc).1

/-! ## 2. Authorities -/

/-- The sign that ends an authority stays in front of what comes then. -/
theorem core_ends (hk : kind ≠ .file) (h : ∀ c ∈ inside, kind.endsAuthority c = false)
    (hweb : ∀ port, kind = .web port → dropTabs inside ≠ []) {c : Char}
    (hc : kind.endsAuthority c = true) (back : List Char) :
    core kind (inside ++ c :: back) = dropTabs inside ++ c :: dropTabs back := by
  have hdrop : dropTabs (inside ++ c :: back) = dropTabs inside ++ c :: dropTabs back := by
    rw [dropTabs_append, dropTabs_cons (isTabOrBreak_of_lt (lt_of_endsAuthority hc))]
  cases hkind : kind with
  | file => exact absurd hkind hk
  | web port =>
    subst hkind
    have hself : (dropTabs inside).dropWhile isSlash = dropTabs inside := core_of_all hk h
    have hne : (dropTabs inside).isEmpty = false := by simpa using hweb port rfl
    rw [core, hdrop, List.dropWhile_append, hself, hne]
    rfl
  | other => exact hdrop

theorem inAuthority_ends (hk : kind ≠ .file) (h : ∀ c ∈ inside, kind.endsAuthority c = false)
    (hweb : ∀ port, kind = .web port → dropTabs inside ≠ []) {c : Char}
    (hc : kind.endsAuthority c = true) (back : List Char) :
    inAuthority kind (inside ++ c :: back) = authority kind (dropTabs inside) true := by
  rw [inAuthority_of_ne_file hk, core_ends hk h hweb hc, trimEnd_append_cons (lt_of_endsAuthority hc),
    cutAuthority_append hc, insideOf_of_all (endsAuthority_of_mem_dropTabs h)]

theorem not_endsInBlank_dropTabs (h : ¬ EndsInBlank inside) : ¬ EndsInBlank (dropTabs inside) := by
  rcases List.eq_nil_or_concat inside with rfl | ⟨front, c, rfl⟩
  · exact h
  · rw [List.concat_eq_append] at h ⊢
    have hc : ¬ c.toNat ≤ 0x20 := fun hle => h ⟨c, List.getLast?_concat, hle⟩
    have hlast : dropTabs (front ++ [c]) = dropTabs front ++ [c] := by
      rw [dropTabs_append, dropTabs_cons (isTabOrBreak_of_lt (Nat.lt_of_not_le hc))]
      rfl
    rintro ⟨d, hd, hle⟩
    rw [hlast, List.getLast?_concat] at hd
    exact hc (Option.some.inj hd ▸ hle)

/-- An authority of the web is not empty. -/
theorem inAuthority_bare {port : Nat} (h : core (.web port) text = []) :
    inAuthority (.web port) text = .error .emptyHost := by
  rw [inAuthority, h]
  rfl

theorem inAuthority_alone (hk : kind ≠ .file) (h : ∀ c ∈ inside, kind.endsAuthority c = false)
    (hblank : kind = .other → ¬ EndsInBlank inside)
    (hread : inAuthority kind (inside ++ ['/']) = .ok a) : inAuthority kind inside = .ok a := by
  have hweb : ∀ port, kind = .web port → dropTabs inside ≠ [] := by
    rintro port rfl hnil
    have hbare : core (.web port) (inside ++ ['/']) = [] := by
      rw [core, dropTabs_append, hnil]
      rfl
    rw [inAuthority_bare hbare] at hread
    cases hread
  have hall : ∀ c ∈ trimEnd (dropTabs inside), kind.endsAuthority c = false := fun c hc =>
    endsAuthority_of_mem_dropTabs h c ((isPrefix_trimEnd _).subset hc)
  rw [inAuthority_ends hk h hweb rfl] at hread
  rw [inAuthority_of_ne_file hk, core_of_all hk h, cutAuthority_of_all hall]
  exact authority_trimEnd hread fun hother => not_endsInBlank_dropTabs (hblank hother)

/-! ## 3. Files -/

theorem isDriveLetter_eq_false {text : List Char} (h : ':' ∉ text ∧ '|' ∉ text) :
    isDriveLetter text = false := by
  unfold isDriveLetter
  split
  · rename_i letter mark
    simp only [List.mem_cons, List.not_mem_nil, or_false, not_or] at h
    obtain ⟨⟨-, hcolon⟩, -, hbar⟩ := h
    simp [Ne.symm hcolon, Ne.symm hbar]
  · rfl

/-- Without the marks of a drive letter in its components a path has none, whatever dots stand in
    it. -/
theorem hasDrive_eq_false : ∀ {parts : List (List Char)},
    (∀ part ∈ parts, ':' ∉ part ∧ '|' ∉ part) → ∀ front, hasDrive front parts = false
  | [], _, _ => rfl
  | part :: parts, h, front => by
    have ih : ∀ front, hasDrive front parts = false :=
      hasDrive_eq_false fun p hp => h p (List.mem_cons_of_mem part hp)
    have hdrive : isDriveLetter (dropTabs part) = false := by
      refine isDriveLetter_eq_false ⟨fun hm => ?_, fun hm => ?_⟩
      · exact (h part List.mem_cons_self).1 (List.mem_filter.mp hm).1
      · exact (h part List.mem_cons_self).2 (List.mem_filter.mp hm).1
    rw [hasDrive]
    simp only [ih, hdrive, Bool.or_false, Bool.and_false, ite_self]

theorem mem_fileParts {path part : List Char} (hp : part ∈ fileParts path) {c : Char}
    (hc : c ∈ part) : c ∈ path ∨ c = '/' := by
  have hplain := (Path.mem_of_mem_splitOn hp hc).1
  have hdrop : ∀ {text : List Char}, c ∈ Path.dropLeadingSlash text → c ∈ text := by
    intro text hm
    cases text with
    | nil => exact hm
    | cons d rest =>
      rw [Path.dropLeadingSlash] at hm
      split at hm
      · exact List.mem_cons_of_mem d hm
      · exact hm
  obtain ⟨d, hd, rfl⟩ := List.mem_map.mp (hdrop hplain)
  split
  · exact Or.inr rfl
  · exact Or.inl ((List.takeWhile_sublist _).subset hd)

/-- No drive letter stands in a path that holds none of their marks. -/
theorem hasDrive_of_not_mem {path : List Char} (h : ':' ∉ path ∧ '|' ∉ path) :
    hasDrive [] (fileParts path) = false := by
  refine hasDrive_eq_false (fun part hp => ⟨fun hm => ?_, fun hm => ?_⟩) []
  · exact (mem_fileParts hp hm).elim h.1 (by decide)
  · exact (mem_fileParts hp hm).elim h.2 (by decide)

/-- The host that a `file` URI does without. -/
def localhost : List Char := ['l', 'o', 'c', 'a', 'l', 'h', 'o', 's', 't']

/-- The host that is written in a `file` URI. -/
def writtenHost (text : List Char) : Except OriginFault (List Char) :=
  if text = [] ∨ isDriveLetter text = true then .ok []
  else (Host.ofWeb text).map fun h => if h = .name localhost then [] else h.render

/-- A `file` URI has the host that is written in it, if no drive letter comes up behind it. -/
theorem fileHost_append {path : List Char}
    (h : ∀ c ∈ inside, SchemeKind.file.endsAuthority c = false)
    (hpath : ∀ c ∈ path.head?, SchemeKind.file.endsAuthority c = true) (hmarks : ':' ∉ path ∧ '|' ∉ path) :
    fileHost (inside ++ path) = writtenHost (dropTabs inside) := by
  have hin : ∀ c ∈ inside, (!SchemeKind.file.endsAuthority c) = true := fun c hc => by rw [h c hc]; rfl
  have htake : (inside ++ path).takeWhile (!SchemeKind.file.endsAuthority ·) = inside := by
    rw [List.takeWhile_append_of_pos hin]
    cases path with
    | nil => exact List.append_nil inside
    | cons c rest =>
      rw [List.takeWhile_cons_of_neg (by simpa using hpath c rfl), List.append_nil]
  have hdrop : (inside ++ path).dropWhile (!SchemeKind.file.endsAuthority ·) = path := by
    rw [List.dropWhile_append_of_pos hin]
    cases path with
    | nil => rfl
    | cons c rest => rw [List.dropWhile_cons_of_neg (by simpa using hpath c rfl)]
  unfold fileHost writtenHost localhost
  dsimp only
  rw [htake, hdrop, hasDrive_of_not_mem hmarks]
  split
  · rfl
  · cases Host.ofWeb (dropTabs inside) with
    | error fault => rfl
    | ok host =>
      dsimp only [bind, Except.bind, Except.map]
      split <;> rfl

theorem trimEnd_of_writtenHost (h : writtenHost text = .ok a) : trimEnd text = text := by
  unfold writtenHost at h
  split at h
  · rename_i hnone
    rcases hnone with rfl | hdrive
    · rfl
    · unfold isDriveLetter at hdrive
      split at hdrive
      · rename_i letter mark
        have hmark : 0x20 < mark.toNat := by
          simp only [Bool.and_eq_true, Bool.or_eq_true, decide_eq_true_eq] at hdrive
          rcases hdrive.2 with rfl | rfl <;> decide
        exact trimEnd_append_cons hmark [letter] []
      · cases hdrive
  · obtain ⟨host, hread, -⟩ := Attempt.ok_of_map h
    exact Host.trimEnd_of_ofWeb hread

theorem inAuthority_file_ends (h : ∀ c ∈ inside, SchemeKind.file.endsAuthority c = false) {c : Char}
    (hc : SchemeKind.file.endsAuthority c = true) {back : List Char} (hmarks : ':' ∉ back ∧ '|' ∉ back) :
    inAuthority .file (inside ++ c :: back) = writtenHost (dropTabs inside) := by
  have hcmark : c ≠ ':' ∧ c ≠ '|' := by
    constructor <;> rintro rfl <;> cases hc
  rw [inAuthority, trimEnd_append_cons (lt_of_endsAuthority hc)]
  refine fileHost_append h (fun d hd => ?_) ⟨fun hm => ?_, fun hm => ?_⟩
  · cases hd
    exact hc
  · rcases List.mem_cons.mp hm with he | hm
    · exact hcmark.1 he.symm
    · exact hmarks.1 ((isPrefix_trimEnd back).subset hm)
  · rcases List.mem_cons.mp hm with he | hm
    · exact hcmark.2 he.symm
    · exact hmarks.2 ((isPrefix_trimEnd back).subset hm)

theorem inAuthority_file_alone (h : ∀ c ∈ inside, SchemeKind.file.endsAuthority c = false)
    (hread : inAuthority .file (inside ++ ['/']) = .ok a) : inAuthority .file inside = .ok a := by
  rw [inAuthority_file_ends h rfl ⟨List.not_mem_nil, List.not_mem_nil⟩] at hread
  have hall : ∀ c ∈ trimEnd inside, SchemeKind.file.endsAuthority c = false := fun c hc =>
    h c ((isPrefix_trimEnd inside).subset hc)
  have hhost : fileHost (trimEnd inside ++ []) = writtenHost (dropTabs (trimEnd inside)) :=
    fileHost_append hall nofun ⟨List.not_mem_nil, List.not_mem_nil⟩
  rw [List.append_nil, dropTabs_trimEnd, trimEnd_of_writtenHost hread] at hhost
  exact hhost.trans hread

end

/-! ## 4. The rules -/

theorem dropWhile_dropTabs (text : List Char) : (dropTabs (text.dropWhile isSlash)).dropWhile isSlash
    = (dropTabs text).dropWhile isSlash := by
  induction text with
  | nil => rfl
  | cons c text ih =>
    by_cases hc : isSlash c = true
    · rw [List.dropWhile_cons_of_pos hc, dropTabs_cons (isTabOrBreak_of_lt (lt_of_isSlash hc)),
        List.dropWhile_cons_of_pos hc, ih]
    · rw [List.dropWhile_cons_of_neg hc]

section
variable {scheme inside origin : List Char}

theorem normalize_dropTabs (hk : kindOf scheme ≠ .file) (text : List Char) :
    normalize scheme ('/' :: '/' :: text) = normalize scheme ('/' :: '/' :: dropTabs text) := by
  have hself : dropTabs (dropTabs text) = dropTabs text := by
    rw [dropTabs, dropTabs, List.filter_filter]
    simp only [Bool.and_self]
  rw [normalize_slashes, normalize_slashes]
  cases hkind : kindOf scheme with
  | file => exact absurd hkind hk
  | web port => rw [inAuthority, inAuthority, core, core, hself]
  | other => rw [inAuthority, inAuthority, core, core, hself]

theorem normalize_dropSlashes {port : Nat} (hk : kindOf scheme = .web port) (text : List Char) :
    normalize scheme ('/' :: '/' :: text) = normalize scheme ('/' :: '/' :: text.dropWhile isSlash) := by
  rw [normalize_slashes, normalize_slashes, hk, inAuthority, inAuthority, core, core, dropWhile_dropTabs]

theorem normalize_ne_ok {port : Nat} (hk : kindOf scheme = .web port) :
    normalize scheme ['/', '/'] ≠ .ok origin := by
  rw [normalize_slashes, hk, inAuthority_bare rfl]
  intro h
  cases h

theorem normalize_ends (hin : ∀ d ∈ inside, (kindOf scheme).endsAuthority d = false)
    (hweb : ∀ port, kindOf scheme = .web port → dropTabs inside ≠ []) {c : Char}
    (hc : (kindOf scheme).endsAuthority c = true) {back : List Char}
    (hfile : kindOf scheme = .file → ':' ∉ back ∧ '|' ∉ back) :
    normalize scheme ('/' :: '/' :: (inside ++ c :: back))
      = normalize scheme ('/' :: '/' :: (inside ++ ['/'])) := by
  rw [normalize_slashes, normalize_slashes]
  by_cases hk : kindOf scheme = .file
  · rw [hk] at hin hc ⊢
    rw [inAuthority_file_ends hin hc (hfile hk),
      inAuthority_file_ends hin rfl ⟨List.not_mem_nil, List.not_mem_nil⟩]
  · rw [inAuthority_ends hk hin hweb hc, inAuthority_ends hk hin hweb rfl]

theorem normalize_alone (hin : ∀ d ∈ inside, (kindOf scheme).endsAuthority d = false)
    (hblank : kindOf scheme = .other → ¬ EndsInBlank inside)
    (h : normalize scheme ('/' :: '/' :: (inside ++ ['/'])) = .ok origin) :
    normalize scheme ('/' :: '/' :: inside) = .ok origin := by
  rw [normalize_slashes] at h ⊢
  obtain ⟨a, ha, rfl⟩ := Attempt.ok_of_map h
  by_cases hk : kindOf scheme = .file
  · rw [hk] at hin ha ⊢
    rw [inAuthority_file_alone hin ha]
    rfl
  · rw [inAuthority_alone hk hin hblank ha]
    rfl

end

/-- **The way origins are normalised here keeps the rules.** -/
theorem rules_normalize : Rules normalize where
  tabs := fun _ hk text => normalize_dropTabs hk text
  slashes := fun _ hk text => normalize_dropSlashes hk text
  host := fun _ hk _ => normalize_ne_ok hk
  ends := fun _ hin hweb hc hfile => normalize_ends hin hweb hc hfile
  alone := fun _ hin hblank h => normalize_alone hin hblank h

end RouteTree.Origin
