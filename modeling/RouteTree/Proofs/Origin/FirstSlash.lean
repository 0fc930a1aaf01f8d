import Mathlib.Data.List.TakeWhile
import RouteTree.Proofs.Origin.Laws

/-!
# In front of the first slash

An origin is worked out of the whole text behind the two slashes of an absolute URI. Under `Rules`, for
every way to normalise, this file says when the same comes out of what stands in front of the first slash
in that text:

* `Rules.cut` looks at a text up to the first sign that ends its authority, which need not be a slash;
* `Rules.behind` leaves out what stands behind a slash, and `Rules.front` the slash as well;
* `Borrows` is what they cannot leave out, and `Rules.front_iff` says that there is nothing else.
-/

namespace RouteTree.Origin

/-! ## 1. Signs that end an authority -/

section
variable {p : Char → Bool} {e : Char}

theorem takeWhile_append_stop (he : p e = false) (front back : List Char) :
    (front ++ e :: back).takeWhile p = front.takeWhile p := by
  have hstop : (e :: back).takeWhile p = [] := List.takeWhile_cons_of_neg (Bool.eq_false_iff.mp he)
  rw [List.takeWhile_append, hstop, List.append_nil]
  split
  · rename_i hlen
    exact ((List.takeWhile_sublist p).eq_of_length hlen).symm
  · rfl

end

section
variable {kind : SchemeKind} {text : List Char}

/-- What stands in front of the first sign that ends the authority. -/
def insideOf (kind : SchemeKind) (text : List Char) : List Char :=
  text.takeWhile (!kind.endsAuthority ·)

theorem insideOf_of_all (h : ∀ c ∈ text, kind.endsAuthority c = false) : insideOf kind text = text :=
  List.takeWhile_eq_self_iff.mpr fun c hc => by rw [h c hc]; rfl

theorem endsAuthority_of_mem_insideOf {c : Char} (h : c ∈ insideOf kind text) :
    kind.endsAuthority c = false := by
  simpa using List.mem_takeWhile_imp h

/-- An authority is all of a text, or something ends it. -/
theorem all_or_ends (kind : SchemeKind) (text : List Char) :
    (∀ c ∈ text, kind.endsAuthority c = false) ∨
      ∃ e back, kind.endsAuthority e = true ∧ text = insideOf kind text ++ e :: back := by
  cases hback : text.dropWhile (!kind.endsAuthority ·) with
  | nil => exact Or.inl fun c hc => by simpa using List.dropWhile_eq_nil_iff.mp hback c hc
  | cons e back =>
    refine Or.inr ⟨e, back, ?_, ?_⟩
    · have hstop := List.head?_dropWhile_not (!kind.endsAuthority ·) text
      rw [hback] at hstop
      simpa using hstop
    · rw [insideOf, ← hback, List.takeWhile_append_dropWhile]

end

/-- In a `file` URI no mark of a drive letter stands behind the end of the host, if there is none in the
    text from there on. -/
theorem not_mem_of_not_hasDriveMark {inside back : List Char} {e : Char}
    (hin : ∀ c ∈ inside, SchemeKind.file.endsAuthority c = false)
    (he : SchemeKind.file.endsAuthority e = true) (h : ¬ HasDriveMark (inside ++ e :: back)) :
    ':' ∉ back ∧ '|' ∉ back := by
  have hkeep : ∀ c ∈ inside, (!SchemeKind.file.endsAuthority c) = true := fun c hc => by rw [hin c hc]; rfl
  have hdrop : (inside ++ e :: back).dropWhile (!SchemeKind.file.endsAuthority ·) = e :: back := by
    rw [List.dropWhile_append_of_pos hkeep, List.dropWhile_cons_of_neg (by simp [he])]
  constructor <;>
  · intro hm
    refine h ⟨_, hdrop ▸ List.mem_cons_of_mem e hm, ?_⟩
    simp

theorem HasDriveMark.append {text : List Char} (h : HasDriveMark text) (back : List Char) :
    HasDriveMark (text ++ back) := by
  obtain ⟨c, hc, hmark⟩ := h
  refine ⟨c, ?_, hmark⟩
  rw [List.dropWhile_append, if_neg (by simpa using List.ne_nil_of_mem hc)]
  exact List.mem_append_left back hc

/-! ## 2. What counts of a text -/

/-- What is left of a text when what does not count is dropped: the tabs, and the slashes in front of the
    authority of a web site. -/
def core : SchemeKind → List Char → List Char
  | .file, text => text
  | .web _, text => (dropTabs text).dropWhile isSlash
  | .other, text => dropTabs text

theorem core_append {kind : SchemeKind} {front : List Char}
    (hbare : ∀ port, kind = .web port → core kind front ≠ []) (back : List Char) :
    ∃ tail, core kind (front ++ '/' :: back) = core kind front ++ '/' :: tail ∧
      (kind = .file → tail = back) := by
  cases kind with
  | file => exact ⟨back, rfl, fun _ => rfl⟩
  | web port =>
    refine ⟨dropTabs back, ?_, nofun⟩
    have hne : ((dropTabs front).dropWhile isSlash).isEmpty = false := by
      simpa [core] using hbare port rfl
    rw [core, core, dropTabs_append, dropTabs_cons rfl, List.dropWhile_append, hne]
    rfl
  | other => exact ⟨dropTabs back, dropTabs_append front ('/' :: back), nofun⟩

/-- What is left in front of a path in a scheme of the web starts with its authority. -/
theorem dropTabs_insideOf_core {kind : SchemeKind} {front : List Char}
    (hmarks : ∀ c ∈ front, c ∉ ['/', '?', '#']) (hbare : ∀ port, kind = .web port → core kind front ≠ [])
    (port : Nat) (hk : kind = .web port) : dropTabs (insideOf kind (core kind front)) ≠ [] := by
  obtain ⟨c, rest, hcore⟩ := List.exists_cons_of_ne_nil (hbare port hk)
  subst hk
  have hmem : c ∈ core (.web port) front := hcore ▸ List.mem_cons_self
  have hkept : c ∈ dropTabs front := (List.dropWhile_sublist _).subset hmem
  obtain ⟨hfront, htab⟩ := List.mem_filter.mp hkept
  have hslash : isSlash c = false := by
    have hstop := List.head?_dropWhile_not isSlash (dropTabs front)
    rw [core] at hcore
    rw [hcore] at hstop
    simpa using hstop
  have hin : (!(SchemeKind.web port).endsAuthority c) = true := by
    have hc := hmarks c hfront
    simp only [List.mem_cons, List.not_mem_nil, or_false, not_or] at hc
    simp only [isSlash, Bool.or_eq_false_iff, decide_eq_false_iff_not] at hslash
    simp [SchemeKind.endsAuthority, hc, hslash]
  have htake : insideOf (.web port) (c :: rest) = c :: insideOf (.web port) rest :=
    List.takeWhile_cons_of_pos hin
  rw [hcore, htake]
  exact List.ne_nil_of_mem (List.mem_filter.mpr ⟨List.mem_cons_self, htab⟩)

/-! ## 3. Leaving out what stands behind -/

namespace Rules

variable {norm : Normalizer} {scheme : List Char}

theorem norm_core (hr : Rules norm) (hs : IsScheme scheme) (text : List Char) :
    norm scheme ('/' :: '/' :: text) = norm scheme ('/' :: '/' :: core (kindOf scheme) text) := by
  cases hk : kindOf scheme with
  | file => rfl
  | web port =>
    have hfile : kindOf scheme ≠ .file := by rw [hk]; exact nofun
    rw [hr.tabs hs hfile]
    exact hr.slashes hs hk (dropTabs text)
  | other =>
    have hfile : kindOf scheme ≠ .file := by rw [hk]; exact nofun
    exact hr.tabs hs hfile text

section
variable {text : List Char} (hr : Rules norm) (hs : IsScheme scheme)
  (hweb : ∀ port, kindOf scheme = .web port → dropTabs (insideOf (kindOf scheme) text) ≠ [])
include hr hs hweb

/-- **The authority ends at the first sign that ends it**, wherever in the text this is. -/
theorem cut {e : Char} {back : List Char} (he : (kindOf scheme).endsAuthority e = true)
    (hfile : kindOf scheme = .file → ¬ HasDriveMark (text ++ e :: back)) :
    norm scheme ('/' :: '/' :: (text ++ e :: back))
      = norm scheme ('/' :: '/' :: (insideOf (kindOf scheme) text ++ ['/'])) := by
  have hin : ∀ c ∈ insideOf (kindOf scheme) text, (kindOf scheme).endsAuthority c = false :=
    fun c hc => endsAuthority_of_mem_insideOf hc
  obtain ⟨d, tail, hd, htext⟩ : ∃ d tail, (kindOf scheme).endsAuthority d = true ∧
      text ++ e :: back = insideOf (kindOf scheme) text ++ d :: tail := by
    rcases all_or_ends (kindOf scheme) text with hall | ⟨d, tail, hd, htext⟩
    · exact ⟨e, back, he, by rw [insideOf_of_all hall]⟩
    · refine ⟨d, tail ++ e :: back, hd, ?_⟩
      conv => lhs; rw [htext]
      rw [List.append_assoc]
      rfl
  rw [htext] at hfile ⊢
  refine hr.ends hs hin hweb hd fun hk => ?_
  exact not_mem_of_not_hasDriveMark (hk ▸ hin) (hk ▸ hd) (hfile hk)

/-- An authority that is read in front of a slash is read without it. -/
theorem stop {origin : List Char} (hother : kindOf scheme = .other → ¬ EndsInBlank text)
    (hfile : kindOf scheme = .file → ¬ HasDriveMark text)
    (h : norm scheme ('/' :: '/' :: (insideOf (kindOf scheme) text ++ ['/'])) = .ok origin) :
    norm scheme ('/' :: '/' :: text) = .ok origin := by
  rcases all_or_ends (kindOf scheme) text with hall | ⟨e, back, he, htext⟩
  · rw [insideOf_of_all hall] at h
    exact hr.alone hs hall hother h
  · have hin : insideOf (kindOf scheme) (insideOf (kindOf scheme) text)
        = insideOf (kindOf scheme) text :=
      insideOf_of_all fun c hc => endsAuthority_of_mem_insideOf hc
    rw [htext] at hfile ⊢
    rw [hr.cut hs (by rw [hin]; exact hweb) he hfile, hin, h]

end

section
variable {front : List Char} (hr : Rules norm) (hs : IsScheme scheme)
  (hmarks : ∀ c ∈ front, c ∉ ['/', '?', '#'])
  (hbare : ∀ port, kindOf scheme = .web port → core (kindOf scheme) front ≠ [])
include hr hs hmarks hbare

/-- **What stands behind the first slash does not count**, if in a scheme of the web an authority stands
    in front of it and in a `file` URI no mark of a drive letter behind the host. -/
theorem behind {back : List Char} (hfile : kindOf scheme = .file → ¬ HasDriveMark (front ++ '/' :: back)) :
    norm scheme ('/' :: '/' :: (front ++ '/' :: back)) = norm scheme
      ('/' :: '/' :: (insideOf (kindOf scheme) (core (kindOf scheme) front) ++ ['/'])) := by
  obtain ⟨tail, hcore, htail⟩ := core_append hbare back
  rw [hr.norm_core hs, hcore]
  refine hr.cut hs (dropTabs_insideOf_core hmarks hbare) rfl fun hk => ?_
  have hkeep : core (kindOf scheme) front = front := by rw [hk]; rfl
  rw [hkeep, htail hk]
  exact hfile hk

/-- **Nor does the slash**, if no blank in front of it is the end of an authority that would be trimmed
    there. -/
theorem front_of_behind {back origin : List Char}
    (hother : kindOf scheme = .other → ¬ EndsInBlank (dropTabs front))
    (hfile : kindOf scheme = .file → ¬ HasDriveMark (front ++ '/' :: back))
    (h : norm scheme ('/' :: '/' :: (front ++ '/' :: back)) = .ok origin) :
    norm scheme ('/' :: '/' :: front) = .ok origin := by
  rw [hr.behind hs hmarks hbare hfile] at h
  rw [hr.norm_core hs]
  refine hr.stop hs (dropTabs_insideOf_core hmarks hbare) (fun hk => ?_) (fun hk => ?_) h
  · have hdrop : core (kindOf scheme) front = dropTabs front := by rw [hk]; rfl
    rw [hdrop]
    exact hother hk
  · have hkeep : core (kindOf scheme) front = front := by rw [hk]; rfl
    rw [hkeep]
    exact fun hmark => hfile hk (hmark.append _)

end

/-- Where nothing but slashes is left, there is no host. -/
theorem norm_ne_ok_of_bare (hr : Rules norm) (hs : IsScheme scheme) {port : Nat}
    (hk : kindOf scheme = .web port) {text : List Char} (hbare : core (.web port) text = [])
    (origin : List Char) : norm scheme ('/' :: '/' :: text) ≠ .ok origin := by
  rw [hr.norm_core hs, hk, hbare]
  exact hr.host hs hk origin

end Rules

/-! ## 4. What cannot be left out -/

/-- The rest of a text has a say in its origin: what stands behind the first slash, or that anything
    does. What a blank or a drive letter does to the origin is left to the way it is normalised. -/
inductive Borrows (norm : Normalizer) (scheme front back : List Char) : Prop where
  /-- Nothing but backslashes stands in front of the slash, and the host behind it. -/
  | host {port : Nat} : kindOf scheme = .web port → (∀ c ∈ dropTabs front, c = '\\') →
      Borrows norm scheme front back
  /-- A blank at the end of the authority counts, because it is not at the end of the text. -/
  | blank : kindOf scheme = .other → EndsInBlank (dropTabs front) →
      norm scheme ('/' :: '/' :: front) ≠ norm scheme ('/' :: '/' :: (front ++ '/' :: back)) →
      Borrows norm scheme front back
  /-- A drive letter behind the host takes its place. -/
  | drive : kindOf scheme = .file → HasDriveMark (front ++ '/' :: back) →
      norm scheme ('/' :: '/' :: front) ≠ norm scheme ('/' :: '/' :: (front ++ '/' :: back)) →
      Borrows norm scheme front back

theorem core_web_eq_nil_iff {port : Nat} {front : List Char} (hslash : '/' ∉ front) :
    core (.web port) front = [] ↔ ∀ c ∈ dropTabs front, c = '\\' := by
  rw [core, List.dropWhile_eq_nil_iff]
  refine forall₂_congr fun c hc => ?_
  have hne : c ≠ '/' := fun he => hslash (he ▸ (List.mem_filter.mp hc).1)
  simp [isSlash, hne]

/-- **The same origin comes out of what stands in front of the first slash**, unless the rest has a say
    in it. -/
theorem Rules.front_iff {norm : Normalizer} (hr : Rules norm) {scheme : List Char} (hs : IsScheme scheme)
    {front back origin : List Char} (hmarks : ∀ c ∈ front, c ∉ ['/', '?', '#'])
    (h : norm scheme ('/' :: '/' :: (front ++ '/' :: back)) = .ok origin) :
    norm scheme ('/' :: '/' :: front) = .ok origin ↔ ¬ Borrows norm scheme front back := by
  have hslash : '/' ∉ front := fun hm => hmarks _ hm (by simp)
  constructor
  · intro hfront hborrows
    cases hborrows with
    | host hk hback =>
      exact hr.norm_ne_ok_of_bare hs hk ((core_web_eq_nil_iff hslash).mpr hback) origin hfront
    | blank _ _ hne => exact hne (hfront.trans h.symm)
    | drive _ _ hne => exact hne (hfront.trans h.symm)
  · intro hnot
    by_contra hfront
    have hne : norm scheme ('/' :: '/' :: front) ≠ norm scheme ('/' :: '/' :: (front ++ '/' :: back)) :=
      fun he => hfront (he.trans h)
    refine hfront (hr.front_of_behind hs hmarks (fun port hk hnil => ?_) (fun hk hends => ?_)
      (fun hk hmark => ?_) h)
    · rw [hk] at hnil
      exact hnot (.host hk ((core_web_eq_nil_iff hslash).mp hnil))
    · exact hnot (.blank hk hends hne)
    · exact hnot (.drive hk hmark hne)

end RouteTree.Origin
