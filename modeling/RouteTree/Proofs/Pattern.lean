import RouteTree.Pattern
import RouteTree.Spec.Basic

/-!
# What patterns stand for

A pattern is read group by group, so what holds of the segment of every group holds of every segment
of a pattern.
-/

namespace RouteTree

/-- The segment is a literal or a template. -/
def Segment.IsWritten (s : Segment) : Prop := (∃ text, s = .literal text) ∨ ∃ t, s = .param t

namespace Pattern

theorem isWritten_of_group {text rest : List Char} {s : Segment} (h : group text = .ok (s, rest)) :
    s.IsWritten := by
  unfold group at h
  split at h
  · cases h
  · cases h
    exact Or.inl ⟨_, rfl⟩
  · split at h <;> cases h
    exact Or.inr ⟨_, rfl⟩
  · cases h
    exact Or.inl ⟨_, rfl⟩
  · split at h <;> cases h
    exact Or.inr ⟨_, rfl⟩
  · cases h

theorem parseChars_cons {c : Char} {cs : List Char} {segments : List Segment}
    (h : parseChars (c :: cs) = .ok segments) : ∃ s rest more, group (c :: cs) = .ok (s, rest) ∧
      parseChars rest = .ok more ∧ segments = s :: more := by
  rw [parseChars] at h
  split at h
  · cases h
  · rename_i s rest hg
    split at h
    · cases h
    · rename_i more hm
      cases h
      exact ⟨s, rest, more, hg, hm, rfl⟩

/-- **What holds of the segment of each group holds of each segment of a pattern.** -/
theorem parseChars_all {P : Segment → Prop}
    (h : ∀ {text rest s}, group text = .ok (s, rest) → P s) :
    ∀ (text : List Char) {segments : List Segment}, parseChars text = .ok segments →
      ∀ s ∈ segments, P s
  | [], segments, hp => by
    rw [parseChars] at hp
    cases hp
    intro s hs
    cases hs
  | c :: cs, segments, hp => by
    obtain ⟨s, rest, more, hg, hm, rfl⟩ := parseChars_cons hp
    intro x hx
    rcases List.mem_cons.mp hx with rfl | hx
    · exact h hg
    · exact parseChars_all h rest hm x hx
termination_by text => text.length
decreasing_by exact length_of_group hg

theorem parseChars_of_parse {pattern : String} {segments : List Segment}
    (h : parse pattern = .ok segments) : parseChars pattern.toList = .ok segments := by
  unfold parse at h
  split at h <;> cases h
  assumption

/-- A pattern has literals and templates only. -/
theorem isWritten_of_parse {pattern : String} {segments : List Segment}
    (h : parse pattern = .ok segments) : ∀ s ∈ segments, s.IsWritten :=
  parseChars_all isWritten_of_group pattern.toList (parseChars_of_parse h)

/-- A pattern starts with a slash or a brace, if it is not empty. -/
theorem head_of_parseChars {c : Char} {cs : List Char} {segments : List Segment}
    (h : parseChars (c :: cs) = .ok segments) : c = '/' ∨ c = '{' := by
  obtain ⟨s, rest, more, hg, -, -⟩ := parseChars_cons h
  unfold group at hg
  split at hg <;> simp_all

end Pattern

namespace ApiSpec

/-- Each mount is what one of the patterns stands for. -/
theorem mem_parseMounts : ∀ {patterns : List String} {mounts : List (List Segment)},
    parseMounts patterns = .ok mounts → ∀ mount ∈ mounts, ∃ p ∈ patterns, Pattern.parse p = .ok mount
  | [], mounts, h => by
    cases h
    intro mount hm
    cases hm
  | p :: rest, mounts, h => by
    unfold parseMounts at h
    split at h
    · cases h
    · rename_i segments hp
      split at h
      · cases h
      · rename_i more hmore
        cases h
        intro mount hm
        rcases List.mem_cons.mp hm with rfl | hm
        · exact ⟨p, List.mem_cons_self, hp⟩
        · obtain ⟨q, hq, hparse⟩ := mem_parseMounts hmore mount hm
          exact ⟨q, List.mem_cons_of_mem p hq, hparse⟩

end ApiSpec

end RouteTree
