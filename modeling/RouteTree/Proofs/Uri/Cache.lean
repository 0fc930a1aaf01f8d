import RouteTree.Proofs.Uri.Reading

/-!
# What a URI remembers

A URI remembers its text from the first time it is asked for until its parameters change. This file
says which URIs there are and what each of them remembers:

* `Made` is a URI that the operations of the library have made, in any order;
* `Current` says that what is remembered is the text as it is now, and `Made.current` that this holds
  of every URI there is;
* `Current.render` is what it comes to: a rendering does not depend on what was rendered before.
-/

namespace RouteTree.Uri

/-- A URI that was read or put together, and then bound, joined, expanded and rendered any number of
    times. Setting and removing a parameter give the URI other parameters, as `withParams` does. -/
inductive Made : Uri → Prop where
  | parse {input u} : Uri.parse input = .ok u → Made u
  | parsePattern {input u} : Uri.parsePattern input = .ok u → Made u
  | ofSegments (segments) : Made (Uri.ofSegments segments)
  | withParams {u} (params) : Made u → Made (u.withParams params)
  | bind {u} (params) : Made u → Made (u.bind params)
  | join {u suffix} : Made u → Made suffix → Made (u.join suffix)
  | expand {u v params} : Made u → u.expand params = .ok v → Made v
  | render {u} (format params) : Made u → Made (u.render format params).2

/-- What is remembered of the text of a URI is its text as it is now. -/
def Current (u : Uri) : Prop :=
  ∀ text, u.rendered = some text → text = u.rendering .expanded none

theorem current_of_nothing {u : Uri} (h : u.rendered = none) : Current u := by
  intro text ht
  rw [h] at ht
  cases ht

theorem rendered_of_parse {input : String} {u : Uri} (h : Uri.parse input = .ok u) :
    u.rendered = none := by
  obtain ⟨origin, path, -, rfl⟩ := parse_cases h
  rfl

theorem rendered_of_parsePattern {input : String} {u : Uri} (h : Uri.parsePattern input = .ok u) :
    u.rendered = none := by
  obtain ⟨origin, path, segments, -, -, rfl⟩ := parsePattern_cases h
  rfl

theorem rendered_of_expand {u v : Uri} {params : Option Params} (h : u.expand params = .ok v) :
    v.rendered = none := by
  obtain ⟨out, -, rfl⟩ := expand_cases h
  rfl

/-- Only what is bound to a template of the URI changes it, and then nothing is remembered. -/
theorem Current.bind {u : Uri} (h : Current u) (params : Params) : Current (u.bind params) := by
  unfold Uri.bind
  split
  · exact h
  · exact current_of_nothing rfl

/-- A rendering leaves a URI as it was, or with the text it has just worked out. -/
theorem Current.after_render {u : Uri} (h : Current u) (format : Format) (params : Option Params) :
    Current (u.render format params).2 := by
  unfold Uri.render
  split
  · split
    · exact h
    · intro text ht
      exact (Option.some.inj ht).symm
  · exact h

/-- **What a URI remembers is current**, whatever has been done with it. -/
theorem Made.current {u : Uri} (h : Made u) : Current u := by
  induction h with
  | parse hp => exact current_of_nothing (rendered_of_parse hp)
  | parsePattern hp => exact current_of_nothing (rendered_of_parsePattern hp)
  | ofSegments segments => exact current_of_nothing rfl
  | withParams params _ _ => exact current_of_nothing rfl
  | bind params _ ih => exact ih.bind params
  | join _ _ _ _ => exact current_of_nothing rfl
  | expand _ he _ => exact current_of_nothing (rendered_of_expand he)
  | render format params _ ih => exact ih.after_render format params

/-- **A rendering is worked out from the URI alone.** -/
theorem Current.render {u : Uri} (h : Current u) (format : Format) (params : Option Params) :
    (u.render format params).1 = u.rendering format params := by
  unfold Uri.render
  split
  · split
    · rename_i text ht
      exact h text ht
    · rfl
  · rfl

end RouteTree.Uri
