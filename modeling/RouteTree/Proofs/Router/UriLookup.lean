import Mathlib.Data.List.Basic
import RouteTree.Proofs.Router.Greedy
import RouteTree.Proofs.Uri.Reading

/-!
# Looking up a URI and looking up its text

A URI can be looked up as it is, or written down and looked up as the path of a request. The first
asks for the texts of its segments, the second for what these are read as once they are written. A part
of a catch-all value is stored as it is written, with its escapes, and only the second way decodes it.

* `lookupUri_of_isComponent` and `lookupPath_of_isComponent` say what each of the two asks for;
* `lookup_literals` is a router that tells any two requests apart;
* `lookupUri_agrees_iff` says for which expansions no router tells the two ways apart.
-/

namespace RouteTree

open Segment (keysOf)

variable {V : Type}

/-! ## 1. What the two ways ask for -/

namespace Router

theorem componentsOf_of_isComponent (u : Uri) : ∀ {segments : List Segment},
    (∀ s ∈ segments, s.IsComponent) →
    componentsOf u segments = .ok (segments.filterMap Segment.text?)
  | [], _ => rfl
  | s :: segments, h => by
    have hs : s.IsComponent := h s List.mem_cons_self
    have ih := componentsOf_of_isComponent u fun x hx => h x (List.mem_cons_of_mem s hx)
    cases s with
    | literal text => simp only [componentsOf, component, ih, List.filterMap_cons, Segment.text?]
    | reserved text => simp only [componentsOf, component, ih, List.filterMap_cons, Segment.text?]
    | param t => exact hs.elim
    | tag name => exact hs.elim

section
variable [RouteValue V]

/-- A URI of components is looked up by their texts, and never refused. -/
theorem lookupUri_of_isComponent (r : Router V) {u : Uri} (h : ∀ s ∈ u.segments, s.IsComponent) :
    (r.lookupUri u).outcome = .ok (r.lookup (u.segments.filterMap Segment.text?)).value := by
  rw [lookupUri, componentsOf_of_isComponent u h]
  rfl

/-- Its text is looked up by what they are read as. -/
theorem lookupPath_of_isComponent (r : Router V) {segments : List Segment}
    (h : ∀ s ∈ segments, s.IsComponent) (hne : segments ≠ []) :
    r.lookupPath (Uri.ofSegments segments).text = r.lookup (segments.filterMap Segment.read?) := by
  rw [lookupPath, Uri.text_ofSegments, Uri.components_of_isComponent h hne]

end

end Router

/-! ## 2. A router that tells requests apart -/

theorem isPrefixOf_snoc_append (K L : List Key) (k : Key) :
    (K ++ [k]).isPrefixOf (K ++ L) = [k].isPrefixOf L := by
  rw [Bool.eq_iff_iff, List.isPrefixOf_iff_prefix, List.isPrefixOf_iff_prefix,
    List.prefix_append_right_inj]

/-- Among the keys of a path of literals, only the request of their texts comes to the end. -/
theorem reach_literals : ∀ (path texts : List String) (K : List Key),
    reach (fun M => M.isPrefixOf (K ++ texts.map Key.exact)) K path = some (K ++ texts.map Key.exact)
      ↔ path = texts
  | [], texts, K => by simp [reach, eq_comm]
  | c :: path, [], K => by
    have hno : ∀ k, ¬ (K ++ [k]) <+: K := fun k h => by
      have := h.length_le
      rw [List.length_append, List.length_singleton] at this
      omega
    simp [reach, hno]
  | c :: path, d :: texts, K => by
    have ih := reach_literals path texts (K ++ [.exact d])
    rw [List.append_assoc, List.singleton_append] at ih
    by_cases h : c = d
    · subst h
      simpa [reach, isPrefixOf_snoc_append] using ih
    · simp [reach, isPrefixOf_snoc_append, h]

theorem keysOf_literals (texts : List String) :
    keysOf (texts.map Segment.literal) = texts.map Key.exact := by
  rw [keysOf, List.map_map]
  rfl

theorem fillsAt_literals : ∀ (texts : List String) (K : List Key),
    Segment.fillsAt (texts.map Segment.literal) K = false
  | [], _ => rfl
  | _ :: _, [] => rfl
  | text :: texts, k :: K => by
    have ih := fillsAt_literals texts K
    simp [Segment.fillsAt, Segment.isOptional, ih]

theorem isCut_literals : ∀ texts : List String, Segment.IsCut (texts.map Segment.literal)
  | [] => rfl
  | text :: texts => congrArg (Segment.literal text :: ·) (isCut_literals texts)

/-- **A route of literals answers the request of their texts and no other.** -/
theorem lookup_literals [RouteValue V] (texts path : List String) (v : V) :
    ((Router.mk (Node.build v (texts.map Segment.literal))).lookup path).value.map RouteMatch.value
      = some (some v) ↔ path = texts := by
  have hshow : (Node.build v (texts.map Segment.literal)).Shows [(texts.map Segment.literal, v)] :=
    Node.Shows.empty.extend (isCut_literals texts) (Node.extend_empty v _)
  have hpass : Table.passes [(texts.map Segment.literal, v)]
      = fun M => M.isPrefixOf (texts.map Key.exact) := by
    funext M
    rw [Table.passes_single, keysOf_literals]
  have hvalue : ∀ M, Table.value [(texts.map Segment.literal, v)] M = some v
      ↔ M = texts.map Key.exact := by
    intro M
    rw [Table.value_single, keysOf_literals, fillsAt_literals]
    simp [eq_comm]
  have hreach := reach_literals path texts []
  rw [List.nil_append] at hreach
  rw [Router.lookup_of_shows hshow, Table.answer, hpass, ← hreach]
  cases hr : reach (fun M => M.isPrefixOf (texts.map Key.exact)) [] path with
  | none => simp
  | some M =>
    rw [Option.bind_some, Option.some_inj]
    cases hv : Table.value [(texts.map Segment.literal, v)] M with
    | none => simp [← hvalue, hv]
    | some w => simp [← hvalue, hv]

/-! ## 3. When the two ways agree -/

/-- Two readings of a list that are never empty agree on all of it only if they agree on each. -/
theorem eq_of_filterMap_eq {α β : Type} {f g : α → Option β} : ∀ {l : List α},
    (∀ x ∈ l, (f x).isSome = true ∧ (g x).isSome = true) → l.filterMap f = l.filterMap g →
    ∀ x ∈ l, f x = g x
  | [], _, _, _, hx => nomatch hx
  | a :: l, hsome, h, x, hx => by
    obtain ⟨hf, hg⟩ := hsome a List.mem_cons_self
    obtain ⟨b, hb⟩ := Option.isSome_iff_exists.mp hf
    obtain ⟨c, hc⟩ := Option.isSome_iff_exists.mp hg
    rw [List.filterMap_cons, List.filterMap_cons, hb, hc] at h
    obtain ⟨hbc, hrest⟩ := List.cons.inj h
    rcases List.mem_cons.mp hx with rfl | hx
    · rw [hb, hc, hbc]
    · exact eq_of_filterMap_eq (fun y hy => hsome y (List.mem_cons_of_mem a hy)) hrest x hx

theorem Segment.IsComponent.isSome {s : Segment} (h : s.IsComponent) :
    s.text?.isSome = true ∧ s.read?.isSome = true := by
  cases s with
  | literal text => exact ⟨rfl, rfl⟩
  | reserved text => exact ⟨rfl, rfl⟩
  | param t => exact h.elim
  | tag name => exact h.elim

namespace Router

variable [RouteValue V]

/-- **A URI and its text go to the same place exactly if its catch-all values hold nothing to decode.**
    Take any expansion of a pattern without an origin that has a segment. Looking it up is never
    refused. No router tells that lookup from the lookup of its text if and only if each part of a
    catch-all value in it is read as itself once it is written; parts without a percent sign are. -/
theorem lookupUri_agrees_iff (v : V) {pattern : String} {p u : Uri} {params : Option Params}
    (hp : Uri.parsePattern pattern = .ok p) (ho : p.origin = none) (he : p.expand params = .ok u)
    (hne : u.segments ≠ []) :
    (∀ r : Router V, ∃ m, (r.lookupUri u).outcome = .ok m) ∧
    ((∀ r : Router V, (r.lookupUri u).outcome = .ok (r.lookupPath u.text).value) ↔
      ∀ text, .reserved text ∈ u.segments →
        Text.Percent.decode (Text.Percent.encodeReserved text) = text) ∧
    ((∀ text, .reserved text ∈ u.segments → '%' ∉ text.toList) →
      ∀ r : Router V, (r.lookupUri u).outcome = .ok (r.lookupPath u.text).value) := by
  have hc := Uri.isComponent_of_expand hp he
  obtain ⟨out, -, rfl⟩ := Uri.expand_cases he
  rw [ho] at hc hne ⊢
  change ∀ s ∈ out, s.IsComponent at hc
  change out ≠ [] at hne
  have huri : ∀ r : Router V, (r.lookupUri (Uri.ofSegments out)).outcome
      = .ok (r.lookup (out.filterMap Segment.text?)).value :=
    fun r => lookupUri_of_isComponent r hc
  have hpath : ∀ r : Router V, r.lookupPath (Uri.ofSegments out).text
      = r.lookup (out.filterMap Segment.read?) :=
    fun r => lookupPath_of_isComponent r hc hne
  have hagree : (∀ r : Router V, (r.lookupUri (Uri.ofSegments out)).outcome
        = .ok (r.lookupPath (Uri.ofSegments out).text).value) ↔
      ∀ text, .reserved text ∈ out →
        Text.Percent.decode (Text.Percent.encodeReserved text) = text := by
    constructor
    · intro h text htext
      -- the route of the stored texts is found by the URI, so its text has to ask for them as well
      have hfound := h ⟨Node.build v ((out.filterMap Segment.text?).map Segment.literal)⟩
      rw [huri, hpath] at hfound
      have hread : out.filterMap Segment.read? = out.filterMap Segment.text? := by
        rw [← lookup_literals _ _ v, ← Except.ok.inj hfound, lookup_literals]
      have hs := eq_of_filterMap_eq (fun s hs => (hc s hs).isSome) hread.symm _ htext
      exact (hc _ htext).text?_eq_read?_iff.mp hs text rfl
    · intro h r
      have hread : out.filterMap Segment.text? = out.filterMap Segment.read? := by
        refine List.filterMap_congr fun s hs => (hc s hs).text?_eq_read?_iff.mpr ?_
        rintro text rfl
        exact h text hs
      rw [huri, hpath, hread]
  refine ⟨fun r => ⟨_, huri r⟩, hagree, fun h => hagree.mpr fun text htext => ?_⟩
  exact Text.Percent.decode_encodeReserved (h text htext)

/-- A catch-all value with a space and a letter outside ASCII in it. -/
theorem lookupUri_agrees_files :
    ∃ p u, Uri.parsePattern "/files/{+path}" = .ok p ∧
      p.expand (some [("path", .single "a b/é")]) = .ok u ∧
      ∀ r : Router String, (r.lookupUri u).outcome = .ok (r.lookupPath u.text).value := by
  have hparse : Uri.parsePattern "/files/{+path}"
      = .ok (Uri.ofSegments [.literal "files", .param ⟨"path", some .catchAll, none⟩]) := by
    with_unfolding_all rfl
  have hexpand : (Uri.ofSegments [.literal "files", .param ⟨"path", some .catchAll, none⟩]).expand
      (some [("path", .single "a b/é")])
      = .ok (Uri.ofSegments [.literal "files", .reserved "a b", .reserved "é"]) := by
    with_unfolding_all rfl
  refine ⟨_, _, hparse, hexpand, ?_⟩
  refine (lookupUri_agrees_iff "" hparse rfl hexpand (List.cons_ne_nil _ _)).2.2 fun text ht => ?_
  have hmem : text = "a b" ∨ text = "é" := by simpa [Uri.ofSegments, Uri.ofParts] using ht
  rcases hmem with rfl | rfl <;> decide

/-- An escape in a catch-all value is looked up as it is written, and encoded once more: the request
    that binds `a%20b` is not the one that its expansion is looked up as. -/
theorem lookupUri_keeps_escapes :
    let r : Router String := empty.after (.insertPattern "/files/{+path}" "files")
    ∃ p u, Uri.parsePattern "/files/{+path}" = .ok p ∧
      p.expand (some [("path", .single "a%20b")]) = .ok u ∧
      (r.lookupUri u).outcome.map (Option.map RouteMatch.params)
        = .ok (some [("path", .single "a%2520b")]) ∧
      (r.lookupPath u.text).value.map RouteMatch.params = some [("path", .single "a%20b")] := by
  refine ⟨Uri.ofSegments [.literal "files", .param ⟨"path", some .catchAll, none⟩],
    Uri.ofSegments [.literal "files", .reserved "a%20b"], ?_, ?_, ?_, ?_⟩
  · with_unfolding_all rfl
  · with_unfolding_all rfl
  · decide +kernel
  · decide +kernel

end Router

end RouteTree
