import RouteTree.Proofs.Node.Canonical
import RouteTree.Proofs.Node.Kept
import RouteTree.Proofs.Router.Expansion
import RouteTree.Proofs.Router.Trail

/-!
# Listings

A request whose last component is empty gets a listing of the node it asks about. This file says what
is on it, in terms of the accepted routes:

* `mem_keys` and `sorted_keys` read the listing of one node off its children;
* `walk_asked` says which node is listed: the last one left behind, at the keys that the components
  before the last one come to;
* `listing_exact` puts them together, with the requests that get no listing.
-/

namespace RouteTree

variable {V : Type}

/-- What a listing of the node at some keys shows: nothing if some route goes on with a template there,
    else the concrete components that some route has next, each once and in their order. The empty
    component is shown only if some route goes on after it. -/
def Table.IsListing (t : Table V) (K : List Key) (texts : List String) : Prop :=
  if t.passes (K ++ [.wild]) ∨ t.passes (K ++ [.catchAll]) then texts = []
  else texts.Pairwise (· < ·) ∧ ∀ text, text ∈ texts ↔
    t.passes (K ++ [.exact text]) ∧ (text = "" → ∃ k, t.passes (K ++ [.exact "", k]))

/-! ## 1. The listing of one node -/

namespace Node

theorem hasChildren_iff {n : Node V} (hl : n.loops = false) :
    n.hasChildren = true ↔ ∃ k, (n.child? k).isSome = true := by
  constructor
  · intro h
    cases he : n.edges with
    | nil => simp [hasChildren, hl, he] at h
    | cons e rest =>
      obtain ⟨k, child⟩ := e
      refine ⟨k, ?_⟩
      rw [child?, he, Assoc.lookup_cons, if_pos rfl]
      rfl
  · rintro ⟨k, hk⟩
    obtain ⟨child, hchild⟩ := Option.isSome_iff_exists.mp hk
    exact hasChildren_of_child? hchild

theorem keys_eq_nil {n : Node V} (hl : n.loops = false)
    (h : (n.child? .wild).isSome = true ∨ (n.child? .catchAll).isSome = true) : n.keys = [] := by
  have hc : n.catchAllChild? = n.child? .catchAll := by simp [catchAllChild?, hl]
  unfold keys
  rw [hc]
  exact if_pos (by simpa using h)

/-- The entry of a listing for an edge has the text of the edge. -/
theorem text_of_entry {edge : Key × Node V} {text : String}
    (h : (match edge.1.text? with
      | some text => if text ≠ "" ∨ edge.2.hasChildren then some text else none
      | none => none) = some text) :
    edge.1 = .exact text ∧ (text = "" → edge.2.hasChildren = true) := by
  obtain ⟨key, child⟩ := edge
  cases key with
  | exact shown =>
    dsimp only [Key.text?] at h
    split at h
    · rename_i hs
      obtain rfl := Option.some.inj h
      exact ⟨rfl, fun he => hs.resolve_left fun hne => hne he⟩
    · cases h
  | wild => cases h
  | catchAll => cases h
  | tag name => cases h

/-- **What is on a listing**, for a node with no children but concrete ones. -/
theorem mem_keys {n : Node V} (hs : Assoc.Sorted n.edges) (hl : n.loops = false)
    (hw : n.child? .wild = none) (ha : n.child? .catchAll = none) (text : String) :
    text ∈ n.keys ↔
      ∃ child, n.child? (.exact text) = some child ∧ (text = "" → child.hasChildren = true) := by
  have hc : n.catchAllChild? = none := by simp [catchAllChild?, hl, ha]
  unfold keys
  simp only [hw, hc, Option.isSome_none, Bool.or_false, Bool.false_eq_true, if_false,
    List.mem_filterMap]
  constructor
  · rintro ⟨⟨key, child⟩, hmem, h⟩
    obtain ⟨rfl, hempty⟩ := text_of_entry h
    exact ⟨child, Assoc.lookup_of_mem hs hmem, hempty⟩
  · rintro ⟨child, hchild, hempty⟩
    refine ⟨(.exact text, child), Assoc.mem_of_lookup hchild, ?_⟩
    by_cases he : text = ""
    · exact if_pos (Or.inr (hempty he))
    · exact if_pos (Or.inl he)

theorem sorted_keys {n : Node V} (hs : Assoc.Sorted n.edges) : n.keys.Pairwise (· < ·) := by
  unfold keys
  split
  · exact .nil
  · refine List.Pairwise.filterMap _ ?_ hs
    intro e f hlt s he t hf
    have hkey : Key.exact s < Key.exact t := by
      rw [← (text_of_entry he).1, ← (text_of_entry hf).1]
      exact hlt
    exact decide_eq_true_iff.mp hkey

/-- **The listing of a node is the one of its keys in the table.** -/
theorem Shows.isListing {root n : Node V} {t : Table V} {K : List Key} (h : root.Shows t)
    (hc : Canonical root) (hn : root.at? K = some n) (hK : K.getLast? ≠ some .catchAll) :
    t.IsListing K n.keys := by
  have hl : n.loops = false := Bool.eq_false_iff.mpr fun hl => hK (h.loops K n hn hl)
  have hs : Assoc.Sorted n.edges := hc.order K n hn
  have hchild : ∀ k, (n.child? k).isSome = t.passes (K ++ [k]) := fun k => by
    rw [← at?_snoc hn, h.isSome_at?_snoc]
  unfold Table.IsListing
  rw [← hchild, ← hchild]
  split
  · rename_i hopen
    exact keys_eq_nil hl hopen
  · rename_i hopen
    obtain ⟨hw, ha⟩ := not_or.mp hopen
    refine ⟨sorted_keys hs, fun text => ?_⟩
    rw [mem_keys hs hl (by simpa using hw) (by simpa using ha), ← hchild, Option.isSome_iff_exists,
      ← exists_and_right]
    refine exists_congr fun child => and_congr_right fun hx => ?_
    refine forall_congr' fun he => ?_
    subst he
    -- the child of the empty component is at keys that end in no catch-all either
    have hat : root.at? (K ++ [.exact ""]) = some child := (at?_snoc hn _).trans hx
    have hlast : (K ++ [Key.exact ""]).getLast? ≠ some .catchAll := by simp
    have hloops : child.loops = false :=
      Bool.eq_false_iff.mpr fun hl => hlast (h.loops _ child hat hl)
    rw [hasChildren_iff hloops]
    refine exists_congr fun k => ?_
    rw [← at?_snoc hat, h.isSome_at?_snoc, List.append_assoc]
    rfl

/-! ## 2. The node asked about -/

/-- **Which node is listed.** If the components before the last one come to the keys `L`, the last node
    left behind is the one at `L`, or, if a catch-all has taken these components, the one above it. -/
theorem walk_asked {root : Node V} (hroot : LoopsAtEnds root) (last : String) :
    ∀ (front : List String) {K L : List Key} {n : Node V} (params : Params), root.at? K = some n →
      K.getLast? ≠ some .catchAll → reach (fun L => (root.at? L).isSome) K front = some L →
      ∃ M asked, root.at? M = some asked ∧ M.getLast? ≠ some .catchAll ∧
        (n.walk params (front ++ [last])).listing = asked.keys ∧
        (L = M ∨ L = M ++ [.catchAll])
  | [], K, L, n, params, hn, hK, h => by
    cases h
    refine ⟨K, n, hn, hK, ?_, Or.inl rfl⟩
    rw [List.nil_append, walk]
    cases n.turn last <;> rfl
  | c :: rest, K, L, n, params, hn, hK, h => by
    have hl : n.loops = false := Bool.eq_false_iff.mpr fun hl => hK (hroot K n hn hl)
    rw [reach_cons] at h
    rw [List.cons_append, walk]
    cases hk : keyTurn (fun L => (root.at? L).isSome) K c with
    | none =>
      rw [hk] at h
      cases h
    | some k =>
      obtain ⟨child, hchild, ht⟩ := turn_of_keyTurn hn hl hk
      rw [hk] at h
      rw [ht]
      dsimp only at h ⊢
      by_cases hne : k = .catchAll
      · rw [if_pos hne] at h
        cases h
        rw [if_pos hne]
        exact ⟨K, n, hn, hK, rfl, Or.inr (by rw [hne])⟩
      · have hlast : (K ++ [k]).getLast? ≠ some .catchAll := by
          rw [List.getLast?_concat]
          exact fun h => hne (Option.some.inj h)
        rw [if_neg hne] at h
        obtain ⟨M, asked, hM, hMlast, hlist, hL⟩ :=
          walk_asked hroot last rest (child.bindTo c params) hchild hlast h
        refine ⟨M, asked, hM, hMlast, ?_, hL⟩
        have hmore : rest ++ [last] ≠ [] :=
          List.append_ne_nil_of_right_ne_nil rest (List.cons_ne_nil last [])
        rw [if_neg hne]
        exact (listing_walk_child n child hmore _).trans hlist

/-- What is listed for a request, by the table of the routes: the keys that the components before the
    last one come to. Where a catch-all has taken them, the node above it is listed. -/
theorem Shows.walk_listing {root : Node V} {t : Table V} (h : root.Shows t) (hc : Canonical root)
    {front : List String} {L : List Key} (hr : reach t.passes [] front = some L) (last : String)
    (params : Params) :
    (L.getLast? ≠ some .catchAll → t.IsListing L (root.walk params (front ++ [last])).listing) ∧
      (L.getLast? = some .catchAll → (root.walk params (front ++ [last])).listing = []) := by
  have hreach : reach (fun L => (root.at? L).isSome) [] front = some L :=
    (reach_congr h.isSome_at?_snoc front []).trans hr
  obtain ⟨M, asked, hM, hMlast, hlist, hL⟩ :=
    walk_asked h.loops last front params (K := []) (n := root) rfl (by simp) hreach
  have hof : t.IsListing M asked.keys := h.isListing hc hM hMlast
  rw [hlist]
  rcases hL with rfl | rfl
  · exact ⟨fun _ => hof, fun hcatch => absurd hcatch hMlast⟩
  · refine ⟨fun hno => absurd List.getLast?_concat hno, fun _ => ?_⟩
    have hpasses : t.passes (M ++ [.catchAll]) = true :=
      (reach_admitted front hr).resolve_left (by simp)
    rw [Table.IsListing, if_pos (Or.inr hpasses)] at hof
    exact hof

end Node

/-! ## 3. Lookups -/

namespace Router

/-- A walk binds only names of the routes. -/
theorem get?_walk_params {r : Router V} {t : Table V} (h : r.root.Shows t) {name : String}
    (hname : ∀ route ∈ t, name ∉ namesOf route.1) (path : List String) :
    (r.root.walk [] path).params.get? name = none := by
  rw [h.walk_params]
  refine Params.get?_merge_of_not_mem [] fun hmem => ?_
  obtain ⟨⟨bound, value⟩, hb, rfl⟩ := List.mem_map.mp hmem
  obtain ⟨step, -, hbind⟩ := List.mem_filterMap.mp hb
  obtain ⟨found, hfound, he⟩ := Option.map_eq_some_iff.mp hbind
  obtain ⟨rfl, -⟩ := Prod.mk.inj he
  obtain ⟨route, hroute, hbinds⟩ := (h.name _ _).mp hfound
  obtain ⟨front, t, back, hsplit, rfl, -⟩ := (Segment.bindsAt_iff _ _ _).mp hbinds
  refine hname route hroute (mem_namesOf ?_)
  rw [hsplit]
  simp

variable [RouteValue V]

theorem lookup_of_unread {r : Router V} {path : List String} (hu : (r.root.walk [] path).unread = [])
    (ha : asksListing path = true) :
    (r.lookup path).value = some ((r.root.walk [] path).result path) := by
  unfold lookup
  simp [hu, ha]

theorem lookup_of_off {r : Router V} {t : Table V} (h : r.root.Shows t) {path : List String}
    (hr : reach t.passes [] path.dropLast = none) : (r.lookup path).value = none := by
  have hu : (r.root.walk [] path).unread ≠ [] := fun hu => by
    rw [Node.walk_unread, h.walk_reached_isSome, hr] at hu
    cases hu
  unfold lookup
  dsimp only
  rw [if_pos hu]
  rfl

/-- **Listings are exact.** Let calls be made on the empty router that mount no empty set of routes and
    mount nothing under a template that may be absent or takes all that is left, and let no template of
    the accepted routes have the name of the listing. Then for every request:

    * if its last component is empty and those before it come to some keys, it is found, with or
      without a value, and gets the listing of these keys; if a catch-all has taken them, the listing
      is empty;
    * if the components before the last one leave the tree, it is not found;
    * if its last component is not empty, it gets no listing. -/
theorem listing_exact {calls : List (Call V)} (hf : ∀ c ∈ calls, c.Filled)
    (hp : ∀ c ∈ calls, c.PlainMounts)
    (hnames : ∀ route ∈ empty.history calls, Params.listingKey ∉ namesOf route.1)
    (path : List String) :
    let t := empty.history calls
    let found := ((empty.afterAll calls).lookup path).value
    (path.getLast? = some "" → ∀ L, reach t.passes [] path.dropLast = some L →
      ∃ m texts, found = some m ∧ m.params.get? Params.listingKey = some (.list texts) ∧
        (L.getLast? ≠ some .catchAll → t.IsListing L texts) ∧
        (L.getLast? = some .catchAll → texts = [])) ∧
    (reach t.passes [] path.dropLast = none → found = none) ∧
    (path.getLast? ≠ some "" → ∀ m, found = some m → m.params.get? Params.listingKey = none) := by
  intro t found
  have hs : (empty.afterAll calls).root.Shows t := shows_history hf hp
  have hc : (empty.afterAll calls).root.Canonical := canonical_afterAll calls Node.canonical_empty hp
  refine ⟨fun hlast L hr => ?_, lookup_of_off hs, fun hlast m hm => ?_⟩
  · have ha : asksListing path = true := decide_eq_true hlast
    have hu : ((empty.afterAll calls).root.walk [] path).unread = [] := by
      rw [Node.walk_unread, hs.walk_reached_isSome, hr]
      rfl
    have hsplit : path = path.dropLast ++ [""] := by
      obtain ⟨front, rfl⟩ := List.getLast?_eq_some_iff.mp hlast
      rw [List.dropLast_concat]
    have hlist := hs.walk_listing hc hr "" []
    rw [← hsplit] at hlist
    refine ⟨_, _, lookup_of_unread hu ha, ?_, hlist⟩
    unfold Walk.result
    dsimp only
    rw [if_pos ha, Params.get?_set_self]
  · have ha : asksListing path = false := decide_eq_false hlast
    obtain rfl := result_of_lookup hm
    unfold Walk.result
    dsimp only
    rw [ha, if_neg Bool.false_ne_true]
    exact get?_walk_params hs hnames path

/-- The empty component is listed because a route goes on after it; the same component at the end of a
    route alone would not be. -/
theorem listing_exact_double :
    let calls : List (Call String) := [.insertPattern "/double/" "directory",
      .insertPattern "/double//slash" "slash", .insertPattern "/double/page" "page"]
    let t := empty.history calls
    ∃ m texts, ((empty.afterAll calls).lookup ["double", ""]).value = some m ∧
      m.params.get? Params.listingKey = some (.list texts) ∧
      t.IsListing [.exact "double"] texts ∧ texts = ["", "page"] := by
  intro calls t
  have hf : ∀ c ∈ calls, c.Filled := by simp [calls, Call.Filled]
  have hp : ∀ c ∈ calls, c.PlainMounts := by simp [calls, Call.PlainMounts]
  have ht : t = [([.literal "double", .literal ""], "directory"),
      ([.literal "double", .literal "", .literal "slash"], "slash"),
      ([.literal "double", .literal "page"], "page")] := by
    with_unfolding_all rfl
  have hnames : ∀ route ∈ t, Params.listingKey ∉ namesOf route.1 := by
    rw [ht]
    decide
  have hr : reach t.passes [] ["double"] = some [.exact "double"] := by
    rw [ht]
    decide
  obtain ⟨m, texts, hm, hget, hlist, -⟩ :=
    (listing_exact hf hp hnames ["double", ""]).1 rfl [.exact "double"] hr
  refine ⟨m, texts, hm, hget, hlist (by simp), ?_⟩
  have hfound : (((empty.afterAll calls).lookup ["double", ""]).value.bind
      fun m => m.params.get? Params.listingKey) = some (.list ["", "page"]) := by
    with_unfolding_all rfl
  rw [hm, Option.bind_some, hget] at hfound
  exact ParamValue.list.inj (Option.some.inj hfound)

end Router

end RouteTree
