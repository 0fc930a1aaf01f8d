import RouteTree.Proofs.Node.Kept
import RouteTree.Proofs.Router.Greedy

/-!
# Insertions and the branches beside them

An inserted route changes the nodes on its own path. A request that leaves this path for another branch
passes some of these nodes, and gets the same answer as before:

* `LeavesAt` says that a request follows the keys of a path for some steps and then goes to a child
  under another key, and `NamedAlong` that the templates of the path have no name left to give there;
* `walk_alike` compares the walks before and after the insertion, by induction on the steps they have
  in common: they end at one node, and the nodes they pass differ at most in their children;
* `insert_keeps_siblings` is the comparison of the lookups, and what it says of the mounts of one set of
  routes: nothing that is inserted behind one of them shows behind another.
-/

namespace RouteTree

open Segment (keysOf)

variable {V : Type}

namespace Node

/-! ## 1. Requests that leave a path -/

/-- A request goes on with a component under this key, which is the component's own or, if there is no
    child under that, the open one. -/
def GoesUnder (n : Node V) (c : String) (k : Key) : Prop :=
  k = .exact c ∨ k = .wild ∧ n.child? (.exact c) = none ∧ c ≠ ""

/-- **From this node on, a request follows the keys of a path for `j` steps**, each of them to a child
    for one component, and its next step goes to the child of the component's own text, under another
    key than that of the path. -/
inductive LeavesAt : Node V → List Segment → List String → Nat → Prop where
  | here {n child : Node V} {s : Segment} {rest : List Segment} {c : String} {more : List String} :
      n.child? (.exact c) = some child → s.key ≠ .exact c → LeavesAt n (s :: rest) (c :: more) 0
  | along {n child : Node V} {s : Segment} {rest : List Segment} {c : String} {more : List String}
      {j : Nat} :
      n.GoesUnder c s.key → n.child? s.key = some child → LeavesAt child rest more j →
      LeavesAt n (s :: rest) (c :: more) (j + 1)

/-- Each template among the first `j` segments of a path has named the node that it leads to. -/
def NamedAlong (n : Node V) (P : List Segment) (j : Nat) : Prop :=
  ∀ i < j, ∀ t, P[i]? = some (.param t) →
    (n.at? (keysOf (P.take (i + 1)))).bind Node.name = some t.name

theorem NamedAlong.first {n child : Node V} {s : Segment} {rest : List Segment} {j : Nat}
    (h : n.NamedAlong (s :: rest) (j + 1)) (hc : n.child? s.key = some child) :
    child.adopt s = child := by
  rw [adopt_eq_renamed]
  refine ext_fields rfl ?_ rfl rfl
  cases s with
  | param t =>
    have hn := h 0 (Nat.succ_pos j) t rfl
    rw [List.take_succ_cons, List.take_zero, Segment.keysOf_cons, Segment.keysOf_nil, at?_cons,
      hc] at hn
    have hname : child.name = some t.name := hn
    simp [renamed, hname]
  | literal _ => simp [renamed, nameOf, Segment.template?]
  | reserved _ => simp [renamed, nameOf, Segment.template?]
  | tag _ => simp [renamed, nameOf, Segment.template?]

theorem NamedAlong.below {n child : Node V} {s : Segment} {rest : List Segment} {j : Nat}
    (h : n.NamedAlong (s :: rest) (j + 1)) (hc : n.child? s.key = some child) :
    child.NamedAlong rest j := by
  intro i hi t ht
  have hn := h (i + 1) (by omega) t ht
  rw [List.take_succ_cons, Segment.keysOf_cons, at?_cons, hc] at hn
  exact hn

section
variable {n child : Node V} {c : String} {k : Key}

theorem turn_of_exact (h : n.child? (.exact c) = some child) : n.turn c = .child child := by
  rw [turn, h]

theorem turn_of_goesUnder (h : n.GoesUnder c k) (hc : n.child? k = some child) :
    n.turn c = .child child := by
  rcases h with rfl | ⟨rfl, hx, hne⟩
  · exact turn_of_exact hc
  · rw [turn, hx]
    dsimp only
    rw [if_neg hne, hc]

/-- A request goes under the same key after the child there has been replaced. -/
theorem GoesUnder.setChild (h : n.GoesUnder c k) (below : Node V) :
    (n.setChild k below).GoesUnder c k := by
  rcases h with rfl | ⟨rfl, hx, hne⟩
  · exact Or.inl rfl
  · exact Or.inr ⟨rfl, (child?_setChild_of_ne (by simp) n below).trans hx, hne⟩

theorem GoesUnder.ne_catchAll (h : n.GoesUnder c k) : k ≠ .catchAll := by
  rcases h with rfl | ⟨rfl, -⟩ <;> simp

end

/-! ## 2. Extending along the path -/

/-- An extension changes no more of its first node than the child under its first key, if its first
    segment may not be absent. -/
theorem extend_first {n n' : Node V} {v : V} {s : Segment} {rest : List Segment}
    (ho : s.isOptional = false) (h : n.extend v (cutAfterCatchAll (s :: rest)) = .ok n') :
    ∃ below, n' = n.setChild s.key below := by
  obtain ⟨back, hcut⟩ : ∃ back, cutAfterCatchAll (s :: rest) = s :: back := by
    unfold cutAfterCatchAll
    split <;> exact ⟨_, rfl⟩
  have hc := Segment.isCut_cut (s :: rest)
  rw [hcut] at h hc
  rcases extend_cases hc h with ⟨-, -, child, -, rfl⟩ | ⟨-, below, -, rfl⟩
  · exact ⟨child, rfl⟩
  · exact ⟨below, by simp [fillFor, ho]⟩

/-- Where the child is there and has its name, the extension goes on in it. -/
theorem extend_along {n n' child : Node V} {v : V} {s : Segment} {rest : List Segment}
    (hs : s.isPlain = true) (hc : n.child? s.key = some child) (ha : child.adopt s = child)
    (h : n.extend v (cutAfterCatchAll (s :: rest)) = .ok n') :
    ∃ below, child.extend v (cutAfterCatchAll rest) = .ok below ∧ n' = n.setChild s.key below := by
  rw [cut_cons (Segment.not_isCatchAll_of_isPlain hs), extend_plain hs, slot_of_child hc, ha] at h
  obtain ⟨-, -, h⟩ := Attempt.ok_of_bind h
  obtain ⟨below, hb, rfl⟩ := Attempt.ok_of_map h
  exact ⟨below, hb, rfl⟩

end Node

/-! ## 3. Walks that differ in children only -/

namespace Walk

/-- The walks end at one node with the same bindings, past nodes with the same values. -/
structure Alike (w w' : Walk V) : Prop where
  params : w'.params = w.params
  reached : w'.reached = w.reached
  unread : w'.unread = w.unread
  passed : w'.passed.map Node.value = w.passed.map Node.value

theorem Alike.values {w w' : Walk V} (h : w.Alike w') : w'.values = w.values := by
  have hsplit : ∀ u : Walk V, u.values
      = (u.passed.map Node.value).filterMap id ++ u.reached.toList.filterMap Node.value := fun u => by
    rw [Walk.values, nodes, List.filterMap_append, List.filterMap_map]
    rfl
  rw [hsplit, hsplit, h.passed, h.reached]

end Walk

namespace Node

/-- **The walks before and after an insertion**, for a request that leaves the inserted path. The
    induction is on the steps they have in common; what they pass there differs in the one child that
    was extended. -/
theorem walk_alike {v : V} {n : Node V} {P : List Segment} {path : List String} {j : Nat}
    (hp : n.LeavesAt P path j) : ∀ {n' : Node V} (params : Params),
    (∀ s ∈ P.take (j + 1), s.isOptional = false) → n.NamedAlong P j →
    n.extend v (cutAfterCatchAll P) = .ok n' →
    (n.walk params path).Alike (n'.walk params path) ∧ (j + 1 < path.length →
      (n'.walk params path).listing = (n.walk params path).listing) := by
  induction hp with
  | @here n child s rest c more hc hk =>
    intro n' params ho _ h
    obtain ⟨below, rfl⟩ := extend_first (ho s (by simp)) h
    have ht := turn_of_exact hc
    have ht' : (n.setChild s.key below).turn c = .child child :=
      turn_of_exact ((child?_setChild_of_ne (Ne.symm hk) n below).trans hc)
    rw [walk, walk, ht, ht']
    refine ⟨⟨rfl, rfl, rfl, rfl⟩, fun hlen => ?_⟩
    have hmore : more ≠ [] := by
      rintro rfl
      simp at hlen
    exact (listing_walk_child _ child hmore _).trans (listing_walk_child _ child hmore _).symm
  | @along n child s rest c more j hg hc hrest ih =>
    intro n' params ho hn h
    have hplain : s.isPlain = true := by
      have hcatch : s.isCatchAll = false := Bool.eq_false_iff.mpr fun h =>
        hg.ne_catchAll (Segment.key_of_isCatchAll h)
      simp [Segment.isPlain, ho s (by simp), hcatch]
    obtain ⟨below, hb, rfl⟩ := extend_along hplain hc (hn.first hc) h
    have ht := turn_of_goesUnder hg hc
    have ht' := turn_of_goesUnder (hg.setChild below) (child?_setChild_self n below s.key)
    have hbind : below.bindTo c params = child.bindTo c params := by
      rw [bindTo, bindTo, name_of_extend (Segment.isCut_cut rest) hb]
    obtain ⟨halike, hlist⟩ := ih (child.bindTo c params)
      (fun x hx => ho x (by rw [List.take_succ_cons]; exact List.mem_cons_of_mem s hx))
      (hn.below hc) hb
    rw [walk, walk, ht, ht']
    dsimp only
    rw [hbind]
    refine ⟨⟨halike.params, halike.reached, halike.unread, ?_⟩, fun hlen => ?_⟩
    · rw [List.map_cons, List.map_cons, halike.passed]
      rfl
    · have hlen' : j + 1 < more.length := by
        rw [List.length_cons] at hlen
        omega
      have hmore : more ≠ [] := by
        rintro rfl
        simp at hlen'
      exact (listing_walk_child _ below hmore _).trans
        ((hlist hlen').trans (listing_walk_child _ child hmore _).symm)

/-! ## 4. Mounts of one set of routes -/

theorem Carries.isSome_at? : ∀ {path : List Segment} {n : Node V}, n.Carries path →
    ∀ {K : List Key}, K <+: keysOf path → (n.at? K).isSome = true
  | _, _, _, [], _ => rfl
  | [], _, _, k :: K, h => by
    have := h.length_le
    simp at this
  | s :: rest, n, ⟨child, hc, _, hrest⟩, k :: K, h => by
    obtain ⟨rfl, hrest'⟩ := List.cons_prefix_cons.mp h
    rw [at?_cons, hc]
    exact hrest.isSome_at? hrest'

theorem NamedAlong.cons {n child : Node V} {s : Segment} {rest : List Segment} {j : Nat}
    (hc : n.child? s.key = some child) (hs : ∀ t, s = .param t → child.name = some t.name)
    (h : child.NamedAlong rest j) : n.NamedAlong (s :: rest) (j + 1) := by
  intro i hi t ht
  rw [List.take_succ_cons, Segment.keysOf_cons, at?_cons, hc]
  cases i with
  | zero => exact hs t (Option.some.inj ht)
  | succ i => exact h i (by omega) t ht

/-- A request for one of two mounts leaves the other one where they go apart, and the templates in
    front of that place have named their nodes. -/
theorem leavesAt_of_carries {s : Segment} {back : List Segment} {text : String}
    (hs : s.key ≠ .exact text) (back' : List Segment) (more : List String) :
    ∀ (front : List Segment) {n : Node V} {texts : List String}, n.Carries (front ++ s :: back) →
    keysOf front = texts.map .exact → (n.at? (texts.map .exact ++ [.exact text])).isSome = true →
    n.LeavesAt (front ++ s :: back') (texts ++ text :: more) texts.length ∧
      n.NamedAlong (front ++ s :: back') texts.length
  | [], n, [], _, _, hat => by
    obtain ⟨child, hchild⟩ := Option.isSome_iff_exists.mp hat
    rw [List.map_nil, List.nil_append, at?_cons] at hchild
    obtain ⟨found, hfound, -⟩ := Option.bind_eq_some_iff.mp hchild
    exact ⟨.here hfound hs, fun i hi => absurd hi (Nat.not_lt_zero i)⟩
  | f :: front, n, c :: texts, ⟨child, hc, hname, hrest⟩, hk, hat => by
    obtain ⟨hf, hk⟩ := List.cons.inj hk
    rw [List.map_cons, List.cons_append, at?_cons, ← hf, hc] at hat
    obtain ⟨hleaves, hnamed⟩ := leavesAt_of_carries hs back' more front hrest hk hat
    exact ⟨.along (Or.inl hf) hc hleaves, .cons hc (hname (by simp)) hnamed⟩

end Node

/-- **Two mounts go apart.** They begin with the same concrete components. Then the second has the
    component `text`, and the first has something else there. No segment of the first up to this place
    may be absent. -/
structure ForkAt (first second : List Segment) (texts : List String) (text : String) : Prop where
  here : ∃ front s back, first = front ++ s :: back ∧ keysOf front = texts.map .exact ∧
    s.key ≠ .exact text ∧ ∀ x ∈ front ++ [s], x.isOptional = false
  there : texts.map .exact ++ [.exact text] <+: keysOf second

namespace Router

/-- Each node that a tree has before a call is still there after it. -/
theorem kept_after (r : Router V) (c : Call V) : Node.Kept r.root (r.after c).root := by
  rcases after_cases r c with ⟨hsame, -⟩ | ⟨segments, value, hx, -⟩ | ⟨spec, rfl, ⟨m⟩, -⟩
  · rw [hsame]
    exact Node.Kept.refl r.root
  · exact Node.kept_of_extend hx
  · exact (Node.kept_of_mountAll m.mounted).1

theorem kept_afterAll (calls : List (Call V)) (r : Router V) :
    Node.Kept r.root (r.afterAll calls).root :=
  afterAll_keeps (fun r' => Node.Kept r.root r'.root) (fun _ => True)
    (fun r' c hr _ => hr.trans (kept_after r' c)) calls (Node.Kept.refl r.root) fun _ _ => trivial

/-- Every mount of a set of routes is carried by the tree, whatever is done to it later. -/
theorem carries_of_addSpec {r r' : Router V} {spec : ApiSpec V} {mounts : List (List Segment)}
    (h : (r.addSpec spec).outcome = .ok r') (hm : spec.mountPoints = .ok mounts)
    (calls : List (Call V)) : ∀ mount ∈ mounts, (r'.afterAll calls).root.Carries mount := by
  obtain ⟨m⟩ := mounts_of_addSpec h
  obtain rfl : m.mounts = mounts := Except.ok.inj (m.points.symm.trans hm)
  intro mount hmem
  exact ((Node.kept_of_mountAll m.mounted).2 mount hmem).kept (kept_afterAll calls r')

/-! ## 5. Lookups -/

section
variable [RouteValue V]

theorem lookup_of_alike {r r' : Router V} {path : List String}
    (h : (r.root.walk [] path).Alike (r'.root.walk [] path))
    (hl : path.getLast? ≠ some "" ∨ (r'.root.walk [] path).listing = (r.root.walk [] path).listing) :
    r'.lookup path = r.lookup path := by
  have hvalue : (r'.root.walk [] path).value = (r.root.walk [] path).value := by
    rw [Walk.value, Walk.value, h.reached]
  have hresult : (r'.root.walk [] path).result path = (r.root.walk [] path).result path := by
    unfold Walk.result
    rw [hvalue, h.values, h.params]
    rcases hl with hl | hl
    · have ha : asksListing path = false := decide_eq_false hl
      rw [ha]
      rfl
    · rw [hl]
  unfold lookup
  simp only [h.unread, hvalue, hresult]

/-- The lookups before and after an insertion, for a request that leaves the inserted path. -/
theorem lookup_of_leavesAt {r r' : Router V} {P : List Segment} {v : V} {path : List String} {j : Nat}
    (h : (r.insert P v).outcome = .ok r') (hp : r.root.LeavesAt P path j)
    (ho : ∀ s ∈ P.take (j + 1), s.isOptional = false) (hn : r.root.NamedAlong P j)
    (hl : path.getLast? ≠ some "" ∨ j + 1 < path.length) : r'.lookup path = r.lookup path := by
  obtain ⟨halike, hlist⟩ := Node.walk_alike hp [] ho hn (root_of_insert h)
  exact lookup_of_alike halike (hl.imp id hlist)

/-- **An inserted route changes nothing in the branches beside its path.** Take any tree whatever and
    any insertion that succeeds, and a request that follows the keys of the inserted path for `j` steps
    and then goes to a child of its component's own text, under another key. If no segment of the path
    up to this place may be absent, the templates before it name the nodes they lead to already, and
    the request does not ask for the listing of this very place, its lookup is the same before and
    after, in its result and in its log.

    In particular, take two mounts of one set of routes that go apart at a concrete component. However
    the router has been added to since, what is inserted behind the first of them changes no answer
    behind the second. -/
theorem insert_keeps_siblings :
    (∀ {r r' : Router V} {P : List Segment} {v : V} {path : List String} {j : Nat},
      (r.insert P v).outcome = .ok r' → r.root.LeavesAt P path j →
      (∀ s ∈ P.take (j + 1), s.isOptional = false) → r.root.NamedAlong P j →
      path.getLast? ≠ some "" ∨ j + 1 < path.length → r'.lookup path = r.lookup path) ∧
    (∀ {r₀ r₁ : Router V} {spec : ApiSpec V} {mounts : List (List Segment)},
      (r₀.addSpec spec).outcome = .ok r₁ → spec.mountPoints = .ok mounts →
      ∀ first ∈ mounts, ∀ second ∈ mounts, ∀ texts text, ForkAt first second texts text →
      ∀ (calls : List (Call V)) (P : List Segment) (v : V) (r' : Router V),
      ((r₁.afterAll calls).insert (first ++ P) v).outcome = .ok r' →
      ∀ more, text ≠ "" ∨ more ≠ [] →
        r'.lookup (texts ++ text :: more) = (r₁.afterAll calls).lookup (texts ++ text :: more)) := by
  refine ⟨lookup_of_leavesAt, ?_⟩
  intro r₀ r₁ spec mounts hadd hm first hfirst second hsecond texts text hfork calls P v r' h more hne
  obtain ⟨front, s, back, rfl, hkeys, hs, ho⟩ := hfork.here
  have hcarried := carries_of_addSpec hadd hm calls
  have hthere := (hcarried second hsecond).isSome_at? hfork.there
  obtain ⟨hleaves, hnamed⟩ :=
    Node.leavesAt_of_carries hs (back ++ P) more front (hcarried _ hfirst) hkeys hthere
  have hP : (front ++ s :: back) ++ P = front ++ s :: (back ++ P) := by simp
  have hlen : texts.length = front.length := by
    have := congrArg List.length hkeys
    simpa [keysOf] using this.symm
  rw [hP] at h
  refine lookup_of_leavesAt h hleaves ?_ hnamed ?_
  · have htake : (front ++ s :: (back ++ P)).take (texts.length + 1) = front ++ [s] := by
      rw [hlen, List.take_length_add_append]
      rfl
    rw [htake]
    exact ho
  · cases more with
    | nil =>
      refine Or.inl ?_
      rw [List.getLast?_concat]
      exact fun he => (hne.resolve_right (fun h => h rfl)) (Option.some.inj he)
    | cons d more =>
      refine Or.inr ?_
      rw [List.length_append, List.length_cons, List.length_cons]
      omega

/-- A route beside another one behind an open component, and a route behind one of two domains that
    share their routes. -/
theorem insert_keeps_siblings_pages :
    (let site : Segment := .param ⟨"site", none, none⟩
     let r : Router String := ⟨Node.build "page" [site, .literal "page", .param ⟨"title", none, none⟩]⟩
     ∃ r', (r.insert [site, .literal "log"] "log").outcome = .ok r' ∧
       r'.lookup ["en", "page", "x"] = r.lookup ["en", "page", "x"]) ∧
    (∃ r r' : Router String, (empty.addSpec
          ⟨["/{domain:a.org}/v1", "/{domain:b.org}/v1"], [("/page", "page")]⟩).outcome = .ok r ∧
      (r.insert [.param ⟨"domain", none, some "a.org"⟩, .literal "v1", .literal "extra"]
        "extra").outcome = .ok r' ∧
      ∀ more, r'.lookup ("b.org" :: more) = r.lookup ("b.org" :: more)) := by
  constructor
  · intro site r
    have hleaves : r.root.LeavesAt [site, .literal "log"] ["en", "page", "x"] 1 :=
      .along (Or.inr ⟨rfl, rfl, by decide⟩) rfl (.here rfl (by decide))
    have hnamed : r.root.NamedAlong [site, .literal "log"] 1 := by
      intro i hi t ht
      obtain rfl : i = 0 := by omega
      obtain rfl := Segment.param.inj (Option.some.inj ht)
      rfl
    refine ⟨_, rfl, insert_keeps_siblings.1 rfl hleaves ?_ hnamed (Or.inl (by decide))⟩
    decide
  · have hm : ApiSpec.mountPoints (⟨["/{domain:a.org}/v1", "/{domain:b.org}/v1"],
          [("/page", "page")]⟩ : ApiSpec String)
        = .ok [[.param ⟨"domain", none, some "a.org"⟩, .literal "v1"],
          [.param ⟨"domain", none, some "b.org"⟩, .literal "v1"]] := by
      with_unfolding_all rfl
    let mounted : Node String :=
      ⟨none, some "domain", false, [(.exact "v1", Node.build "page" [.literal "page"])]⟩
    have hadd : (empty.addSpec (⟨["/{domain:a.org}/v1", "/{domain:b.org}/v1"],
        [("/page", "page")]⟩ : ApiSpec String)).outcome
        = .ok ⟨⟨none, none, false, [(.exact "a.org", mounted), (.exact "b.org", mounted)]⟩⟩ := by
      with_unfolding_all rfl
    have hfork : ForkAt [.param ⟨"domain", none, some "a.org"⟩, .literal "v1"]
        [.param ⟨"domain", none, some "b.org"⟩, .literal "v1"] [] "b.org" :=
      ⟨⟨[], _, _, rfl, rfl, by decide, by decide⟩, ⟨[.exact "v1"], rfl⟩⟩
    refine ⟨_, _, hadd, rfl, fun more => ?_⟩
    exact insert_keeps_siblings.2 hadd hm _ (by simp) _ (by simp) [] "b.org" hfork [] [.literal "extra"]
      "extra" _ rfl more (Or.inl (by decide))

end

end Router

end RouteTree
