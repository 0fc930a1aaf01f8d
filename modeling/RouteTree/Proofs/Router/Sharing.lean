import RouteTree.Proofs.Pattern
import RouteTree.Proofs.Router.Greedy

/-!
# When the sharing of a mounted tree shows

A set of routes is mounted as one shared tree where nothing is yet, and route by route elsewhere. This
file says for which mounts no lookup can tell the two apart:

* `insertEach` is the other way to mount: every route is inserted behind every mount;
* `addSpec_eq_insertEach` proves that both leave the same router if each segment of each mount stands
  for exactly one component;
* `thread_graft` and `reach_requestFor` follow one request into a shared tree under any other mount:
  a graft neither fills in the value around a template that may be absent nor ends the path at a
  catch-all;
* `sharing_unobservable_iff` puts the two together.
-/

namespace RouteTree

open Segment (keysOf keysOf_append)

variable {V : Type}

/-! ## 1. Mounting route by route -/

namespace Router

/-- Insert routes one after the other. -/
def insertRows (r : Router V) : List (Route V) → Attempt (Router V)
  | [] => pure r
  | (segments, value) :: rest => do
    let r ← (r.insert segments value).attempt
    r.insertRows rest

/-- Insert each route of a set behind each of its mounts, one mount after the other. -/
def insertEach (r : Router V) (spec : ApiSpec V) : Attempt (Router V) := do
  let routes ← Attempt.ofExcept (ApiSpec.parseRoutes spec.paths)
  let mounts ← Attempt.ofExcept spec.mountPoints
  r.insertRows (Node.rowsAt routes mounts)

theorem insertRows_cons (r : Router V) (row : Route V) (rows : List (Route V)) :
    (r.insertRows (row :: rows)).outcome
      = (r.insert row.1 row.2).outcome.bind fun r' => (r'.insertRows rows).outcome := by
  rw [insertRows, Attempt.outcome_bind, Changed.outcome_attempt]

theorem outcome_insertRows : ∀ (rows : List (Route V)) (r : Router V),
    (r.insertRows rows).outcome = (r.root.insertAll [] rows).outcome.map Router.mk
  | [], _ => rfl
  | (segments, value) :: rows, r => by
    rw [insertRows_cons, outcome_insert, Node.outcome_insertAll_cons, List.nil_append]
    cases r.root.extend value (Node.cutAfterCatchAll segments) with
    | error e => rfl
    | ok root => exact outcome_insertRows rows ⟨root⟩

theorem outcome_insertEach {r : Router V} {spec : ApiSpec V} {routes : List (Route V)}
    {mounts : List (List Segment)} (hr : ApiSpec.parseRoutes spec.paths = .ok routes)
    (hm : spec.mountPoints = .ok mounts) : (r.insertEach spec).outcome
      = (r.root.insertAll [] (Node.rowsAt routes mounts)).outcome.map Router.mk := by
  unfold insertEach
  rw [Attempt.outcome_bind, Attempt.outcome_ofExcept, hr]
  show Attempt.outcome (Attempt.ofExcept spec.mountPoints >>= _) = _
  rw [Attempt.outcome_bind, Attempt.outcome_ofExcept, hm]
  exact outcome_insertRows (Node.rowsAt routes mounts) r

/-- **Under plain mounts a shared tree is the tree route by route.** -/
theorem addSpec_eq_insertEach {r r' : Router V} (hr : r.root.Sound) {spec : ApiSpec V}
    (hf : (Call.addSpec spec).Filled) (hp : (Call.addSpec spec).PlainMounts)
    (h : (r.addSpec spec).outcome = .ok r') : (r.insertEach spec).outcome = .ok r' := by
  obtain ⟨m⟩ := mounts_of_addSpec h
  rw [outcome_insertEach m.parsed m.points, ← Node.mountAll_eq_insertAll
    (parseRoutes_ne_nil hf m.parsed) m.built m.mounts (hp m.mounts m.points) hr, m.mounted]
  rfl

end Router

/-! ## 2. One branch -/

namespace Node

/-- The tree is one branch along some keys. It has no value before its end, and no loops. -/
structure Thread (n : Node V) (L : List Key) : Prop where
  present : ∀ K, (n.at? K).isSome = K.isPrefixOf L
  value : ∀ K, K ≠ L → (n.at? K).bind Node.value = none
  loops : ∀ K m, n.at? K = some m → m.loops = false

theorem thread_ofValue (v : V) : Thread (ofValue v) [] where
  present K := by cases K <;> rfl
  value K h := by
    cases K with
    | nil => exact absurd rfl h
    | cons k K => rfl
  loops K m h := by cases K <;> cases h; rfl

theorem Thread.renamed {n : Node V} {L : List Key} (h : Thread n L) (name : Option String) :
    Thread (n.renamed name) L where
  present K := by
    cases K with
    | nil => exact h.present []
    | cons k K => rw [at?_renamed, h.present]
  value K hK := by
    cases K with
    | nil => exact h.value [] hK
    | cons k K => rw [at?_renamed, h.value (k :: K) hK]
  loops K m hm := by
    cases K with
    | nil =>
      cases hm
      exact h.loops [] n rfl
    | cons k K =>
      rw [at?_renamed] at hm
      exact h.loops (k :: K) m hm

theorem Thread.put {below : Node V} {L : List Key} (h : Thread below L) (s : Segment) :
    Thread (Node.empty.put s below) (s.key :: L) := by
  have hb := h.renamed ((nameOf s).or below.name)
  have hat : ∀ j K, (Node.empty.put s below).at? (j :: K)
      = if j = s.key then (below.renamed ((nameOf s).or below.name)).at? K else none := by
    intro j K
    rw [Node.put, namedBy_eq_renamed]
    exact at?_setChild _ _ _ _ _
  refine ⟨fun K => ?_, fun K hK => ?_, fun K m hm => ?_⟩
  · cases K with
    | nil => rfl
    | cons j K =>
      rw [hat]
      by_cases hj : j = s.key
      · rw [if_pos hj, hb.present, hj]
        simp
      · rw [if_neg hj]
        simp [List.isPrefixOf, hj]
  · cases K with
    | nil => rfl
    | cons j K =>
      rw [hat]
      by_cases hj : j = s.key
      · rw [if_pos hj]
        exact hb.value K fun e => hK (by rw [hj, e])
      · rw [if_neg hj]
        rfl
  · cases K with
    | nil =>
      cases hm
      rfl
    | cons j K =>
      rw [hat] at hm
      split at hm
      · exact hb.loops K m hm
      · cases hm

/-- **Grafted where nothing is**, one branch goes on after the keys of the mount, whatever templates
    the mount has: none of them is filled in and none ends the path. -/
theorem thread_graft {tree : Node V} {L : List Key} (h : Thread tree L) :
    ∀ mount : List Segment, ∃ n, Node.empty.graft tree mount = .ok (n, true)
      ∧ Thread n (keysOf mount ++ L)
  | [] => ⟨tree, rfl, h⟩
  | [last] => ⟨Node.empty.put last tree, rfl, h.put last⟩
  | s :: next :: rest => by
    obtain ⟨below, hg, hb⟩ := thread_graft h (next :: rest)
    refine ⟨Node.empty.put s below, ?_, hb.put s⟩
    rw [graft]
    dsimp only [child?_empty]
    rw [hg]

theorem Thread.walk_reached {n : Node V} {L : List Key} (h : Thread n L) (params : Params)
    (path : List String) : (n.walk params path).reached
      = (reach (fun K => K.isPrefixOf L) [] path).bind fun K => n.at? K := by
  have hl : LoopsAtEnds n := fun K m hm hloop => by
    rw [h.loops K m hm] at hloop
    cases hloop
  have hw := Node.walk_reached hl path params (K := []) (n := n) rfl (by simp)
  rw [hw, reach_congr (p := fun K => (n.at? K).isSome) (q := fun K => K.isPrefixOf L)
    fun K k => h.present (K ++ [k])]

end Node

/-! ## 3. A request into one branch -/

/-- A request that goes down the segments of a path: any text will do where it is left open. -/
def Segment.requestFor : List Segment → List String
  | [] => []
  | s :: rest => (s.key.text?.getD "y") :: requestFor rest

theorem Segment.key_of_plain {s : Segment} (hw : s.IsWritten) (hp : s.isPlain = true) :
    (∃ text, s.key = .exact text) ∨ s.key = .wild := by
  rcases hw with ⟨t, rfl⟩ | ⟨t, rfl⟩
  · exact Or.inl ⟨t, rfl⟩
  · have hc : t.isCatchAll = false := Segment.not_isCatchAll_of_isPlain hp
    cases hf : t.fixed with
    | some text => exact Or.inl ⟨text, by simp [Segment.key, Template.key, hc, hf]⟩
    | none => exact Or.inr (by simp [Segment.key, Template.key, hc, hf])

/-- **Down one branch**: the request of plain segments passes their keys. -/
theorem reach_requestFor (L : List Key) (more : List String) :
    ∀ (front : List Segment) (K R : List Key), (∀ s ∈ front, s.IsWritten ∧ s.isPlain = true) →
      L = K ++ keysOf front ++ R →
      reach (fun M => M.isPrefixOf L) K (Segment.requestFor front ++ more)
        = reach (fun M => M.isPrefixOf L) (K ++ keysOf front) more
  | [], K, R, _, _ => by
    rw [Segment.keysOf_nil, List.append_nil]
    rfl
  | s :: front, K, R, hs, hL => by
    have ih := reach_requestFor L more front (K ++ [s.key]) R
      (fun x hx => hs x (List.mem_cons_of_mem s hx)) (by simp [hL])
    have hkey : (K ++ [s.key]).isPrefixOf L = true := by
      rw [List.isPrefixOf_iff_prefix]
      exact ⟨keysOf front ++ R, by simp [hL]⟩
    obtain ⟨hw, hp⟩ := hs s List.mem_cons_self
    rw [Segment.keysOf_cons, List.append_cons, ← ih, Segment.requestFor, List.cons_append, reach]
    rcases Segment.key_of_plain hw hp with ⟨text, hk⟩ | hk
    · rw [hk] at hkey ⊢
      simp [Key.text?, hkey]
    · have hexact : (K ++ [Key.exact "y"]).isPrefixOf L = false := by
        rw [Bool.eq_false_iff, ne_eq, List.isPrefixOf_iff_prefix]
        rintro ⟨T, hT⟩
        rw [hL, Segment.keysOf_cons, hk] at hT
        simp at hT
      rw [hk] at hkey ⊢
      simp [Key.text?, hkey, hexact]

/-- The request that tells the two ways apart: down to a segment that is not plain, and on into it if
    it takes all that is left. -/
def Segment.probe (front : List Segment) (s : Segment) : List String :=
  requestFor front ++ if s.isCatchAll then ["y"] else []

/-- Where the probe ends. -/
def Segment.probeEnd (front : List Segment) (s : Segment) : List Key :=
  keysOf front ++ if s.isCatchAll then [.catchAll] else []

theorem reach_probe {front : List Segment} {s : Segment} {L R : List Key}
    (hf : ∀ s ∈ front, s.IsWritten ∧ s.isPlain = true) (hL : L = keysOf front ++ s.key :: R) :
    reach (fun M => M.isPrefixOf L) [] (Segment.probe front s) = some (Segment.probeEnd front s) := by
  rw [Segment.probe, reach_requestFor L _ front [] (s.key :: R) hf (by simp [hL]),
    List.nil_append, Segment.probeEnd]
  cases hc : s.isCatchAll with
  | false => simp [reach]
  | true =>
    have hk := Segment.key_of_isCatchAll hc
    have hno : ∀ k, k ≠ Key.catchAll → (keysOf front ++ [k]).isPrefixOf L = false := by
      intro k hne
      rw [Bool.eq_false_iff, ne_eq, List.isPrefixOf_iff_prefix]
      rintro ⟨T, hT⟩
      rw [hL, hk] at hT
      simp at hT
      exact hne hT.1
    have hyes : (keysOf front ++ [Key.catchAll]).isPrefixOf L = true := by
      rw [List.isPrefixOf_iff_prefix]
      exact ⟨R, by simp [hL, hk]⟩
    simp [reach, hno, hyes]

/-! ## 4. Templates that are not plain -/

namespace Node

theorem cut_eq_cons (s : Segment) (rest : List Segment) : ∃ tail,
    cutAfterCatchAll (s :: rest) = s :: tail ∧ (s.isCatchAll = true → tail = []) := by
  cases hc : s.isCatchAll with
  | true => exact ⟨[], by simp [cutAfterCatchAll, hc], fun _ => rfl⟩
  | false =>
    refine ⟨cutAfterCatchAll rest, cut_cons hc rest, fun h => ?_⟩
    cases h

/-- A route has a value at the end of the probe: its own end, or the front of a template that may be
    absent. -/
theorem value_at_probeEnd {front tail : List Segment} {s : Segment} (v : V)
    (hs : s.isPlain = false) (ht : s.isCatchAll = true → tail = []) :
    Table.value [(front ++ s :: tail, v)] (Segment.probeEnd front s) = some v := by
  rw [Table.value_single, if_pos]
  cases hc : s.isCatchAll with
  | true =>
    refine Or.inl ?_
    simp [Segment.probeEnd, hc, ht hc, Segment.key_of_isCatchAll hc]
  | false =>
    have ho : s.isOptional = true := by simpa [Segment.isPlain, hc] using hs
    refine Or.inr ((Segment.fillsAt_iff _ _).mpr ⟨front, s, tail, rfl, ho, Or.inl ?_⟩)
    simp [Segment.probeEnd, hc]

section
variable [RouteValue V]

/-- The probe finds the value of a route that was inserted. -/
theorem answer_of_inserted {front : List Segment} {s : Segment} (rest : List Segment) (v : V)
    (hf : ∀ s ∈ front, s.IsWritten ∧ s.isPlain = true) (hs : s.isPlain = false) :
    ((Router.mk (build v (cutAfterCatchAll (front ++ s :: rest)))).lookup
      (Segment.probe front s)).value.map RouteMatch.value = some (some v) := by
  have hcut := Segment.isCut_cut (front ++ s :: rest)
  obtain ⟨tail, htail, hc⟩ := cut_eq_cons s rest
  rw [cut_append (s :: rest) fun x hx => (hf x hx).2, htail] at hcut ⊢
  have hshow : (build v (front ++ s :: tail)).Shows [(front ++ s :: tail, v)] :=
    Shows.empty.extend hcut (extend_empty v _)
  have hpass : Table.passes [(front ++ s :: tail, v)]
      = fun K => K.isPrefixOf (keysOf (front ++ s :: tail)) :=
    funext fun K => Table.passes_single _ K
  have hreach := reach_probe hf (keysOf_append front (s :: tail))
  rw [Router.lookup_of_shows hshow, Table.answer, hpass, hreach, Option.bind_some,
    value_at_probeEnd v hs hc]

/-- The probe finds no value in a shared tree that was grafted behind its segment. -/
theorem answer_of_grafted {n : Node V} {front back : List Segment} {s : Segment} {k : Key}
    (hf : ∀ s ∈ front, s.IsWritten ∧ s.isPlain = true)
    (hn : Thread n (keysOf (front ++ s :: back) ++ [k])) (v : V) :
    ((Router.mk n).lookup (Segment.probe front s)).value.map RouteMatch.value ≠ some (some v) := by
  have hreach := reach_probe (s := s) (R := keysOf back ++ [k]) hf
    (by simp : keysOf (front ++ s :: back) ++ [k] = _)
  have hend : Segment.probeEnd front s ≠ keysOf (front ++ s :: back) ++ [k] := by
    intro h
    have := congrArg List.length h
    simp only [Segment.probeEnd, keysOf, List.length_append, List.length_map, List.length_cons,
      List.length_nil] at this
    cases hc : s.isCatchAll with
    | true =>
      rw [if_pos hc, List.length_singleton] at this
      omega
    | false =>
      rw [if_neg (Bool.eq_false_iff.mp hc), List.length_nil] at this
      omega
  have hvalue : (n.walk [] (Segment.probe front s)).value = none := by
    rw [Walk.value, hn.walk_reached, hreach]
    exact hn.value _ hend
  intro h
  rw [Router.lookup_by_walk] at h
  dsimp only at h
  rw [hvalue] at h
  dsimp only at h
  split at h <;> cases h

end

end Node

/-! ## 5. When no lookup tells -/

namespace Router

/-- A set with one route under one mount. -/
def oneRoute (pattern : String) (v : V) : ApiSpec V := ⟨[pattern], [("/x", v)]⟩

theorem parseRoutes_oneRoute (pattern : String) (v : V) :
    ApiSpec.parseRoutes (oneRoute pattern v).paths = .ok [([.literal "x"], v)] := by
  have hx : Pattern.parse "/x" = .ok [.literal "x"] := by with_unfolding_all rfl
  rw [oneRoute, ApiSpec.parseRoutes, hx]
  rfl

theorem mountPoints_oneRoute {pattern : String} {segments : List Segment} (v : V)
    (h : Pattern.parse pattern = .ok segments) :
    (oneRoute pattern v).mountPoints = .ok [segments] := by
  simp [oneRoute, ApiSpec.mountPoints, ApiSpec.parseMounts, h]

/-- Each segment of the pattern stands for exactly one component. -/
def PlainPattern (pattern : String) : Prop :=
  ∀ segments, Pattern.parse pattern = .ok segments → ∀ s ∈ segments, s.isPlain = true

theorem plainMounts_of_patterns {spec : ApiSpec V}
    (h : ∀ pattern ∈ spec.mounts, PlainPattern pattern) : (Call.addSpec spec).PlainMounts := by
  intro mounts hm mount hmount
  unfold ApiSpec.mountPoints at hm
  split at hm
  · cases hm
    rw [List.mem_singleton] at hmount
    subst hmount
    intro s hs
    cases hs
  · obtain ⟨pattern, hp, hparse⟩ := ApiSpec.mem_parseMounts hm mount hmount
    exact h pattern hp mount hparse

theorem exists_first_not_plain {segments : List Segment} (h : ¬ ∀ s ∈ segments, s.isPlain = true) :
    ∃ front s back, segments = front ++ s :: back ∧ (∀ s ∈ front, s.isPlain = true) ∧
      s.isPlain = false := by
  obtain ⟨s, hfind⟩ : ∃ s, segments.find? (!·.isPlain) = some s :=
    Option.isSome_iff_exists.mp (List.find?_isSome.mpr (by simpa using h))
  obtain ⟨hs, front, back, rfl, hf⟩ := List.find?_eq_some_iff_append.mp hfind
  exact ⟨front, s, back, rfl, by simpa using hf, by simpa using hs⟩

variable [RouteValue V]

/-- No lookup tells the routers apart. -/
def SameAnswers (r s : Router V) : Prop := ∀ path, (r.lookup path).value = (s.lookup path).value

/-- A template that may be absent or takes all that is left tells: mounted behind it in the empty
    router, a route is found where no lookup finds it in the shared tree. -/
theorem sharing_observable {pattern : String} {front back : List Segment} {s : Segment} (v : V)
    (h : Pattern.parse pattern = .ok (front ++ s :: back))
    (hf : ∀ s ∈ front, s.isPlain = true) (hs : s.isPlain = false) :
    ∃ shared single : Router V, (empty.addSpec (oneRoute pattern v)).outcome = .ok shared ∧
      (empty.insertEach (oneRoute pattern v)).outcome = .ok single ∧ ¬ SameAnswers shared single := by
  have hfront : ∀ s ∈ front, s.IsWritten ∧ s.isPlain = true := fun x hx =>
    ⟨Pattern.isWritten_of_parse h x (List.mem_append_left _ hx), hf x hx⟩
  have hroutes := parseRoutes_oneRoute pattern v
  have hmounts := mountPoints_oneRoute v h
  have htree : (Node.empty.insertAll [] [([.literal "x"], v)]).outcome
      = .ok (Node.empty.put (.literal "x") (Node.ofValue v)) := rfl
  obtain ⟨n, hn, hthread⟩ := Node.thread_graft ((Node.thread_ofValue v).put (.literal "x"))
    (front ++ s :: back)
  refine ⟨⟨n⟩, ⟨Node.build v (Node.cutAfterCatchAll (front ++ s :: (back ++ [.literal "x"])))⟩,
    ?_, ?_, fun hsame => ?_⟩
  · have hm : (Node.empty.mountAll [([.literal "x"], v)]
        (Node.empty.put (.literal "x") (Node.ofValue v)) [front ++ s :: back]).outcome = .ok n := by
      rw [Node.outcome_mountAll_cons, Node.mounted, hn]
      rfl
    rw [outcome_addSpec_of hroutes htree hmounts]
    show (Node.empty.mountAll _ _ _).outcome.map _ = _
    rw [hm]
    rfl
  · have hrows : Node.rowsAt [([.literal "x"], v)] [front ++ s :: back]
        = [(front ++ s :: (back ++ [.literal "x"]), v)] := by simp [Node.rowsAt]
    rw [outcome_insertEach hroutes hmounts, hrows, Node.outcome_insertAll_single]
    show (Node.empty.extend v _).map _ = _
    rw [Node.extend_empty]
    rfl
  · have hfound := Node.answer_of_inserted (back ++ [.literal "x"]) v hfront hs
    rw [← hsame] at hfound
    exact Node.answer_of_grafted hfront hthread v hfound

/-- Whatever was mounted before, as long as no set of routes was empty, and whatever is mounted under
    patterns of a class, no lookup tells whether it was mounted as one shared tree or route by
    route. -/
def SharesSilently (allowed : String → Prop) : Prop :=
  ∀ calls : List (Call V), (∀ c ∈ calls, c.Filled) → ∀ spec : ApiSpec V, spec.paths ≠ [] →
    (∀ pattern ∈ spec.mounts, allowed pattern) →
    ∀ shared, ((empty.afterAll calls).addSpec spec).outcome = .ok shared →
      ∃ single, ((empty.afterAll calls).insertEach spec).outcome = .ok single ∧
        SameAnswers shared single

/-- **The sharing of mounted trees shows exactly through templates that may be absent or take all that
    is left.** For a class of patterns, no lookup tells how the routes under them were mounted if and
    only if no pattern of the class has such a template. -/
theorem sharing_unobservable_iff (v : V) (allowed : String → Prop) :
    SharesSilently (V := V) allowed ↔ ∀ pattern, allowed pattern → PlainPattern pattern := by
  constructor
  · intro h pattern hp segments hparse
    refine Classical.byContradiction fun hplain => ?_
    obtain ⟨front, s, back, rfl, hf, hs⟩ := exists_first_not_plain hplain
    obtain ⟨shared, single, hshared, hsingle, hdiffer⟩ := sharing_observable v hparse hf hs
    obtain ⟨single', hsingle', hsame⟩ := h [] (fun _ hc => nomatch hc) (oneRoute pattern v)
      (List.cons_ne_nil _ _) (fun q hq => by rw [List.mem_singleton.mp hq]; exact hp) shared hshared
    have he : single' = single := Except.ok.inj (hsingle'.symm.trans hsingle)
    exact hdiffer (he ▸ hsame)
  · intro h calls hcalls spec hpaths hallowed shared hshared
    have hsound := sound_afterAll calls Node.sound_empty hcalls
    have hplain := plainMounts_of_patterns fun p hp => h p (hallowed p hp)
    exact ⟨shared, addSpec_eq_insertEach hsound hpaths hplain hshared, fun _ => rfl⟩

/-- The parameters that a lookup binds. -/
def boundBy (r : Router V) (path : List String) : Option Params :=
  (r.lookup path).value.map RouteMatch.params

/-- Three requests that tell. Behind an optional template the shared tree has no value in front of it;
    behind a template that takes all that is left it has none at its end; and where an empty set was
    mounted under a pinned template, a graft under the literal of the same text drops the name. -/
theorem sharing_shows :
    ((empty.addSpec (oneRoute "/v1{/lang}" "page")).outcome.map (boundBy · ["v1"]) = .ok none ∧
      (empty.insertEach (oneRoute "/v1{/lang}" "page")).outcome.map (boundBy · ["v1"])
        = .ok (some [])) ∧
    ((empty.addSpec (oneRoute "/v1/{+rest}" "page")).outcome.map (boundBy · ["v1", "x"]) = .ok none ∧
      (empty.insertEach (oneRoute "/v1/{+rest}" "page")).outcome.map (boundBy · ["v1", "x"])
        = .ok (some [("rest", .single "x")])) ∧
    let stub : Router String := empty.after (.addSpec ⟨["/{site:v1}"], []⟩)
    ((stub.addSpec (oneRoute "/v1" "page")).outcome.map (boundBy · ["v1", "x"]) = .ok (some []) ∧
      (stub.insertEach (oneRoute "/v1" "page")).outcome.map (boundBy · ["v1", "x"])
        = .ok (some [("site", .single "v1")])) := by
  refine ⟨⟨?_, ?_⟩, ⟨?_, ?_⟩, ⟨?_, ?_⟩⟩ <;> with_unfolding_all rfl

end Router

end RouteTree
