import RouteTree.Proofs.Uri.Cache

/-!
# Working with several URIs

Many URIs are made, changed, copied and written in one program, and each remembers its own text. This
file says that what they remember never shows:

* `Operation` is one thing that is done with some URIs, `Operation.step` does it, and `runAll` does some
  one after the other;
* `made_step` and `made_runAll`: all URIs in a session have been made by the library, so that what they
  remember is current;
* `forgetting` is the session in which nothing is remembered from one operation to the next, and
  `runAll_eq_forgetting` says that it writes the same texts;
* `step_fills` says which operation makes a URI remember its text, and `remembered_never_stale` puts it
  all together.
-/

namespace RouteTree.Uri

/-! ## 1. Operations -/

/-- Something that is done with some URIs, which are known by their places. -/
inductive Operation where
  /-- Read a path or an absolute URI. -/
  | parse (input : String)
  /-- Read a pattern. -/
  | parsePattern (input : String)
  /-- Make a URI of some segments. -/
  | ofSegments (segments : List Segment)
  /-- Make a URI with the path and origin of another and these parameters. -/
  | derive (place : Nat) (params : Params)
  /-- Give a URI other parameters. -/
  | withParams (place : Nat) (params : Params)
  /-- Change the parameters of a URI in any way. -/
  | edit (place : Nat) (change : Params → Params)
  /-- Bind templates of a URI. -/
  | bind (place : Nat) (params : Params)
  /-- Make the URI of two paths. -/
  | join (place suffix : Nat)
  /-- Make the expansion of a URI. -/
  | expand (place : Nat) (params : Option Params)
  /-- Copy a URI, with all that it remembers. -/
  | clone (place : Nat)
  /-- Write a URI. -/
  | render (place : Nat) (format : Format) (params : Option Params)

namespace Operation

/-- The URI that an operation makes, if it makes one. What is refused makes none. -/
def new? (uris : List Uri) : Operation → Option Uri
  | parse input => (Uri.parse input).toOption
  | parsePattern input => (Uri.parsePattern input).toOption
  | ofSegments segments => some (Uri.ofSegments segments)
  | derive place params => uris[place]?.map fun u => u.withParams params
  | join place suffix => uris[place]?.bind fun u => uris[suffix]?.map fun v => u.join v
  | expand place params => uris[place]?.bind fun u => (u.expand params).toOption
  | clone place => uris[place]?
  | _ => none

/-- The place of the URI that an operation works on, if it makes none. -/
def target? : Operation → Option Nat
  | withParams place _ => some place
  | edit place _ => some place
  | bind place _ => some place
  | render place _ _ => some place
  | _ => none

/-- What an operation makes of the URI it works on. -/
def effect : Operation → Uri → Uri
  | withParams _ params, u => u.withParams params
  | edit _ change, u => u.withParams (change u.params)
  | bind _ params, u => u.bind params
  | render _ format params, u => (u.render format params).2
  | _, u => u

/-- What an operation makes of the URI at a place. -/
def changed (op : Operation) (place : Nat) (u : Uri) : Uri :=
  if op.target? = some place then op.effect u else u

/-- The text that an operation writes. -/
def text? (uris : List Uri) : Operation → Option String
  | render place format params => uris[place]?.map fun u => (u.render format params).1
  | _ => none

/-- The URIs after an operation. What is made takes the next place. -/
def step (uris : List Uri) (op : Operation) : List Uri :=
  uris.mapIdx op.changed ++ (op.new? uris).toList

/-- The operation writes a URI in full under its own parameters. -/
def WritesPlain : Operation → Prop
  | render _ format params => format = .expanded ∧ params = none
  | _ => False

end Operation

/-- The URIs after some operations. -/
def runAll (uris : List Uri) : List Operation → List Uri
  | [] => uris
  | op :: ops => runAll (op.step uris) ops

/-- The texts that some operations write, in their order. -/
def texts (uris : List Uri) : List Operation → List String
  | [] => []
  | op :: ops => (op.text? uris).toList ++ texts (op.step uris) ops

/-! ## 2. What a session holds -/

theorem toOption_eq_some {ε α : Type} {x : Except ε α} {a : α} (h : x.toOption = some a) :
    x = .ok a := by
  cases x with
  | error e => cases h
  | ok b => exact congrArg Except.ok (Option.some.inj h)

namespace Operation

variable {uris : List Uri} {op : Operation}

theorem made_effect {u : Uri} (h : u.Made) (op : Operation) : (op.effect u).Made := by
  cases op with
  | withParams place params => exact .withParams params h
  | edit place change => exact .withParams _ h
  | bind place params => exact .bind params h
  | render place format params => exact .render format params h
  | _ => exact h

theorem made_changed {u : Uri} (h : u.Made) (op : Operation) (place : Nat) :
    (op.changed place u).Made := by
  rw [changed]
  split
  · exact made_effect h op
  · exact h

theorem made_new? (h : ∀ u ∈ uris, u.Made) {v : Uri} (hv : op.new? uris = some v) : v.Made := by
  have hat : ∀ {place : Nat} {u : Uri}, uris[place]? = some u → u.Made := fun hu =>
    h _ (List.mem_of_getElem? hu)
  cases op with
  | parse input => exact .parse (toOption_eq_some hv)
  | parsePattern input => exact .parsePattern (toOption_eq_some hv)
  | ofSegments segments =>
    obtain rfl := Option.some.inj hv
    exact .ofSegments segments
  | derive place params =>
    obtain ⟨u, hu, rfl⟩ := Option.map_eq_some_iff.mp hv
    exact .withParams params (hat hu)
  | join place suffix =>
    obtain ⟨u, hu, hv⟩ := Option.bind_eq_some_iff.mp hv
    obtain ⟨w, hw, rfl⟩ := Option.map_eq_some_iff.mp hv
    exact .join (hat hu) (hat hw)
  | expand place params =>
    obtain ⟨u, hu, hv⟩ := Option.bind_eq_some_iff.mp hv
    exact .expand (hat hu) (toOption_eq_some hv)
  | clone place => exact hat hv
  | _ => cases hv

/-- **One operation** on URIs that the library has made leaves such URIs only. -/
theorem made_step (h : ∀ u ∈ uris, u.Made) : ∀ u ∈ op.step uris, u.Made := by
  intro u hu
  rcases List.mem_append.mp hu with hu | hu
  · obtain ⟨place, hplace, rfl⟩ := List.mem_mapIdx.mp hu
    exact made_changed (h _ (List.getElem_mem hplace)) op place
  · exact made_new? h (Option.mem_toList.mp hu)

end Operation

/-- **Any operations** on URIs that the library has made leave such URIs only. -/
theorem made_runAll : ∀ (ops : List Operation) {uris : List Uri}, (∀ u ∈ uris, u.Made) →
    ∀ u ∈ runAll uris ops, u.Made
  | [], _, h => h
  | _ :: ops, _, h => made_runAll ops (Operation.made_step h)

/-! ## 3. Sessions that remember nothing -/

/-- The URI without the text it remembers. -/
def forget (u : Uri) : Uri := { u with rendered := none }

/-- The URIs after some operations, if everything that is remembered is forgotten after each. -/
def forgetting (uris : List Uri) : List Operation → List Uri
  | [] => uris
  | op :: ops => forgetting ((op.step uris).map forget) ops

/-- The texts that some operations write if everything is forgotten after each. -/
def textsForgetting (uris : List Uri) : List Operation → List String
  | [] => []
  | op :: ops => (op.text? uris).toList ++ textsForgetting ((op.step uris).map forget) ops

theorem forget_bind (u : Uri) (params : Params) :
    (u.forget.bind params).forget = (u.bind params).forget := by
  have hsame : bindings params u.forget.segments = bindings params u.segments := rfl
  rw [Uri.bind, Uri.bind, hsame]
  cases bindings params u.segments <;> rfl

theorem forget_render (u : Uri) (format : Format) (params : Option Params) :
    (u.render format params).2.forget = u.forget := by
  unfold render
  split
  · split <;> rfl
  · rfl

namespace Operation

variable (uris : List Uri) (op : Operation)

theorem forget_effect (u : Uri) : (op.effect u.forget).forget = (op.effect u).forget := by
  cases op with
  | bind place params => exact forget_bind u params
  | render place format params =>
    show (u.forget.render format params).2.forget = (u.render format params).2.forget
    rw [forget_render, forget_render]
    rfl
  | _ => rfl

theorem forget_changed (place : Nat) (u : Uri) :
    (op.changed place u.forget).forget = (op.changed place u).forget := by
  rw [changed, changed]
  split
  · exact forget_effect op u
  · rfl

theorem forget_new? :
    (op.new? (uris.map forget)).map forget = (op.new? uris).map forget := by
  have hat : ∀ place : Nat, (uris.map forget)[place]? = uris[place]?.map forget := fun place =>
    List.getElem?_map
  cases op with
  | derive place params =>
    rw [new?, new?, hat]
    cases uris[place]? <;> rfl
  | join place suffix =>
    rw [new?, new?, hat, hat]
    cases uris[place]? <;> cases uris[suffix]? <;> rfl
  | expand place params =>
    rw [new?, new?, hat]
    cases uris[place]? <;> rfl
  | clone place =>
    rw [new?, new?, hat]
    cases uris[place]? <;> rfl
  | _ => rfl

/-- **One operation does the same with what is forgotten**, up to what is remembered. -/
theorem forget_step : (op.step (uris.map forget)).map forget = (op.step uris).map forget := by
  have hnew := congrArg Option.toList (forget_new? uris op)
  simp only [Option.toList_map] at hnew
  rw [step, step, List.map_append, List.map_append, hnew]
  refine congrArg (· ++ _) (List.ext_getElem? fun place => ?_)
  simp only [List.getElem?_map, List.getElem?_mapIdx, Option.map_map]
  exact congrArg (uris[place]?.map ·) (funext fun u => forget_changed op place u)

/-- **One operation writes the same.** -/
theorem forget_text? {uris : List Uri} (h : ∀ u ∈ uris, u.Made) :
    op.text? (uris.map forget) = op.text? uris := by
  cases op with
  | render place format params =>
    rw [text?, text?, List.getElem?_map]
    cases hu : uris[place]? with
    | none => rfl
    | some u =>
      have hcurrent := (h u (List.mem_of_getElem? hu)).current
      have hforgot : Current u.forget := current_of_nothing rfl
      refine congrArg some ?_
      show (u.forget.render format params).1 = (u.render format params).1
      rw [hcurrent.render, hforgot.render]
      rfl
  | _ => rfl

end Operation

/-- **A session writes what it would write if nothing were remembered**, and leaves the same URIs up to
    what they remember. -/
theorem runAll_eq_forgetting : ∀ (ops : List Operation) {uris : List Uri}, (∀ u ∈ uris, u.Made) →
    (runAll uris ops).map forget = forgetting (uris.map forget) ops ∧
      texts uris ops = textsForgetting (uris.map forget) ops
  | [], _, _ => ⟨rfl, rfl⟩
  | op :: ops, uris, h => by
    have hstep : ∀ u ∈ op.step uris, u.Made := Operation.made_step h
    obtain ⟨hrun, htexts⟩ := runAll_eq_forgetting ops hstep
    rw [runAll, texts, forgetting, textsForgetting, Operation.forget_step,
      Operation.forget_text? op h]
    exact ⟨hrun, by rw [htexts]⟩

/-! ## 4. What fills a memory -/

namespace Operation

variable {uris : List Uri} {op : Operation}

theorem effect_eq_self (h : ¬ op.WritesPlain) {u : Uri} (hr : (op.effect u).rendered ≠ none) :
    op.effect u = u := by
  cases op with
  | withParams place params => exact absurd rfl hr
  | edit place change => exact absurd rfl hr
  | bind place params =>
    rw [effect, Uri.bind] at hr ⊢
    split at hr
    · rfl
    · exact absurd rfl hr
  | render place format params =>
    show (u.render format params).2 = u
    unfold Uri.render
    split
    · exact absurd ⟨rfl, rfl⟩ h
    · rfl
  | _ => rfl

theorem changed_eq_self (h : ¬ op.WritesPlain) {place : Nat} {u : Uri}
    (hr : (op.changed place u).rendered ≠ none) : op.changed place u = u := by
  rw [changed] at hr ⊢
  split at hr
  · rename_i htarget
    rw [if_pos htarget, effect_eq_self h hr]
  · rename_i htarget
    exact if_neg htarget

theorem new?_rendered {v : Uri} (hv : op.new? uris = some v) (hr : v.rendered ≠ none) :
    ∃ place, op = .clone place ∧ uris[place]? = some v := by
  cases op with
  | parse input => exact absurd (rendered_of_parse (toOption_eq_some hv)) hr
  | parsePattern input => exact absurd (rendered_of_parsePattern (toOption_eq_some hv)) hr
  | ofSegments segments =>
    obtain rfl := Option.some.inj hv
    exact absurd rfl hr
  | derive place params =>
    obtain ⟨u, -, rfl⟩ := Option.map_eq_some_iff.mp hv
    exact absurd rfl hr
  | join place suffix =>
    obtain ⟨u, -, hv⟩ := Option.bind_eq_some_iff.mp hv
    obtain ⟨w, -, rfl⟩ := Option.map_eq_some_iff.mp hv
    exact absurd rfl hr
  | expand place params =>
    obtain ⟨u, -, hv⟩ := Option.bind_eq_some_iff.mp hv
    exact absurd (rendered_of_expand (toOption_eq_some hv)) hr
  | clone place => exact ⟨place, rfl, hv⟩
  | _ => cases hv

/-- **Only writing a URI in full under its own parameters fills its memory.** Whatever else is done, a
    URI that remembers a text afterwards was there before, at its place or at the one it was copied
    from. -/
theorem step_fills (h : ¬ op.WritesPlain) {place : Nat} {u : Uri}
    (hu : (op.step uris)[place]? = some u) (hr : u.rendered ≠ none) :
    uris[place]? = some u ∨
      (place = uris.length ∧ ∃ source, op = .clone source ∧ uris[source]? = some u) := by
  rw [step, List.getElem?_append, List.length_mapIdx] at hu
  split at hu
  · rw [List.getElem?_mapIdx] at hu
    obtain ⟨v, hv, rfl⟩ := Option.map_eq_some_iff.mp hu
    left
    rw [changed_eq_self h hr]
    exact hv
  · rename_i hplace
    cases hnew : op.new? uris with
    | none =>
      rw [hnew] at hu
      cases hu
    | some v =>
      rw [hnew, Option.toList_some, List.getElem?_singleton] at hu
      split at hu
      · obtain rfl := Option.some.inj hu
        exact Or.inr ⟨by omega, new?_rendered hnew hr⟩
      · cases hu

/-- Writing a URI in full under its own parameters leaves it with its text. -/
theorem step_writesPlain {place : Nat} {u : Uri} (hu : uris[place]? = some u) (h : Current u) :
    (step uris (.render place .expanded none))[place]?
      = some { u with rendered := some (u.rendering .expanded none) } := by
  have hlt : place < uris.length := (List.getElem?_eq_some_iff.mp hu).1
  have hchanged : changed (.render place .expanded none) place u = (u.render .expanded none).2 :=
    if_pos rfl
  rw [step, List.getElem?_append_left (by simpa using hlt), List.getElem?_mapIdx, hu,
    Option.map_some, hchanged]
  refine congrArg some ?_
  unfold Uri.render
  dsimp only
  split
  · rename_i text ht
    rw [← h text ht, ← ht]
  · rfl

end Operation

/-- **What a URI remembers is never stale.** Let anything be done with some URIs, in any order. Then

    * a text that a URI remembers is the one worked out anew from its segments, its origin and its
      parameters as they are, and so is the text it is written as;
    * all texts that have been written on the way are those of the session that remembers nothing, and
      all URIs are those of that session, up to what they remember;
    * what is done next fills no memory, unless it writes a URI in full under its own parameters: a URI
      that remembers a text afterwards was there before, at its place or at the one it was copied from;
    * and if it does, the URI remembers that text and is otherwise as it was. -/
theorem remembered_never_stale (ops : List Operation) :
    let uris := runAll [] ops
    (∀ u ∈ uris, (∀ text, u.rendered = some text → text = u.rendering .expanded none) ∧
      u.text = u.rendering .expanded none) ∧
    (texts [] ops = textsForgetting [] ops ∧ uris.map forget = forgetting [] ops) ∧
    (∀ op : Operation, ¬ op.WritesPlain → ∀ place u, (op.step uris)[place]? = some u →
      u.rendered ≠ none → uris[place]? = some u ∨
        (place = uris.length ∧ ∃ source, op = .clone source ∧ uris[source]? = some u)) ∧
    ∀ place u, uris[place]? = some u → (Operation.step uris (.render place .expanded none))[place]?
      = some { u with rendered := some (u.rendering .expanded none) } := by
  intro uris
  have hnone : ∀ u ∈ ([] : List Uri), u.Made := fun u hu => nomatch hu
  have hmade : ∀ u ∈ uris, u.Made := made_runAll ops hnone
  obtain ⟨hrun, htexts⟩ := runAll_eq_forgetting ops hnone
  refine ⟨fun u hu => ⟨(hmade u hu).current, (hmade u hu).current.render .expanded none⟩,
    ⟨htexts, hrun⟩, fun op hop place u hu hr => Operation.step_fills hop hu hr, fun place u hu => ?_⟩
  exact Operation.step_writesPlain hu (hmade u (List.mem_of_getElem? hu)).current

/-- A URI that is written, copied with its text and then bound: the copy goes on to remember the old
    text, which is still its own. -/
theorem remembered_never_stale_page :
    let ops : List Operation := [.parsePattern "/page/{title}", .render 0 .expanded none, .clone 0,
      .bind 0 [("title", .single "Foo"), ("unrelated", .single "x")], .render 0 .expanded none,
      .render 1 .expanded none]
    textsForgetting [] ops = ["/page", "/page/Foo", "/page"] ∧
      ∃ u, (runAll [] ops)[1]? = some u ∧ u.rendered = some "/page" ∧
        u.rendering .expanded none = "/page" := by
  intro ops
  obtain ⟨hcurrent, ⟨htexts, -⟩, hfills, -⟩ := remembered_never_stale ops
  have hwritten : texts [] ops = ["/page", "/page/Foo", "/page"] := by with_unfolding_all rfl
  let u : Uri := ⟨[.literal "page", .param (.named "title")], [], none, some "/page"⟩
  have hnew : (Operation.step (runAll [] ops) (.clone 1))[2]? = some u := by with_unfolding_all rfl
  obtain hold | ⟨-, source, hsource, hu⟩ := hfills (.clone 1) id 2 u hnew (by simp [u])
  · exact absurd (List.getElem?_eq_some_iff.mp hold).1 (by with_unfolding_all decide)
  · cases hsource
    exact ⟨htexts ▸ hwritten, u, hu, rfl,
      ((hcurrent u (List.mem_of_getElem? hu)).1 "/page" rfl).symm⟩

end RouteTree.Uri
