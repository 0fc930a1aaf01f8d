import RouteTree.Error

/-!
# Events

What the library tells its log. An `Event` is one line of it, `Logged` is a result with the lines
written on the way, and `Attempt` is one that may also be refused: the lines written before the
refusal stay written.
-/

namespace RouteTree

/-- How much a line of the log matters. -/
inductive Level where
  | trace
  | debug
  | info
  | warn
  deriving DecidableEq, Repr

namespace Level

/-- A level as the log names it. -/
def name : Level → String
  | trace => "TRACE"
  | debug => "DEBUG"
  | info => "INFO"
  | warn => "WARN"

end Level

/-- A line of the log. -/
inductive Event where
  /-- A pattern was inserted into a tree. -/
  | routeInserted (pattern : String)
  /-- The routes of a document were mounted under a pattern, as one shared subtree or one by one. -/
  | specMounted (mount : String) (paths : Nat) (shared : Bool)
  /-- A document was read. -/
  | specLoaded (paths mounts : Nat)
  /-- A shared router received a new tree. -/
  | treeSwapped
  /-- Segments after a catch-all were dropped. -/
  | catchAllTailIgnored (catchAll : String) (ignored : Nat)
  /-- A lookup found no route. -/
  | lookupMiss (depth : Nat)
  deriving DecidableEq, Repr

namespace Event

/-- The name of the kind of event. -/
def name : Event → String
  | routeInserted _ => "route_inserted"
  | specMounted _ _ _ => "spec_mounted"
  | specLoaded _ _ => "spec_loaded"
  | treeSwapped => "tree_swapped"
  | catchAllTailIgnored _ _ => "catch_all_tail_ignored"
  | lookupMiss _ => "lookup_miss"

/-- The level an event is logged at. -/
def level : Event → Level
  | routeInserted _ => .debug
  | specMounted _ _ _ => .debug
  | specLoaded _ _ => .debug
  | treeSwapped => .info
  | catchAllTailIgnored _ _ => .warn
  | lookupMiss _ => .trace

/-- The words of an event. -/
def message : Event → String
  | routeInserted _ => "route inserted"
  | specMounted _ _ _ => "spec mounted"
  | specLoaded _ _ => "spec loaded"
  | treeSwapped => "router tree swapped"
  | catchAllTailIgnored _ _ => "segments after a catch-all are ignored"
  | lookupMiss _ => "no route"

end Event

/-- A result with the lines logged on the way to it. -/
structure Logged (α : Type) where
  events : List Event
  value : α

namespace Logged

/-- A result that nothing was logged for. -/
def quiet {α : Type} (a : α) : Logged α := ⟨[], a⟩

/-- Log one line. -/
def log (e : Event) : Logged Unit := ⟨[e], ()⟩

/-- Go on with a result; the lines of both follow one another. -/
def andThen {α β : Type} (x : Logged α) (f : α → Logged β) : Logged β :=
  ⟨x.events ++ (f x.value).events, (f x.value).value⟩

instance : Monad Logged where
  pure := quiet
  bind := andThen

@[simp] theorem events_pure {α : Type} (a : α) : (pure a : Logged α).events = [] := rfl

@[simp] theorem value_pure {α : Type} (a : α) : (pure a : Logged α).value = a := rfl

@[simp] theorem events_bind {α β : Type} (x : Logged α) (f : α → Logged β) :
    (x >>= f).events = x.events ++ (f x.value).events := rfl

@[simp] theorem value_bind {α β : Type} (x : Logged α) (f : α → Logged β) :
    (x >>= f).value = (f x.value).value := rfl

@[simp] theorem events_log (e : Event) : (log e).events = [e] := rfl

theorem ext {α : Type} {x y : Logged α} (he : x.events = y.events) (hv : x.value = y.value) :
    x = y := by
  cases x
  cases y
  simp_all

/-- The order in which results are put together does not count: the lines are the same. -/
instance : LawfulMonad Logged :=
  LawfulMonad.mk' Logged
    (fun x => ext (List.append_nil x.events) rfl)
    (fun _ _ => ext (by simp) rfl)
    (fun _ _ _ => ext (by simp) rfl)

end Logged

/-- A result that may be refused, with the lines logged up to the end or to the refusal. -/
abbrev Attempt := ExceptT RouteError Logged

namespace Attempt

/-- Log one line. -/
def log (e : Event) : Attempt Unit := ExceptT.lift (Logged.log e)

/-- A result decided without a line in the log. -/
def ofExcept {α : Type} (x : Except RouteError α) : Attempt α := ExceptT.mk (Logged.quiet x)

/-- The lines an attempt logs. -/
def events {α : Type} (x : Attempt α) : List Event := (ExceptT.run x).events

/-- How an attempt ends. -/
def outcome {α : Type} (x : Attempt α) : Except RouteError α := (ExceptT.run x).value

section
variable {α β : Type}

@[simp] theorem outcome_pure (a : α) : outcome (pure a) = .ok a := rfl

@[simp] theorem events_pure (a : α) : events (pure a : Attempt α) = [] := rfl

@[simp] theorem outcome_ofExcept (x : Except RouteError α) : outcome (ofExcept x) = x := rfl

@[simp] theorem events_ofExcept (x : Except RouteError α) : events (ofExcept x) = [] := rfl

@[simp] theorem outcome_log (e : Event) : outcome (log e) = .ok () := rfl

@[simp] theorem events_log (e : Event) : events (log e) = [e] := rfl

theorem ext {x y : Attempt α} (he : x.events = y.events) (ho : x.outcome = y.outcome) : x = y :=
  Logged.ext he ho

/-- What follows a refusal is not done. -/
@[simp] theorem outcome_bind (x : Attempt α) (f : α → Attempt β) :
    outcome (x >>= f) = x.outcome.bind fun a => (f a).outcome := by
  obtain ⟨es, r⟩ := x
  cases r <;> rfl

/-- The lines of what follows come after those before it, unless that was refused. -/
theorem events_bind (x : Attempt α) (f : α → Attempt β) :
    events (x >>= f) = x.events ++ (match x.outcome with
      | .error _ => []
      | .ok a => (f a).events) := by
  obtain ⟨es, r⟩ := x
  cases r <;> rfl

theorem events_bind_of_ok {x : Attempt α} {a : α} (h : x.outcome = .ok a)
    (f : α → Attempt β) : events (x >>= f) = x.events ++ (f a).events := by
  rw [events_bind, h]

theorem events_bind_of_error {x : Attempt α} {e : RouteError} (h : x.outcome = .error e)
    (f : α → Attempt β) : events (x >>= f) = x.events := by
  rw [events_bind, h]
  simp

/-- What went on to an end was not refused before. -/
theorem ok_of_bind {ε : Type} {x : Except ε α} {f : α → Except ε β} {b : β}
    (h : x.bind f = .ok b) : ∃ a, x = .ok a ∧ f a = .ok b := by
  cases x with
  | error e => cases h
  | ok a => exact ⟨a, rfl, h⟩

theorem ok_of_map {ε : Type} {x : Except ε α} {f : α → β} {b : β} (h : x.map f = .ok b) :
    ∃ a, x = .ok a ∧ f a = b := by
  cases x with
  | error e => cases h
  | ok a => exact ⟨a, rfl, Except.ok.inj h⟩

end

end Attempt

end RouteTree
