import RouteTree.Event

/-!
# Changes in place

Some operations change a state where it is, step by step, and may be stopped on the way. What they have
done by then is done. A `Changed` state is what such an operation leaves, whether it was stopped or not;
`Changed.outcome` is how it ended, and `Changed.state` is the state afterwards in either case.
-/

namespace RouteTree

/-- A change that was stopped: why, and what it has made of the state by then. -/
structure Stopped (σ : Type) where
  reason : RouteError
  left : σ

/-- What has become of a state that was to be changed, with the lines logged up to the end or to where
    the change was stopped. -/
structure Changed (σ : Type) where
  events : List Event
  result : Except (Stopped σ) σ

namespace Changed

variable {σ τ : Type}

/-- How a change ended. -/
def outcome (x : Changed σ) : Except RouteError σ := x.result.mapError Stopped.reason

/-- The state afterwards. -/
def state (x : Changed σ) : σ :=
  match x.result with
  | .ok s => s
  | .error stop => stop.left

/-- A change of a part is a change of the whole. -/
def map (f : σ → τ) (x : Changed σ) : Changed τ where
  events := x.events
  result :=
    match x.result with
    | .ok s => .ok (f s)
    | .error stop => .error ⟨stop.reason, f stop.left⟩

/-- A change that is stopped before it has begun. -/
def refuse (s : σ) (e : RouteError) : Changed σ := ⟨[], .error ⟨e, s⟩⟩

/-- A state that takes the place of another one when it is ready, and not before. -/
def replace (s : σ) (x : Attempt σ) : Changed σ :=
  ⟨x.events, x.outcome.mapError fun e => ⟨e, s⟩⟩

/-- A change as an attempt to make the new state. What it leaves when it is stopped is lost. -/
def attempt (x : Changed σ) : Attempt σ := ExceptT.mk ⟨x.events, x.outcome⟩

instance : Coe (Changed σ) (Attempt σ) := ⟨attempt⟩

@[simp] theorem outcome_attempt (x : Changed σ) : x.attempt.outcome = x.outcome := rfl

@[simp] theorem events_attempt (x : Changed σ) : x.attempt.events = x.events := rfl

@[simp] theorem events_map (f : σ → τ) (x : Changed σ) : (x.map f).events = x.events := rfl

@[simp] theorem outcome_map (f : σ → τ) (x : Changed σ) : (x.map f).outcome = x.outcome.map f := by
  obtain ⟨es, r⟩ := x
  cases r <;> rfl

@[simp] theorem state_map (f : σ → τ) (x : Changed σ) : (x.map f).state = f x.state := by
  obtain ⟨es, r⟩ := x
  cases r <;> rfl

@[simp] theorem outcome_replace (s : σ) (x : Attempt σ) : (replace s x).outcome = x.outcome := by
  unfold replace outcome
  cases x.outcome <;> rfl

/-- A change that was not stopped has made the state it was to make. -/
theorem state_of_ok {x : Changed σ} {s : σ} (h : x.outcome = .ok s) : x.state = s := by
  obtain ⟨es, r⟩ := x
  cases r with
  | error stop => cases h
  | ok s' => exact Except.ok.inj h

/-- A state is replaced as a whole or not at all. -/
theorem state_replace_of_error {s : σ} {x : Attempt σ} {e : RouteError}
    (h : x.outcome = .error e) : (replace s x).state = s := by
  unfold replace state
  rw [h]
  rfl

end Changed

end RouteTree
