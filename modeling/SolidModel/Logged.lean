import SolidModel.Event

/-!
# Logged Results

A result with the events on the way to it.

A failure keeps the events that came before it, and nothing happens after it. Events only ever
add up; no operation can read or retract what another one has told.

## Main definitions

* `Logged`: A result, or a failure, with the events before it.
* `Logged.note`, `Logged.ofExcept`, `Logged.mapError`: Building blocks.

## Theorems

* `Logged.bind_of_error`, `Logged.bind_of_ok`: How one operation follows another.
-/

namespace SolidModel

/-- A result, or a failure, with the events that came before it. -/
@[ext]
structure Logged (ε α : Type) where
  /-- What was told on the way, the earliest first. -/
  events : List Event
  /-- What it came to, or why it failed. -/
  result : Except ε α

namespace Logged

variable {ε ε' α β : Type}

/-- A result that nothing is to be told about. -/
def ofExcept (result : Except ε α) : Logged ε α := ⟨[], result⟩

/-- An event and nothing else. -/
def note (event : Event) : Logged ε Unit := ⟨[event], .ok ()⟩

/-- One operation after another. A failure ends the course. -/
protected def bind (x : Logged ε α) (f : α → Logged ε β) : Logged ε β :=
  match x.result with
  | .error e => ⟨x.events, .error e⟩
  | .ok a =>
    let y := f a
    ⟨x.events ++ y.events, y.result⟩

instance : Monad (Logged ε) where
  pure a := ⟨[], .ok a⟩
  bind := Logged.bind

instance : MonadLift (Except ε) (Logged ε) := ⟨ofExcept⟩

/-- The same course with a failure told in other terms. -/
def mapError (f : ε → ε') (x : Logged ε α) : Logged ε' α := ⟨x.events, x.result.mapError f⟩

/-- After a failure nothing happens. -/
theorem bind_of_error {x : Logged ε α} {e : ε} (h : x.result = .error e) (f : α → Logged ε β) :
    x >>= f = ⟨x.events, .error e⟩ := by
  change Logged.bind x f = _
  simp only [Logged.bind, h]

/-- After a success the events of the second operation follow those of the first. -/
theorem bind_of_ok {x : Logged ε α} {a : α} (h : x.result = .ok a) (f : α → Logged ε β) :
    x >>= f = ⟨x.events ++ (f a).events, (f a).result⟩ := by
  change Logged.bind x f = _
  simp only [Logged.bind, h]

instance : LawfulMonad (Logged ε) :=
  LawfulMonad.mk' _
    (fun x => by
      rcases x with ⟨events, result⟩
      cases result with
      | error e => rfl
      | ok a => exact Logged.ext (List.append_nil events) rfl)
    (fun a f => by
      change Logged.bind _ f = f a
      rfl)
    (fun x f g => by
      rcases x with ⟨events, result⟩
      cases result with
      | error e => rfl
      | ok a =>
          rw [bind_of_ok rfl f]
          cases h : (f a).result with
          | error e => simp [bind_of_error, bind_of_ok, h]
          | ok b => simp [bind_of_ok, h])

end Logged

end SolidModel
