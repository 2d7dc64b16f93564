import SolidModel.Assembly.Error
import SolidModel.Logged

/-!
# Edits

Operations that change an assembly.

An edit may fail halfway. What it has done by then stays done, and what it has told stays told:
the assembly and the events come beside the result and not inside it. So whether an operation
that fails leaves the assembly alone is something to be said about the operation, not something
that the notion of an edit would grant.

Most operations do grant it in a simple way. They put all their questions first, through
`Edit.ask`, which changes nothing, and then make changes that cannot fail.

## Main definitions

* `Edited`: What an edit leaves behind.
* `Edit`: An operation on assemblies.
* `Edit.ask`, `Edit.read`: Questions.
* `Edit.change`, `Edit.insert`, `Edit.note`: Changes and events.

## Theorems

* `Edit.bind_of_error`, `Edit.bind_of_ok`: How one edit follows another.
-/

namespace SolidModel

/-- What an edit leaves behind: the assembly, what was told, and how it ended. -/
structure Edited (α : Type) where
  /-- The assembly with all that was done before the end, also if that was a failure. -/
  assembly : Assembly
  /-- What was told on the way, the earliest first. -/
  events : List Event
  /-- What the edit came to, or why it failed. -/
  result : Except AssemblyError α

/-- An operation that may change an assembly, tell of it, and fail. -/
def Edit (α : Type) : Type := Assembly → Edited α

namespace Edit

variable {α β : Type}

/-- An edit that changes nothing and succeeds. -/
protected def pure (value : α) : Edit α := fun a => ⟨a, [], .ok value⟩

/-- One edit after another. The second one starts from where the first one ended, unless that
    failed. -/
protected def bind (first : Edit α) (next : α → Edit β) : Edit β := fun a =>
  match first a with
  | ⟨between, events, .error e⟩ => ⟨between, events, .error e⟩
  | ⟨between, events, .ok value⟩ =>
    let after := next value between
    ⟨after.assembly, events ++ after.events, after.result⟩

instance : Monad Edit where
  pure := Edit.pure
  bind := Edit.bind

/-- After a failure nothing happens. -/
theorem bind_of_error {first : Edit α} {a : Assembly} {e : AssemblyError}
    (h : (first a).result = .error e) (next : α → Edit β) :
    (first >>= next) a = ⟨(first a).assembly, (first a).events, .error e⟩ := by
  change Edit.bind first next a = _
  unfold Edit.bind
  split
  · next heq =>
      rw [heq] at h ⊢
      simp only [Except.error.injEq] at h
      rw [← h]
  · next heq =>
      rw [heq] at h
      exact absurd h (by simp)

/-- After a success the second edit starts from what the first one left. -/
theorem bind_of_ok {first : Edit α} {a : Assembly} {value : α}
    (h : (first a).result = .ok value) (next : α → Edit β) :
    (first >>= next) a =
      ⟨(next value (first a).assembly).assembly,
        (first a).events ++ (next value (first a).assembly).events,
        (next value (first a).assembly).result⟩ := by
  change Edit.bind first next a = _
  unfold Edit.bind
  split
  · next heq =>
      rw [heq] at h
      exact absurd h (by simp)
  · next heq =>
      rw [heq] at h ⊢
      simp only [Except.ok.injEq] at h
      rw [← h]

instance : LawfulMonad Edit :=
  LawfulMonad.mk' _
    (fun first => by
      funext a
      change Edit.bind first Edit.pure a = first a
      simp only [Edit.bind]
      rcases first a with ⟨assembly, events, result⟩
      cases result with
      | error e => rfl
      | ok value => simp [Edit.pure])
    (fun value next => by
      funext a
      change Edit.bind (Edit.pure value) next a = next value a
      simp [Edit.bind, Edit.pure])
    (fun first next last => by
      funext a
      cases h : (first a).result with
      | error e => simp [bind_of_error, h]
      | ok value =>
          rw [bind_of_ok (h := h)]
          cases h' : (next value (first a).assembly).result with
          | error e =>
              have hfront : ((first >>= next) a).result = .error e := by
                rw [bind_of_ok (h := h), h']
              rw [bind_of_error (h := hfront), bind_of_error (h := h'), bind_of_ok (h := h)]
          | ok value' =>
              have hfront : ((first >>= next) a).result = .ok value' := by
                rw [bind_of_ok (h := h), h']
              rw [bind_of_ok (h := hfront), bind_of_ok (h := h'), bind_of_ok (h := h)]
              simp)

/-- A question whose answer may be told about, or be that there is none. -/
def ask (question : Assembly → Logged AssemblyError α) : Edit α := fun a =>
  let answer := question a
  ⟨a, answer.events, answer.result⟩

/-- A question that nothing is told about. -/
def read (question : Assembly → Except AssemblyError α) : Edit α :=
  ask fun a => Logged.ofExcept (question a)

/-- A result that does not depend on the assembly. -/
def ofLogged (answer : Logged AssemblyError α) : Edit α := ask fun _ => answer

/-- A change that cannot fail. -/
def change (f : Assembly → Assembly) : Edit Unit := fun a => ⟨f a, [], .ok ()⟩

/-- A further component. -/
def insert (c : Component) : Edit ComponentId := fun a =>
  let id := a.nextId
  ⟨a.insert c, [], .ok id⟩

/-- A parentage recorded on both sides. -/
def link (parent child : ComponentId) : Edit Unit := change fun a => a.link parent child

/-- An event and nothing else. -/
def note (event : Event) : Edit Unit := fun a => ⟨a, [event], .ok ()⟩

end Edit

end SolidModel
