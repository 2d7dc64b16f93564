import SolidModel.Assembly.Edit

/-!
# The Course of an Edit

How to reason about a sequence of edits one edit at a time.

`Edit.Yields` says how an edit that succeeds turns one assembly into another, and what it hands
on. It composes as the edits do, so that a long operation is told as a chain of short facts.
Questions leave the assembly alone, and the answer to them can be had without running them.

Failure is treated apart. An invariant that every edit of a sequence keeps is kept by the
sequence, wherever it breaks off: that is `Edit.bind_keeps`, and it is why an operation that
fails halfway still leaves a well-formed assembly behind.

The third notion is about operations with a depth. `Edit.Agrees` says that one edit does what
another does wherever that one succeeds. Running out of depth is a failure, so a greater depth
agrees with a lesser one.

## Main definitions

* `Edit.Yields`: A successful course.
* `Edit.Agrees`: An edit does what another one succeeds in.

## Theorems

* `Edit.Yields.bind`, `Edit.Yields.mapM_cons`, `Edit.Yields.forM_cons`: Courses compose.
* `Edit.bind_keeps`: What keeps an invariant in sequence.
* `Edit.Agrees.bind`, `Edit.Agrees.mapM`, `Edit.Agrees.forM`: Agreement composes.
-/

namespace SolidModel

namespace Edit

variable {α β : Type}

/-- The edit succeeds on one assembly with a value, and leaves another assembly. What it tells on
    the way is left open. -/
def Yields (e : Edit α) (a : Assembly) (value : α) (b : Assembly) : Prop :=
  (e a).result = .ok value ∧ (e a).assembly = b

theorem assembly_bind_of_ok {first : Edit α} {a : Assembly} {value : α}
    (h : (first a).result = .ok value) (next : α → Edit β) :
    ((first >>= next) a).assembly = (next value (first a).assembly).assembly := by
  rw [bind_of_ok h]

theorem result_bind_of_ok {first : Edit α} {a : Assembly} {value : α}
    (h : (first a).result = .ok value) (next : α → Edit β) :
    ((first >>= next) a).result = (next value (first a).assembly).result := by
  rw [bind_of_ok h]

/-- After the answer to a question the edit goes on from where it was asked. -/
theorem read_bind_of_ok {question : Assembly → Except AssemblyError α} {a : Assembly} {value : α}
    (h : question a = .ok value) (next : α → Edit β) :
    (read question >>= next) a = next value a := by
  have hread : (read question a).result = .ok value := h
  rw [bind_of_ok hread]
  rfl

theorem read_bind_of_error {question : Assembly → Except AssemblyError α} {a : Assembly}
    {e : AssemblyError} (h : question a = .error e) (next : α → Edit β) :
    (read question >>= next) a = ⟨a, [], .error e⟩ := by
  have hread : (read question a).result = .error e := h
  rw [bind_of_error hread]
  rfl

/-- A sequence succeeds only if its first edit does. -/
theorem ok_of_bind_ok {first : Edit α} {next : α → Edit β} {a : Assembly} {value : β}
    (h : ((first >>= next) a).result = .ok value) :
    ∃ between, (first a).result = .ok between ∧
      (next between (first a).assembly).result = .ok value := by
  cases hfirst : (first a).result with
  | error e =>
      rw [bind_of_error hfirst] at h
      exact absurd h (by simp only [reduceCtorEq, not_false_eq_true])
  | ok between => exact ⟨between, rfl, by rwa [result_bind_of_ok hfirst] at h⟩

/-- An invariant is kept by a sequence whose parts keep it, even if it breaks off. -/
theorem bind_keeps {I : Assembly → Prop} {first : Edit α} {next : α → Edit β} {a : Assembly}
    (hfirst : I (first a).assembly)
    (hnext : ∀ value, (first a).result = .ok value → I (next value (first a).assembly).assembly) :
    I ((first >>= next) a).assembly := by
  cases h : (first a).result with
  | error e =>
      rw [bind_of_error h]
      exact hfirst
  | ok value =>
      rw [assembly_bind_of_ok h]
      exact hnext value h

/-- What is handed on makes no difference to an invariant. -/
theorem map_keeps {I : Assembly → Prop} {first : Edit α} {f : α → β} {a : Assembly}
    (h : I (first a).assembly) : I ((f <$> first) a).assembly := by
  rw [map_eq_pure_bind]
  exact bind_keeps h fun _ _ => h

/-- A question keeps what held before it. -/
theorem ask_keeps {I : Assembly → Prop} {question : Assembly → Logged AssemblyError α}
    {next : α → Edit β} {a : Assembly} (h : I a)
    (hnext : ∀ value, (question a).result = .ok value → I (next value a).assembly) :
    I ((ask question >>= next) a).assembly :=
  @bind_keeps _ _ I (ask question) next a h hnext

theorem read_keeps {I : Assembly → Prop} {question : Assembly → Except AssemblyError α}
    {next : α → Edit β} {a : Assembly} (h : I a)
    (hnext : ∀ value, question a = .ok value → I (next value a).assembly) :
    I ((read question >>= next) a).assembly :=
  ask_keeps h hnext

namespace Yields

variable {first : Edit α} {next : α → Edit β} {a b c : Assembly} {value : α}

theorem result (h : first.Yields a value b) : (first a).result = .ok value := h.1

theorem assembly (h : first.Yields a value b) : (first a).assembly = b := h.2

theorem pure (value : α) (a : Assembly) : (Pure.pure value : Edit α).Yields a value a := ⟨rfl, rfl⟩

theorem bind (h : first.Yields a value b) {value' : β} (h' : (next value).Yields b value' c) :
    (first >>= next).Yields a value' c := by
  refine ⟨?_, ?_⟩
  · rw [result_bind_of_ok h.1, h.2]
    exact h'.1
  · rw [assembly_bind_of_ok h.1, h.2]
    exact h'.2

theorem read {question : Assembly → Except AssemblyError α} (h : question a = .ok value) :
    (Edit.read question).Yields a value a := ⟨h, rfl⟩

theorem change (f : Assembly → Assembly) (a : Assembly) : (Edit.change f).Yields a () (f a) :=
  ⟨rfl, rfl⟩

theorem insert (c : Component) (a : Assembly) :
    (Edit.insert c).Yields a a.nextId (a.insert c) := ⟨rfl, rfl⟩

theorem note (event : Event) (a : Assembly) : (Edit.note event).Yields a () a := ⟨rfl, rfl⟩

theorem mapM_nil (f : α → Edit β) (a : Assembly) : (List.mapM f []).Yields a [] a := by
  rw [List.mapM_nil]
  exact pure [] a

theorem mapM_cons {f : α → Edit β} {x : α} {rest : List α} {y : β} {ys : List β}
    (h : (f x).Yields a y b) (hrest : (rest.mapM f).Yields b ys c) :
    ((x :: rest).mapM f).Yields a (y :: ys) c := by
  rw [List.mapM_cons]
  exact h.bind (hrest.bind (pure (y :: ys) c))

theorem forM_nil (f : α → Edit Unit) (a : Assembly) :
    (List.forM [] f).Yields a () a := pure () a

theorem forM_cons {f : α → Edit Unit} {x : α} {rest : List α}
    (h : (f x).Yields a () b) (hrest : (rest.forM f).Yields b () c) :
    ((x :: rest).forM f).Yields a () c := h.bind hrest

end Yields

/-- Wherever one edit succeeds, the other does the same. -/
def Agrees (e e' : Edit α) : Prop := ∀ a value, (e a).result = .ok value → e' a = e a

namespace Agrees

theorem refl (e : Edit α) : Agrees e e := fun _ _ _ => rfl

theorem bind {first first' : Edit α} {next next' : α → Edit β} (h : Agrees first first')
    (hnext : ∀ value, Agrees (next value) (next' value)) :
    Agrees (first >>= next) (first' >>= next') := by
  intro a value hok
  rcases ok_of_bind_ok hok with ⟨between, hfirst, hsecond⟩
  have hfirst' : (first' a).result = .ok between := by rw [h a between hfirst, hfirst]
  rw [bind_of_ok hfirst', bind_of_ok hfirst, h a between hfirst,
    hnext between (first a).assembly value hsecond]

theorem mapM {f f' : α → Edit β} (h : ∀ x, Agrees (f x) (f' x)) (l : List α) :
    Agrees (l.mapM f) (l.mapM f') := by
  induction l with
  | nil =>
      rw [List.mapM_nil, List.mapM_nil]
      exact refl _
  | cons x rest ih =>
      rw [List.mapM_cons, List.mapM_cons]
      exact bind (h x) fun y => bind ih fun ys => refl _

theorem forM {f f' : α → Edit Unit} (h : ∀ x, Agrees (f x) (f' x)) (l : List α) :
    Agrees (l.forM f) (l.forM f') := by
  induction l with
  | nil => exact refl _
  | cons x rest ih => exact bind (h x) fun _ => ih

end Agrees

end Edit

end SolidModel
