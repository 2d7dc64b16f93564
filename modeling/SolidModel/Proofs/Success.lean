import Mathlib.Data.List.Forall2
import SolidModel.Logged

/-!
# Success

When a sequence of results that may fail has succeeded.

Both kinds of results, those that tell something on the way and those that do not, succeed in
sequence exactly if every part does. So a success can be taken apart into the successes it is made
of. A failure is the failure of one part, all those before it having succeeded; what is told on the
way makes no difference to it.

## Theorems

* `Option.mapM_eq_some_iff`, `Option.forall_mem_of_mapM`: A list of results without a reason.
* `Except.bind_eq_ok_iff`, `Logged.bind_eq_ok_iff`: One result after another.
* `Except.forM_eq_ok_iff`, `Logged.forM_eq_ok_iff`: A list of checks.
* `Except.mapM_eq_ok_iff`, `Except.exists_mapM_eq_ok_iff`: A list of results that are kept.
* `Except.bind_eq_error_iff`, `Except.exists_of_forM_eq_error`: Where a sequence fails.
* `Logged.bind_result`, `Logged.forM_result`: Sequences without what they tell.
-/

namespace SolidModel

namespace Option

variable {α β : Type}

/-- A list of results is there if every one of them is. -/
theorem mapM_eq_some_iff {f : α → Option β} {l : List α} {ys : List β} :
    l.mapM f = some ys ↔ List.Forall₂ (fun x y => f x = some y) l ys := by
  induction l generalizing ys with
  | nil => simp [eq_comm]
  | cons x rest ih =>
      simp only [List.mapM_cons, Option.bind_eq_bind, Option.bind_eq_some_iff, Option.pure_def,
        Option.some.injEq, ih, List.forall₂_cons_left_iff, ← exists_and_left, eq_comm (b := ys)]

/-- All of the results in a list are what each of them has to be. -/
theorem forall_mem_of_mapM {f : α → Option β} {l : List α} {ys : List β} {p : β → Prop}
    (h : l.mapM f = some ys) (hf : ∀ x ∈ l, ∀ y, f x = some y → p y) : ∀ y ∈ ys, p y := by
  rw [mapM_eq_some_iff] at h
  induction h with
  | nil => exact List.forall_mem_nil _
  | cons hy _ ih =>
      rw [List.forall_mem_cons] at hf ⊢
      exact ⟨hf.1 _ hy, ih hf.2⟩

end Option

namespace Except

variable {ε α β : Type}

@[simp] theorem ok_bind (a : α) (f : α → Except ε β) : (.ok a : Except ε α) >>= f = f a := rfl

theorem bind_eq_ok_iff {x : Except ε α} {f : α → Except ε β} {b : β} :
    x >>= f = .ok b ↔ ∃ a, x = .ok a ∧ f a = .ok b := by
  cases x with
  | error e =>
      refine iff_of_false (by simp only [bind, Except.bind, reduceCtorEq, not_false_eq_true]) ?_
      rintro ⟨a, h, _⟩
      exact absurd h (by simp only [reduceCtorEq, not_false_eq_true])
  | ok a =>
      constructor
      · exact fun h => ⟨a, rfl, h⟩
      · rintro ⟨a', h, hf⟩
        rw [Except.ok.inj h]
        exact hf

/-- A sequence fails where its first failure is. -/
theorem bind_eq_error_iff {x : Except ε α} {f : α → Except ε β} {e : ε} :
    x >>= f = .error e ↔ x = .error e ∨ ∃ a, x = .ok a ∧ f a = .error e := by
  cases x with
  | error e' =>
      refine ⟨fun h => Or.inl (congrArg Except.error (Except.error.inj h)), ?_⟩
      rintro (h | ⟨a, h, _⟩)
      · exact congrArg Except.error (Except.error.inj h)
      · exact absurd h (by simp only [reduceCtorEq, not_false_eq_true])
  | ok a =>
      refine ⟨fun h => Or.inr ⟨a, rfl, h⟩, ?_⟩
      rintro (h | ⟨a', h, hf⟩)
      · exact absurd h (by simp only [reduceCtorEq, not_false_eq_true])
      · rw [Except.ok.inj h]
        exact hf

/-- A failure that is told in other terms is still one. -/
theorem mapError_eq_ok_iff {ε' : Type} {x : Except ε α} {f : ε → ε'} {a : α} :
    x.mapError f = .ok a ↔ x = .ok a := by
  cases x with
  | error e => exact iff_of_false (fun h => by cases h) (fun h => by cases h)
  | ok a' => exact ⟨fun h => by cases h; rfl, fun h => by cases h; rfl⟩

/-- One check before another. -/
theorem check_bind_eq_ok_iff {x : Except ε Unit} {f : Unit → Except ε β} {b : β} :
    x >>= f = .ok b ↔ x = .ok () ∧ f () = .ok b := by
  rw [bind_eq_ok_iff]
  exact ⟨fun ⟨_, hx, hf⟩ => ⟨hx, hf⟩, fun ⟨hx, hf⟩ => ⟨(), hx, hf⟩⟩

/-- A list of checks succeeds if every one of them does. -/
theorem forM_eq_ok_iff {f : α → Except ε Unit} {l : List α} :
    l.forM f = .ok () ↔ ∀ x ∈ l, f x = .ok () := by
  induction l with
  | nil => exact iff_of_true rfl fun x hx => absurd hx List.not_mem_nil
  | cons x rest ih =>
      change f x >>= (fun _ => rest.forM f) = .ok () ↔ _
      rw [check_bind_eq_ok_iff, List.forall_mem_cons, ih]

/-- Of a list of checks that fails, one fails in that way. -/
theorem exists_of_forM_eq_error {f : α → Except ε Unit} {l : List α} {e : ε}
    (h : l.forM f = .error e) : ∃ x ∈ l, f x = .error e := by
  induction l with
  | nil => cases h
  | cons x rest ih =>
      rcases bind_eq_error_iff.mp h with hx | ⟨_, _, hrest⟩
      · exact ⟨x, List.mem_cons_self, hx⟩
      · rcases ih hrest with ⟨y, hy, hfail⟩
        exact ⟨y, List.mem_cons_of_mem _ hy, hfail⟩

/-- A list of results is there if every one of them is. -/
theorem mapM_eq_ok_iff {f : α → Except ε β} {l : List α} {ys : List β} :
    l.mapM f = .ok ys ↔ List.Forall₂ (fun x y => f x = .ok y) l ys := by
  induction l generalizing ys with
  | nil =>
      rw [List.mapM_nil]
      constructor
      · intro h
        have hnil : [] = ys := Except.ok.inj h
        exact hnil ▸ List.Forall₂.nil
      · intro h
        cases h
        rfl
  | cons x rest ih =>
      rw [List.mapM_cons, bind_eq_ok_iff]
      constructor
      · rintro ⟨y, hy, h⟩
        rcases bind_eq_ok_iff.mp h with ⟨others, hothers, h⟩
        have hcons : y :: others = ys := Except.ok.inj h
        exact hcons ▸ List.Forall₂.cons hy (ih.mp hothers)
      · intro h
        cases h with
        | cons hy hothers => exact ⟨_, hy, bind_eq_ok_iff.mpr ⟨_, ih.mpr hothers, rfl⟩⟩

/-- A list of results can be kept if every one of them is there. -/
theorem exists_mapM_eq_ok_iff {f : α → Except ε β} {l : List α} :
    (∃ ys, l.mapM f = .ok ys) ↔ ∀ x ∈ l, ∃ y, f x = .ok y := by
  simp only [mapM_eq_ok_iff]
  induction l with
  | nil => exact iff_of_true ⟨[], List.Forall₂.nil⟩ fun x hx => absurd hx List.not_mem_nil
  | cons x rest ih =>
      rw [List.forall_mem_cons, ← ih]
      constructor
      · rintro ⟨_, hall⟩
        cases hall with
        | cons hy hrest => exact ⟨⟨_, hy⟩, _, hrest⟩
      · rintro ⟨⟨y, hy⟩, ys, hrest⟩
        exact ⟨y :: ys, List.Forall₂.cons hy hrest⟩

end Except

namespace Logged

variable {ε α β : Type}

theorem bind_eq_ok_iff {x : Logged ε α} {f : α → Logged ε β} {b : β} :
    (x >>= f).result = .ok b ↔ ∃ a, x.result = .ok a ∧ (f a).result = .ok b := by
  cases h : x.result with
  | error e =>
      rw [bind_of_error h]
      refine iff_of_false (by simp only [reduceCtorEq, not_false_eq_true]) ?_
      rintro ⟨a, h', _⟩
      exact absurd h' (by simp only [reduceCtorEq, not_false_eq_true])
  | ok a =>
      rw [bind_of_ok h]
      constructor
      · exact fun hf => ⟨a, rfl, hf⟩
      · rintro ⟨a', h', hf⟩
        rw [Except.ok.inj h']
        exact hf

theorem check_bind_eq_ok_iff {x : Logged ε Unit} {f : Unit → Logged ε β} {b : β} :
    (x >>= f).result = .ok b ↔ x.result = .ok () ∧ (f ()).result = .ok b := by
  rw [bind_eq_ok_iff]
  exact ⟨fun ⟨_, hx, hf⟩ => ⟨hx, hf⟩, fun ⟨hx, hf⟩ => ⟨(), hx, hf⟩⟩

/-- The same where checks may tell something. -/
theorem forM_eq_ok_iff {f : α → Logged ε Unit} {l : List α} :
    (l.forM f).result = .ok () ↔ ∀ x ∈ l, (f x).result = .ok () := by
  induction l with
  | nil => exact iff_of_true rfl fun x hx => absurd hx List.not_mem_nil
  | cons x rest ih =>
      change (f x >>= fun _ => rest.forM f).result = .ok () ↔ _
      rw [check_bind_eq_ok_iff, List.forall_mem_cons, ih]

/-- What succeeds still does so when its result is put to use. -/
theorem map_eq_ok {x : Logged ε α} {a : α} (h : x.result = .ok a) (f : α → β) :
    (f <$> x).result = .ok (f a) := by
  rw [map_eq_pure_bind]
  exact bind_eq_ok_iff.mpr ⟨a, h, rfl⟩

/-- Without its events a sequence is a sequence of results. -/
theorem bind_result (x : Logged ε α) (f : α → Logged ε β) :
    (x >>= f).result = x.result >>= fun a => (f a).result := by
  cases h : x.result with
  | error e => rw [bind_of_error h]; rfl
  | ok a => rw [bind_of_ok h]; rfl

theorem forM_result (f : α → Logged ε Unit) (l : List α) :
    (l.forM f).result = l.forM fun x => (f x).result := by
  induction l with
  | nil => rfl
  | cons x rest ih =>
      change (f x >>= fun _ => rest.forM f).result = (f x).result >>= fun _ => _
      rw [bind_result, ih]

theorem ofExcept_result (result : Except ε α) : (ofExcept result).result = result := rfl

end Logged

end SolidModel
