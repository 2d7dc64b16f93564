import Mathlib.Data.List.Nodup
import Mathlib.Data.List.Perm.Subperm
import Mathlib.Logic.Relation

/-!
# Walks Without Return

What it takes for every walk along a relation to end.

A relation is acyclic when no walk comes back to where it started. That is the form in which it
survives growth: edges that all leave one place, and lead only to places from which that place
could not be reached, close no circle, however many of them are added at once.

The other form counts steps. `EndsWithin next depth x` says that every walk from `x` is over
before `depth` steps are taken, and it unfolds as a recursion with a depth does. On a finite set
of places the first form gives the second one, with a depth that no walk can use up: a walk that
is longer than the number of places has been somewhere twice.

## Main definitions

* `Acyclic`: No walk comes back.
* `EndsWithin`: Every walk is over before so many steps.

## Theorems

* `reflTransGen_of_source`: Edges out of one place do not help to get there.
* `reflTransGen_of_not_source`: They do not help those who cannot get there.
* `transGen_of_source`: A walk uses old edges only or passes through that place.
* `acyclic_of_source`: Such edges close no circle.
* `EndsWithin.mono`: A walk that is over early is over later.
* `EndsWithin.recursion_eq`: A recursion along walks that end needs no more depth than they do.
* `EndsWithin.not_transGen`: Walks that end together do not meet.
* `endsWithin_of_acyclic`: Without circles, walks end within the number of places.
-/

namespace SolidModel

open Relation

variable {α : Type}

/-- No walk comes back to where it started. -/
def Acyclic (step : α → α → Prop) : Prop := ∀ x, ¬ TransGen step x x

/-- When all new edges leave one place, a way to that place needs none of them. -/
theorem reflTransGen_of_source {old new : α → α → Prop} {p : α}
    (hnew : ∀ x y, new x y → old x y ∨ x = p) {x : α} (h : ReflTransGen new x p) :
    ReflTransGen old x p := by
  induction h using ReflTransGen.head_induction_on with
  | refl => exact ReflTransGen.refl
  | head hstep _ ih =>
      rcases hnew _ _ hstep with hold | heq
      · exact ReflTransGen.head hold ih
      · rw [heq]

/-- Whoever could not get to that place before gets nowhere new. -/
theorem reflTransGen_of_not_source {old new : α → α → Prop} {p : α}
    (hnew : ∀ x y, new x y → old x y ∨ x = p) {x z : α} (hp : ¬ ReflTransGen old x p)
    (h : ReflTransGen new x z) : ReflTransGen old x z := by
  induction h with
  | refl => exact ReflTransGen.refl
  | tail _ hstep ih =>
      rcases hnew _ _ hstep with hold | heq
      · exact ReflTransGen.tail ih hold
      · exact absurd (heq ▸ ih) hp

/-- When all new edges leave one place, a walk uses none of them or passes through that place. -/
theorem transGen_of_source {old new : α → α → Prop} {p : α}
    (hnew : ∀ x y, new x y → old x y ∨ x = p) {x y : α} (h : TransGen new x y) :
    TransGen old x y ∨ ReflTransGen new x p ∧ TransGen new p y := by
  induction h with
  | single hstep =>
      rcases hnew _ _ hstep with hold | heq
      · exact Or.inl (TransGen.single hold)
      · rw [heq] at hstep ⊢
        exact Or.inr ⟨ReflTransGen.refl, TransGen.single hstep⟩
  | tail hwalk hstep ih =>
      rcases hnew _ _ hstep with hold | heq
      · rcases ih with hold' | ⟨hxp, hpy⟩
        · exact Or.inl (TransGen.tail hold' hold)
        · exact Or.inr ⟨hxp, TransGen.tail hpy hstep⟩
      · rw [heq] at hwalk hstep
        exact Or.inr ⟨hwalk.to_reflTransGen, TransGen.single hstep⟩

/-- New edges that leave one place, and lead to where that place cannot be reached from, close no
    circle. A circle that uses one of them passes through the place, and comes back to it from where
    the edge has led. -/
theorem acyclic_of_source {old new : α → α → Prop} {p : α} (hacyclic : Acyclic old)
    (hnew : ∀ x y, new x y → old x y ∨ x = p ∧ ¬ ReflTransGen old y p) : Acyclic new := by
  have hsource : ∀ x y, new x y → old x y ∨ x = p := fun x y h =>
    (hnew x y h).imp_right And.left
  -- A circle through the place would contain a way back from the target of one of its edges.
  have hplace : ¬ TransGen new p p := by
    intro h
    rcases TransGen.head'_iff.mp h with ⟨y, hpy, hyp⟩
    have hyp' := reflTransGen_of_source hsource hyp
    rcases hnew p y hpy with hold | ⟨_, hnot⟩
    · exact hacyclic p (TransGen.head' hold hyp')
    · exact hnot hyp'
  intro x hx
  rcases transGen_of_source hsource hx with hold | ⟨hxp, hpx⟩
  · exact hacyclic x hold
  · exact hplace (TransGen.trans_left hpx hxp)

/-- Every walk from a place is over before `depth` steps are taken. A depth of nothing is not enough
    for any walk, not even for one that ends where it begins. -/
def EndsWithin (next : α → List α) : Nat → α → Prop
  | 0, _ => False
  | depth + 1, x => ∀ y ∈ next x, EndsWithin next depth y

namespace EndsWithin

variable {next : α → List α}

/-- A walk that is over early is over later. -/
theorem mono {depth : Nat} : ∀ {depth' : Nat} {x : α}, depth ≤ depth' →
    EndsWithin next depth x → EndsWithin next depth' x := by
  induction depth with
  | zero => exact fun _ h => h.elim
  | succ depth ih =>
      intro depth' x hle h
      cases depth' with
      | zero => exact absurd hle (Nat.not_succ_le_zero depth)
      | succ depth' => exact fun y hy => ih (Nat.le_of_succ_le_succ hle) (h y hy)

-- The induction is on the depth in which the walk ends. Where it starts, and how much deeper one
-- goes, is free in it, since both change with every step down.
/-- A recursion that takes nothing but the results one step further needs no more depth than the
    walk does. The recursion may be any function with a depth; it is enough that what it gives in
    one place depends on what it gives in the next ones. -/
theorem recursion_eq {β : Type} {f : Nat → α → β}
    (hstep : ∀ (depth depth' : Nat) (x : α), (∀ y ∈ next x, f depth' y = f depth y) →
      f (depth' + 1) x = f (depth + 1) x) {depth : Nat} :
    ∀ {depth' : Nat} {x : α}, depth ≤ depth' → EndsWithin next depth x →
      f depth' x = f depth x := by
  induction depth with
  | zero => exact fun _ h => h.elim
  | succ depth ih =>
      intro depth' x hle h
      cases depth' with
      | zero => exact absurd hle (Nat.not_succ_le_zero depth)
      | succ depth' =>
          exact hstep depth depth' x fun y hy => ih (Nat.le_of_succ_le_succ hle) (h y hy)

/-- What is met on a walk has less of it before it. -/
theorem of_transGen {depth : Nat} {x y : α} (h : EndsWithin next (depth + 1) x)
    (hxy : TransGen (fun u v => v ∈ next u) x y) : EndsWithin next depth y := by
  induction hxy with
  | single hstep => exact h _ hstep
  | tail _ hstep ih =>
      cases depth with
      | zero => exact ih.elim
      | succ depth => exact (ih _ hstep).mono (Nat.le_succ depth)

/-- If walks from two places end together, neither is met on a walk from the other. -/
theorem not_transGen {x y : α} (hsame : ∀ depth, EndsWithin next depth x ↔ EndsWithin next depth y)
    {depth : Nat} (h : EndsWithin next depth x) : ¬ TransGen (fun u v => v ∈ next u) x y := by
  intro hxy
  induction depth with
  | zero => exact h
  | succ depth ih => exact ih ((hsame depth).mpr (h.of_transGen hxy))

end EndsWithin

/-- A walk that has passed through `behind`, and has not met any place twice, ends before it has
    met more places than there are. -/
theorem endsWithin_of_behind {next : α → List α} {places : List α}
    (hplaces : ∀ x y, y ∈ next x → x ∈ places) (hacyclic : Acyclic fun x y => y ∈ next x)
    (depth : Nat) : ∀ (behind : List α) (x : α), behind.Nodup →
      (∀ b ∈ behind, TransGen (fun x y => y ∈ next x) b x) →
      behind.length + depth = places.length + 1 → EndsWithin next depth x := by
  induction depth with
  | zero =>
      intro behind x hnodup hbehind hlength
      -- All that is behind has a successor, and so it is among the places.
      have hsub : behind ⊆ places := by
        intro b hb
        rcases TransGen.head'_iff.mp (hbehind b hb) with ⟨y, hby, _⟩
        exact hplaces b y hby
      have := (hnodup.subperm hsub).length_le
      omega
  | succ depth ih =>
      intro behind x hnodup hbehind hlength y hy
      refine ih (x :: behind) y ?_ ?_ (by rw [List.length_cons]; omega)
      · exact List.nodup_cons.mpr ⟨fun hx => hacyclic x (hbehind x hx), hnodup⟩
      · intro b hb
        rcases List.mem_cons.mp hb with rfl | hb
        · exact TransGen.single hy
        · exact TransGen.tail (hbehind b hb) hy

/-- Without circles, no walk has more steps than there are places to leave. A longer one would leave
    a place twice, and the part of it between the two would be a circle. -/
theorem endsWithin_of_acyclic {next : α → List α} {places : List α}
    (hplaces : ∀ x y, y ∈ next x → x ∈ places) (hacyclic : Acyclic fun x y => y ∈ next x) (x : α) :
    EndsWithin next (places.length + 1) x :=
  endsWithin_of_behind hplaces hacyclic (places.length + 1) [] x List.nodup_nil
    (fun b hb => absurd hb List.not_mem_nil) (by rw [List.length_nil, Nat.zero_add])

end SolidModel
