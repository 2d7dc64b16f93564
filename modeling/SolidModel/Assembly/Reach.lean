import SolidModel.Assembly.Basic
import Std.Data.TreeSet.Lemmas

/-!
# Ancestors and Dependence

Two ways of walking along the links of an assembly.

Upwards there is one way to go: from a component to its parent, to the parent of that, and so
on. Downwards there are many, and components may be met again by other ways.
`Assembly.dependsOn` searches, and keeps the numbers of those it has seen.

Both walks have to end on any table of components, not only on one without cycles, because
they are what keeps cycles out. Going up, no walk without repetition is longer than the number
of components. Going down, every component seen for the first time adds what it is made of to
the list of what is still to be looked at, but it does so only once. So what counts is that list
together with the links that nobody has followed yet. Every turn of the search makes that fewer
by one at least.

## Main definitions

* `Assembly.ancestors`: The parents of a component, nearest first.
* `Search`: Where a search through an assembly stands.
* `Search.turn`: One turn of it.
* `Assembly.dependsOn`: Whether a component is made of another.

## Theorems

* `Assembly.length_allLinksLeft_insert`: Seeing a component for the first time uses up its links.
* `Search.turnsLeft_lt`: Every turn but the last leaves fewer turns to take.
-/

namespace SolidModel

/-- Where a search through an assembly stands. -/
structure Search where
  /-- What is still to be looked at, the next first. -/
  pending : List ComponentId
  /-- The numbers of all that has been looked at. -/
  seen : Std.TreeSet Nat := ∅

namespace Assembly

/-- At most `bound` components, each the parent of the one before. -/
def chain (a : Assembly) : Nat → Option ComponentId → List ComponentId
  | 0, _ => []
  | _, none => []
  | bound + 1, some id => id :: a.chain bound (a.parent? id)

/-- The parent of a component, its parent, and so on. -/
def ancestors (a : Assembly) (id : ComponentId) : List ComponentId := a.chain a.size (a.parent? id)

/-- A component nobody has seen yet may be unknown. Then it is made of nothing. -/
theorem uses_eq_nil_or_mem (a : Assembly) (id : ComponentId) : a.uses id = [] ∨ id ∈ a.ids := by
  cases h : a.get? id with
  | none => exact Or.inl (by simp [uses, h])
  | some c => exact Or.inr ((a.contains_iff id).mp (by simp [contains, h]))

/-- The links out of a component that are still to be followed: none once it has been seen. -/
def linksLeft (a : Assembly) (seen : Std.TreeSet Nat) (id : ComponentId) : List ComponentId :=
  if id.number ∈ seen then [] else a.uses id

/-- The links out of all components that are still to be followed. -/
def allLinksLeft (a : Assembly) (seen : Std.TreeSet Nat) : List ComponentId :=
  a.ids.flatMap (a.linksLeft seen)

theorem length_linksLeft_insert_le (a : Assembly) (seen : Std.TreeSet Nat) (n : Nat)
    (id : ComponentId) :
    (a.linksLeft (seen.insert n) id).length ≤ (a.linksLeft seen id).length := by
  unfold linksLeft
  split
  · exact Nat.zero_le _
  · next hnew =>
      have hold : id.number ∉ seen := fun hmem => hnew (Std.TreeSet.mem_insert.mpr (Or.inr hmem))
      exact Nat.le_of_eq (congrArg List.length (if_neg hold)).symm

/-- In any list, seeing a further component never leaves more links. -/
theorem length_flatMap_linksLeft_insert_le (a : Assembly) (seen : Std.TreeSet Nat) (n : Nat)
    (l : List ComponentId) :
    (l.flatMap (a.linksLeft (seen.insert n))).length ≤ (l.flatMap (a.linksLeft seen)).length := by
  induction l with
  | nil => exact Nat.le_refl 0
  | cons id l ih =>
      have hid := length_linksLeft_insert_le a seen n id
      simp only [List.flatMap_cons, List.length_append]
      omega

/-- Seeing a component for the first time takes its links away from those that are left. -/
theorem length_allLinksLeft_insert (a : Assembly) {seen : Std.TreeSet Nat} {id : ComponentId}
    (hseen : id.number ∉ seen) :
    (a.allLinksLeft (seen.insert id.number)).length + (a.uses id).length ≤
      (a.allLinksLeft seen).length := by
  rcases a.uses_eq_nil_or_mem id with hnil | hid
  · rw [hnil]
    exact length_flatMap_linksLeft_insert_le a seen id.number a.ids
  · rcases List.append_of_mem hid with ⟨before, after, h⟩
    have hbefore := length_flatMap_linksLeft_insert_le a seen id.number before
    have hafter := length_flatMap_linksLeft_insert_le a seen id.number after
    have hnow : a.linksLeft seen id = a.uses id := if_neg hseen
    have hthen : a.linksLeft (seen.insert id.number) id = [] := if_pos Std.TreeSet.mem_insert_self
    simp only [allLinksLeft, h, List.flatMap_append, List.flatMap_cons, List.length_append, hnow,
      hthen, List.length_nil]
    omega

end Assembly

namespace Search

/-- What a turn of a search comes to. -/
inductive Turn where
  /-- The search is over. -/
  | ends (found : Bool)
  /-- The search goes on. -/
  | goesOn (next : Search)

/-- One turn of the search for `target`. A component that is looked at for the first time puts what
    it is made of before everything else that is pending, the last of it first. -/
def turn (a : Assembly) (target : ComponentId) : Search → Turn
  | ⟨[], _⟩ => .ends false
  | ⟨id :: rest, seen⟩ =>
    if id = target then .ends true
    else if id.number ∈ seen then .goesOn ⟨rest, seen⟩
    else .goesOn ⟨(a.uses id).reverse ++ rest, seen.insert id.number⟩

/-- All there is to a turn after which the search goes on. -/
theorem cases_of_goesOn {a : Assembly} {target : ComponentId} {s next : Search}
    (h : turn a target s = .goesOn next) : ∃ id rest, s.pending = id :: rest ∧ id ≠ target ∧
      (id.number ∈ s.seen ∧ next = ⟨rest, s.seen⟩ ∨
        id.number ∉ s.seen ∧
          next = ⟨(a.uses id).reverse ++ rest, s.seen.insert id.number⟩) := by
  rcases s with ⟨_ | ⟨id, rest⟩, seen⟩
  · exact absurd h (by simp [turn])
  · rw [turn] at h
    split at h
    · exact absurd h (by simp)
    · next htarget =>
        split at h
        · next hseen =>
            exact ⟨id, rest, rfl, htarget, Or.inl ⟨hseen, (Turn.goesOn.inj h).symm⟩⟩
        · next hseen =>
            exact ⟨id, rest, rfl, htarget, Or.inr ⟨hseen, (Turn.goesOn.inj h).symm⟩⟩

/-- The number of turns that a search can at most take before its last one: one for everything that
    is pending, and one for every link that is left. -/
def turnsLeft (a : Assembly) (s : Search) : Nat :=
  s.pending.length + (a.allLinksLeft s.seen).length

/-- A turn that is not the last one is one turn fewer to take. -/
theorem turnsLeft_lt {a : Assembly} {target : ComponentId} {s next : Search}
    (h : turn a target s = .goesOn next) : next.turnsLeft a < s.turnsLeft a := by
  rcases cases_of_goesOn h with ⟨id, rest, hpending, _, ⟨_, rfl⟩ | ⟨hseen, rfl⟩⟩
  · simp only [turnsLeft, hpending, List.length_cons]
    omega
  · have hlinks := a.length_allLinksLeft_insert hseen
    simp only [turnsLeft, hpending, List.length_append, List.length_reverse, List.length_cons]
    omega

/-- Whether a search for `target` finds it in the end. -/
def finds (a : Assembly) (target : ComponentId) (s : Search) : Bool :=
  match _h : turn a target s with
  | .ends found => found
  | .goesOn next => finds a target next
termination_by s.turnsLeft a
decreasing_by exact turnsLeft_lt _h

end Search

namespace Assembly

/-- Whether a component is `target` or is made of it, through children and operands. -/
def dependsOn (a : Assembly) (id target : ComponentId) : Bool :=
  Search.finds a target { pending := [id] }

end Assembly

end SolidModel
