import SolidModel.Proofs.Assembly.Links

/-!
# The Search For a Component

The search through an assembly decides reachability, on any table of components. The table may have
circles, and links that lead nowhere.

The search remembers what it has seen, and of everything it has seen one thing stays true: it was
not the target, and whatever it is made of has been seen too or is still to be looked at. A walk
from there to the target cannot stay among what has been seen, so it passes through something that
is pending. That is why looking past a component seen before loses nothing, and whether the target
can be reached from what is pending is the same before and after every turn. When nothing is left
to look at, it cannot.

That there is an answer at all is `Search.turnsLeft_lt`, and it says more: how many turns it takes.
`Search.answer?` counts them. A search takes no more turns than there are links, and two.

## Main definitions

* `Search.Closed`: Nothing has been missed so far.
* `Search.Leads`: The target is ahead.
* `Search.answer?`: The answer, if there is one within so many turns.
* `Assembly.Names`: One component lists another.

## Theorems

* `Search.Closed.goesOn`: A turn misses nothing.
* `Search.Closed.leads_iff`: A turn keeps ahead what was ahead.
* `Search.Closed.finds_iff`: A search that has missed nothing finds what is ahead.
* `Search.answer?_eq_finds`: It does so within the turns that are left to it.
* `Assembly.dependsOn_iff`: The search decides reachability.
* `Assembly.dependsOn_decides`: The search ends, and decides whether there is a path.
-/

namespace SolidModel

open Relation

namespace Search

variable {a : Assembly} {target : ComponentId} {s next : Search}

/-- Nothing that has been seen is the target, and what it is made of has been seen too or is still
    to be looked at. -/
def Closed (a : Assembly) (target : ComponentId) (s : Search) : Prop :=
  ∀ x : ComponentId, x.number ∈ s.seen →
    x ≠ target ∧ ∀ y, a.Uses x y → y.number ∈ s.seen ∨ y ∈ s.pending

/-- The target can be reached from something that is still to be looked at. -/
def Leads (a : Assembly) (target : ComponentId) (s : Search) : Prop :=
  ∃ x ∈ s.pending, a.Reaches x target

/-! ## Turns -/

/-- The last turn of a search tells whether the target is ahead. -/
theorem ends_iff_leads {found : Bool} (h : turn a target s = .ends found) :
    found = true ↔ s.Leads a target := by
  rcases s with ⟨_ | ⟨id, rest⟩, seen⟩
  · rw [turn, Turn.ends.injEq] at h
    rw [← h]
    refine ⟨fun hfalse => absurd hfalse Bool.false_ne_true, ?_⟩
    rintro ⟨_, hx, _⟩
    exact absurd hx List.not_mem_nil
  · by_cases htarget : id = target
    · rw [turn, if_pos htarget, Turn.ends.injEq] at h
      rw [← h, htarget]
      exact ⟨fun _ => ⟨target, List.mem_cons_self, ReflTransGen.refl⟩, fun _ => rfl⟩
    · rw [turn, if_neg htarget] at h
      split at h <;> exact absurd h (by simp only [reduceCtorEq, not_false_eq_true])

/-- A walk to the target leaves what has been seen, and then passes through something pending. -/
theorem Closed.leads_of_seen (hs : s.Closed a target) {x : ComponentId} (hx : x.number ∈ s.seen)
    (hreach : a.Reaches x target) : s.Leads a target := by
  induction hreach using ReflTransGen.head_induction_on with
  | refl => exact absurd rfl (hs target hx).1
  | head hstep hrest ih =>
      rcases (hs _ hx).2 _ hstep with hseen | hpending
      · exact ih hseen
      · exact ⟨_, hpending, hrest⟩

/-- A turn misses nothing. -/
theorem Closed.goesOn (hs : s.Closed a target) (h : turn a target s = .goesOn next) :
    next.Closed a target := by
  -- Either the component has been seen before, or it is marked and its links are pending.
  rcases cases_of_goesOn h with ⟨id, rest, hpending, hne, ⟨hseen, rfl⟩ | ⟨_, rfl⟩⟩
  · refine fun x hx => ⟨(hs x hx).1, fun y hy => ?_⟩
    rcases (hs x hx).2 y hy with hy | hy
    · exact Or.inl hy
    · rcases List.mem_cons.mp (hpending ▸ hy) with rfl | hy
      · exact Or.inl hseen
      · exact Or.inr hy
  · intro x hx
    rcases Std.TreeSet.mem_insert.mp hx with heq | hx
    · have hid : id = x := by
        rcases id with ⟨n⟩
        rcases x with ⟨m⟩
        exact congrArg ComponentId.mk (Nat.compare_eq_eq.mp heq)
      rw [← hid]
      exact ⟨hne, fun y hy => Or.inr (List.mem_append_left _ (List.mem_reverse.mpr hy))⟩
    · refine ⟨(hs x hx).1, fun y hy => ?_⟩
      rcases (hs x hx).2 y hy with hy | hy
      · exact Or.inl (Std.TreeSet.mem_insert.mpr (Or.inr hy))
      · rcases List.mem_cons.mp (hpending ▸ hy) with rfl | hy
        · exact Or.inl Std.TreeSet.mem_insert_self
        · exact Or.inr (List.mem_append_right _ hy)

/-- Whether the target is ahead is the same before and after a turn. A component that has been seen
    before is passed over without loss: what could be got to from there is seen or pending
    already. -/
theorem Closed.leads_iff (hs : s.Closed a target) (h : turn a target s = .goesOn next) :
    next.Leads a target ↔ s.Leads a target := by
  have hnext := hs.goesOn h
  -- What has been seen is left out, and it leads to the target only through what is still pending.
  rcases cases_of_goesOn h with ⟨id, rest, hpending, hne, ⟨hseen, rfl⟩ | ⟨_, rfl⟩⟩
  · constructor
    · rintro ⟨x, hx, hreach⟩
      exact ⟨x, hpending ▸ List.mem_cons_of_mem id hx, hreach⟩
    · rintro ⟨x, hx, hreach⟩
      rcases List.mem_cons.mp (hpending ▸ hx) with rfl | hx
      · exact hnext.leads_of_seen hseen hreach
      · exact ⟨x, hx, hreach⟩
  · constructor
    · rintro ⟨x, hx, hreach⟩
      rcases List.mem_append.mp hx with hx | hx
      · exact ⟨id, hpending ▸ List.mem_cons_self, ReflTransGen.head (List.mem_reverse.mp hx) hreach⟩
      · exact ⟨x, hpending ▸ List.mem_cons_of_mem id hx, hreach⟩
    · rintro ⟨x, hx, hreach⟩
      rcases List.mem_cons.mp (hpending ▸ hx) with rfl | hx
      · exact hnext.leads_of_seen Std.TreeSet.mem_insert_self hreach
      · exact ⟨x, List.mem_append_right _ hx, hreach⟩

/-! ## Whole searches -/

theorem finds_of_ends {found : Bool} (h : turn a target s = .ends found) :
    finds a target s = found := by
  rw [finds]
  split
  · next other hother => exact Turn.ends.inj (hother.symm.trans h)
  · next hother =>
      exact absurd (hother.symm.trans h) (by simp only [reduceCtorEq, not_false_eq_true])

theorem finds_of_goesOn (h : turn a target s = .goesOn next) :
    finds a target s = finds a target next := by
  rw [finds]
  split
  · next hother =>
      exact absurd (hother.symm.trans h) (by simp only [reduceCtorEq, not_false_eq_true])
  · next other hother => rw [Turn.goesOn.inj (hother.symm.trans h)]

/-- A search that has missed nothing so far finds the target exactly if it is ahead. -/
theorem Closed.finds_iff (hs : s.Closed a target) :
    finds a target s = true ↔ s.Leads a target := by
  induction s using Search.finds.induct a target with
  | case1 s found hturn => rw [finds_of_ends hturn, ends_iff_leads hturn]
  | case2 s next hturn ih => rw [finds_of_goesOn hturn, ih (hs.goesOn hturn), hs.leads_iff hturn]

/-- The answer of a search that is over within so many turns. A search that is not over gives none,
    so that an answer also says how long it took. -/
def answer? (a : Assembly) (target : ComponentId) : Nat → Search → Option Bool
  | 0, _ => none
  | turns + 1, s =>
    match turn a target s with
    | .ends found => some found
    | .goesOn next => answer? a target turns next

/-- The turns that are left to a search are enough, with one more to end it. What is left is counted
    by what is pending and by the links of what has not been seen, and every turn uses up one of
    them. -/
theorem answer?_eq_finds {turns : Nat} (h : s.turnsLeft a < turns) :
    answer? a target turns s = some (finds a target s) := by
  induction turns generalizing s with
  | zero => exact absurd h (Nat.not_lt_zero _)
  | succ turns ih =>
      cases hturn : turn a target s with
      | ends found => simp only [answer?, hturn, finds_of_ends hturn]
      | goesOn next =>
          have hleft := turnsLeft_lt hturn
          simp only [answer?, hturn, finds_of_goesOn hturn]
          exact ih (by omega)

end Search

namespace Assembly

/-- The search for a component decides whether it can be reached, on any table. -/
theorem dependsOn_iff (a : Assembly) (id target : ComponentId) :
    a.dependsOn id target = true ↔ a.Reaches id target := by
  have hclosed : Search.Closed a target { pending := [id] } := fun x hx =>
    absurd hx Std.TreeSet.not_mem_emptyc
  rw [dependsOn, hclosed.finds_iff]
  constructor
  · rintro ⟨x, hx, hreach⟩
    rwa [← List.mem_singleton.mp hx]
  · exact fun hreach => ⟨id, List.mem_singleton.mpr rfl, hreach⟩

/-- A component lists another: as a child, or among the operands of one of its compositions. The
    other one need not be there. -/
inductive Names (a : Assembly) (id other : ComponentId) : Prop
  | child (c : Component) (hid : a.get? id = some c) (hother : other ∈ c.children)
  | operand (c : Component) (composition : Composition) (hid : a.get? id = some c)
      (hin : composition ∈ c.compositions) (hother : other ∈ composition.operands)

/-- What a component is made of is what it lists. -/
theorem uses_iff_names {a : Assembly} {id other : ComponentId} :
    a.Uses id other ↔ a.Names id other := by
  cases h : a.get? id with
  | none =>
      rw [Uses, uses, h]
      refine ⟨fun hmem => absurd hmem List.not_mem_nil, fun hnames => ?_⟩
      cases hnames with
      | child c hid =>
          exact absurd (h.symm.trans hid) (by simp only [reduceCtorEq, not_false_eq_true])
      | operand c _ hid =>
          exact absurd (h.symm.trans hid) (by simp only [reduceCtorEq, not_false_eq_true])
  | some c =>
      rw [Uses, uses_of_get? h, Component.uses, List.mem_append, Component.composed,
        List.mem_flatMap]
      constructor
      · rintro (hchild | ⟨composition, hin, hother⟩)
        · exact .child c h hchild
        · exact .operand c composition h hin hother
      · rintro (⟨d, hid, hother⟩ | ⟨d, composition, hid, hin, hother⟩) <;>
          obtain rfl : c = d := Option.some.inj (h.symm.trans hid)
        · exact Or.inl hother
        · exact Or.inr ⟨composition, hin, hother⟩

/-- The links of an assembly: what each of its components is made of. A link is counted as often as
    it is listed. -/
def allLinks (a : Assembly) : List ComponentId := a.ids.flatMap a.uses

/-- In the beginning all links are left. -/
theorem allLinksLeft_empty (a : Assembly) : a.allLinksLeft ∅ = a.allLinks := by
  have hleft : a.linksLeft ∅ = a.uses := funext fun _ => if_neg Std.TreeSet.not_mem_emptyc
  rw [allLinksLeft, hleft, allLinks]

/-- On any table of components the search is over after no more turns than there are links, and two.
    It then tells whether the target is where it began or can be got to from there, and so does
    `dependsOn`, which sets no such limit.

    Nothing is asked of the table. It may have circles, components that are named many times, and
    links to what is not there. The links are counted with repetition, and the path on the
    right-hand side may go through children and operands in any order. -/
theorem dependsOn_decides (a : Assembly) (id target : ComponentId) :
    Search.answer? a target (a.allLinks.length + 2) { pending := [id] } =
        some (a.dependsOn id target) ∧
      (a.dependsOn id target = true ↔ target = id ∨ TransGen a.Names id target) := by
  have hnames : a.Uses = a.Names := funext₂ fun _ _ => propext uses_iff_names
  constructor
  · refine Search.answer?_eq_finds ?_
    rw [Search.turnsLeft, allLinksLeft_empty, List.length_singleton]
    omega
  · rw [dependsOn_iff, Reaches, reflTransGen_iff_eq_or_transGen, hnames]

-- Two components in a circle, one of which has an operand that nothing is known of: three links.
example : Search.answer? ⟨#[{ children := [⟨2⟩] }, { compositions := [⟨.union, [⟨1⟩, ⟨7⟩]⟩] }]⟩
    ⟨3⟩ 5 { pending := [⟨1⟩] } = some false := by decide

end Assembly

end SolidModel
