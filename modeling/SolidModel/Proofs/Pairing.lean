import Mathlib.Data.Multiset.ZeroCons
import SolidModel.Assembly.Equality

/-!
# Pairings

What it means that two lists pair off.

To pair off is to go through one list and to take for every element the first one that is left of
the other list and equals it. That is a way to go about it, and the order of the lists is part of
the way. If it succeeds, the elements have been put into pairs of equals, and this is a statement
about multisets: `Multiset.Rel`.

The converse takes more. There may be a way to put all elements into pairs, and yet the first equal
that is left is the only one that somebody else could have been paired with. It cannot happen where
elements that have an equal in common have all their equals in common. Then it makes no difference
which of them is taken. If the elements are in pairs and that is not so, there is an order of the
two lists in which they do not pair off.

A comparison that is symmetric and transitive leaves nothing else to happen. Nothing more is needed
than that, not even that elements equal themselves, and it is needed of the elements of the lists
only.

## Main definitions

* `SharesEquals`: Elements with an equal in common have all their equals in common.
* `EqualAmong`: Two values are of a kind and equal.
* `PartialEquivalenceOn`: A comparison is symmetric and transitive among values of a kind.

## Theorems

* `pairsOff_congr`, `pairsOff_of_forall₂`: Pairing off, element by element.
* `rel_of_pairsOff`: What pairs off is in pairs.
* `rel_of_rel_cons`: One pair may be taken away from others.
* `SharesEquals.pairsOff_iff`: What is in pairs pairs off if equals are shared.
* `pairsOff_of_orders_iff`: When lists pair off in all orders.
* `PartialEquivalenceOn.pairsOff_iff`: What is in pairs pairs off.
* `PartialEquivalenceOn.pairsOff`: Pairing off is symmetric and transitive if the comparison is.
-/

namespace SolidModel

section Lists

variable {α β : Type}

theorem removeFirst?_congr {test test' : α → Bool} {l : List α} (h : ∀ x ∈ l, test x = test' x) :
    removeFirst? test l = removeFirst? test' l := by
  induction l with
  | nil => rfl
  | cons x rest ih =>
      rw [removeFirst?, removeFirst?, h x List.mem_cons_self,
        ih fun y hy => h y (List.mem_cons_of_mem _ hy)]

/-- What is removed is an element that passes the test. -/
theorem exists_of_removeFirst? {test : α → Bool} {l others : List α}
    (h : removeFirst? test l = some others) : ∃ x, test x = true ∧ l.Perm (x :: others) := by
  induction l generalizing others with
  | nil => exact absurd h (by simp only [removeFirst?, reduceCtorEq, not_false_eq_true])
  | cons y rest ih =>
      rw [removeFirst?] at h
      split at h
      · next hy =>
          rw [Option.some.inj h]
          exact ⟨y, hy, List.Perm.refl _⟩
      · rcases Option.map_eq_some_iff.mp h with ⟨others', ho, rfl⟩
        rcases ih ho with ⟨x, hx, hperm⟩
        exact ⟨x, hx, (hperm.cons y).trans (List.Perm.swap x y others')⟩

/-- If something passes the test, something is removed. -/
theorem removeFirst?_of_mem {test : α → Bool} {l : List α} {x : α} (hx : x ∈ l)
    (htest : test x = true) : ∃ others, removeFirst? test l = some others := by
  induction l with
  | nil => exact absurd hx List.not_mem_nil
  | cons y rest ih =>
      rw [removeFirst?]
      split
      · exact ⟨rest, rfl⟩
      · next hy =>
          rcases List.mem_cons.mp hx with rfl | hx
          · exact absurd htest hy
          · rcases ih hx with ⟨others, ho⟩
            exact ⟨y :: others, by rw [ho, Option.map_some]⟩

/-- To pair off two lists is to compare elements of the one with elements of the other. -/
theorem pairsOff_congr {equal equal' : α → β → Bool} {left : List α} {right : List β}
    (h : ∀ x ∈ left, ∀ y ∈ right, equal x y = equal' x y) :
    pairsOff equal left right = pairsOff equal' left right := by
  rw [pairsOff_eq, pairsOff_eq]
  induction left generalizing right with
  | nil => rfl
  | cons x rest ih =>
      rw [pairsUp, pairsUp, removeFirst?_congr (h x List.mem_cons_self)]
      cases hothers : removeFirst? (equal' x) right with
      | none => rfl
      | some others =>
          rcases exists_of_removeFirst? hothers with ⟨_, _, hperm⟩
          exact ih fun z hz y hy => h z (List.mem_cons_of_mem _ hz) y
            (hperm.symm.subset (List.mem_cons_of_mem _ hy))

/-- Elements that are equal in order take each other. -/
theorem pairsUp_append {equal : α → β → Bool} {l left : List α} {m right : List β}
    (h : List.Forall₂ (fun x y => equal x y = true) l m) :
    pairsUp equal (l ++ left) (m ++ right) = pairsUp equal left right := by
  induction h with
  | nil => rfl
  | cons hxy _ ih =>
      rw [List.cons_append, List.cons_append, pairsUp, removeFirst?, if_pos hxy]
      exact ih

/-- Lists whose elements are equal in order pair off. -/
theorem pairsOff_of_forall₂ {equal : α → β → Bool} {left : List α} {right : List β}
    (h : List.Forall₂ (fun x y => equal x y = true) left right) :
    pairsOff equal left right = true := by
  have happend : pairsUp equal (left ++ []) (right ++ []) = pairsUp equal [] [] := pairsUp_append h
  rw [List.append_nil, List.append_nil] at happend
  rw [pairsOff_eq, happend]
  rfl

/-- The last two elements are equal if all others take each other and the lists pair off. -/
theorem equal_of_pairsOff_concat {equal : α → β → Bool} {l : List α} {m : List β} {x : α} {y : β}
    (h : List.Forall₂ (fun x y => equal x y = true) l m)
    (hpairs : pairsOff equal (l ++ [x]) (m ++ [y]) = true) : equal x y = true := by
  rw [pairsOff_eq, pairsUp_append h, pairsUp, removeFirst?] at hpairs
  by_contra hxy
  rw [if_neg hxy] at hpairs
  exact absurd hpairs Bool.false_ne_true

/-- If lists pair off, their elements are in pairs of equals. The search takes the first equal that
    is left for each element in turn, and what it has taken are the pairs. -/
theorem rel_of_pairsOff {equal : α → β → Bool} {left : List α} {right : List β}
    (h : pairsOff equal left right = true) :
    Multiset.Rel (fun x y => equal x y = true) (left : Multiset α) (right : Multiset β) := by
  rw [pairsOff_eq] at h
  induction left generalizing right with
  | nil =>
      rw [pairsUp, List.isEmpty_iff] at h
      rw [h]
      exact Multiset.Rel.zero
  | cons x rest ih =>
      rw [pairsUp] at h
      split at h
      · exact absurd h Bool.false_ne_true
      · next others ho =>
          rcases exists_of_removeFirst? ho with ⟨y, hxy, hperm⟩
          rw [Multiset.coe_eq_coe.mpr hperm, ← Multiset.cons_coe, ← Multiset.cons_coe]
          exact Multiset.Rel.cons hxy (ih h)

end Lists

/-- Of elements in pairs one pair may be taken away, although its elements may have been paired with
    others. Those can be paired with each other if whoever is related to one element of the pair is
    related to all that the other one is. -/
theorem rel_of_rel_cons {α β : Type} {r : α → β → Prop} {x : α} {y : β} {s : Multiset α}
    {t : Multiset β} (hshares : ∀ x' ∈ s, ∀ y' ∈ t, r x y' → r x' y → r x' y')
    (h : Multiset.Rel r (x ::ₘ s) (y ::ₘ t)) : Multiset.Rel r s t := by
  rcases Multiset.rel_cons_left.mp h with ⟨y', t', hxy', hst', heq⟩
  rcases Multiset.cons_eq_cons.mp heq with ⟨_, rfl⟩ | ⟨_, rest, rfl, rfl⟩
  · exact hst'
  · -- `x` was paired with `y'` and `x'` with `y`, so `x'` goes with `y'`.
    rcases Multiset.rel_cons_right.mp hst' with ⟨x', s', hx'y, hs', rfl⟩
    have hx'y' : r x' y' := hshares x' (Multiset.mem_cons_self x' s') y'
      (Multiset.mem_cons_self y' rest) hxy' hx'y
    exact Multiset.Rel.cons hx'y' hs'

/-- Elements in pairs can be listed so that the pairs are in order. -/
theorem exists_forall₂_of_rel {α β : Type} {r : α → β → Prop} {s : Multiset α} {t : Multiset β}
    (h : Multiset.Rel r s t) : ∃ (l : List α) (m : List β), (l : Multiset α) = s ∧
      (m : Multiset β) = t ∧ List.Forall₂ r l m := by
  induction h with
  | zero => exact ⟨[], [], rfl, rfl, List.Forall₂.nil⟩
  | @cons x y _ _ hxy _ ih =>
      rcases ih with ⟨l, m, rfl, rfl, hlm⟩
      exact ⟨x :: l, y :: m, rfl, rfl, List.Forall₂.cons hxy hlm⟩

/-- Two different elements of a list may come first. -/
theorem exists_perm_cons_cons {α : Type} {l : List α} {x x' : α} (hx : x ∈ l) (hx' : x' ∈ l)
    (hne : x' ≠ x) : ∃ rest, l.Perm (x :: x' :: rest) := by
  rcases List.append_of_mem hx with ⟨s, t, rfl⟩
  have hmem : x' ∈ s ++ t := by
    rcases List.mem_append.mp hx' with hs | ht
    · exact List.mem_append_left t hs
    · exact List.mem_append_right s ((List.mem_cons.mp ht).resolve_left hne)
  rcases List.append_of_mem hmem with ⟨u, v, huv⟩
  refine ⟨u ++ v, List.perm_middle.trans ?_⟩
  rw [huv]
  exact List.perm_middle.cons x

/-- Two elements on the left that have an equal on the right in common have all of them in common.
    Where the comparison is an equivalence this is always so. -/
def SharesEquals {α β : Type} (equal : α → β → Bool) (left : List α) (right : List β) : Prop :=
  ∀ x ∈ left, ∀ x' ∈ left, ∀ y ∈ right, ∀ y' ∈ right,
    equal x y = true → equal x y' = true → equal x' y = true → equal x' y' = true

instance {α β : Type} (equal : α → β → Bool) (left : List α) (right : List β) :
    Decidable (SharesEquals equal left right) :=
  inferInstanceAs (Decidable (∀ x ∈ left, ∀ x' ∈ left, ∀ y ∈ right, ∀ y' ∈ right,
    equal x y = true → equal x y' = true → equal x' y = true → equal x' y' = true))

namespace SharesEquals

variable {α β : Type} {equal : α → β → Bool} {left left' : List α} {right right' : List β}

theorem of_subset (h : SharesEquals equal left right) (hleft : left' ⊆ left)
    (hright : right' ⊆ right) : SharesEquals equal left' right' :=
  fun x hx x' hx' y hy y' hy' => h x (hleft hx) x' (hleft hx') y (hright hy) y' (hright hy')

/-- If the elements of two lists are in pairs of equals, the lists pair off. -/
theorem pairsOff_of_rel (h : SharesEquals equal left right)
    (hrel : Multiset.Rel (fun x y => equal x y = true) (left : Multiset α) (right : Multiset β)) :
    pairsOff equal left right = true := by
  rw [pairsOff_eq]
  induction left generalizing right with
  | nil =>
      have hnil : (right : Multiset β) = 0 := Multiset.rel_zero_left.mp hrel
      rw [(Multiset.coe_eq_zero right).mp hnil]
      rfl
  | cons x rest ih =>
      rw [← Multiset.cons_coe] at hrel
      rcases Multiset.exists_mem_of_rel_of_mem hrel (Multiset.mem_cons_self x _) with
        ⟨y, hy, hxy⟩
      rcases removeFirst?_of_mem (Multiset.mem_coe.mp hy) hxy with ⟨others, ho⟩
      rcases exists_of_removeFirst? ho with ⟨first, hfirst, hperm⟩
      have hsub : first :: others ⊆ right := hperm.symm.subset
      rw [List.cons_subset] at hsub
      rw [Multiset.coe_eq_coe.mpr hperm, ← Multiset.cons_coe] at hrel
      rw [pairsUp, ho]
      -- The first equal that is found need not be the one that was paired with `x`.
      refine ih (h.of_subset (List.subset_cons_self x rest) hsub.2) (rel_of_rel_cons ?_ hrel)
      intro x' hx' y' hy'
      exact h x List.mem_cons_self x' (List.mem_cons_of_mem x hx') first hsub.1 y'
        (hsub.2 hy') hfirst

/-- Lists pair off exactly if their elements are in pairs of equals. -/
theorem pairsOff_iff (h : SharesEquals equal left right) : pairsOff equal left right = true ↔
    Multiset.Rel (fun x y => equal x y = true) (left : Multiset α) (right : Multiset β) :=
  ⟨rel_of_pairsOff, h.pairsOff_of_rel⟩

/-- The order of the lists makes no difference. -/
theorem pairsOff_of_perm (h : SharesEquals equal left right) (hleft : left'.Perm left)
    (hright : right'.Perm right) : pairsOff equal left' right' = pairsOff equal left right := by
  rw [Bool.eq_iff_iff, (h.of_subset hleft.subset hright.subset).pairsOff_iff, h.pairsOff_iff,
    Multiset.coe_eq_coe.mpr hleft, Multiset.coe_eq_coe.mpr hright]

end SharesEquals

section Orders

variable {α β : Type} {equal : α → β → Bool} {left : List α} {right : List β}

/-- If lists pair off in all orders, an equal in common makes all equals common. The two elements
    that have it are played against each other: whoever takes it, all others have to find
    somebody. -/
theorem equal_of_orders {x x' : α} {y y' : β} {s : List α} {t : List β}
    (hall : ∀ left' right', left'.Perm (x :: x' :: s) → right'.Perm (y :: y' :: t) →
      pairsOff equal left' right' = true)
    (hxy : equal x y = true) (hxy' : equal x y' = true) (hx'y : equal x' y = true) :
    equal x' y' = true := by
  have hfirst := hall _ _ (List.Perm.refl _) (List.Perm.refl _)
  rw [pairsOff_eq, pairsUp, removeFirst?, if_pos hxy] at hfirst
  have hrel := rel_of_pairsOff ((pairsOff_eq equal (x' :: s) (y' :: t)).trans hfirst)
  rw [← Multiset.cons_coe, ← Multiset.cons_coe] at hrel
  rcases Multiset.rel_cons_left.mp hrel with ⟨y₁, t₁, hx'y₁, hst₁, heq⟩
  rcases Multiset.cons_eq_cons.mp heq with ⟨rfl, _⟩ | ⟨_, rest, ht, rfl⟩
  · exact hx'y₁
  · rcases Multiset.rel_cons_right.mp hst₁ with ⟨x₁, s₁, hx₁y', hrest, hs⟩
    rcases exists_forall₂_of_rel hrest with ⟨l, m, rfl, rfl, hlm⟩
    rw [Multiset.cons_coe, Multiset.coe_eq_coe] at hs ht
    -- If `x` takes `y'` and `x'` takes `y`, then `x₁` is left with `y₁`.
    have hx₁y₁ : equal x₁ y₁ = true := by
      refine equal_of_pairsOff_concat (List.Forall₂.cons hxy' (List.Forall₂.cons hx'y hlm)) ?_
      refine hall _ _ (((?_ : (l ++ [x₁]).Perm s).cons x').cons x)
        ((((?_ : (m ++ [y₁]).Perm t).cons y).cons y').trans (List.Perm.swap y y' t))
      · exact (List.perm_append_singleton x₁ l).trans hs.symm
      · exact (List.perm_append_singleton y₁ m).trans ht.symm
    -- So if `x` takes `y` and `x₁` takes `y₁`, then `x'` is left with `y'`.
    refine equal_of_pairsOff_concat (List.Forall₂.cons hxy (List.Forall₂.cons hx₁y₁ hlm)) ?_
    refine hall _ _ (List.Perm.cons x ?_) (List.Perm.cons y ?_)
    · exact (List.perm_append_singleton x' (x₁ :: l)).trans (hs.symm.cons x')
    · exact (List.perm_append_singleton y' (y₁ :: m)).trans (ht.symm.cons y')

/-- Lists pair off in all orders exactly if their elements are in pairs of equals and an equal in
    common makes all equals common. If it does not, the elements can be put in such an order that
    the search takes for the first one what the second one would have needed. -/
theorem pairsOff_of_orders_iff :
    (∀ left' right', left'.Perm left → right'.Perm right → pairsOff equal left' right' = true) ↔
      Multiset.Rel (fun x y => equal x y = true) (left : Multiset α) (right : Multiset β) ∧
        SharesEquals equal left right := by
  constructor
  · intro hall
    refine ⟨rel_of_pairsOff (hall left right (List.Perm.refl left) (List.Perm.refl right)), ?_⟩
    intro x hx x' hx' y hy y' hy' hxy hxy' hx'y
    by_cases hleft : x' = x
    · rw [hleft]
      exact hxy'
    by_cases hright : y' = y
    · rw [hright]
      exact hx'y
    -- The elements in question are brought to the front, where they are the first to be tried.
    rcases exists_perm_cons_cons hx hx' hleft with ⟨s, hs⟩
    rcases exists_perm_cons_cons hy hy' hright with ⟨t, ht⟩
    have horders : ∀ left' right', left'.Perm (x :: x' :: s) → right'.Perm (y :: y' :: t) →
        pairsOff equal left' right' = true := fun left' right' hleft' hright' =>
      hall left' right' (hleft'.trans hs.symm) (hright'.trans ht.symm)
    exact equal_of_orders horders hxy hxy' hx'y
  · rintro ⟨hrel, hshares⟩ left' right' hleft hright
    rw [hshares.pairsOff_of_perm hleft hright]
    exact hshares.pairsOff_of_rel hrel

end Orders

/-- Two values are of a kind and equal. -/
def EqualAmong {α : Type} (kind : α → Prop) (equal : α → α → Bool) (x y : α) : Prop :=
  kind x ∧ kind y ∧ equal x y = true

/-- Among the values of a kind a comparison is symmetric and transitive. -/
structure PartialEquivalenceOn {α : Type} (kind : α → Prop) (equal : α → α → Bool) : Prop where
  /-- It does not matter which of two is compared with the other. -/
  symm : ∀ {x y}, kind x → kind y → equal x y = true → equal y x = true
  /-- What equals an equal is an equal. That anything equals itself is not said. -/
  trans : ∀ {x y z}, kind x → kind y → kind z → equal x y = true → equal y z = true →
    equal x z = true

namespace PartialEquivalenceOn

variable {α β : Type} {kind : α → Prop} {equal equal' : α → α → Bool}

/-- An equivalence of the values of a kind is one. -/
theorem of_equivalence (h : Equivalence fun x y : { x // kind x } => equal x y = true) :
    PartialEquivalenceOn kind equal where
  symm hx hy hxy := h.symm (x := ⟨_, hx⟩) (y := ⟨_, hy⟩) hxy
  trans hx hy hz hxy hyz := h.trans (x := ⟨_, hx⟩) (y := ⟨_, hy⟩) (z := ⟨_, hz⟩) hxy hyz

/-- What is compared may be a part of something else. -/
theorem comap {kind' : β → Prop} (h : PartialEquivalenceOn kind equal) (f : β → α)
    (hkind : ∀ x, kind' x → kind (f x)) :
    PartialEquivalenceOn kind' fun x y => equal (f x) (f y) where
  symm hx hy := h.symm (hkind _ hx) (hkind _ hy)
  trans hx hy hz := h.trans (hkind _ hx) (hkind _ hy) (hkind _ hz)

/-- Two comparisons may both be asked for. -/
theorem and (h : PartialEquivalenceOn kind equal) (h' : PartialEquivalenceOn kind equal') :
    PartialEquivalenceOn kind fun x y => equal x y && equal' x y where
  symm hx hy hxy := by
    rw [Bool.and_eq_true] at hxy ⊢
    exact ⟨h.symm hx hy hxy.1, h'.symm hx hy hxy.2⟩
  trans hx hy hz hxy hyz := by
    rw [Bool.and_eq_true] at hxy hyz ⊢
    exact ⟨h.trans hx hy hz hxy.1 hyz.1, h'.trans hx hy hz hxy.2 hyz.2⟩

theorem beq [BEq β] [LawfulBEq β] :
    PartialEquivalenceOn (fun _ : β => True) fun x y => x == y where
  symm _ _ hxy := by
    rw [beq_iff_eq] at hxy ⊢
    exact hxy.symm
  trans _ _ _ hxy hyz := by
    rw [beq_iff_eq] at hxy hyz ⊢
    exact hxy.trans hyz

theorem rel_symm (h : PartialEquivalenceOn kind equal) {x y : α} (hxy : EqualAmong kind equal x y) :
    EqualAmong kind equal y x :=
  ⟨hxy.2.1, hxy.1, h.symm hxy.1 hxy.2.1 hxy.2.2⟩

theorem rel_trans (h : PartialEquivalenceOn kind equal) {x y z : α}
    (hxy : EqualAmong kind equal x y) (hyz : EqualAmong kind equal y z) :
    EqualAmong kind equal x z :=
  ⟨hxy.1, hyz.2.1, h.trans hxy.1 hxy.2.1 hyz.2.1 hxy.2.2 hyz.2.2⟩

/-- If the elements of two lists are in pairs of equals, the lists pair off: all that are equal to
    something in common are equal. -/
theorem pairsOff_of_rel (h : PartialEquivalenceOn kind equal) {left right : List α}
    (hrel : Multiset.Rel (EqualAmong kind equal) (left : Multiset α) (right : Multiset α)) :
    SolidModel.pairsOff equal left right = true := by
  have hleft : ∀ x ∈ left, kind x := fun x hx =>
    (Multiset.exists_mem_of_rel_of_mem hrel (Multiset.mem_coe.mpr hx)).elim fun _ hy => hy.2.1
  have hright : ∀ y ∈ right, kind y := fun y hy =>
    (Multiset.exists_mem_of_rel_of_mem (Multiset.rel_flip.mpr hrel)
      (Multiset.mem_coe.mpr hy)).elim fun _ hx => hx.2.2.1
  have hshares : SharesEquals equal left right := by
    intro x hx x' hx' y hy y' hy' hxy hxy' hx'y
    have hyx := h.symm (hleft x hx) (hright y hy) hxy
    exact h.trans (hleft x' hx') (hright y hy) (hright y' hy') hx'y
      (h.trans (hright y hy) (hleft x hx) (hright y' hy') hyx hxy')
  exact hshares.pairsOff_of_rel (hrel.mono fun _ _ _ _ hpair => hpair.2.2)

/-- Lists pair off exactly if their elements are in pairs of equals. -/
theorem pairsOff_iff (h : PartialEquivalenceOn kind equal) {left right : List α}
    (hleft : ∀ x ∈ left, kind x) (hright : ∀ x ∈ right, kind x) :
    pairsOff equal left right = true ↔
      Multiset.Rel (EqualAmong kind equal) (left : Multiset α) (right : Multiset α) :=
  ⟨fun hpairs => (rel_of_pairsOff hpairs).mono fun x hx y hy hxy =>
    ⟨hleft x (Multiset.mem_coe.mp hx), hright y (Multiset.mem_coe.mp hy), hxy⟩, h.pairsOff_of_rel⟩

/-- Pairing off is symmetric and transitive if the comparison of the elements is. -/
theorem pairsOff (h : PartialEquivalenceOn kind equal) :
    PartialEquivalenceOn (fun l : List α => ∀ x ∈ l, kind x) (SolidModel.pairsOff equal) where
  symm hleft hright hpairs := by
    rw [h.pairsOff_iff hleft hright, ← Multiset.rel_flip] at hpairs
    exact h.pairsOff_of_rel (hpairs.mono fun _ _ _ _ hxy => h.rel_symm hxy)
  trans hleft hmiddle hright hpairs hpairs' := by
    rw [h.pairsOff_iff hleft hmiddle] at hpairs
    rw [h.pairsOff_iff hmiddle hright] at hpairs'
    have htrans : IsTrans α (EqualAmong kind equal) := ⟨fun _ _ _ => h.rel_trans⟩
    exact h.pairsOff_of_rel (hpairs.trans _ hpairs')

/-- Values that may be missing are compared if they are there. -/
theorem sameOption (h : PartialEquivalenceOn kind equal) :
    PartialEquivalenceOn (fun value : Option α => ∀ x ∈ value, kind x)
      (SolidModel.sameOption equal) where
  symm {v w} hv hw hvw := by
    cases v with
    | none =>
        cases w with
        | none => rfl
        | some y => exact absurd hvw Bool.false_ne_true
    | some x =>
        cases w with
        | none => exact absurd hvw Bool.false_ne_true
        | some y => exact h.symm (hv x rfl) (hw y rfl) hvw
  trans {u v w} hu hv hw huv hvw := by
    cases u with
    | none =>
        cases v with
        | none => exact hvw
        | some y => exact absurd huv Bool.false_ne_true
    | some x =>
        cases v with
        | none => exact absurd huv Bool.false_ne_true
        | some y =>
            cases w with
            | none => exact absurd hvw Bool.false_ne_true
            | some z => exact h.trans (hu x rfl) (hv y rfl) (hw z rfl) huv hvw

end PartialEquivalenceOn

end SolidModel
