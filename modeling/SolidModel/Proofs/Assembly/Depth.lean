import SolidModel.Assembly.Body
import SolidModel.Assembly.Equality
import SolidModel.Proofs.Assembly.Preservation
import SolidModel.Proofs.Pairing

/-!
# Depth Is No Limit

What is computed with a depth is what would be computed without one.

Bodies, structural equality, copies and the walk along parents are recursions along links, and
each of them carries a depth that it cannot exceed. On a well-formed assembly every walk along
links is over before the depth that is given at the start is used up, so that more depth changes
nothing. It follows that the functions satisfy the equations of the recursion without any depth:
the body of a component is made from the bodies of its parts, and its history goes on with the
history of its parent.

To say this once for all parts of a computation, one step of each recursion is a function of its
own. It takes what is known of the parts, and it looks only at the parts that the component uses.

## Main definitions

* `Assembly.bodyFrom`: One step of the computation of a body.
* `Assembly.equalFrom`: One step of a structural comparison.

## Theorems

* `Assembly.bodyFrom_congr`, `Assembly.equalFrom_congr`: A step looks at nothing but parts.
* `Assembly.bodyWithin_eq`, `Assembly.structurallyEqualWithin_eq`, `Edit.copyWithin_eq`,
  `Assembly.chain_eq`: More depth changes nothing.
* `Assembly.body_eq`, `Assembly.structurallyEqual_eq`, `Assembly.history_eq`: The recursions
  without depth.
-/

namespace SolidModel

open Relation

section Lists

variable {α β γ : Type}

theorem mapM_congr_of_mem {m : Type → Type} [Monad m] [LawfulMonad m] {f g : α → m β} {l : List α}
    (h : ∀ x ∈ l, f x = g x) : l.mapM f = l.mapM g := by
  induction l with
  | nil => rw [List.mapM_nil, List.mapM_nil]
  | cons x rest ih =>
      rw [List.mapM_cons, List.mapM_cons, h x List.mem_cons_self,
        ih fun y hy => h y (List.mem_cons_of_mem _ hy)]

theorem foldlM_congr_of_mem {m : Type → Type} [Monad m] [LawfulMonad m] {f g : γ → α → m γ}
    {l : List α} (h : ∀ soFar, ∀ x ∈ l, f soFar x = g soFar x) (start : γ) :
    l.foldlM f start = l.foldlM g start := by
  induction l generalizing start with
  | nil => rfl
  | cons x rest ih =>
      rw [List.foldlM_cons, List.foldlM_cons, h start x List.mem_cons_self]
      exact bind_congr fun soFar =>
        ih (fun soFar y hy => h soFar y (List.mem_cons_of_mem _ hy)) soFar

end Lists

namespace Component

theorem mem_uses_of_mem_uncomposed {c : Component} {id : ComponentId} (h : id ∈ c.uncomposed) :
    id ∈ c.uses :=
  List.mem_append_left _ (List.mem_of_mem_filter h)

theorem mem_uses_of_mem_operands {c : Component} {composition : Composition} {id : ComponentId}
    (hc : composition ∈ c.compositions) (h : id ∈ composition.operands) : id ∈ c.uses :=
  List.mem_append_right _ (mem_composed.mpr ⟨composition, hc, h⟩)

end Component

namespace Assembly

variable {a : Assembly}

/-- The body of a component, made from what is known of the bodies of its parts. -/
def bodyFrom (a : Assembly) (part : ComponentId → Except AssemblyError Body) (id : ComponentId)
    (c : Component) : Except AssemblyError Body := do
  let own := c.shape.map fun shape => a.place id (.primitive shape.primitive)
  let children ← c.uncomposed.mapM part
  let composed ← c.compositions.foldlM (fun soFar composition => do
    let operands ← composition.operands.mapM part
    pure (some (enclose composition.operator soFar operands))) (base own children)
  match composed with
  | none => .error (.noBody id)
  | some body => .ok (body.paint c.color)

theorem bodyWithin_succ (a : Assembly) (depth : Nat) (id : ComponentId) :
    a.bodyWithin (depth + 1) id = a.find id >>= a.bodyFrom (a.bodyWithin depth) id := rfl

/-- Only the bodies of parts enter into a body. -/
theorem bodyFrom_congr {part part' : ComponentId → Except AssemblyError Body} {id : ComponentId}
    {c : Component} (h : ∀ y ∈ c.uses, part y = part' y) :
    a.bodyFrom part id c = a.bodyFrom part' id c := by
  unfold bodyFrom
  rw [mapM_congr_of_mem fun y hy => h y (Component.mem_uses_of_mem_uncomposed hy)]
  refine bind_congr fun children => ?_
  rw [foldlM_congr_of_mem fun soFar composition hc => ?_]
  rw [mapM_congr_of_mem fun y hy => h y (Component.mem_uses_of_mem_operands hc hy)]

/-- A body that is found down to a depth beyond which nothing goes is the body at any depth. -/
theorem bodyWithin_eq_of_endsWithin {depth depth' : Nat} {id : ComponentId}
    (hle : depth ≤ depth') (h : EndsWithin a.uses depth id) :
    a.bodyWithin depth' id = a.bodyWithin depth id := by
  refine EndsWithin.recursion_eq (fun depth depth' id hpart => ?_) hle h
  rw [bodyWithin_succ, bodyWithin_succ]
  cases hfind : a.find id with
  | error e => rfl
  | ok c =>
      rw [uses_of_get? (find_eq_ok_iff.mp hfind)] at hpart
      exact bodyFrom_congr hpart

/-- The comparison of two components, made from what is known of their parts: shapes, histories,
    children and compositions are compared, and colors are not. Nobody asks whether the children of
    the one are used in its compositions as those of the other are. -/
def equalFrom (a : Assembly) (equal : ComponentId → ComponentId → Bool) (x y : ComponentId)
    (left right : Component) : Bool :=
  sameOption Shape.same left.shape right.shape
    && Transformation.isCloseList (a.history x) (a.history y)
    && pairsOff equal left.children right.children
    && pairsOff (fun p q => p.operator == q.operator && pairsOff equal p.operands q.operands)
      left.compositions right.compositions

theorem structurallyEqualWithin_succ (a : Assembly) (depth : Nat) (x y : ComponentId) :
    a.structurallyEqualWithin (depth + 1) x y =
      if x = y then a.contains x
      else
        match a.get? x, a.get? y with
        | some left, some right => a.equalFrom (a.structurallyEqualWithin depth) x y left right
        | _, _ => false := rfl

/-- Only comparisons of parts enter into a comparison. -/
theorem equalFrom_congr {equal equal' : ComponentId → ComponentId → Bool} {x y : ComponentId}
    {left right : Component} (h : ∀ v ∈ left.uses, ∀ w ∈ right.uses, equal v w = equal' v w) :
    a.equalFrom equal x y left right = a.equalFrom equal' x y left right := by
  unfold equalFrom
  have hchildren : pairsOff equal left.children right.children =
      pairsOff equal' left.children right.children :=
    pairsOff_congr fun v hv w hw => h v (List.mem_append_left _ hv) w (List.mem_append_left _ hw)
  rw [hchildren]
  congr 1
  refine pairsOff_congr fun p hp q hq => ?_
  rw [pairsOff_congr fun v hv w hw => h v (Component.mem_uses_of_mem_operands hp hv) w
    (Component.mem_uses_of_mem_operands hq hw)]

/-- A comparison goes no deeper than its first component does. -/
theorem structurallyEqualWithin_eq_of_endsWithin {depth depth' : Nat} {x : ComponentId}
    (y : ComponentId) (hle : depth ≤ depth') (h : EndsWithin a.uses depth x) :
    a.structurallyEqualWithin depth' x y = a.structurallyEqualWithin depth x y := by
  refine congrFun (EndsWithin.recursion_eq (fun depth depth' x hpart => ?_) hle h) y
  -- The second components differ from step to step, so that it is functions of them that agree.
  funext y
  rw [structurallyEqualWithin_succ, structurallyEqualWithin_succ]
  split
  · rfl
  · split
    · next left right hx hy =>
        rw [uses_of_get? hx] at hpart
        exact equalFrom_congr fun v hv w _ => congrFun (hpart v hv) w
    · rfl

/-- A chain of parents that is over in time is not cut off. -/
theorem chain_eq_of_endsWithin {bound : Nat} : ∀ {bound' : Nat} {id : ComponentId},
    bound ≤ bound' → EndsWithin (fun id => (a.parent? id).toList) (bound + 1) id →
    a.chain bound' (a.parent? id) = a.chain bound (a.parent? id) := by
  -- Both bounds are counted down together, and the parents end before the smaller one does.
  induction bound with
  | zero =>
      intro bound' id _ h
      cases hp : a.parent? id with
      | none => cases bound' <;> rfl
      | some parent => exact (h parent (Option.mem_toList.mpr hp)).elim
  | succ bound ih =>
      intro bound' id hle h
      cases bound' with
      | zero => exact absurd hle (Nat.not_succ_le_zero bound)
      | succ bound' =>
          cases hp : a.parent? id with
          | none => rfl
          | some parent =>
              rw [chain, chain,
                ih (Nat.le_of_succ_le_succ hle) (h parent (Option.mem_toList.mpr hp))]

namespace WellFormed

/-- More depth than an assembly is long makes no difference to a body. In a well-formed assembly no
    walk down links is longer than that, since it meets no component twice. -/
theorem bodyWithin_eq (h : a.WellFormed) {depth : Nat} (hdepth : a.size < depth)
    (id : ComponentId) : a.bodyWithin depth id = a.body id :=
  bodyWithin_eq_of_endsWithin hdepth (h.usesEnd id)

/-- More depth makes no difference to a comparison either. It goes down both components at once, and
    is over when one of the two walks is. -/
theorem structurallyEqualWithin_eq (h : a.WellFormed) {depth : Nat} (hdepth : a.size < depth)
    (x y : ComponentId) : a.structurallyEqualWithin depth x y = a.structurallyEqual x y :=
  structurallyEqualWithin_eq_of_endsWithin y hdepth (h.usesEnd x)

/-- More steps than there are components make no difference to a walk along parents. -/
theorem chain_eq (h : a.WellFormed) {bound : Nat} (hbound : a.size ≤ bound) (id : ComponentId) :
    a.chain bound (a.parent? id) = a.ancestors id :=
  chain_eq_of_endsWithin hbound (h.parentsEnd id)

/-- More depth makes no difference to a copy, which succeeds if there is something to be copied. The
    assembly grows while the copy is made, but the sources are all there from the beginning. -/
theorem copyWithin_eq (h : a.WellFormed) {depth : Nat} (hdepth : a.size < depth)
    (id : ComponentId) (isolated : Bool) :
    Edit.copyWithin depth id isolated a = Edit.copy id isolated a := by
  by_cases hid : a.contains id = true
  · rcases Edit.copy_yields h hid isolated with ⟨_, hyields, _⟩
    exact Edit.copyWithin_agrees hdepth id isolated a _ hyields.result
  · rw [Edit.copy, Edit.copyWithin_unknown hid, Edit.copyWithin_unknown hid]

/-- The body of a component is made from the bodies of its parts. This is the recursion as it is
    meant, without a depth, and what is said about bodies starts from here. -/
theorem body_eq (h : a.WellFormed) (id : ComponentId) :
    a.body id = a.find id >>= a.bodyFrom a.body id := by
  rw [← h.bodyWithin_eq (Nat.lt_succ_of_lt (Nat.lt_succ_self _)), bodyWithin_succ]
  rfl

/-- The comparison of two different components is made from those of their parts. -/
theorem structurallyEqual_eq (h : a.WellFormed) {x y : ComponentId} {left right : Component}
    (hne : x ≠ y) (hx : a.get? x = some left) (hy : a.get? y = some right) :
    a.structurallyEqual x y = a.equalFrom a.structurallyEqual x y left right := by
  rw [← h.structurallyEqualWithin_eq (Nat.lt_succ_of_lt (Nat.lt_succ_self _)),
    structurallyEqualWithin_succ, if_neg hne]
  simp only [hx, hy]
  rfl

/-- The ancestors of a component are its parent and the ancestors of that. -/
theorem ancestors_eq (h : a.WellFormed) (id : ComponentId) :
    a.ancestors id = (a.parent? id).elim [] fun parent => parent :: a.ancestors parent := by
  rw [← h.chain_eq (Nat.le_succ a.size)]
  cases a.parent? id <;> rfl

/-- The history of a component goes on with that of its parent: first what the component has been
    through, then what all of its ancestors have, nearest first. -/
theorem history_eq (h : a.WellFormed) (id : ComponentId) :
    a.history id = a.direct id ++ (a.parent? id).elim [] a.history := by
  rw [history, List.flatMap_cons, h.ancestors_eq]
  cases a.parent? id <;> rfl

end WellFormed

end Assembly

end SolidModel
