import SolidModel.Proofs.Assembly.Depth

/-!
# Bodies of Components That Correspond

What a component and its counterpart have in common as bodies.

A body is computed from the bodies of the parts, in order, and the computation treats the parts of
two components that correspond in one way. So whatever relation there is between the bodies of
corresponding parts, there is between the bodies of the wholes, as long as it goes through
compositions and colors. Equality is such a relation, and so is equality up to placement.

That operands keep out of the list of uncomposed children is the one thing to be looked after. A
child is left out of the list because of its id. The counterpart of an operand that is no child
must therefore not be a child either.

## Main definitions

* `Except.Alike`: Two outcomes are failures, or results that are related.
* `Body.Compatible`: A relation of bodies that goes through compositions and colors.

## Theorems

* `Except.Alike.bind`, `Except.Alike.mapM`, `Except.Alike.foldlM`: What is made in one way of
  what is alike is alike.
* `Component.Mirrors.uncomposed`: Uncomposed children correspond in order.
* `Assembly.bodyFrom_alike`: So the bodies of components that correspond are alike.
-/

namespace SolidModel

open Relation

section Lists

variable {α β : Type} {l : List α} {l' : List β}

/-- An element that occurs once has one counterpart. -/
theorem right_unique_of_zip (h : l.Nodup) {x : α} {y y' : β} (hy : (x, y) ∈ l.zip l')
    (hy' : (x, y') ∈ l.zip l') : y = y' := by
  rcases List.mem_iff_getElem.mp hy with ⟨i, hi, heq⟩
  rcases List.mem_iff_getElem.mp hy' with ⟨j, hj, heq'⟩
  rw [List.getElem_zip, Prod.mk.injEq] at heq heq'
  have hij := (h.getElem_inj_iff).mp (heq.1.trans heq'.1.symm)
  subst hij
  exact heq.2.symm.trans heq'.2

theorem left_unique_of_zip (h : l'.Nodup) {x x' : α} {y : β} (hx : (x, y) ∈ l.zip l')
    (hx' : (x', y) ∈ l.zip l') : x = x' := by
  rcases List.mem_iff_getElem.mp hx with ⟨i, hi, heq⟩
  rcases List.mem_iff_getElem.mp hx' with ⟨j, hj, heq'⟩
  rw [List.getElem_zip, Prod.mk.injEq] at heq heq'
  have hij := (h.getElem_inj_iff).mp (heq.2.trans heq'.2.symm)
  subst hij
  exact heq.1.symm.trans heq'.1

end Lists

namespace Except

variable {ε ε' α β γ δ : Type}

/-- Two outcomes are both failures, or they are related results. -/
def Alike (r : α → β → Prop) : Except ε α → Except ε' β → Prop
  | .ok x, .ok y => r x y
  | .error _, .error _ => True
  | _, _ => False

namespace Alike

variable {r : α → β → Prop} {q : γ → δ → Prop}

theorem refl_eq (u : Except ε α) : Alike (· = ·) u u := by
  cases u with
  | ok x => exact rfl
  | error e => exact trivial

/-- Results that are related in one way may be related in another. -/
theorem imp {r' : α → β → Prop} {u : Except ε α} {v : Except ε' β} (h : Alike r u v)
    (himp : ∀ x y, r x y → r' x y) : Alike r' u v := by
  cases u with
  | ok x =>
      cases v with
      | ok y => exact himp x y h
      | error e => exact h.elim
  | error e =>
      cases v with
      | ok y => exact h.elim
      | error e' => exact trivial

theorem eq_ok {u : Except ε α} {v : Except ε' α} (h : Alike (· = ·) u v) {x : α}
    (hu : u = .ok x) : v = .ok x := by
  subst hu
  cases v with
  | ok y => exact congrArg Except.ok (Eq.symm h)
  | error e => exact h.elim

/-- A computation that goes on in one way after what is alike. -/
theorem bind {u : Except ε α} {v : Except ε' β} {f : α → Except ε γ} {g : β → Except ε' δ}
    (h : Alike r u v) (hnext : ∀ x y, r x y → Alike q (f x) (g y)) :
    Alike q (u >>= f) (v >>= g) := by
  cases u with
  | ok x =>
      cases v with
      | ok y => exact hnext x y h
      | error e => exact h.elim
  | error e =>
      cases v with
      | ok y => exact h.elim
      | error e' => exact trivial

theorem mapM {f : α → Except ε γ} {g : β → Except ε' δ} {l : List α} {l' : List β}
    (h : List.Forall₂ (fun x y => Alike q (f x) (g y)) l l') :
    Alike (List.Forall₂ q) (l.mapM f) (l'.mapM g) := by
  induction h with
  | nil =>
      rw [List.mapM_nil, List.mapM_nil]
      exact List.Forall₂.nil
  | cons hxy _ ih =>
      rw [List.mapM_cons, List.mapM_cons]
      exact hxy.bind fun x y hxy => ih.bind fun l l' hl => List.Forall₂.cons hxy hl

theorem foldlM {f : γ → α → Except ε γ} {g : δ → β → Except ε' δ} {l : List α} {l' : List β}
    (h : List.Forall₂ (fun x y => ∀ soFar soFar', q soFar soFar' → Alike q (f soFar x) (g soFar' y))
      l l') {start : γ} {start' : δ} (hstart : q start start') :
    Alike q (l.foldlM f start) (l'.foldlM g start') := by
  induction h generalizing start start' with
  | nil => exact hstart
  | cons hxy _ ih =>
      rw [List.foldlM_cons, List.foldlM_cons]
      exact (hxy start start' hstart).bind fun soFar soFar' hsoFar => ih hsoFar

end Alike

end Except

/-- A relation of bodies that goes through compositions and colors. -/
structure Body.Compatible (r : Body → Body → Prop) : Prop where
  /-- Operands that are related one by one make related compositions. -/
  composition : ∀ operator {operands operands' : List Body}, List.Forall₂ r operands operands' →
    r (.composition operator operands) (.composition operator operands')
  /-- One color on two related bodies makes related bodies. -/
  colored : ∀ color {child child' : Body}, r child child' →
    r (.colored color child) (.colored color child')

namespace Body

theorem compatible_eq : Compatible (· = ·) where
  composition operator operands operands' h := by
    rw [List.forall₂_eq_eq_eq] at h
    rw [h]
  colored color child child' h := by rw [h]

namespace Compatible

variable {r : Body → Body → Prop}

theorem paint (h : Compatible r) (color : Option Color) {body body' : Body} (hbody : r body body') :
    r (body.paint color) (body'.paint color) := by
  cases color with
  | none => exact hbody
  | some color => exact h.colored color hbody

theorem toList {soFar soFar' : Option Body} (h : Option.Rel r soFar soFar') :
    List.Forall₂ r soFar.toList soFar'.toList := by
  cases h with
  | some h => exact List.Forall₂.cons h List.Forall₂.nil
  | none => exact List.Forall₂.nil

theorem enclose (h : Compatible r) (operator : Operator) {soFar soFar' : Option Body}
    {operands operands' : List Body} (hsoFar : Option.Rel r soFar soFar')
    (hoperands : List.Forall₂ r operands operands') :
    r (Assembly.enclose operator soFar operands) (Assembly.enclose operator soFar' operands') :=
  h.composition operator (List.rel_append (toList hsoFar) hoperands)

theorem base (h : Compatible r) {own own' : Option Body} {children children' : List Body}
    (hown : Option.Rel r own own') (hchildren : List.Forall₂ r children children') :
    Option.Rel r (Assembly.base own children) (Assembly.base own' children') := by
  cases hchildren with
  | nil => exact hown
  | cons hchild hrest =>
      exact Option.Rel.some (h.composition _ (List.rel_append (toList hown) (.cons hchild hrest)))

end Compatible

end Body

namespace Component.Mirrors

variable {child foreign : ComponentId → ComponentId → Prop} {s c : Component}

/-- Uncomposed children correspond in order, if no child is the counterpart of something else. -/
theorem uncomposed (h : Component.Mirrors child foreign s c) (hs : s.children.Nodup)
    (hc : c.children.Nodup) (hforeign : ∀ x y, foreign x y → y ∉ c.children) :
    List.Forall₂ child s.uncomposed c.uncomposed := by
  rcases List.forall₂_iff_zip.mp h.children with ⟨hlength, hzip⟩
  have hplaces : List.Forall₂ (fun x y => child x y ∧ (x, y) ∈ s.children.zip c.children)
      s.children c.children :=
    List.forall₂_iff_zip.mpr ⟨hlength, fun hxy => ⟨hzip hxy, hxy⟩⟩
  -- A child is composed exactly if its counterpart is, for which nothing else can be taken.
  have hcomposed : ∀ x y, (x, y) ∈ s.children.zip c.children →
      (x ∈ s.composed ↔ y ∈ c.composed) := by
    intro x y hxy
    constructor
    · intro hx
      rcases h.exists_of_mem_composed hx with ⟨y', hy', hin | ⟨hnot, _⟩⟩
      · rw [right_unique_of_zip hs hxy hin]
        exact hy'
      · exact absurd (List.of_mem_zip hxy).1 hnot
    · intro hy
      rcases h.exists_of_mem_composed_right hy with ⟨x', hx', hin | ⟨_, hother⟩⟩
      · rw [left_unique_of_zip hc hxy hin]
        exact hx'
      · exact absurd (List.of_mem_zip hxy).2 (hforeign x' y hother)
  refine (List.rel_filter (fun x y hxy => ?_) hplaces).imp fun x y hxy => hxy.1
  simp only [decide_eq_true_eq, hcomposed x y hxy.2]

end Component.Mirrors

namespace Assembly

variable {a b : Assembly} {r : Body → Body → Prop}

/-- Components that correspond have bodies that are alike, if their parts do and their shapes are
    placed alike. An operand that is no child must not correspond to a child, or the uncomposed
    children would not correspond any more. What it is to be alike may be any relation that goes
    through compositions and colors. -/
theorem bodyFrom_alike (hr : Body.Compatible r) {x y : ComponentId} {s c : Component}
    {part part' : ComponentId → Except AssemblyError Body}
    (hplace : ∀ shape : Shape, r (a.place x (.primitive shape.primitive))
      (b.place y (.primitive shape.primitive)))
    (hs : s.children.Nodup) (hc : c.children.Nodup)
    {foreign : ComponentId → ComponentId → Prop} (hforeign : ∀ v w, foreign v w → w ∉ c.children)
    (hparts : Component.Mirrors (fun v w => Except.Alike r (part v) (part' w))
      (fun v w => foreign v w ∧ Except.Alike r (part v) (part' w)) s c) :
    Except.Alike r (a.bodyFrom part x s) (b.bodyFrom part' y c) := by
  have hown : Option.Rel r (s.shape.map fun shape => a.place x (.primitive shape.primitive))
      (c.shape.map fun shape => b.place y (.primitive shape.primitive)) := by
    rw [hparts.shape]
    cases s.shape with
    | none => exact Option.Rel.none
    | some shape => exact Option.Rel.some (hplace shape)
  have hchildren := hparts.uncomposed hs hc fun v w h => hforeign v w h.1
  unfold bodyFrom
  refine (Except.Alike.mapM hchildren).bind fun bodies bodies' hbodies => ?_
  refine Except.Alike.bind (Except.Alike.foldlM (hparts.compositions.imp fun p q hpq => ?_)
    (hr.base hown hbodies)) fun composed composed' hcomposed => ?_
  · intro soFar soFar' hsoFar
    -- An operand is a child, and then its partner is the child in the same place, or it is foreign.
    have hoperands := hpq.operands.imp fun v w hvw =>
      hvw.elim (fun hzip => List.forall₂_zip hparts.children hzip) fun h => h.2.2
    refine (Except.Alike.mapM hoperands).bind fun operands operands' h => ?_
    rw [hpq.operator]
    exact Option.Rel.some (hr.enclose _ hsoFar h)
  · cases hcomposed with
    | none => exact trivial
    | some hbody =>
        rw [hparts.color]
        exact hr.paint _ hbody

end Assembly

end SolidModel
