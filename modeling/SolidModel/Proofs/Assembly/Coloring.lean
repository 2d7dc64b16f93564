import SolidModel.Proofs.Assembly.Composing

/-!
# Colors

That a color is nothing but a color.

A component may show up many times in the body of another one, as a child of this and an operand of
that, each time in its color and at a place where it is then wrapped up further. To follow one color
to all of these places would be tedious. It is easier to take all the colors away. Whatever an
assembly is asked for, with its colors or without them, the answer is the same, but for the colors
in a body. And an assembly in which one component has got another color is the same assembly
without colors.

## Main definitions

* `Body.uncolored`, `Component.uncolored`, `Assembly.uncolored`: What is left without colors.

## Theorems

* `Assembly.uncolored_recolored`: A color makes no difference to what is left.
* `Assembly.history_uncolored`, `Assembly.anchor_uncolored`, `Assembly.structurallyEqual_uncolored`:
  Placement and comparison do not look at colors.
* `Assembly.body_uncolored`: The body without colors is made of what is left.
* `Assembly.Reachable.setColor_paints`: What a new color does to a reachable assembly.
-/

namespace SolidModel

open Relation

section Sequences

variable {m : Type → Type} [Monad m] [LawfulMonad m] {α β γ σ τ : Type}

/-- A function may be applied to each result or to all of them. -/
theorem mapM_map (f : α → m β) (g : β → γ) (l : List α) :
    l.mapM (fun x => g <$> f x) = List.map g <$> l.mapM f := by
  induction l with
  | nil => rw [List.mapM_nil, List.mapM_nil, map_pure, List.map_nil]
  | cons x rest ih =>
      rw [List.mapM_cons, List.mapM_cons, ih, map_bind, bind_map_left]
      refine bind_congr fun y => ?_
      rw [map_bind, bind_map_left]
      refine bind_congr fun ys => ?_
      rw [map_pure, List.map_cons]

/-- A function that commutes with each step commutes with all of them. -/
theorem foldlM_map {step : σ → α → m σ} {step' : τ → α → m τ} {h : σ → τ}
    (hstep : ∀ soFar x, h <$> step soFar x = step' (h soFar) x) (l : List α) (start : σ) :
    h <$> l.foldlM step start = l.foldlM step' (h start) := by
  induction l generalizing start with
  | nil => rw [List.foldlM_nil, List.foldlM_nil, map_pure]
  | cons x rest ih =>
      rw [List.foldlM_cons, List.foldlM_cons, map_bind, ← hstep, bind_map_left]
      exact bind_congr fun soFar => ih soFar

end Sequences

/-- Two outcomes are one in some respect if they are failures for one reason, or results that are
    one in that respect. -/
theorem Except.map_eq_map_iff {ε α β : Type} {f : α → β} {u v : Except ε α} :
    f <$> u = f <$> v ↔ ((∃ x, u = .ok x) ↔ ∃ y, v = .ok y) ∧
      (∀ e, u = .error e ↔ v = .error e) ∧ ∀ x y, u = .ok x → v = .ok y → f x = f y := by
  cases u with
  | error e => cases v <;> simp [Functor.map, Except.map, eq_comm]
  | ok x => cases v <;> simp [Functor.map, Except.map]

namespace Body

mutual

/-- A body without its colors: what is colored takes the place of the color. -/
def uncolored : Body → Body
  | .primitive solid => .primitive solid
  | .composition operator operands => .composition operator (uncoloredAll operands)
  | .moved step child => .moved step (uncolored child)
  | .colored _ child => uncolored child

/-- Several bodies without their colors. -/
def uncoloredAll : List Body → List Body
  | [] => []
  | body :: rest => uncolored body :: uncoloredAll rest

end

theorem uncoloredAll_eq (bodies : List Body) : uncoloredAll bodies = bodies.map uncolored := by
  induction bodies with
  | nil => rfl
  | cons body rest ih => rw [uncoloredAll, ih, List.map_cons]

theorem uncolored_composition (operator : Operator) (operands : List Body) :
    (composition operator operands).uncolored = .composition operator (operands.map uncolored) := by
  rw [uncolored, uncoloredAll_eq]

/-- Transformations are no colors. -/
theorem uncolored_wrap (body : Body) (steps : List Transformation) :
    (body.wrap steps).uncolored = body.uncolored.wrap steps := by
  induction steps generalizing body with
  | nil => rfl
  | cons step rest ih =>
      rw [wrap, List.foldl_cons]
      exact ih (.moved step body)

theorem uncolored_paint (body : Body) (color : Option Color) :
    (body.paint color).uncolored = body.uncolored := by
  cases color with
  | none => rfl
  | some color => rw [paint, uncolored]

end Body

/-- The component without its color. -/
def Component.uncolored (c : Component) : Component := { c with color := none }

namespace Assembly

/-- The assembly without its colors. -/
def uncolored (a : Assembly) : Assembly := ⟨a.components.map Component.uncolored⟩

variable {a : Assembly} {id : ComponentId}

theorem size_uncolored (a : Assembly) : a.uncolored.size = a.size := Array.size_map

theorem get?_uncolored (a : Assembly) (id : ComponentId) :
    a.uncolored.get? id = (a.get? id).map Component.uncolored := by
  rcases id with ⟨n⟩
  cases n with
  | zero => rfl
  | succ n => exact Array.getElem?_map

/-- A color makes no difference to what is left without colors. So two assemblies that differ in the
    color of one component are the same assembly without colors, and whatever is known of that one
    holds of both. -/
theorem uncolored_recolored (a : Assembly) (id : ComponentId) (color : Option Color) :
    (a.modify id fun c => { c with color }).uncolored = a.uncolored := by
  rcases id with ⟨n⟩
  cases n with
  | zero => rfl
  | succ n =>
      rw [uncolored, uncolored, mk.injEq]
      refine Array.ext_getElem? fun i => ?_
      simp only [modify, Array.getElem?_map, Array.getElem?_modify]
      split
      · rw [Option.map_map]
        rfl
      · rfl

theorem find_uncolored (a : Assembly) (id : ComponentId) :
    a.uncolored.find id = Component.uncolored <$> a.find id := by
  rw [find, find, get?_uncolored]
  cases a.get? id <;> rfl

theorem contains_uncolored (a : Assembly) (id : ComponentId) :
    a.uncolored.contains id = a.contains id := by
  rw [contains, contains, get?_uncolored, Option.isSome_map]

theorem parent?_uncolored (a : Assembly) (id : ComponentId) :
    a.uncolored.parent? id = a.parent? id := by
  rw [parent?, parent?, get?_uncolored]
  cases a.get? id <;> rfl

/-- Transformations are not colored. -/
theorem history_uncolored (a : Assembly) (id : ComponentId) :
    a.uncolored.history id = a.history id := by
  have hdirect : a.uncolored.direct = a.direct := by
    funext id
    rw [direct, direct, get?_uncolored]
    cases a.get? id <;> rfl
  rw [history, history, hdirect, ancestors, ancestors, size_uncolored, parent?_uncolored,
    chain_congr fun id => parent?_uncolored a id]

theorem transformations_uncolored (a : Assembly) (id : ComponentId) :
    a.uncolored.transformations id = a.transformations id := by
  rw [transformations_eq, transformations_eq, history_uncolored, find_uncolored]
  cases a.find id <;> rfl

theorem anchor_uncolored [Trigonometry] (a : Assembly) (id : ComponentId) (anchor : Anchor) :
    a.uncolored.anchor id anchor = a.anchor id anchor := by
  unfold Assembly.anchor carry
  rw [history_uncolored, find_uncolored]
  cases a.find id <;> rfl

/-- A comparison does not look at colors. -/
theorem structurallyEqualWithin_uncolored (a : Assembly) (depth : Nat) :
    a.uncolored.structurallyEqualWithin depth = a.structurallyEqualWithin depth := by
  induction depth with
  | zero => rfl
  | succ depth ih =>
      funext x y
      rw [structurallyEqualWithin_succ, structurallyEqualWithin_succ, ih, contains_uncolored,
        get?_uncolored, get?_uncolored]
      -- Components that are the same are not compared at all.
      by_cases hsame : x = y
      · rw [if_pos hsame, if_pos hsame]
      · rw [if_neg hsame, if_neg hsame]
        cases a.get? x with
        | none => rfl
        | some left =>
            cases a.get? y with
            | none => rfl
            | some right =>
                change a.uncolored.equalFrom _ x y left.uncolored right.uncolored = _
                unfold equalFrom
                rw [history_uncolored, history_uncolored]
                rfl

theorem structurallyEqual_uncolored (a : Assembly) (x y : ComponentId) :
    a.uncolored.structurallyEqual x y = a.structurallyEqual x y := by
  rw [structurallyEqual, structurallyEqual, size_uncolored, structurallyEqualWithin_uncolored]

theorem base_uncolored (own : Option Body) (children : List Body) :
    (base own children).map Body.uncolored =
      base (own.map Body.uncolored) (children.map Body.uncolored) := by
  cases children with
  | nil => rfl
  | cons child rest =>
      rw [base, Option.map_some, Body.uncolored_composition, List.map_append]
      cases own <;> rfl

theorem enclose_uncolored (operator : Operator) (soFar : Option Body) (operands : List Body) :
    (enclose operator soFar operands).uncolored =
      enclose operator (soFar.map Body.uncolored) (operands.map Body.uncolored) := by
  rw [enclose, Body.uncolored_composition, List.map_append]
  cases soFar <;> rfl

section Parts

variable {part : ComponentId → Except AssemblyError Body} {c : Component}

/-- What is made of the parts is made in the same way of the parts without colors. -/
theorem plainFrom_uncolored :
    a.uncolored.plainFrom (fun y => Body.uncolored <$> part y) id c.uncolored =
      Option.map Body.uncolored <$> a.plainFrom part id c := by
  have hown : c.uncolored.shape.map
        (fun shape => a.uncolored.place id (.primitive shape.primitive)) =
      (c.shape.map fun shape => a.place id (.primitive shape.primitive)).map Body.uncolored := by
    rw [Option.map_map]
    refine congrArg (fun f => Option.map f c.shape) (funext fun shape => ?_)
    rw [Function.comp_apply, place, place, history_uncolored, Body.uncolored_wrap, Body.uncolored]
  -- Nothing in a component but its color gets lost, so the same parts are met in the same order.
  unfold plainFrom
  rw [hown, map_bind]
  change c.uncomposed.mapM _ >>= _ = _
  rw [mapM_map, bind_map_left]
  refine bind_congr fun children => ?_
  rw [← base_uncolored]
  refine (foldlM_map (fun soFar composition => ?_) _ _).symm
  rw [map_bind, mapM_map, bind_map_left]
  refine bind_congr fun operands => ?_
  rw [map_pure, Option.map_some, enclose_uncolored]

/-- A body is what has been made of the parts, and the color more. So it does not look at colors
    either. -/
theorem bodyFrom_uncolored :
    a.uncolored.bodyFrom (fun y => Body.uncolored <$> part y) id c.uncolored =
      Body.uncolored <$> a.bodyFrom part id c := by
  rw [bodyFrom_eq_bind, bodyFrom_eq_bind, plainFrom_uncolored, bind_map_left, map_bind]
  refine bind_congr fun composed => ?_
  cases composed with
  | none => rfl
  | some plain =>
      change Except.ok plain.uncolored = Except.ok (plain.paint c.color).uncolored
      rw [Body.uncolored_paint]

end Parts

theorem bodyWithin_uncolored (a : Assembly) (depth : Nat) :
    a.uncolored.bodyWithin depth = fun id => Body.uncolored <$> a.bodyWithin depth id := by
  induction depth with
  | zero => rfl
  | succ depth ih =>
      funext id
      rw [bodyWithin_succ, bodyWithin_succ, ih, find_uncolored, bind_map_left, map_bind]
      exact bind_congr fun c => bodyFrom_uncolored

/-- The body without colors is the body of the assembly without colors, and where there is none the
    report is the same. The induction is along the depth of the recursion, so that it holds of any
    table, whether its links go in circles or not. -/
theorem body_uncolored (a : Assembly) (id : ComponentId) :
    a.uncolored.body id = Body.uncolored <$> a.body id := by
  rw [body, size_uncolored, bodyWithin_uncolored]
  rfl

variable {color : Option Color}

/-- Everything stands where it stood. -/
theorem history_recolored (a : Assembly) (id : ComponentId) (color : Option Color)
    (x : ComponentId) :
    (a.modify id fun c => { c with color }).history x = a.history x := by
  rw [← history_uncolored, uncolored_recolored, history_uncolored]

/-- A component that is not made of the colored one is kept. -/
theorem kept_recolored {x : ComponentId} (h : ¬ a.Reaches x id) :
    a.Kept (a.modify id fun c => { c with color }) x where
  get?_eq _ hpart := get?_modify_of_ne _ fun heq => h (heq ▸ hpart)
  history_eq part _ := history_recolored a id color part

namespace Reachable

/-- A new color of a component is paint. All bodies are there that were there, the same ones are
    missing for the same reasons, and without colors they are what they were. The colors differ only
    where the component is part of what is shown: whoever does not get to it has the very same body.
    Anchors, histories and comparisons do not look at colors at all, whatever components they are
    asked about. -/
theorem setColor_paints [Trigonometry] (h : a.Reachable) (hid : a.contains id = true)
    (color : Option Color) :
    ∃ b, (Edit.setColor id color).Yields a () b ∧
      (∀ x, ((∃ painted, b.body x = .ok painted) ↔ ∃ plain, a.body x = .ok plain) ∧
        (∀ e, b.body x = .error e ↔ a.body x = .error e) ∧
        (∀ plain painted, a.body x = .ok plain → b.body x = .ok painted →
          painted.uncolored = plain.uncolored) ∧
        (¬ a.Reaches x id → b.body x = a.body x)) ∧
      (∀ x, (∀ anchor, b.anchor x anchor = a.anchor x anchor) ∧ b.history x = a.history x ∧
        b.transformations x = a.transformations x) ∧
      ∀ x y, b.structurallyEqual x y = a.structurallyEqual x y := by
  rcases get?_of_contains hid with ⟨c, hc⟩
  have hsame := uncolored_recolored a id color
  refine ⟨a.modify id fun c => { c with color },
    (Edit.Yields.read (find_eq_ok_iff.mpr hc)).bind (Edit.Yields.change _ a), fun x => ?_,
    fun x => ⟨fun anchor => ?_, history_recolored a id color x, ?_⟩, fun x y => ?_⟩
  · -- Without colors the two assemblies are one, and so are the bodies made of it.
    have hbody : Body.uncolored <$> (a.modify id fun c => { c with color }).body x =
        Body.uncolored <$> a.body x := by
      rw [← body_uncolored, hsame, body_uncolored]
    rcases Except.map_eq_map_iff.mp hbody with ⟨hok, herror, htree⟩
    refine ⟨hok, herror, fun plain painted hplain hpainted => htree painted plain hpainted hplain,
      fun hnot => ?_⟩
    exact (kept_recolored hnot).body_eq h.wellFormed (Nat.le_of_eq (size_modify _ _ _).symm)
  · rw [← anchor_uncolored, hsame, anchor_uncolored]
  · rw [← transformations_uncolored, hsame, transformations_uncolored]
  · rw [← structurallyEqual_uncolored, hsame, structurallyEqual_uncolored]

/-- A ball is there twice in what is shown, as the child of a child and as an operand, and gets a
    color. -/
theorem setColor_paints_twice :
    let ball := Body.moved (.translate ⟨0, 0, 1⟩) (.primitive (Shape.sphere 1).primitive)
    let hole := Body.primitive (Shape.sphere 2).primitive
    let plain := Body.composition .union
      [.composition .union [.composition .difference [.composition .union [ball], hole]],
        ball, hole]
    let a : Assembly := ⟨#[
      { parent := some ⟨3⟩, shape := some (.sphere 1) },
      { shape := some (.sphere 2) },
      { parent := some ⟨4⟩, children := [⟨1⟩], compositions := [⟨.difference, [⟨2⟩]⟩] },
      { children := [⟨3⟩], compositions := [⟨.union, [⟨1⟩, ⟨2⟩]⟩],
        direct := [.translate ⟨0, 0, 1⟩] }]⟩
    a.Reachable ∧ a.contains ⟨1⟩ = true ∧ ∃ b painted,
      (Edit.setColor ⟨1⟩ (some (.rgb 1 0 0))).Yields a () b ∧ a.body ⟨4⟩ = .ok plain ∧
      b.body ⟨4⟩ = .ok painted ∧ painted.uncolored = plain ∧ b.body ⟨2⟩ = a.body ⟨2⟩ ∧
      b.anchor ⟨1⟩ .top = a.anchor ⟨1⟩ .top ∧
      b.structurallyEqual ⟨1⟩ ⟨2⟩ = a.structurallyEqual ⟨1⟩ ⟨2⟩ := by
  intro ball hole plain a
  have h : a.Reachable := by
    have hparts : Reachable ⟨#[
        { parent := some ⟨3⟩, shape := some (.sphere 1) },
        { shape := some (.sphere 2) },
        { children := [⟨1⟩], compositions := [⟨.difference, [⟨2⟩]⟩] }]⟩ :=
      ((Reachable.empty.step (.add (.sphere 1))).step (.add (.sphere 2))).step
        (.create { children := [⟨1⟩], compositions := [⟨.difference, [⟨2⟩]⟩] })
    have hwhole : Reachable ⟨#[
        { parent := some ⟨3⟩, shape := some (.sphere 1) },
        { shape := some (.sphere 2) },
        { parent := some ⟨4⟩, children := [⟨1⟩], compositions := [⟨.difference, [⟨2⟩]⟩] },
        { children := [⟨3⟩], compositions := [⟨.union, [⟨1⟩, ⟨2⟩]⟩] }]⟩ :=
      hparts.step (.create { children := [⟨3⟩], compositions := [⟨.union, [⟨1⟩, ⟨2⟩]⟩] })
    exact hwhole.step (.transform ⟨4⟩ [.translate ⟨0, 0, 1⟩])
  have hbody : a.body ⟨4⟩ = .ok plain := rfl
  have hplain : plain.uncolored = plain := rfl
  have hapart : ¬ a.Reaches ⟨2⟩ ⟨1⟩ := not_reaches_of_uses_eq_nil rfl (by decide)
  rcases h.setColor_paints (show a.contains ⟨1⟩ = true from rfl) (some (.rgb 1 0 0)) with
    ⟨b, hyields, hbodies, hplaces, hequal⟩
  rcases hbodies ⟨4⟩ with ⟨hok, _, htree, _⟩
  rcases hok.mpr ⟨plain, hbody⟩ with ⟨painted, hpainted⟩
  refine ⟨h, rfl, b, painted, hyields, hbody, hpainted, ?_, (hbodies ⟨2⟩).2.2.2 hapart,
    (hplaces ⟨1⟩).1 .top, hequal ⟨1⟩ ⟨2⟩⟩
  rw [htree plain painted hbody hpainted, hplain]

end Reachable

end Assembly

end SolidModel
