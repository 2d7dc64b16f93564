import Mathlib.Data.List.Pairwise
import SolidModel.Proofs.Assembly.Guards

/-!
# Compositions of Copies

What there is after a composition that was asked to copy what it uses.

All that is involved is copied first: the operands in order, each mention of them by itself, and
behind them the component that the composition is asked of, unless that one is to record it. The
copies belong to nobody, nothing old is below them, and no two of them have anything in common.
That is what every check asks for, so that nothing is refused, whatever the operands have to do
with each other and with the component.

Then the composition is recorded on one component, the target, and the copies may become its
children. Nothing below a copy gets to the target, and nothing below one copy is another one. So
a copy gets a parent and keeps everything else, and of what was there before nothing but the
target changes.

## Main definitions

* `Assembly.CopiesComposed`: What a composition of copies comes to.

## Theorems

* `Assembly.Duplicate.congr_below`, `Assembly.Duplicate.owned`: What a duplicate depends on.
* `Assembly.get?_linkAll`: What becomes of each component if several are linked to a parent.
* `Assembly.Reachable.compose_copies`: A composition of copies is never refused, and what it does.
-/

namespace SolidModel

open Relation

namespace Assembly

variable {a b m r : Assembly}

namespace Duplicate

variable {depth : Nat} {source copy : ComponentId}

/-- A duplicate depends on nothing but what is below it. -/
theorem congr_below : ∀ {parent : Option ComponentId} {source copy : ComponentId},
    a.Duplicate m depth parent source copy →
    (∀ y, m.Reaches copy y → b.get? y = m.get? y) → a.Duplicate b depth parent source copy := by
  induction depth with
  | zero => exact fun h _ => h.elim
  | succ depth ih =>
      rintro parent source copy ⟨s, c, hs, hc, hparent, hparts⟩ hkept
      have hbelow : ∀ y ∈ c.uses, ∀ z, m.Reaches y z → b.get? z = m.get? z := by
        intro y hy z hz
        refine hkept z (ReflTransGen.head ?_ hz)
        rw [Uses, uses_of_get? hc]
        exact hy
      refine ⟨s, c, hs, by rw [hkept copy ReflTransGen.refl, hc], hparent, hparts.imp ?_ ?_⟩
      · exact fun x _ y hy h => ⟨h.1, ih h.2 (hbelow y (List.mem_append_left _ hy))⟩
      · exact fun x _ _ y hy h => ⟨h.1, ih h.2 (hbelow y (List.mem_append_right _ hy))⟩

/-- A duplicate that gets a parent, or gets none, is still one if nothing else below it changes. Who
    owns it is the one thing about a duplicate that is not copied from the source. -/
theorem owned (h : a.Duplicate m depth none source copy) (hm : m.WellFormed)
    {parent : Option ComponentId}
    (hcopy : ∀ c, m.get? copy = some c → b.get? copy = some { c with parent })
    (hbelow : ∀ y, y ≠ copy → m.Reaches copy y → b.get? y = m.get? y) :
    a.Duplicate b depth parent source copy := by
  cases depth with
  | zero => exact h.elim
  | succ depth =>
      rcases h with ⟨s, c, hs, hc, _, hparts⟩
      -- Without circles the copy is not below its own parts.
      have hkept : ∀ y ∈ c.uses, ∀ z, m.Reaches y z → b.get? z = m.get? z := by
        intro y hy z hz
        have huse : m.Uses copy y := by
          rw [Uses, uses_of_get? hc]
          exact hy
        refine hbelow z ?_ (ReflTransGen.head huse hz)
        rintro rfl
        exact hm.acyclic z (TransGen.head' huse hz)
      have hparts' : Component.Mirrors _ _ s { c with parent } :=
        ⟨hparts.shape, hparts.color, hparts.direct, hparts.children, hparts.compositions⟩
      refine ⟨s, { c with parent }, hs, hcopy c hc, rfl, hparts'.imp ?_ ?_⟩
      · exact fun x _ y hy h => ⟨h.1, h.2.congr_below (hkept y (List.mem_append_left _ hy))⟩
      · exact fun x _ _ y hy h => ⟨h.1, h.2.congr_below (hkept y (List.mem_append_right _ hy))⟩

end Duplicate

/-- If several components are linked to a parent that has none of them yet, the parent has them as
    further children in order, each of them has the parent, and nothing else changes. The parent is
    not among them, and none is among them twice, or a link would find what another one has left. -/
theorem get?_linkAll {parent : ComponentId} {parts : List ComponentId}
    (hparent : a.contains parent = true) (hnodup : parts.Nodup) (hnot : parent ∉ parts)
    (hfree : ∀ part ∈ parts, part ∉ a.children parent) (id : ComponentId) :
    (a.linkAll parent parts).get? id = (a.get? id).map fun c =>
      if id = parent then { c with children := c.children ++ parts }
      else if id ∈ parts then { c with parent := some parent } else c := by
  induction parts generalizing a with
  | nil =>
      have hsame : ∀ c : Component, { c with children := c.children ++ [] } = c := fun c => by
        rw [List.append_nil]
      simp only [linkAll, List.foldl_nil, hsame, List.not_mem_nil, if_false, ite_self,
        Option.map_id']
  | cons part rest ih =>
      rw [List.nodup_cons] at hnodup
      rw [List.mem_cons, not_or] at hnot
      rw [List.forall_mem_cons] at hfree
      -- What is linked first is no other part, so that the rest are no children yet after it.
      have hfree' : ∀ other ∈ rest, other ∉ (a.link parent part).children parent := by
        intro other hother hmem
        rcases (mem_children_link hparent parent other).mp hmem with hold | ⟨_, rfl⟩
        · exact hfree.2 other hother hold
        · exact hnodup.1 hother
      have hrest := ih (a := a.link parent part) (by rwa [contains_link]) hnodup.2 hnot.2 hfree'
      change ((a.link parent part).linkAll parent rest).get? id = _
      rw [hrest, get?_link]
      cases hget : a.get? id with
      | none => rfl
      | some c =>
          simp only [Option.map_some, Option.some.injEq, List.mem_cons]
          by_cases hid : id = parent
          · have hnew : part ∉ c.children := by
              rw [← children_of_get? hget, hid]
              exact hfree.1
            have hne : parent ≠ part := hnot.1
            simp only [hid, hne, if_true, if_false, Component.adopting, hnew, List.append_assoc,
              List.singleton_append]
          · by_cases hpart : id = part
            · rw [hpart] at hid ⊢
              simp only [hid, hnodup.1, if_true, if_false, true_or]
            · simp only [hid, hpart, if_false, false_or]

/-- Isolated copies that nothing has been done with yet. -/
structure Copies (a m : Assembly) (ids parts : List ComponentId) : Prop where
  /-- The assembly was well-formed before. -/
  before : a.WellFormed
  /-- The assembly is well-formed now. -/
  after : m.WellFormed
  /-- Nothing that was there has changed. -/
  grown : a.Extends m none
  /-- For each id there is a new component, an isolated copy that nobody owns. -/
  duplicates : List.Forall₂
    (fun x y => ¬ a.contains y = true ∧ a.Duplicate m (a.size + 1) none x y) ids parts
  /-- No two of the copies have anything in common, also if an id is listed twice. -/
  apart : parts.Pairwise m.Apart

/-- Something about a target has been recorded that adopts nothing. -/
structure Records (m r : Assembly) (target : ComponentId) (parts : List ComponentId) : Prop where
  /-- The target is there. -/
  contains : r.contains target = true
  /-- Nothing but the target has changed. -/
  kept : ∀ id, id ≠ target → r.get? id = m.get? id
  /-- No part is made of the target, so that the record closes no circle. -/
  not_reaches : ∀ part ∈ parts, ¬ m.Reaches part target
  /-- No part is a child of the target yet. -/
  free : ∀ part ∈ parts, part ∉ r.children target

/-- What a composition of copies comes to. -/
structure CopiesComposed (a b : Assembly) (id : ComponentId) (operator : Operator)
    (operands : List ComponentId) (inPlace adopts : Bool) (target : ComponentId)
    (parts : List ComponentId) : Prop where
  /-- It is recorded on the component itself, or on a new one that has nothing else. -/
  recorded : if inPlace then target = id else ¬ a.contains target = true ∧ b.get? target = some
    { compositions := [⟨operator, parts⟩], children := if adopts then parts else [] }
  /-- Nothing that was there has changed but the component, if it is recorded there. -/
  kept : ∀ x k, a.get? x = some k → b.get? x = some
    (if inPlace = true ∧ x = id then
      { k with compositions := k.compositions ++ [⟨operator, parts⟩],
               children := k.children ++ if adopts then parts else [] }
    else k)
  /-- No copy is used twice, also where an operand is mentioned twice. -/
  nodup : parts.Nodup
  /-- There is one isolated copy for each mention of an operand, and one more for the component if
      that does not record the composition. -/
  copies : List.Forall₂ (fun x y => ¬ a.contains y = true ∧
      a.Duplicate b (a.size + 1) (if adopts then some target else none) x y)
    (operands ++ if inPlace then [] else [id]) parts
  /-- A copy is new all the way down. -/
  isolated : ∀ part ∈ parts, ∀ other, b.Reaches part other → ¬ a.contains other = true
  /-- No two copies have anything in common. -/
  apart : parts.Pairwise b.Apart
  /-- The copies become children if they are to be adopted, and not otherwise. -/
  children : ∀ part ∈ parts, part ∈ b.children target ↔ adopts = true

instance : Std.Symm a.Apart := ⟨fun _ _ h z hy hx => h z hx hy⟩

/-- Nothing is apart from itself. -/
theorem nodup_of_apart {parts : List ComponentId} (h : parts.Pairwise a.Apart) : parts.Nodup := by
  refine h.imp fun {x y} hapart heq => ?_
  exact hapart y (heq ▸ ReflTransGen.refl) ReflTransGen.refl

namespace Records

variable {target : ComponentId} {parts : List ComponentId}

theorem target_not_mem (h : m.Records r target parts) : target ∉ parts :=
  fun hmem => h.not_reaches target hmem ReflTransGen.refl

/-- What becomes of each component when the parts are adopted, or are not. -/
theorem get?_concluded (h : m.Records r target parts) (hnodup : parts.Nodup) (adopts : Bool)
    (id : ComponentId) : (r.concluded target parts adopts).get? id = (r.get? id).map fun c =>
      if id = target then { c with children := c.children ++ if adopts then parts else [] }
      else if id ∈ parts then { c with parent := if adopts then some target else c.parent }
      else c := by
  cases adopts with
  | false => simp only [concluded, Bool.false_eq_true, if_false, List.append_nil, ite_self,
      Option.map_id']
  | true => exact get?_linkAll h.contains hnodup h.target_not_mem h.free id

/-- Whoever is neither the target nor one of the parts is what it was. -/
theorem get?_concluded_of_ne (h : m.Records r target parts) (hnodup : parts.Nodup) (adopts : Bool)
    {id : ComponentId} (hid : id ≠ target) (hnot : id ∉ parts) :
    (r.concluded target parts adopts).get? id = m.get? id := by
  rw [h.get?_concluded hnodup]
  simp only [hid, hnot, if_false, Option.map_id']
  exact h.kept id hid

/-- Only the target uses anything that it did not use before. -/
theorem uses_concluded (h : m.Records r target parts) (hnodup : parts.Nodup) (adopts : Bool)
    {id : ComponentId} (hid : id ≠ target) :
    (r.concluded target parts adopts).uses id = m.uses id := by
  rw [uses, uses, h.get?_concluded hnodup, h.kept id hid]
  simp only [hid, if_false]
  cases m.get? id with
  | none => rfl
  | some c =>
      simp only [Option.map_some]
      split <;> rfl

/-- What is below a part was below it before, since the target, which alone has got new links, is
    not. -/
theorem reaches_of_concluded (h : m.Records r target parts) (hnodup : parts.Nodup) (adopts : Bool)
    {part other : ComponentId} (hpart : part ∈ parts)
    (hreach : (r.concluded target parts adopts).Reaches part other) : m.Reaches part other := by
  refine reflTransGen_of_not_source (p := target) (fun x y huse => ?_)
    (h.not_reaches part hpart) hreach
  by_cases hx : x = target
  · exact Or.inr hx
  · rw [Uses, h.uses_concluded hnodup adopts hx] at huse
    exact Or.inl huse

end Records

namespace Copies

variable {ids parts : List ComponentId} {target : ComponentId}

theorem nodup (h : a.Copies m ids parts) : parts.Nodup := nodup_of_apart h.apart

theorem fresh (h : a.Copies m ids parts) : Edit.Fresh a m parts :=
  Edit.Fresh.of_duplicates h.grown h.duplicates

theorem not_contains (h : a.Copies m ids parts) {part : ComponentId} (hpart : part ∈ parts) :
    ¬ a.contains part = true := by
  rcases exists_of_mem_right h.duplicates hpart with ⟨_, _, hnew, _⟩
  exact hnew

/-- Each copy may get a parent and remains a copy, since no other copy is below it. -/
theorem duplicates_concluded (h : a.Copies m ids parts) (hr : m.Records r target parts)
    (adopts : Bool) : List.Forall₂ (fun x y => ¬ a.contains y = true ∧
      a.Duplicate (r.concluded target parts adopts) (a.size + 1)
        (if adopts then some target else none) x y) ids parts := by
  refine forall₂_imp_of_mem h.duplicates fun x _ y hy hxy => ⟨hxy.1, hxy.2.owned h.after ?_ ?_⟩
  · intro c hc
    have hne : y ≠ target := fun heq => hr.target_not_mem (heq ▸ hy)
    have hparent : c.parent = none := by
      rw [← parent?_of_get? hc]
      exact hxy.2.parent?_copy
    rw [hr.get?_concluded h.nodup, hr.kept y hne, hc]
    simp only [hne, hy, hparent, if_true, if_false, Option.map_some]
  · intro z hz hreach
    refine hr.get?_concluded_of_ne h.nodup adopts ?_ fun hmem => ?_
    · rintro rfl
      exact hr.not_reaches y hy hreach
    · exact h.apart.forall hy hmem (Ne.symm hz) z hreach ReflTransGen.refl

theorem isolated_concluded (h : a.Copies m ids parts) (hr : m.Records r target parts)
    (adopts : Bool) {part other : ComponentId} (hpart : part ∈ parts)
    (hreach : (r.concluded target parts adopts).Reaches part other) :
    ¬ a.contains other = true := fun hold =>
  h.grown.not_reaches_old (h.not_contains hpart) hold
    (hr.reaches_of_concluded h.nodup adopts hpart hreach)

theorem apart_concluded (h : a.Copies m ids parts) (hr : m.Records r target parts)
    (adopts : Bool) : parts.Pairwise (r.concluded target parts adopts).Apart := by
  refine h.apart.imp_of_mem fun {x y} hx hy hapart z hxz hyz => ?_
  exact hapart z (hr.reaches_of_concluded h.nodup adopts hx hxz)
    (hr.reaches_of_concluded h.nodup adopts hy hyz)

theorem mem_children_concluded (h : a.Copies m ids parts) (hr : m.Records r target parts)
    {adopts : Bool} {part : ComponentId} (hpart : part ∈ parts) :
    part ∈ (r.concluded target parts adopts).children target ↔ adopts = true := by
  rcases get?_of_contains hr.contains with ⟨c, hc⟩
  have hfree : part ∉ c.children := by
    rw [← children_of_get? hc]
    exact hr.free part hpart
  have hget := hr.get?_concluded h.nodup adopts target
  rw [hc, Option.map_some, if_pos rfl] at hget
  rw [children_of_get? hget, List.mem_append, or_iff_right hfree]
  cases adopts with
  | false => exact iff_of_false List.not_mem_nil Bool.false_ne_true
  | true => exact iff_of_true hpart rfl

/-- Whatever was there and is not the target is what it was. -/
theorem get?_concluded_old (h : a.Copies m ids parts) (hr : m.Records r target parts)
    (adopts : Bool) {x : ComponentId} {k : Component} (hk : a.get? x = some k) (hx : x ≠ target) :
    (r.concluded target parts adopts).get? x = some k := by
  have hold := contains_of_get? hk
  rw [hr.get?_concluded_of_ne h.nodup adopts hx fun hmem => h.not_contains hmem hold,
    h.grown.kept x hold (by simp only [ne_eq, reduceCtorEq, not_false_eq_true]), hk]

/-- A composition of copies may be recorded on anything that was there. -/
theorem records_composing (h : a.Copies m ids parts) {id : ComponentId}
    (hid : a.contains id = true) (operator : Operator) :
    m.Records (m.modify id fun c => c.composing ⟨operator, parts⟩) id parts where
  contains := by
    rw [contains_modify]
    exact h.grown.contains id hid
  kept other hother := get?_modify_of_ne _ hother
  not_reaches part hpart := h.fresh.not_reaches part hpart id hid
  free part hpart hmem := by
    rw [children_composing] at hmem
    have hparent := (h.after.mem_children_iff id part).mp hmem
    rw [h.fresh.parent part hpart] at hparent
    cases hparent

/-- Copies may be recorded on a new component. -/
theorem records_insert (h : a.Copies m ids parts) (operator : Operator) :
    m.Records (m.insert { compositions := [⟨operator, parts⟩] }) m.nextId parts where
  contains := contains_insert_iff.mpr (Or.inr rfl)
  kept other hother := by rw [get?_insert, if_neg hother]
  not_reaches part hpart := h.after.not_reaches_of_unknown (h.fresh.contains part hpart)
    (WellFormed.not_contains_nextId m)
  free part hpart hmem := by
    rw [children_insert, if_pos rfl] at hmem
    exact absurd hmem List.not_mem_nil

/-- What comes of a composition that is recorded on the component. -/
theorem composed_inPlace {operands : List ComponentId} (h : a.Copies m (operands ++ []) parts)
    {id : ComponentId} (hid : a.contains id = true) (operator : Operator) (adopts : Bool) :
    a.CopiesComposed
      ((m.modify id fun c => c.composing ⟨operator, parts⟩).concluded id parts adopts)
      id operator operands true adopts id parts := by
  have hr := h.records_composing hid operator
  refine ⟨rfl, fun x k hk => ?_, h.nodup, h.duplicates_concluded hr adopts,
    fun part hpart other => h.isolated_concluded hr adopts hpart, h.apart_concluded hr adopts,
    fun part => h.mem_children_concluded hr⟩
  by_cases hx : x = id
  · rw [hx] at hk ⊢
    have hkept := h.grown.kept id hid (by simp only [ne_eq, reduceCtorEq, not_false_eq_true])
    have hrecorded := get?_modify_self (fun c => c.composing ⟨operator, parts⟩) (hkept.trans hk)
    rw [hr.get?_concluded h.nodup, hrecorded, Option.map_some, if_pos rfl]
    simp only [and_self, if_true]
    rfl
  · rw [h.get?_concluded_old hr adopts hk hx, if_neg fun hor => hx hor.2]

/-- What comes of a composition of copies that is recorded on a new component. -/
theorem composed_anew {operands : List ComponentId} {id : ComponentId}
    (h : a.Copies m (operands ++ [id]) parts) (operator : Operator) (adopts : Bool) :
    a.CopiesComposed
      ((m.insert { compositions := [⟨operator, parts⟩] }).concluded m.nextId parts adopts)
      id operator operands false adopts m.nextId parts := by
  have hr := h.records_insert operator
  have hnew : ¬ a.contains m.nextId = true := fun hold =>
    WellFormed.not_contains_nextId m (h.grown.contains _ hold)
  refine ⟨⟨hnew, ?_⟩, fun x k hk => ?_, h.nodup, h.duplicates_concluded hr adopts,
    fun part hpart other => h.isolated_concluded hr adopts hpart, h.apart_concluded hr adopts,
    fun part => h.mem_children_concluded hr⟩
  · rw [hr.get?_concluded h.nodup, get?_insert_nextId, Option.map_some, if_pos rfl]
    rfl
  · have hx : x ≠ m.nextId := fun heq => hnew (heq ▸ contains_of_get? hk)
    rw [h.get?_concluded_old hr adopts hk hx, if_neg fun hor => Bool.false_ne_true hor.1]

end Copies

end Assembly

namespace Assembly.Reachable

variable {a : Assembly}

/-- With copies a composition of what a reachable assembly contains always succeeds, whatever the
    operands have to do with each other and with the component: they may be repeated, be owned, or
    be made of it.

    Nothing that was there changes, but for the component if the composition is recorded there, and
    what is recorded are isolated copies, one for each mention of an operand and, if the target is
    new, one more for the component. `CopiesComposed` says this part by part, for the target that
    records the composition and the parts that it records. -/
theorem compose_copies (h : a.Reachable) {id : ComponentId} (hid : a.contains id = true)
    (operator : Operator) {operands : List ComponentId}
    (hoperands : ∀ operand ∈ operands, a.contains operand = true) (inPlace adopts : Bool) :
    ∃ target b parts,
      (Edit.compose id operator operands { copies := true, inPlace, adopts }).Yields a target b ∧
        a.CopiesComposed b id operator operands inPlace adopts target parts := by
  have hwf := h.wellFormed
  rcases Edit.copies_yields hwf hwf (Extends.refl a none)
    (Edit.contains_of_mem_involved hid hoperands inPlace) with
    ⟨parts, m, hyields, hm, hext, hdups, hapart⟩
  have hcopies : a.Copies m _ parts := ⟨hwf, hm, hext, hdups, hapart⟩
  cases inPlace with
  | true =>
      have hcheck := hcopies.fresh.checkInPlace_eq_ok hm hid (hext.contains id hid) adopts
      exact ⟨id, _, parts, Edit.compose_copies_yields hid hoperands hyields
        (Edit.composeOn_yields ⟨operator, parts⟩ hcheck),
        hcopies.composed_inPlace hid operator adopts⟩
  | false =>
      have hfree : ∀ part ∈ parts, m.checkFree part = .ok () := fun part hpart =>
        hcopies.fresh.checkFree_eq_ok hpart
      exact ⟨m.nextId, _, parts, Edit.compose_copies_yields hid hoperands hyields
        (Edit.composeNew_yields ⟨operator, parts⟩ adopts hfree),
        hcopies.composed_anew operator adopts⟩

/-- A sphere is united with the component it belongs to and with itself, twice over, and each time
    it is mentioned there is another copy. -/
theorem compose_copies_owner :
    let sphere : Shape := .sphere 1
    let operands : List ComponentId := [⟨2⟩, ⟨1⟩, ⟨1⟩]
    let parts : List ComponentId := [⟨3⟩, ⟨5⟩, ⟨6⟩, ⟨7⟩]
    let a : Assembly := ⟨#[{ parent := some ⟨2⟩, shape := some sphere }, { children := [⟨1⟩] }]⟩
    let b : Assembly := ⟨#[
      { parent := some ⟨2⟩, shape := some sphere },
      { children := [⟨1⟩] },
      { parent := some ⟨8⟩, children := [⟨4⟩] },
      { parent := some ⟨3⟩, shape := some sphere },
      { parent := some ⟨8⟩, shape := some sphere },
      { parent := some ⟨8⟩, shape := some sphere },
      { parent := some ⟨8⟩, shape := some sphere },
      { children := parts, compositions := [⟨.union, parts⟩] }]⟩
    a.Reachable ∧ a.contains ⟨1⟩ = true ∧ (∀ operand ∈ operands, a.contains operand = true) ∧
      (Edit.compose ⟨1⟩ .union operands { copies := true, inPlace := false }).Yields a ⟨8⟩ b ∧
      a.CopiesComposed b ⟨1⟩ .union operands false true ⟨8⟩ parts := by
  intro sphere operands parts a b
  have h : a.Reachable := (Reachable.empty.step (.add sphere)).step (.create { children := [⟨1⟩] })
  have hoperands : ∀ operand ∈ operands, a.contains operand = true := by decide
  have hmade : (Edit.compose ⟨1⟩ .union operands { copies := true, inPlace := false }).Yields
      a ⟨8⟩ b := ⟨by decide +kernel, by decide +kernel⟩
  rcases h.compose_copies (show a.contains ⟨1⟩ = true from rfl) .union hoperands false true with
    ⟨target, b', parts', hyields, hcomposed⟩
  cases hyields.assembly.symm.trans hmade.assembly
  cases hyields.result.symm.trans hmade.result
  have hparts : parts = parts' :=
    congrArg Component.children (Option.some.inj hcomposed.recorded.2)
  exact ⟨h, rfl, hoperands, hmade, hparts ▸ hcomposed⟩

end Assembly.Reachable

end SolidModel
