import SolidModel.Proofs.Assembly.Append
import SolidModel.Proofs.Assembly.Reachable
import SolidModel.Proofs.Connector.Turns
import SolidModel.Proofs.Vec3.Carry
import SolidModel.ReferenceFrame

/-!
# The Arrows of a Reference Frame

That an arrow can always be made.

To make an arrow is a sequence of edits, and half of them might fail: two components have to have
anchors, two connectors have to be aligned, a direction has to be found. None of it fails on
trigonometric functions that are what they are meant to be. The tip stands in the orientation of the
world, as the shaft does, so that it is only lifted. And an axis of length one gives a connector
with directions of length one, onto which the world can be turned.

What an arrow is like depends on nothing but its axis. So the outcome can be told as a list of three
components that have been appended to the assembly.

## Main definitions

* `Edit.Commanded`: An edit does nothing but what commands do.
* `ReferenceFrame.Turns`: The steps that turn an arrow onto its axis.
* `ReferenceFrame.arrow`: An arrow as a list of components.

## Theorems

* `ReferenceFrame.turns_found`: There are steps for every axis of length one.
* `ReferenceFrame.arm_yields`: An arrow is appended.
* `ReferenceFrame.arm_commanded`: Whatever becomes of it, commands have done it.
-/

namespace SolidModel

theorem Vec3.origin_inside {bound : ℝ} (h : 0 ≤ bound) : origin.Inside bound := by
  have hzero : |value 0.0| ≤ bound := by
    rw [value_zero, abs_zero]
    exact h
  exact ⟨⟨rfl, rfl, rfl⟩, hzero, hzero, hzero⟩

namespace Edit

variable {α β : Type}

/-- The edit does nothing but what commands do, also where it fails. -/
def Commanded (e : Edit α) : Prop := ∀ a : Assembly, a.Reachable → (e a).assembly.Reachable

namespace Commanded

theorem pure (value : α) : Commanded (Pure.pure value : Edit α) := fun _ h => h

theorem ask (question : Assembly → Logged AssemblyError α) : Commanded (Edit.ask question) :=
  fun _ h => h

theorem bind {first : Edit α} {next : α → Edit β} (h : Commanded first)
    (hnext : ∀ value, Commanded (next value)) : Commanded (first >>= next) := by
  intro a ha
  exact bind_keeps (h a ha) fun value _ => hnext value _ (h a ha)

/-- It does not matter what a command hands on. -/
theorem of_map {e : Edit α} {f : α → β} (h : Commanded (f <$> e)) : Commanded e := by
  intro a ha
  have hsame : ((f <$> e) a).assembly = (e a).assembly :=
    map_keeps (I := fun b => b = (e a).assembly) rfl
  exact hsame ▸ h a ha

theorem add (shape : Shape) : Commanded (Edit.add shape) :=
  of_map (f := some) fun _ h => h.step (.add shape)

theorem create (draft : Draft) : Commanded (Edit.create draft) :=
  of_map (f := some) fun _ h => h.step (.create draft)

theorem transform (id : ComponentId) (steps : List Transformation) :
    Commanded (Edit.transform id steps) :=
  of_map (f := fun _ => none) fun _ h => h.step (.transform id steps)

end Commanded

end Edit

namespace ReferenceFrame

open Assembly Edit

/-- The seat of a tip on its shaft, in the directions of the world. -/
def seat : Connector := { Connector.world with point := ⟨0, 0, 2⟩ }

theorem shaft_top : shaft.anchor .top = .ok (some seat) := by decide +kernel

theorem shaft_bottom : shaft.anchor .bottom = .ok (some .world) := by decide +kernel

theorem tip_bottom : tip.anchor .bottom = .ok (some .world) := by decide +kernel

/-- The components of an arrow after `n` others: the shaft, the tip, and the arrow itself. -/
def arrow (n : Nat) (color : Color) (turn : List Transformation) (frame : Option ComponentId) :
    List Component :=
  [{ parent := some ⟨n + 3⟩, shape := some shaft },
    { parent := some ⟨n + 3⟩, shape := some tip, direct := [.translate ⟨0, 0, 2⟩] },
    { parent := frame, children := [⟨n + 1⟩, ⟨n + 2⟩], direct := turn, color := some color }]

/-- A shaft and a tip become the children of an arrow. -/
theorem create_arrow (a : Assembly) (color : Color) {parts : List Component} (hparts : parts =
      [{ shape := some shaft }, { shape := some tip, direct := [.translate ⟨0, 0, 2⟩] }]) :
    (Edit.create { children := [a.nth 0, a.nth 1], color := some color }).Yields (a.append parts)
      (a.nth 2) (a.append (arrow a.size color [] none)) := by
  have hcheck : (a.append parts).checkDraft
      { children := [a.nth 0, a.nth 1], color := some color } = .ok () := by
    rw [checkDraft, Except.check_bind_eq_ok_iff, Except.forM_eq_ok_iff]
    refine ⟨fun child hchild => ?_, rfl⟩
    rw [List.mem_pair] at hchild
    rcases hchild with rfl | rfl
    · exact checkFree_append (k := 0) (by rw [hparts]; rfl) rfl
    · exact checkFree_append (k := 1) (by rw [hparts]; rfl) rfl
  have hyields := create_yields hcheck
  rw [nextId_append, insert_append, hparts] at hyields
  simp only [Assembly.linkAll, List.foldl, List.length, Nat.reduceAdd, link_append_nth] at hyields
  rw [hparts]
  convert hyields using 2
  simp [arrow, nth, Component.adopting, Draft.component]

section Arms

variable [t : Trigonometry]

/-- The steps turn the world onto the connector along an axis. -/
def Turns (axis : Vec3) (turn : List Transformation) : Prop :=
  ∃ direction, (Connector.ofAxis .origin axis 0.0).result = .ok direction ∧
    (Connector.world.align direction).result = .ok turn

/-- The connector along an axis is found, and its directions have length one. -/
theorem direction_found (accurate : t.Accurate) {axis : Vec3} (haxis : axis.Normed 0) :
    ∃ direction, (Connector.ofAxis .origin axis 0.0).result = .ok direction ∧
      direction.point = .origin ∧ direction.axis.Normed (2 ^ (-44 : ℤ)) ∧
      direction.normal.Normed (1 / 4) := by
  have hzero : |value 0.0| ≤ 2 ^ (8 : ℤ) := by
    rw [value_zero, abs_zero]
    positivity
  rcases Vec3.normalized_normed (haxis.weaken (by positivity)) with ⟨unit, hunit, hunormed, _⟩
  rcases Vec3.axisX_normed.rotate accurate (by norm_num)
    (Vec3.axisZ_normed.weaken (by positivity)) rfl hzero with ⟨rolled, hrolled, hrnormed⟩
  rcases Vec3.alignmentRotation_normed accurate (hrnormed.weaken (by norm_num : _ ≤ (1 / 4 : ℝ)))
    (Vec3.axisZ_normed.weaken (by norm_num)) (hunormed.weaken (by norm_num)) le_rfl with
    ⟨angle, pole, hturn, hfinite, hsize, hpole⟩
  rcases hrnormed.rotate accurate (by norm_num) hpole hfinite hsize with ⟨normal, hnormal, hnnormed⟩
  -- Every stage has given what it should, and they are taken one after the other.
  refine ⟨⟨.origin, unit, normal⟩, ?_, rfl, hunormed, hnnormed.weaken (by norm_num)⟩
  unfold Connector.ofAxis
  have hdirection : axis.checked.bind Vec3.normalized = .ok unit := by
    rw [haxis.finite.checked]
    exact hunit
  have hcarried : (rolled.rotateToAlignment .axisZ unit).result = .ok normal :=
    Logged.bind_eq_ok_iff.mpr ⟨(angle, pole), hturn, hnormal⟩
  refine Logged.bind_eq_ok_iff.mpr ⟨unit, hdirection, ?_⟩
  refine Logged.bind_eq_ok_iff.mpr ⟨rolled, hrolled, ?_⟩
  refine Logged.bind_eq_ok_iff.mpr ⟨normal, hcarried, ?_⟩
  exact Logged.bind_eq_ok_iff.mpr ⟨.origin, rfl, rfl⟩

/-- An arrow can be turned onto every axis of length one. This is where accurate functions are
    needed: on others even the axes of the world could fail to be turned onto. -/
theorem turns_found (accurate : t.Accurate) {axis : Vec3} (haxis : axis.Normed 0) :
    ∃ turn, Turns axis turn := by
  rcases direction_found accurate haxis with ⟨direction, hdirection, hpoint, hnaxis, hnnormal⟩
  have hworld : Connector.world.Framed 0 0 :=
    ⟨Vec3.origin_inside (by positivity), Vec3.axisZ_normed, Vec3.axisX_normed⟩
  rcases Connector.turns_framed accurate hworld le_rfl (by norm_num) (by norm_num) hnaxis
      hnnormal with
    ⟨turned, w, hturned, hframed⟩
  have hgoal : direction.point.Inside (10 ^ 6) := by
    rw [hpoint]
    exact Vec3.origin_inside (by positivity)
  rcases Connector.align_of_turns hturned (hframed.point.mono (by norm_num)) hgoal with
    ⟨turn, _, hturn, _⟩
  exact ⟨turn, direction, hdirection, hturn⟩

/-- A tip only has to be lifted onto its shaft. -/
theorem lift_found : (Connector.world.align seat).result = .ok [.translate ⟨0, 0, 2⟩] := by
  have haxis : Connector.world.axis.isClose seat.axis = true := by decide +kernel
  have hnormal : Connector.world.normal.isClose seat.normal = true := by decide +kernel
  have hoffset : Connector.offsetStep? .world seat = .ok (some (.translate ⟨0, 0, 2⟩)) := by
    decide +kernel
  have hturns : Connector.world.turns seat = .ok ([], .world) := by
    rw [Connector.turns, Connector.axisStep?, if_pos haxis]
    change (Connector.rollStep? .world seat).result.mapError _ >>= _ = _
    rw [Connector.rollStep?, if_pos hnormal]
    rfl
  rw [Connector.align_result_eq, hturns]
  change (Connector.offsetStep? .world seat).mapError _ >>= _ = _
  rw [hoffset]
  rfl

theorem alignment_yields {c target : Connector} {steps : List Transformation}
    (h : (c.align target).result = .ok steps) (a : Assembly) :
    (alignment c target).Yields a steps a := by
  refine ⟨?_, rfl⟩
  change (c.align target).result.mapError _ = _
  rw [h]
  rfl

/-- Before an arrow is turned, the foot of its shaft is where the world has it. -/
theorem anchor_arrow (a : Assembly) (color : Color) :
    (a.append (arrow a.size color [] none)).anchor (a.nth 0) .bottom = .ok .world := by
  let b := a.append (arrow a.size color [] none)
  have hshaft : b.get? (a.nth 0) = some { parent := some (a.nth 2), shape := some shaft } :=
    get?_append_nth a _ 0
  have harm : b.get? (a.nth 2) = some { children := [a.nth 0, a.nth 1], color := some color } :=
    get?_append_nth a _ 2
  have hsize : 0 < b.size := by
    rw [size_append]
    exact Nat.succ_pos _
  refine anchor_of_still hshaft rfl shaft_bottom fun other hother => ?_
  rw [ancestors_below_root (parent?_of_get? hshaft) (parent?_of_get? harm) hsize, List.mem_pair]
    at hother
  rcases hother with rfl | rfl
  · exact direct_of_get? hshaft
  · exact direct_of_get? harm

/-- An arrow is made at the end of the table, if it can be turned. -/
theorem arm_yields (a : Assembly) {axis : Vec3} {turn : List Transformation} (h : Turns axis turn)
    (color : Color) :
    (arm axis color).Yields a (a.nth 2) (a.append (arrow a.size color turn none)) := by
  rcases h with ⟨direction, hdirection, hturn⟩
  let made : Assembly := a.append [{ shape := some shaft }, { shape := some tip }]
  have hshaft : (add shaft).Yields a (a.nth 0) (a.append [{ shape := some shaft }]) :=
    Yields.insert _ a
  have htip : (add tip).Yields (a.append [{ shape := some shaft }]) (a.nth 1) made :=
    insert_append_yields a _ _
  -- The tip is lifted onto the shaft.
  have hseat : made.anchor (a.nth 0) .top = .ok seat :=
    anchor_append_of_still rfl rfl shaft_top rfl rfl
  have hfoot : made.anchor (a.nth 1) .bottom = .ok .world :=
    anchor_append_of_still rfl rfl tip_bottom rfl rfl
  have hlift := transform_yields (contains_of_get? (get?_append_nth a
    [{ shape := some shaft }, { shape := some tip }] 1)) [.translate ⟨0, 0, 2⟩]
  rw [modify_append_nth] at hlift
  -- Both are turned together, as the arrow that they are children of.
  have hface : (Edit.ofLogged ((Connector.ofAxis .origin axis 0.0).mapError .vector)).Yields
      (a.append (arrow a.size color [] none)) direction
      (a.append (arrow a.size color [] none)) := by
    refine ⟨?_, rfl⟩
    change (Connector.ofAxis .origin axis 0.0).result.mapError _ = _
    rw [hdirection]
    rfl
  have hturned := transform_yields (contains_of_get?
    (get?_append_nth a (arrow a.size color [] none) 2)) turn
  rw [modify_append_nth] at hturned
  exact hshaft.bind (htip.bind ((Yields.read hseat).bind ((Yields.read hfoot).bind
    ((alignment_yields lift_found made).bind (hlift.bind ((create_arrow a color rfl).bind
      (hface.bind ((Yields.read (anchor_arrow a color)).bind ((alignment_yields hturn _).bind
        (hturned.bind (Yields.pure _ _)))))))))))

/-- To make an arrow is a sequence of commands, wherever it breaks off. So what is left behind is as
    well-formed as anything that commands make, even where nothing is known of the functions. -/
theorem arm_commanded (axis : Vec3) (color : Color) : Commanded (arm axis color) := by
  unfold arm
  refine .bind (.add _) fun shaft => .bind (.add _) fun tip => ?_
  refine .bind (.ask _) fun seat => .bind (.ask _) fun foot => .bind (.ask _) fun steps => ?_
  refine .bind (.transform tip steps) fun _ => .bind (.create _) fun arm => ?_
  refine .bind (.ask _) fun direction => .bind (.ask _) fun foot => .bind (.ask _) fun steps => ?_
  exact .bind (.transform arm steps) fun _ => .pure arm

end Arms

end ReferenceFrame

end SolidModel
