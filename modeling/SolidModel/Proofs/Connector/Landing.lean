import SolidModel.Connector.Align
import SolidModel.Proofs.Float.Close
import SolidModel.Proofs.Success
import SolidModel.Proofs.Vec3.Length

/-!
# Landing

The last step of an alignment, which brings the points together.

The offset is the difference of the points, and to apply it is to add the difference to the first
of them. With floats that need not give the second one: the difference is rounded, and so is the
sum. But both errors are small in terms of the coordinates. As long as the target is within a
million units of the origin and the other point is not much farther away, the result is close to
the target, even where the target has a coordinate of zero and closeness allows for nothing but
the absolute tolerance.

What happens to the directions is another matter. The offset leaves them alone, so that they are
what the two turns before it have made of them.

## Main definitions

* `Connector.turns`: The turns of an alignment, and where they lead.

## Theorems

* `Vec3.lands`: A point that the difference is added to is close to the target.
* `Connector.turns_of_steps`: Stage by stage.
* `Connector.align_result_eq`: An alignment is its turns and the offset that is left.
* `Connector.offset_lands`: The offset is found, and it leads to the target.
-/

namespace SolidModel

/-- Adding a difference leads to what the difference was taken from. -/
theorem float_lands {p q : Float} (hp : p.isFinite = true) (hq : q.isFinite = true)
    (hsize : |value p| ≤ 2 ^ (25 : ℤ)) (hsize' : |value q| ≤ 10 ^ 6) :
    (q - p).isFinite = true ∧ (p + (q - p)).isFinite = true ∧
      Tolerance.standard.isClose (p + (q - p)) q = true := by
  have hdistance : |value q - value p| ≤ 2 ^ (26 : ℤ) := by
    have htriangle := abs_sub (value q) (value p)
    norm_num at hsize ⊢
    linarith
  rcases rounds_sub hq hp (hdistance.trans (zpow_le_zpow_right₀ one_le_two (by norm_num))) with
    ⟨hfinite, hrounds⟩
  have herror := hrounds.abs_sub_le (by norm_num) hdistance
  -- The sum is near the target, so that it is rounded more finely than the difference.
  have hsum : |value p + value (q - p)| ≤ 2 ^ (20 : ℤ) := by
    have htriangle := abs_add_le (value q) (value (q - p) - (value q - value p))
    rw [show value q + (value (q - p) - (value q - value p)) = value p + value (q - p) by ring]
      at htriangle
    norm_num at herror ⊢
    linarith
  rcases rounds_add hp hfinite (hsum.trans (zpow_le_zpow_right₀ one_le_two (by norm_num))) with
    ⟨hfinite', hrounds'⟩
  have herror' := hrounds'.abs_sub_le (by norm_num) hsum
  refine ⟨hfinite, hfinite', isClose_of_value hfinite' hq (by norm_num at hsize' ⊢; linarith) ?_⟩
  have htriangle := abs_add_le (value (p + (q - p)) - (value p + value (q - p)))
    (value (q - p) - (value q - value p))
  rw [show value (p + (q - p)) - (value p + value (q - p)) + (value (q - p) - (value q - value p)) =
    value (p + (q - p)) - value q by ring] at htriangle
  norm_num at herror herror'
  linarith

namespace Vec3

/-- A point that the difference is added to is close to the target. Both the difference and the sum
    are rounded, but in terms of coordinates that are bounded, and the tolerance is far above
    that. -/
theorem lands {p q : Vec3} (hp : p.Inside (2 ^ (25 : ℤ))) (hq : q.Inside (10 ^ 6)) :
    (q - p).Finite ∧ (p + (q - p)).Finite ∧ (p + (q - p)).isClose q = true := by
  have hx := float_lands hp.finite.1 hq.finite.1 hp.x hq.x
  have hy := float_lands hp.finite.2.1 hq.finite.2.1 hp.y hq.y
  have hz := float_lands hp.finite.2.2 hq.finite.2.2 hp.z hq.z
  refine ⟨⟨hx.1, hy.1, hz.1⟩, ⟨hx.2.1, hy.2.1, hz.2.1⟩, ?_⟩
  have hclose : (p + (q - p)).isClose q = (Tolerance.standard.isClose (p.x + (q.x - p.x)) q.x &&
      Tolerance.standard.isClose (p.y + (q.y - p.y)) q.y &&
      Tolerance.standard.isClose (p.z + (q.z - p.z)) q.z) := rfl
  rw [hclose, hx.2.2, hy.2.2, hz.2.2]
  rfl

end Vec3

namespace Connector

theorem tellStep_result (source : Connector) (stage : AlignStage) (step? : Option Transformation) :
    (tellStep source stage step?).result = .ok () := by
  cases step? <;> rfl

variable [Trigonometry]

/-- The turns of an alignment, and the connector that they lead to. -/
def turns (c target : Connector) : Except PlacementError (List Transformation × Connector) := do
  let axisStep ← (axisStep? c target).result.mapError .degenerate
  let working ← c.moveAll axisStep.toList
  let rollStep ← (rollStep? working target).result.mapError .degenerate
  let working ← working.moveAll rollStep.toList
  pure (axisStep.toList ++ rollStep.toList, working)

theorem moveAll_append (c : Connector) (steps others : List Transformation) :
    c.moveAll (steps ++ others) = c.moveAll steps >>= fun moved => moved.moveAll others := by
  induction steps generalizing c with
  | nil => rfl
  | cons step rest ih =>
      rw [List.cons_append, moveAll, moveAll]
      cases c.move step with
      | error e => rfl
      | ok moved => exact ih moved

/-- A step that is there is the only one. -/
theorem moveAll_toList_some {c w : Connector} {step : Transformation} (h : c.move step = .ok w) :
    c.moveAll (some step).toList = .ok w := by
  rw [Option.toList_some, moveAll, h]
  rfl

theorem move_rotateAbout (c : Connector) (degrees : Float) (pole : Vec3) :
    c.move (.rotateAbout degrees pole) =
      (pole.normalized >>= c.rotateAbout degrees).mapError .degenerate := rfl

/-- A connector is turned by turning its vectors. -/
theorem rotateAbout_eq_ok_iff {c w : Connector} {degrees : Float} {pole : Vec3} :
    c.rotateAbout degrees pole = .ok w ↔ c.point.rotate degrees pole = .ok w.point ∧
      c.axis.rotate degrees pole = .ok w.axis ∧ c.normal.rotate degrees pole = .ok w.normal := by
  rw [rotateAbout, Except.bind_eq_ok_iff]
  constructor
  · rintro ⟨point, hpoint, h⟩
    rcases Except.bind_eq_ok_iff.mp h with ⟨axis, haxis, h⟩
    rcases Except.bind_eq_ok_iff.mp h with ⟨normal, hnormal, h⟩
    cases h
    exact ⟨hpoint, haxis, hnormal⟩
  · rintro ⟨hpoint, haxis, hnormal⟩
    exact ⟨w.point, hpoint, Except.bind_eq_ok_iff.mpr ⟨w.axis, haxis,
      Except.bind_eq_ok_iff.mpr ⟨w.normal, hnormal, rfl⟩⟩⟩

theorem takeStep_result (source working : Connector) (stage : AlignStage)
    (step? : Option Transformation) :
    (takeStep source working stage step?).result = working.moveAll step?.toList := by
  rw [takeStep, Logged.bind_result, tellStep_result]
  rfl

/-- An alignment is its turns and the offset that is left. -/
theorem align_result_eq (c target : Connector) :
    (c.align target).result = c.turns target >>= fun turned =>
      (offsetStep? turned.2 target).mapError .degenerate >>= fun step? =>
        pure (turned.1 ++ step?.toList) := by
  unfold align turns
  simp only [Logged.bind_result, takeStep_result, tellStep_result, Logged.ofExcept_result,
    Logged.mapError, bind_assoc, pure_bind]
  rfl

/-- An alignment has the turns that its stages have. -/
theorem turns_of_steps {c target working w : Connector} {axisStep rollStep : Option Transformation}
    (haxisStep : (axisStep? c target).result = .ok axisStep)
    (hworking : c.moveAll axisStep.toList = .ok working)
    (hrollStep : (rollStep? working target).result = .ok rollStep)
    (hw : working.moveAll rollStep.toList = .ok w) :
    c.turns target = .ok (axisStep.toList ++ rollStep.toList, w) := by
  rw [turns, haxisStep]
  change c.moveAll axisStep.toList >>= _ = _
  rw [hworking]
  change (rollStep? working target).result.mapError _ >>= _ = _
  rw [hrollStep]
  change working.moveAll rollStep.toList >>= _ = _
  rw [hw]
  rfl

/-- The turns lead where they are said to lead. -/
theorem moveAll_of_turns {c target w : Connector} {steps : List Transformation}
    (h : c.turns target = .ok (steps, w)) : c.moveAll steps = .ok w := by
  rcases Except.bind_eq_ok_iff.mp h with ⟨axisStep, _, h⟩
  rcases Except.bind_eq_ok_iff.mp h with ⟨working, hworking, h⟩
  rcases Except.bind_eq_ok_iff.mp h with ⟨rollStep, _, h⟩
  rcases Except.bind_eq_ok_iff.mp h with ⟨working', hworking', h⟩
  cases h
  rw [moveAll_append, hworking]
  exact hworking'

/-- What an alignment leads to has the directions that its turns lead to. -/
theorem directions_of_align {c target moved : Connector} {steps : List Transformation}
    (h : (c.align target).result = .ok steps) (hmoved : c.moveAll steps = .ok moved) :
    ∃ turned w, c.turns target = .ok (turned, w) ∧
      moved.axis = w.axis ∧ moved.normal = w.normal := by
  rw [align_result_eq] at h
  rcases Except.bind_eq_ok_iff.mp h with ⟨⟨turned, w⟩, hturns, h⟩
  rcases Except.bind_eq_ok_iff.mp h with ⟨offset?, hoffset, h⟩
  cases h
  rw [moveAll_append, moveAll_of_turns hturns] at hmoved
  refine ⟨turned, w, hturns, ?_⟩
  change w.moveAll offset?.toList = .ok moved at hmoved
  unfold offsetStep? at hoffset
  split at hoffset
  · cases hoffset
    cases hmoved
    exact ⟨rfl, rfl⟩
  · cases hchecked : (target.point - w.point).checked with
    | error e =>
        rw [hchecked] at hoffset
        cases hoffset
    | ok offset =>
        rw [hchecked] at hoffset
        cases hoffset
        rcases Except.bind_eq_ok_iff.mp hmoved with ⟨landed, hlanded, hend⟩
        cases hend
        -- An offset concerns the point alone.
        cases hpoint : (w.point + offset).checked with
        | error e =>
            rw [move, withPoint, hpoint] at hlanded
            cases hlanded
        | ok point =>
            rw [move, withPoint, hpoint] at hlanded
            cases hlanded
            exact ⟨rfl, rfl⟩

/-- The offset is found, and it leads to the target without touching the directions. If the points
    are close already there is none, and nothing has to be led. -/
theorem offset_lands {w target : Connector} (hw : w.point.Inside (2 ^ (25 : ℤ)))
    (htarget : target.point.Inside (10 ^ 6)) :
    ∃ offset? moved, offsetStep? w target = .ok offset? ∧ w.moveAll offset?.toList = .ok moved ∧
      moved.point.isClose target.point = true ∧ moved.axis = w.axis ∧ moved.normal = w.normal := by
  rcases Vec3.lands hw htarget with ⟨hoffset, hfinite, hlands⟩
  by_cases hclose : w.point.isClose target.point = true
  · exact ⟨none, w, if_pos hclose, rfl, hclose, rfl, rfl⟩
  · refine ⟨some (.translate (target.point - w.point)),
      { w with point := w.point + (target.point - w.point) }, ?_, ?_, hlands, rfl, rfl⟩
    · rw [offsetStep?, if_neg hclose, hoffset.checked]
      rfl
    · have hmove : w.move (.translate (target.point - w.point)) =
          .ok { w with point := w.point + (target.point - w.point) } := by
        rw [move, withPoint, hfinite.checked]
        rfl
      exact moveAll_toList_some hmove

/-- Where the turns of an alignment lead to a place in range, the alignment succeeds, and so do its
    steps. The points are close then, and the directions are as the turns have left them. -/
theorem align_of_turns {c target w : Connector} {turned : List Transformation}
    (h : c.turns target = .ok (turned, w)) (hw : w.point.Inside (2 ^ (25 : ℤ)))
    (htarget : target.point.Inside (10 ^ 6)) :
    ∃ steps moved, (c.align target).result = .ok steps ∧ c.moveAll steps = .ok moved ∧
      moved.point.isClose target.point = true ∧ moved.axis = w.axis ∧ moved.normal = w.normal := by
  rcases offset_lands hw htarget with ⟨offset?, moved, hoffset, hmoved, hclose, haxis, hnormal⟩
  refine ⟨turned ++ offset?.toList, moved, ?_, ?_, hclose, haxis, hnormal⟩
  · rw [align_result_eq, h]
    change (offsetStep? w target).mapError _ >>= _ = _
    rw [hoffset]
    rfl
  · rw [moveAll_append, moveAll_of_turns h]
    exact hmoved

end Connector

end SolidModel
