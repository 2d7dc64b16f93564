import SolidModel.Assembly.Create
import SolidModel.Assembly.Placement
import SolidModel.Connector.Align

/-!
# Reference Frames

A connector made visible.

A reference frame is a small ball with three arrows, red along the first axis, green along the
second and blue along the third. It is built from components like anything else: an arrow is a
shaft with a tip aligned to its end, and is aligned to its axis as a whole. Built in the
orientation of the world, a frame can be carried onto any connector afterwards.

A frame is not finished in one step. If its parent turns out to be unknown, its parts are there
already and stay.

## Main definitions

* `ReferenceFrame.arm`: An arrow along an axis.
* `ReferenceFrame.create`: A frame in the orientation of the world.
* `ReferenceFrame.createAt`: A frame on a connector.
-/

namespace SolidModel

variable [Trigonometry]

namespace ReferenceFrame

/-- The ball at the origin. -/
def ball : Shape := .sphere 1.0

/-- The shaft of an arrow. -/
def shaft : Shape := .ofCylinder 0.2 2.0 false

/-- The tip of an arrow. -/
def tip : Shape := .ofCone 0.3 0.3 false

/-- The steps that carry one connector onto another. -/
def alignment (c target : Connector) : Edit (List Transformation) :=
  Edit.ofLogged ((c.align target).mapError .placement)

/-- An arrow along an axis. -/
def arm (axis : Vec3) (color : Color) : Edit ComponentId := do
  let shaft ← Edit.add shaft
  let tip ← Edit.add tip
  -- The tip comes first onto the shaft, so that both can be turned together.
  let seat ← Edit.read fun a => a.anchor shaft .top
  let foot ← Edit.read fun a => a.anchor tip .bottom
  Edit.transform tip (← alignment foot seat)
  let arm ← Edit.create { children := [shaft, tip], color := some color }
  let direction ← Edit.ofLogged ((Connector.ofAxis .origin axis 0.0).mapError .vector)
  let foot ← Edit.read fun a => a.anchor shaft .bottom
  Edit.transform arm (← alignment foot direction)
  pure arm

/-- A frame in the orientation of the world, perhaps below a parent. -/
def create (parent : Option ComponentId) : Edit ComponentId := do
  let ball ← Edit.add ball
  let x ← arm .axisX (.rgb 1.0 0.0 0.0)
  let y ← arm .axisY (.rgb 0.0 1.0 0.0)
  let z ← arm .axisZ (.rgb 0.0 0.0 1.0)
  Edit.create { parent, children := [ball, x, y, z] }

/-- A frame carried onto a connector. -/
def createAt (c : Connector) (parent : Option ComponentId) : Edit ComponentId := do
  let frame ← create parent
  Edit.transform frame (← alignment .world c)
  pure frame

end ReferenceFrame

end SolidModel
