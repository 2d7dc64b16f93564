/-!
# Component Ids

The names of components within an assembly.

Components are numbered from one in the order in which they were made, and are never removed,
so that a number names the same component for the whole life of an assembly. Any number is an
id. Whether it names something is a question to an assembly.

## Main definitions

* `ComponentId`: The number of a component.
* `ComponentId.record`: The record form.
-/

namespace SolidModel

/-- The number of a component, counted from one. -/
structure ComponentId where
  /-- The place in the table, counted from one. Whether anything is there is another question. -/
  number : Nat
deriving DecidableEq, Repr

namespace ComponentId

/-- The record form. Numbers are never used again, so every component is the first version of
    its number. -/
def record (id : ComponentId) : String := "ComponentId(" ++ toString id.number ++ "v1)"

/-- The record form of a list of ids. -/
def listRecord (ids : List ComponentId) : String :=
  "[" ++ String.intercalate ", " (ids.map record) ++ "]"

end ComponentId

end SolidModel
