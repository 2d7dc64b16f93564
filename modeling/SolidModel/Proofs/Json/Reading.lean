import SolidModel.Proofs.Json.Echo

/-!
# Reading the Tokens of a Value

Every value is read off its own tokens.

The reader has no recursion, so the recursion over the value is in the proof. What is claimed of a
value has to hold inside other values too: with any lists and objects open around it and any tokens
behind it, its tokens take the reader from the state that waits for a value to the state in which
this value has just been delivered. Only how many lists and objects are open matters, and only for
whether the value is too deep.

The same is claimed of the rest of a list and of the rest of an object. There it matters what came
before, since that is what the reader keeps.

## Main definitions

* `Json.tokens`: The tokens of a value.

## Theorems

* `Json.run_tokens`: The tokens of a value lead to its delivery.
* `Json.ofTokens?_tokens`: A value is read off its tokens, cut where it is too deep.
-/

namespace SolidModel

namespace Json

mutual

/-- The tokens of a value. One that is unreadable is spelled as a number that is too large. -/
def tokens : Json → List Token
  | .null => [.null]
  | .bool b => [.bool b]
  | .natural n => [.natural n]
  | .number x => [.number (some x)]
  | .string s => [.string (some s)]
  | .unreadable => [.number none]
  | .array [] => [.openArray, .closeArray]
  | .array (item :: rest) => .openArray :: (tokens item ++ itemTokens rest)
  | .object [] => [.openObject, .closeObject]
  | .object (field :: rest) => .openObject :: (fieldTokens field ++ fieldsTokens rest)

/-- The tokens of the items after the first, and the end of the list. -/
def itemTokens : List Json → List Token
  | [] => [.closeArray]
  | item :: rest => .comma :: (tokens item ++ itemTokens rest)

/-- The tokens of a field. -/
def fieldTokens : String × Json → List Token
  | (key, value) => .string (some key) :: .colon :: tokens value

/-- The tokens of the fields after the first, and the end of the object. -/
def fieldsTokens : List (String × Json) → List Token
  | [] => [.closeObject]
  | field :: rest => .comma :: (fieldTokens field ++ fieldsTokens rest)

end

theorem run_cons {reading next : Reading} {token : Token} {ts : List Token}
    (h : reading.step token = some next) : reading.run (token :: ts) = next.run ts := by
  rw [Reading.run, h, Option.bind_some]

/-- A list or an object is kept if it is not inside too many others. -/
theorem close_eq (value : Json) (stack : List Frame) :
    Reading.close value stack =
      .deliver (if stack.length < maxDepth then value else .unreadable) stack := by
  have hiff : (stack.drop (maxDepth - 1)).isEmpty = true ↔ stack.length < maxDepth := by
    rw [List.isEmpty_iff, List.drop_eq_nil_iff]
    exact Nat.le_sub_one_iff_lt (by decide)
  rw [Reading.close]
  simp only [hiff]

/-- Fields as the reader holds them, their keys readable. -/
def withKeys (fields : List (String × Json)) : List (Option String × Json) :=
  fields.map fun field => (some field.1, field.2)

theorem mapM_withKeys {read : Option String × Json → Option (String × Json)}
    (hread : ∀ key value, read (some key, value) = some (key, value))
    (fields : List (String × Json)) : (withKeys fields).mapM read = some fields := by
  induction fields with
  | nil => rfl
  | cons field rest ih =>
      rw [withKeys] at ih
      rw [withKeys, List.map_cons, List.mapM_cons, ih, hread]
      rfl

theorem ofFields_withKeys (fields : List (String × Json)) :
    ofFields (withKeys fields) = .object fields := by
  rw [ofFields, mapM_withKeys fun _ _ => rfl]

theorem tokens_ne_closeArray (value : Json) :
    ∃ token ts, value.tokens = token :: ts ∧ token ≠ .closeArray := by
  rcases value with _ | _ | _ | _ | _ | (_ | _) | (_ | _) | _ <;>
    exact ⟨_, _, rfl, by simp⟩

/-- No value begins with the end of a list, so that waiting for a first item is no different from
    waiting for any other. -/
theorem run_firstItem (value : Json) (stack : List Frame) (ts : List Token) :
    (Reading.firstItem stack).run (value.tokens ++ ts) =
      (Reading.value (.item [] :: stack)).run (value.tokens ++ ts) := by
  rcases tokens_ne_closeArray value with ⟨token, ts', heq, hne⟩
  have hstep : (Reading.firstItem stack).step token =
      (Reading.value (.item [] :: stack)).step token := by
    cases token <;> first | rfl | exact absurd rfl hne
  rw [heq, List.cons_append, Reading.run, Reading.run, hstep]

mutual

/-- The tokens of a value lead to its delivery. The stack holds the lists and objects that are open
    around the value, and its height is how much of the depth is used up. By induction on the value,
    with the tokens behind it carried along. -/
theorem run_tokens (value : Json) (stack : List Frame) (ts : List Token) :
    (Reading.value stack).run (value.tokens ++ ts) =
      (Reading.deliver (value.cut stack.length) stack).run ts := by
  cases value with
  | array items =>
      rw [cut, ← close_eq]
      cases items with
      | nil => rfl
      | cons item rest =>
          -- The item is delivered into the frame of the list, which then waits for the rest.
          have hitem := run_tokens item (.item [] :: stack) (itemTokens rest ++ ts)
          have hrest := run_itemTokens rest [item.cut (stack.length + 1)] stack ts
          rw [tokens, List.cons_append, List.append_assoc, cutItems]
          exact (run_cons rfl).trans ((run_firstItem item stack _).trans (hitem.trans hrest))
  | object fields =>
      rw [cut, ← close_eq]
      cases fields with
      | nil => rfl
      | cons field rest =>
          rcases field with ⟨key, value⟩
          have hvalue := run_tokens value (.field [] (some key) :: stack) (fieldsTokens rest ++ ts)
          have hrest := run_fieldsTokens rest [(key, value.cut (stack.length + 1))] stack ts
          rw [tokens, List.cons_append, List.append_assoc, fieldTokens, cutFields]
          exact (run_cons rfl).trans ((run_cons rfl).trans ((run_cons rfl).trans
            (hvalue.trans hrest)))
  | _ => exact run_cons rfl

/-- The tokens behind an item lead to the end of the list. -/
theorem run_itemTokens (items before : List Json) (stack : List Frame) (ts : List Token) :
    (Reading.afterItem before stack).run (itemTokens items ++ ts) =
      (Reading.close (.array (before.reverse ++ cutItems (stack.length + 1) items)) stack).run
        ts := by
  cases items with
  | nil =>
      rw [cutItems, List.append_nil]
      exact run_cons rfl
  | cons item rest =>
      have hitem := run_tokens item (.item before :: stack) (itemTokens rest ++ ts)
      have hrest := run_itemTokens rest (item.cut (stack.length + 1) :: before) stack ts
      rw [List.reverse_cons, List.append_assoc, List.singleton_append] at hrest
      rw [itemTokens, List.cons_append, List.append_assoc, cutItems]
      exact (run_cons rfl).trans (hitem.trans hrest)

/-- The tokens behind a field lead to the end of the object. -/
theorem run_fieldsTokens (fields before : List (String × Json)) (stack : List Frame)
    (ts : List Token) :
    (Reading.afterField (withKeys before).reverse stack).run (fieldsTokens fields ++ ts) =
      (Reading.close (.object (before ++ cutFields (stack.length + 1) fields)) stack).run ts := by
  cases fields with
  | nil =>
      have hclose : (Reading.afterField (withKeys before).reverse stack).step .closeObject =
          some (Reading.close (.object before) stack) := by
        rw [Reading.step, List.reverse_reverse, ofFields_withKeys]
      rw [cutFields, List.append_nil]
      exact run_cons hclose
  | cons field rest =>
      rcases field with ⟨key, value⟩
      -- The value is read with its field held open, and the rest once it is closed.
      have hvalue := run_tokens value (.field (withKeys before).reverse (some key) :: stack)
        (fieldsTokens rest ++ ts)
      have hrest := run_fieldsTokens rest (before ++ [(key, value.cut (stack.length + 1))]) stack ts
      rw [List.append_assoc, List.singleton_append, withKeys, List.map_append,
        List.reverse_append] at hrest
      rw [fieldsTokens, List.cons_append, List.append_assoc, fieldTokens, cutFields]
      exact (run_cons rfl).trans ((run_cons rfl).trans ((run_cons rfl).trans
        (hvalue.trans hrest)))

end

/-- A value is read off its tokens, cut where it is too deep. Nothing is open in the beginning, and
    so nothing is held. -/
theorem ofTokens?_tokens (value : Json) : ofTokens? value.tokens = some (value.cut 0) := by
  have hrun := run_tokens value [] []
  rw [List.append_nil] at hrun
  rw [ofTokens?, hrun]
  rfl

end Json

end SolidModel
