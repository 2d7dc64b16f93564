import SolidModel.Proofs.Body.Scad

/-!
# Source Text Is Laid Out

What can be seen of the source text of a body without knowing the body.

Whoever has nothing but the text cuts it into rows at the line ends and looks at one row after
another. The spaces that a row begins with are its margin. What it is shows at its end: a
statement ends in a semicolon, the header of a block in a brace behind a space, and the end of a
block is a brace and nothing else. Blocks opened less blocks closed make the depth. Nothing here is
taken from the lines that the text was made of, so what is said of rows is said of the text.

The induction runs over the tree and carries along the rows behind it. What follows a body is read
from the depth at which the body stands, because a body closes all that it opens. So the rows of a
block may be put in front of the row that closes it, and a header in front of those.

## Main definitions

* `Body.blockCount`: The number of nodes that are written as blocks.
* `Scad.margin`, `Scad.mark?`: The spaces before a row, and what the row is.
* `Scad.count`, `Scad.depthAfter`: What rows come to.
* `Scad.LaidOut`: Rows in their places, with every block closed.

## Theorems

* `Scad.LaidOut.cons`: A row put in front of others.
* `Scad.oneLine_head`, `Scad.exists_head_eq`: A call is in one line and begins with a letter.
* `Scad.laidOut_lines`: The rows of a body put in front of others.
* `Scad.count_lines`: What is counted in the rows is counted in the tree.
* `Scad.render_laidOut`: The text of a body is laid out, and nothing is missing from it.
-/

namespace SolidModel

namespace Body

mutual

/-- The number of nodes of a body that are no primitives. Each is written as a block. -/
def blockCount : Body → Nat
  | .primitive _ => 0
  | .composition _ operands => blockCountAll operands + 1
  | .moved _ child => blockCount child + 1
  | .colored _ child => blockCount child + 1

/-- The number of such nodes in a list of bodies. -/
def blockCountAll : List Body → Nat
  | [] => 0
  | body :: rest => blockCount body + blockCountAll rest

end

end Body

namespace Scad

/-! ## Rows -/

/-- What a row of source can be. -/
inductive Mark where
  /-- A complete statement. -/
  | statement
  /-- The header of a block. -/
  | opening
  /-- The end of a block. -/
  | closing
deriving DecidableEq

/-- The number of spaces that a row begins with. -/
def margin (row : List Char) : Nat := (row.takeWhile (· == ' ')).length

/-- What a row says behind those spaces. -/
def content (row : List Char) : List Char := row.dropWhile (· == ' ')

/-- What a row is. Its end tells. -/
def mark? (row : List Char) : Option Mark :=
  match (content row).reverse with
  | ';' :: _ => some .statement
  | '\x7b' :: ' ' :: _ => some .opening
  | ['\x7d'] => some .closing
  | _ => none

/-- How much deeper one is behind a row. -/
def Mark.rise : Mark → Int
  | .statement => 0
  | .opening => 1
  | .closing => -1

/-- The number of rows of one kind. -/
def count (mark : Mark) (rows : List (List Char)) : Nat :=
  rows.countP fun row => mark? row = some mark

/-- How deep one is behind some rows: in all the blocks that they open and do not close. -/
def depthAfter (rows : List (List Char)) : Int := count .opening rows - count .closing rows

/-- How deep a row stands behind others. The end of a block stands where the block began. -/
def standsAt (before : List (List Char)) (row : List Char) : Int :=
  if mark? row = some .closing then depthAfter (before ++ [row]) else depthAfter before

/-- Rows that are in their places when they are read from some depth on. -/
structure LaidOut (indent depth : Nat) (rows : List (List Char)) : Prop where
  /-- No line end stands in a row. -/
  oneLine : ∀ row ∈ rows, '\n' ∉ row
  /-- Every row is a statement, a header or the end of a block. -/
  marked : ∀ row ∈ rows, mark? row ≠ none
  /-- No block is closed that is not open. -/
  depth_nonneg : ∀ before, before <+: rows → 0 ≤ depth + depthAfter before
  /-- All blocks are closed in the end. -/
  depth_eq_zero : depth + depthAfter rows = 0
  /-- Before every row stand the spaces for its depth, and no more. -/
  margin_eq : ∀ before row after, rows = before ++ row :: after →
    (margin row : Int) = indent * (depth + standsAt before row)

variable {indent depth : Nat} {row : List Char} {rows : List (List Char)} {mark : Mark}

theorem count_cons (h : mark? row = some mark) (other : Mark) :
    count other (row :: rows) = (if mark = other then 1 else 0) + count other rows := by
  simp only [count, List.countP_cons, h, Option.some.injEq, decide_eq_true_eq, Nat.add_comm]

theorem count_append (rows' : List (List Char)) :
    count mark (rows ++ rows') = count mark rows + count mark rows' := List.countP_append

theorem depthAfter_nil : depthAfter [] = 0 := rfl

theorem depthAfter_cons (h : mark? row = some mark) :
    depthAfter (row :: rows) = mark.rise + depthAfter rows := by
  cases mark <;> simp [depthAfter, count_cons h, Mark.rise] <;> omega

theorem standsAt_cons (h : mark? row = some mark) (before : List (List Char)) (other : List Char) :
    standsAt (row :: before) other = mark.rise + standsAt before other := by
  unfold standsAt
  rw [List.cons_append, depthAfter_cons h, depthAfter_cons h]
  split <;> rfl

theorem LaidOut.nil : LaidOut indent 0 [] where
  oneLine := List.forall_mem_nil _
  marked := List.forall_mem_nil _
  depth_nonneg before h := by
    rw [List.prefix_nil.mp h]
    exact Int.le_refl 0
  depth_eq_zero := rfl
  margin_eq before row after h := absurd h (by simp)

/-- A row may be put in front of others if these are read from where it leads, and it stands in its
    own place. Where it leads is the depth behind it. A row that closes a block stands there
    already, and any other row stands at the depth before it. -/
theorem LaidOut.cons {after level : Nat} (h : LaidOut indent after rows) (hline : '\n' ∉ row)
    (hmark : mark? row = some mark) (hafter : (after : Int) = depth + mark.rise)
    (hlevel : level = if mark = .closing then after else depth)
    (hmargin : margin row = level * indent) : LaidOut indent depth (row :: rows) where
  oneLine := List.forall_mem_cons.mpr ⟨hline, h.oneLine⟩
  marked := by
    refine List.forall_mem_cons.mpr ⟨?_, h.marked⟩
    rw [hmark]
    exact Option.some_ne_none mark
  depth_nonneg before hbefore := by
    rcases List.prefix_cons_iff.mp hbefore with rfl | ⟨rest, rfl, hrest⟩
    · rw [depthAfter_nil]
      omega
    · have := h.depth_nonneg rest hrest
      rw [depthAfter_cons hmark]
      omega
  depth_eq_zero := by
    have := h.depth_eq_zero
    rw [depthAfter_cons hmark]
    omega
  margin_eq before other rest hsplit := by
    cases before with
    | nil =>
        -- It is the new row, and what is known of its place is all that is asked.
        rcases List.cons.inj hsplit with ⟨rfl, _⟩
        have hstands : (level : Int) = depth + standsAt [] row := by
          rw [standsAt, List.nil_append, depthAfter_cons hmark, depthAfter_nil, hmark, hlevel]
          cases mark <;> simp only [Option.some.injEq, reduceCtorEq, if_true, if_false] <;> omega
        rw [hmargin, ← hstands, Int.natCast_mul, Int.mul_comm]
    | cons first before =>
        -- It is one of the others. The new row only shifts the depth from which they are read.
        rcases List.cons.inj hsplit with ⟨rfl, hrows⟩
        rw [h.margin_eq before other rest hrows, standsAt_cons hmark, hafter, Int.add_assoc]

/-! ## Calls -/

/-- There is no line end in a text. -/
def OneLine (s : String) : Prop := '\n' ∉ s.toList

instance (s : String) : Decidable (OneLine s) := inferInstanceAs (Decidable ('\n' ∉ s.toList))

@[simp] theorem oneLine_append {s t : String} : OneLine (s ++ t) ↔ OneLine s ∧ OneLine t := by
  rw [OneLine, String.toList_append, List.mem_append, not_or, OneLine, OneLine]

@[simp] theorem oneLine_number (x : Float) : OneLine (number x) := fun h =>
  absurd (isNumeral_number x _ h) (by decide)

@[simp] theorem oneLine_vector (v : Vec3) : OneLine (vector v) := by
  rw [← @String.append_empty (vector v), vector_append]
  simp +decide

@[simp] theorem oneLine_repr (n : Nat) : OneLine n.repr := fun h =>
  absurd (isNumeral_repr n _ h) (by decide)

@[simp] theorem oneLine_centered (centered : Bool) : OneLine (toString centered) := by
  cases centered <;> decide

@[simp] theorem oneLine_segmentsEnd (segments : Option UInt32) :
    OneLine (segmentsEnd segments) := by
  cases segments <;> simp +decide [segmentsEnd]

@[simp] theorem oneLine_rotationEnd (r : Rotation) : OneLine (rotationEnd r) := by
  rcases r with ⟨_ | _ | _, _ | _⟩ <;> simp +decide [rotationEnd, angleText, poleEnd]

/-- Nothing that a call is given makes a line end. -/
theorem oneLine_head (a : Body) : OneLine (head a) := by
  rw [← @String.append_empty (head a)]
  rcases a with (f | x) | ⟨_ | _ | _, _⟩ | ⟨v | r | v, _⟩ | ⟨c, _⟩
  · rw [head, frustumCall_append]
    simp +decide
  · rw [head, sphereCall_append]
    simp +decide
  · simp +decide [head, operatorCall]
  · simp +decide [head, operatorCall]
  · simp +decide [head, operatorCall]
  · rw [head, translateCall_append]
    simp +decide
  · rw [head, rotateCall_append]
    simp +decide
  · rw [head, scaleCall_append]
    simp +decide
  · rw [head, colorCall_append]
    simp +decide

theorem Call.head?_initials (a : Call) : a.initials.head?.map (· == ' ') = some false := by
  cases a <;> rfl

/-- Calls begin with a letter. -/
theorem exists_head_eq (a : Body) : ∃ c cs, (head a).toList = c :: cs ∧ (c == ' ') = false := by
  have hinitials := (call a).head?_initials
  rw [← take_head a "", String.append_empty, List.head?_take, if_neg (by decide),
    Option.map_eq_some_iff] at hinitials
  rcases hinitials with ⟨c, hhead, hc⟩
  rcases List.head?_eq_some_iff.mp hhead with ⟨cs, hcs⟩
  exact ⟨c, cs, hcs, hc⟩

/-! ## Rows of a body -/

/-- What is said in a row, behind the spaces for a depth. -/
def placed (indent depth : Nat) (said : List Char) : List Char :=
  List.replicate (depth * indent) ' ' ++ said

/-- The row of a line. -/
def Line.chars (indent : Nat) : Line → List Char
  | .statement depth call => placed indent depth (call.toList ++ [';'])
  | .opening depth header => placed indent depth (header.toList ++ [' ', '\x7b'])
  | .closing depth => placed indent depth ['\x7d']

theorem Line.toList_text (l : Line) : (l.text indent).toList = l.chars indent ++ ['\n'] := by
  cases l <;> simp [Line.text, Line.chars, placed, padding]

section Placed

variable {c : Char} {cs : List Char}

theorem isSpace_spaces (n : Nat) : ∀ a ∈ List.replicate n ' ', (a == ' ') = true := fun a ha => by
  rw [List.eq_of_mem_replicate ha, beq_self_eq_true]

theorem margin_placed (hc : (c == ' ') = false) :
    margin (placed indent depth (c :: cs)) = depth * indent := by
  rw [margin, placed, List.takeWhile_append_of_pos (isSpace_spaces _), List.takeWhile_cons, hc]
  simp only [Bool.false_eq_true, if_false, List.append_nil, List.length_replicate]

theorem content_placed (hc : (c == ' ') = false) :
    content (placed indent depth (c :: cs)) = c :: cs := by
  rw [content, placed, List.dropWhile_append_of_pos (isSpace_spaces _), List.dropWhile_cons, hc]
  simp only [Bool.false_eq_true, if_false]

theorem not_mem_placed (h : '\n' ∉ cs) : '\n' ∉ placed indent depth cs := fun hmem => by
  rcases List.mem_append.mp hmem with hmem | hmem
  · exact absurd (List.eq_of_mem_replicate hmem) (by decide)
  · exact h hmem

end Placed

/-! ### Lines -/

section Lines

variable (a : Body) (said : List Char)

theorem margin_head : margin (placed indent depth ((head a).toList ++ said)) = depth * indent := by
  rcases exists_head_eq a with ⟨c, cs, hhead, hc⟩
  rw [hhead, List.cons_append, margin_placed hc]

theorem content_head :
    content (placed indent depth ((head a).toList ++ said)) = (head a).toList ++ said := by
  rcases exists_head_eq a with ⟨c, cs, hhead, hc⟩
  rw [hhead, List.cons_append, content_placed hc]

theorem not_mem_head {said : List Char} (h : '\n' ∉ said) :
    '\n' ∉ placed indent depth ((head a).toList ++ said) := by
  refine not_mem_placed fun hmem => ?_
  rcases List.mem_append.mp hmem with hmem | hmem
  · exact oneLine_head a hmem
  · exact h hmem

theorem mark?_statement :
    mark? (Line.chars indent (.statement depth (head a))) = some .statement := by
  rw [Line.chars, mark?, content_head, List.reverse_append]
  rfl

theorem mark?_opening : mark? (Line.chars indent (.opening depth (head a))) = some .opening := by
  rw [Line.chars, mark?, content_head, List.reverse_append]
  rfl

theorem mark?_closing : mark? (Line.chars indent (.closing depth)) = some .closing := by
  rw [Line.chars, mark?, content_placed (by decide)]
  rfl

/-- A statement leaves the depth as it is. -/
theorem LaidOut.statement (h : LaidOut indent depth rows) :
    LaidOut indent depth (Line.chars indent (.statement depth (head a)) :: rows) :=
  h.cons (not_mem_head a (by decide)) (mark?_statement a) (Int.add_zero _).symm rfl
    (margin_head a _)

/-- Behind a header one is a level deeper. -/
theorem LaidOut.opening (h : LaidOut indent (depth + 1) rows) :
    LaidOut indent depth (Line.chars indent (.opening depth (head a)) :: rows) :=
  h.cons (not_mem_head a (by decide)) (mark?_opening a) rfl rfl (margin_head a _)

/-- The end of a block leads back to where the block began, and stands there. -/
theorem LaidOut.closing (h : LaidOut indent depth rows) :
    LaidOut indent (depth + 1) (Line.chars indent (.closing depth) :: rows) := by
  refine h.cons (not_mem_placed (by decide)) mark?_closing ?_ rfl (margin_placed (by decide))
  rw [Mark.rise]
  omega

end Lines

/-! ### Bodies -/

/-- The rows of lines. -/
def rowsOf (indent : Nat) (ls : List Line) : List (List Char) := ls.map (Line.chars indent)

theorem rowsOf_append (ls ms : List Line) :
    rowsOf indent (ls ++ ms) = rowsOf indent ls ++ rowsOf indent ms := List.map_append

theorem toList_write (ls : List Line) :
    (write indent ls).toList = (rowsOf indent ls).flatMap (· ++ ['\n']) := by
  induction ls with
  | nil => rfl
  | cons l ls ih =>
      rw [write_cons, String.toList_append, Line.toList_text, ih, rowsOf, rowsOf, List.map_cons,
        List.flatMap_cons]

/-- Text made of rows is cut into these rows. -/
theorem splitOn_flatMap (h : ∀ row ∈ rows, '\n' ∉ row) :
    (rows.flatMap (· ++ ['\n'])).splitOn '\n' = rows ++ [[]] := by
  induction rows with
  | nil => exact List.splitOn_nil _
  | cons row rows ih =>
      rw [List.forall_mem_cons] at h
      rw [List.flatMap_cons, List.append_assoc, List.singleton_append,
        List.splitOn_append_cons_self_of_not_mem h.1, ih h.2, List.cons_append]

/-- The lines of a block. -/
def block (depth : Nat) (header : String) (inner : List Line) : List Line :=
  .opening depth header :: (inner ++ [.closing depth])

theorem rowsOf_block (depth : Nat) (header : String) (inner : List Line) :
    rowsOf indent (block depth header inner) ++ rows =
      Line.chars indent (.opening depth header) ::
        (rowsOf indent inner ++ Line.chars indent (.closing depth) :: rows) := by
  simp only [rowsOf, block, List.map_cons, List.map_append, List.map_nil, List.cons_append,
    List.append_assoc, List.nil_append]

/-- A block is laid out if what is in it and behind it is, read from one level deeper on. -/
theorem LaidOut.block (a : Body) {inner : List Line}
    (h : LaidOut indent (depth + 1)
      (rowsOf indent inner ++ Line.chars indent (.closing depth) :: rows)) :
    LaidOut indent depth (rowsOf indent (block depth (head a) inner) ++ rows) := by
  rw [rowsOf_block]
  exact h.opening a

/-- A block has one header more than what is in it, and no further statement. -/
theorem count_block (a : Body) {inner : List Line} {statements openings : Nat}
    (h : count .statement (rowsOf indent inner) = statements ∧
      count .opening (rowsOf indent inner) = openings) :
    count .statement (rowsOf indent (block depth (head a) inner)) = statements ∧
      count .opening (rowsOf indent (block depth (head a) inner)) = openings + 1 := by
  rw [← List.append_nil (rowsOf indent (block depth (head a) inner)), rowsOf_block]
  simp only [count_cons (mark?_opening a), count_append, count_cons mark?_closing, h.1, h.2]
  constructor
  · exact Nat.zero_add _
  · exact Nat.add_comm 1 _

mutual

/-- The rows of a body may be put in front of others that are read from the same depth on. By
    induction on the body, whose blocks are put in front of the row that closes them one after
    another, from the last to the first. -/
theorem laidOut_lines (a : Body) {depth : Nat} {rows : List (List Char)}
    (h : LaidOut indent depth rows) :
    LaidOut indent depth (rowsOf indent (lines depth a) ++ rows) := by
  cases a with
  | primitive solid => exact h.statement (.primitive solid)
  | composition operator operands =>
      exact LaidOut.block (.composition operator operands) (laidOut_linesAll operands h.closing)
  | moved step child => exact LaidOut.block (.moved step child) (laidOut_lines child h.closing)
  | colored color child =>
      exact LaidOut.block (.colored color child) (laidOut_lines child h.closing)

theorem laidOut_linesAll (as : List Body) {depth : Nat} {rows : List (List Char)}
    (h : LaidOut indent depth rows) :
    LaidOut indent depth (rowsOf indent (linesAll depth as) ++ rows) := by
  cases as with
  | nil => exact h
  | cons a as =>
      rw [linesAll, rowsOf_append, List.append_assoc]
      exact laidOut_lines a (laidOut_linesAll as h)

end

mutual

/-- The rows of a body have a statement for every primitive and a header for every other node. A
    block without operands has a header, too, and a row that closes it. -/
theorem count_lines (a : Body) (depth : Nat) :
    count .statement (rowsOf indent (lines depth a)) = a.primitiveCount ∧
      count .opening (rowsOf indent (lines depth a)) = a.blockCount := by
  cases a with
  | primitive solid =>
      have hmark : mark? (Line.chars indent (.statement depth (primitiveCall solid))) =
          some .statement := mark?_statement (.primitive solid)
      exact ⟨count_cons hmark .statement, count_cons hmark .opening⟩
  | composition operator operands =>
      exact count_block (.composition operator operands) (count_linesAll operands (depth + 1))
  | moved step child => exact count_block (.moved step child) (count_lines child (depth + 1))
  | colored color child => exact count_block (.colored color child) (count_lines child (depth + 1))

theorem count_linesAll (as : List Body) (depth : Nat) :
    count .statement (rowsOf indent (linesAll depth as)) = Body.primitiveCountAll as ∧
      count .opening (rowsOf indent (linesAll depth as)) = Body.blockCountAll as := by
  cases as with
  | nil => exact ⟨rfl, rfl⟩
  | cons a as =>
      rcases count_lines a depth with ⟨hstatement, hopening⟩
      rcases count_linesAll as depth with ⟨hstatements, hopenings⟩
      rw [linesAll, rowsOf_append, count_append, count_append, hstatement, hstatements, hopening,
        hopenings]
      exact ⟨rfl, rfl⟩

end

/-- The source text of a body consists of rows that each end in a line end. Every block that is
    opened is closed in its turn, every row stands as far in as its depth, and there are as many
    statements as primitives and as many headers as other nodes.

    The rows are cut from the text and nothing else is known of them. `LaidOut` speaks of every row,
    and of the depth behind every beginning of the text, where a block that is closed counts against
    one that was opened. The row that closes a block stands at the depth of its header. -/
theorem render_laidOut (style : Style) (a : Body) :
    ∃ rows, (render style a).toList.splitOn '\n' = rows ++ [[]] ∧
      LaidOut style.indent.toNat 0 rows ∧ count .statement rows = a.primitiveCount ∧
      count .opening rows = a.blockCount := by
  have hlaid : LaidOut style.indent.toNat 0 (rowsOf style.indent.toNat (lines 0 a)) := by
    rw [← List.append_nil (rowsOf _ _)]
    exact laidOut_lines a LaidOut.nil
  refine ⟨rowsOf style.indent.toNat (lines 0 a), ?_, hlaid, count_lines a 0⟩
  have htext : (render style a).toList =
      (rowsOf style.indent.toNat (lines 0 a)).flatMap (· ++ ['\n']) := toList_write _
  rw [htext, splitOn_flatMap hlaid.oneLine]

-- A composition of nothing is a block with nothing in it.
example : render { indent := 2 } (.composition .union [.composition .difference []]) =
    "union() \x7b\n  difference() \x7b\n  \x7d\n\x7d\n" := rfl

end Scad

end SolidModel
