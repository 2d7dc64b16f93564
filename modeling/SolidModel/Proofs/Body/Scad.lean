import SolidModel.Proofs.Body.Calls

/-!
# Source Text Tells Bodies Apart

What can be read off the source text of a body: everything but its numbers.

The calls of all nodes differ in their first two letters, and a call tells what it was given. So
the first line of a body tells its node. Blocks need one more argument. All lines of a block stand
one level deeper than the line that closes it, but with an indent of nothing that shows nowhere. It
is enough that no line but the closing one begins with a brace. So the induction runs over the trees
and carries along the text behind them: at one depth, no text of a body is the beginning of
another's.

Bodies thus have the same text exactly if they match up to the text of their numbers. Neither the
indent nor the line ends are needed to read a body, but they do no harm.

## Main definitions

* `Scad.head`: The call on the first line of a body.
* `Scad.Call`: Which call that is.
* `Scad.write`: The text of lines.

## Theorems

* `Scad.head_append_inj`: The first line of a body tells its node.
* `Scad.write_lines_inj`: The text of a body tells the body, whatever follows.
* `Scad.lines_congr`: Matching bodies have the same lines.
* `Scad.render_eq_iff`: Bodies have the same text exactly if they match.
-/

namespace SolidModel

namespace Scad

/-! ## First lines -/

/-- The call on the first line of a body. -/
def head : Body → String
  | .primitive solid => primitiveCall solid
  | .composition operator _ => operatorCall operator
  | .moved step _ => transformationCall step
  | .colored color _ => colorCall color

/-- The calls there are. -/
inductive Call where
  | cylinder
  | sphere
  | union
  | difference
  | intersection
  | translate
  | rotate
  | scale
  | color
deriving DecidableEq

/-- The first two letters of a call, by which all calls can be told apart. -/
def Call.initials : Call → List Char
  | .cylinder => ['c', 'y']
  | .sphere => ['s', 'p']
  | .union => ['u', 'n']
  | .difference => ['d', 'i']
  | .intersection => ['i', 'n']
  | .translate => ['t', 'r']
  | .rotate => ['r', 'o']
  | .scale => ['s', 'c']
  | .color => ['c', 'o']

theorem Call.initials_inj {a b : Call} (h : a.initials = b.initials) : a = b := by
  cases a <;> cases b <;> first | rfl | exact absurd h (by decide)

theorem Call.initials_ne_brace (a : Call) : a.initials ≠ ['\x7d', '\n'] := by
  cases a <;> decide

/-- Which call is on the first line of a body. -/
def call : Body → Call
  | .primitive (.frustum _) => .cylinder
  | .primitive (.sphere _) => .sphere
  | .composition .union _ => .union
  | .composition .difference _ => .difference
  | .composition .intersection _ => .intersection
  | .moved (.translate _) _ => .translate
  | .moved (.rotate _) _ => .rotate
  | .moved (.scale _) _ => .scale
  | .colored _ _ => .color

theorem take_head (a : Body) (t : String) :
    (head a ++ t).toList.take 2 = (call a).initials := by
  match a with
  | .primitive (.frustum f) => rw [head, frustumCall_append, String.toList_append]; rfl
  | .primitive (.sphere x) => rw [head, sphereCall_append, String.toList_append]; rfl
  | .composition .union _ | .composition .difference _ | .composition .intersection _ =>
      rw [head, String.toList_append]; rfl
  | .moved (.translate v) _ => rw [head, translateCall_append, String.toList_append]; rfl
  | .moved (.rotate r) _ => rw [head, rotateCall_append, String.toList_append]; rfl
  | .moved (.scale v) _ => rw [head, scaleCall_append, String.toList_append]; rfl
  | .colored c _ => rw [head, colorCall_append, String.toList_append]; rfl

/-- The nodes are of one kind, and what stands beside their children matches. -/
def HeadsMatch : Body → Body → Prop
  | .primitive p, .primitive q => p.Matches SameText q
  | .composition operator _, .composition operator' _ => operator = operator'
  | .moved step _, .moved step' _ => step.Matches SameText step'
  | .colored color _, .colored color' _ => color.Matches SameText color'
  | _, _ => False

/-- The first line of a body tells its node, and also where the line ends. So it can be taken off a
    text that goes on behind it. -/
theorem head_append_inj {a b : Body} {t t' : String} (h : head a ++ t = head b ++ t') :
    HeadsMatch a b ∧ t = t' := by
  have hcall : call a = call b := Call.initials_inj (by rw [← take_head a t, h, take_head])
  rcases a with (f | x) | ⟨_ | _ | _, _⟩ | ⟨v | r | v, _⟩ | ⟨c, _⟩ <;>
    rcases b with (g | y) | ⟨_ | _ | _, _⟩ | ⟨w | s | w, _⟩ | ⟨d, _⟩ <;> cases hcall
  · exact frustum_append_inj h
  · exact sphere_append_inj h
  · exact ⟨rfl, (String.append_right_inj _).mp h⟩
  · exact ⟨rfl, (String.append_right_inj _).mp h⟩
  · exact ⟨rfl, (String.append_right_inj _).mp h⟩
  · exact translate_append_inj h
  · exact rotate_append_inj h
  · exact scale_append_inj h
  · exact color_append_inj h

/-! ## Bodies -/

/-- The text of lines. -/
def write (indent : Nat) (ls : List Line) : String := String.join (ls.map (Line.text indent))

variable {indent : Nat}

theorem write_nil : write indent [] = "" := rfl

theorem write_cons (l : Line) (ls : List Line) :
    write indent (l :: ls) = l.text indent ++ write indent ls := by
  rw [write, List.map_cons, String.join_cons, write]

theorem write_append (ls ms : List Line) :
    write indent (ls ++ ms) = write indent ls ++ write indent ms := by
  rw [write, List.map_append, String.join_append, write, write]

/-- The end of a block, with what follows. -/
def blockEnd (indent depth : Nat) (t : String) : String := padding indent depth ++ ("\x7d\n" ++ t)

/-- What follows the first call in the text of a body. -/
def headEnd (indent depth : Nat) : Body → String → String
  | .primitive _, t => ";\n" ++ t
  | .composition _ operands, t =>
    " \x7b\n" ++ (write indent (linesAll (depth + 1) operands) ++ blockEnd indent depth t)
  | .moved _ child, t | .colored _ child, t =>
    " \x7b\n" ++ (write indent (lines (depth + 1) child) ++ blockEnd indent depth t)

/-- A body is written as its call, and then what belongs to that. -/
theorem write_lines (depth : Nat) (a : Body) (t : String) :
    write indent (lines depth a) ++ t =
      padding indent depth ++ (head a ++ headEnd indent depth a t) := by
  cases a <;>
    simp only [lines, write_cons, write_append, write_nil, Line.text, head, headEnd, blockEnd,
      String.append_assoc, String.empty_append]

theorem blockEnd_inj {depth : Nat} {t t' : String}
    (h : blockEnd indent depth t = blockEnd indent depth t') : t = t' := by
  rw [blockEnd, blockEnd, String.append_right_inj, String.append_right_inj] at h
  exact h

theorem padding_succ (depth : Nat) :
    padding indent (depth + 1) = padding indent depth ++ padding indent 1 := by
  rw [padding, padding, padding, ← String.ofList_append, List.replicate_append_replicate,
    Nat.succ_mul, Nat.one_mul]

/-- Where a block ends no body begins. -/
theorem blockEnd_ne (depth : Nat) (a : Body) (t t' : String) :
    blockEnd indent depth t ≠ write indent (lines (depth + 1) a) ++ t' := by
  rw [write_lines, padding_succ, blockEnd, String.append_assoc]
  intro h
  rw [String.append_right_inj] at h
  cases indent with
  | zero =>
      -- Without an indent the brace is told from the first letter of a call.
      have hinitials := congrArg (fun s : String => s.toList.take 2) h
      rw [show padding 0 1 = "" from rfl, String.empty_append] at hinitials
      simp only [take_head] at hinitials
      rw [String.toList_append] at hinitials
      exact absurd hinitials (call a).initials_ne_brace.symm
  | succ indent =>
      have hpadding : (padding (indent + 1) 1).toList.head? = some ' ' := by
        rw [padding, String.toList_ofList, Nat.one_mul]
        rfl
      exact absurd h (append_ne rfl hpadding (by decide))

mutual

/-- At one depth the text of a body tells the body, whatever follows. By induction on both bodies at
    once: the first lines match, then the blocks do one after another, and what is left behind the
    two texts is the same. -/
theorem write_lines_inj (a b : Body) {depth : Nat} {t t' : String}
    (h : write indent (lines depth a) ++ t = write indent (lines depth b) ++ t') :
    a.Matches SameText b ∧ t = t' := by
  rw [write_lines, write_lines, String.append_right_inj] at h
  rcases head_append_inj h with ⟨hhead, h⟩
  -- The first lines agree, so that both are of one kind. What is inside is written behind them.
  cases a with
  | primitive p =>
      cases b with
      | primitive q =>
          rw [headEnd, headEnd, String.append_right_inj] at h
          exact ⟨hhead, h⟩
      | _ => exact hhead.elim
  | composition operator operands =>
      cases b with
      | composition operator' operands' =>
          rw [headEnd, headEnd, String.append_right_inj] at h
          rcases write_linesAll_inj operands operands' h with ⟨hall, h⟩
          exact ⟨⟨hhead, hall⟩, h⟩
      | _ => exact hhead.elim
  | moved step child =>
      cases b with
      | moved step' child' =>
          rw [headEnd, headEnd, String.append_right_inj] at h
          rcases write_lines_inj child child' h with ⟨hchild, h⟩
          exact ⟨⟨hhead, hchild⟩, blockEnd_inj h⟩
      | _ => exact hhead.elim
  | colored color child =>
      cases b with
      | colored color' child' =>
          rw [headEnd, headEnd, String.append_right_inj] at h
          rcases write_lines_inj child child' h with ⟨hchild, h⟩
          exact ⟨⟨hhead, hchild⟩, blockEnd_inj h⟩
      | _ => exact hhead.elim

/-- The text of a block tells the bodies in it. -/
theorem write_linesAll_inj (as bs : List Body) {depth : Nat} {t t' : String}
    (h : write indent (linesAll (depth + 1) as) ++ blockEnd indent depth t =
      write indent (linesAll (depth + 1) bs) ++ blockEnd indent depth t') :
    Body.AllMatch SameText as bs ∧ t = t' := by
  -- No body begins as a block ends, so that neither list can end before the other.
  cases as with
  | nil =>
      cases bs with
      | nil =>
          rw [String.append_right_inj] at h
          exact ⟨trivial, blockEnd_inj h⟩
      | cons b bs =>
          rw [linesAll, linesAll, write_nil, String.empty_append, write_append,
            String.append_assoc] at h
          exact absurd h (blockEnd_ne depth b t _)
  | cons a as =>
      cases bs with
      | nil =>
          rw [linesAll, linesAll, write_nil, String.empty_append, write_append,
            String.append_assoc] at h
          exact absurd h.symm (blockEnd_ne depth a t' _)
      | cons b bs =>
          rw [linesAll, linesAll, write_append, write_append, String.append_assoc,
            String.append_assoc] at h
          rcases write_lines_inj a b h with ⟨hfirst, h⟩
          rcases write_linesAll_inj as bs h with ⟨hrest, ht⟩
          exact ⟨⟨hfirst, hrest⟩, ht⟩

end

mutual

/-- Matching bodies have the same lines. No line shows anything of a number but its text. -/
theorem lines_congr (a b : Body) (depth : Nat) (h : a.Matches SameText b) :
    lines depth a = lines depth b := by
  cases a with
  | primitive p =>
      cases b with
      | primitive q => rw [lines, lines, primitiveCall_congr h]
      | _ => exact h.elim
  | composition operator operands =>
      cases b with
      | composition operator' operands' => rw [lines, lines, h.1, linesAll_congr _ _ _ h.2]
      | _ => exact h.elim
  | moved step child =>
      cases b with
      | moved step' child' =>
          rw [lines, lines, transformationCall_congr h.1, lines_congr _ _ _ h.2]
      | _ => exact h.elim
  | colored color child =>
      cases b with
      | colored color' child' => rw [lines, lines, colorCall_congr h.1, lines_congr _ _ _ h.2]
      | _ => exact h.elim

theorem linesAll_congr (as bs : List Body) (depth : Nat) (h : Body.AllMatch SameText as bs) :
    linesAll depth as = linesAll depth bs := by
  cases as with
  | nil =>
      cases bs with
      | nil => rfl
      | cons _ _ => exact h.elim
  | cons a as =>
      cases bs with
      | nil => exact h.elim
      | cons b bs => rw [linesAll, linesAll, lines_congr _ _ _ h.1, linesAll_congr _ _ _ h.2]

end

/-- Bodies have the same source text exactly if they are the same tree, with numbers that are
    written alike in the same places.

    That bodies match is said by going through both trees at once. It asks for the same nodes, the
    same operators with as many operands in the same order, and the same kinds of primitives and
    movements. What is no number is the same, whether an angle or a pole is there included, and
    numbers have the same text. The style may be any, so that indentation, even by nothing, neither
    tells bodies apart nor makes two of them one. -/
theorem render_eq_iff (style : Style) (a b : Body) :
    render style a = render style b ↔ a.Matches SameText b := by
  constructor
  · intro h
    rw [← String.append_left_inj ""] at h
    exact (write_lines_inj a b h).1
  · intro h
    rw [render, render, lines_congr a b 0 h]

end Scad

end SolidModel
