import SolidModel.Body.Scad
import SolidModel.Proofs.Body.Matches

/-!
# Calls Say What They Are Given

What can be read off a call in source text: everything but its numbers.

The text is read from the left. A number ends at the first character that no number is written
with, so that what stands before a comma or a bracket is determined by the text. That makes the
calls unambiguous even when something follows them, which is how all of it is stated: if two calls
with something behind them are the same text, the calls say the same and so does what follows.

Numbers are the exception because two floats may be written alike. `Scad.SameText` says that they
are, and all else is determined up to that.

A rotation has six forms of its call. They are told apart from the left as well. An angle comes
before a pole, and the text of an angle shows in its first character whether it is a list.

## Main definitions

* `Scad.isNumeral`: A character that numbers are written with.
* `Scad.Stops`: A text does not begin with such a character.
* `Scad.SameText`: Two numbers are written alike.

## Theorems

* `Scad.isNumeral_number`: Numbers are written with nothing else.
* `Scad.number_mark_inj`: A number is determined by what stands before a mark.
* `Scad.frustum_append_inj`, `Scad.sphere_append_inj`, `Scad.translate_append_inj`,
  `Scad.rotate_append_inj`, `Scad.scale_append_inj`, `Scad.color_append_inj`: What a call says.
* `Scad.primitiveCall_congr`, `Scad.transformationCall_congr`, `Scad.colorCall_congr`: Nothing
  else is in a call.
-/

namespace SolidModel

namespace Scad

/-! ## Numbers -/

/-- A character that numbers are written with: digits, signs, points and the letters of the values
    that are not finite. -/
def isNumeral (c : Char) : Bool :=
  c.isDigit || "-.infNa".toList.contains c

/-- A text does not begin with a character that numbers are written with. -/
def Stops (s : String) : Prop := s.toList.takeWhile isNumeral = []

/-- Two numbers are written alike. Numbers that compare as equal need not be, as the two zeros, and
    all that is no number is. -/
def SameText (x y : Float) : Prop := number x = number y

theorem isNumeral_chars (d : Decimal) : ∀ c ∈ d.chars, isNumeral c := fun c hc => by
  rw [isNumeral, Nat.isDigit_of_mem_toDigits (by decide) (by decide) hc, Bool.true_or]

theorem isNumeral_zeros (n : Nat) : ∀ c ∈ List.replicate n '0', isNumeral c := fun c hc => by
  rw [List.eq_of_mem_replicate hc]
  rfl

theorem isNumeral_positional (layout : Layout) (d : Decimal) :
    ∀ c ∈ layout.positional d, isNumeral c := by
  have hchars := isNumeral_chars d
  unfold Layout.positional
  split
  · refine List.forall_mem_append.mpr ⟨List.forall_mem_append.mpr ⟨hchars, isNumeral_zeros _⟩, ?_⟩
    split
    · exact List.all_eq_true.mp rfl
    · exact List.forall_mem_nil _
  · split
    · exact List.forall_mem_append.mpr ⟨fun c hc => hchars c (List.mem_of_mem_take hc),
        List.forall_mem_cons.mpr ⟨rfl, fun c hc => hchars c (List.mem_of_mem_drop hc)⟩⟩
    · exact List.forall_mem_cons.mpr ⟨rfl, List.forall_mem_cons.mpr ⟨rfl,
        List.forall_mem_append.mpr ⟨isNumeral_zeros _, hchars⟩⟩⟩

theorem isNumeral_sign (negative : Bool) : ∀ c ∈ Layout.sign negative, isNumeral c := by
  cases negative <;> exact List.all_eq_true.mp rfl

/-- Numbers are written with nothing but the characters for that. Those of infinity and of what is
    no number are among them. -/
theorem isNumeral_number (x : Float) : ∀ c ∈ (number x).toList, isNumeral c := by
  unfold number Layout.text Layout.classText
  split
  · exact List.all_eq_true.mp rfl
  · rw [String.toList_ofList]
    exact List.forall_mem_append.mpr ⟨isNumeral_sign _, List.all_eq_true.mp rfl⟩
  · rw [String.toList_ofList]
    exact List.forall_mem_append.mpr ⟨isNumeral_sign _, isNumeral_positional _ _⟩

theorem isNumeral_repr (n : Nat) : ∀ c ∈ (toString n).toList, isNumeral c := by
  rw [Nat.toString_eq_repr, Nat.repr, String.toList_ofList]
  exact isNumeral_chars ⟨n, 0⟩

theorem repr_inj {m n : Nat} (h : toString m = toString n) : m = n := by
  rw [Nat.toString_eq_ofList_toDigits, Nat.toString_eq_ofList_toDigits, String.ofList_inj] at h
  rw [← @Nat.ofDigitChars_ten_toDigits m, h, Nat.ofDigitChars_ten_toDigits]

/-- What is written with such characters ends where the text stops having them. -/
theorem numeral_append_inj {s s' t t' : String} (hs : ∀ c ∈ s.toList, isNumeral c)
    (hs' : ∀ c ∈ s'.toList, isNumeral c) (ht : Stops t) (ht' : Stops t')
    (h : s ++ t = s' ++ t') : s = s' ∧ t = t' := by
  have hlist : s.toList ++ t.toList = s'.toList ++ t'.toList := by
    rw [← String.toList_append, h, String.toList_append]
  have hlead := congrArg (List.takeWhile isNumeral) hlist
  rw [List.takeWhile_append_of_pos hs, List.takeWhile_append_of_pos hs', ht, ht',
    List.append_nil, List.append_nil, String.toList_inj] at hlead
  subst hlead
  exact ⟨rfl, (String.append_right_inj s).mp h⟩

theorem number_append_inj {x y : Float} {t t' : String} (ht : Stops t) (ht' : Stops t')
    (h : number x ++ t = number y ++ t') : SameText x y ∧ t = t' :=
  numeral_append_inj (isNumeral_number x) (isNumeral_number y) ht ht' h

theorem stops_append {s : String} (h : s.toList.head?.map isNumeral = some false) (t : String) :
    Stops (s ++ t) := by
  rw [Option.map_eq_some_iff] at h
  rcases h with ⟨c, hhead, hc⟩
  rcases List.head?_eq_some_iff.mp hhead with ⟨cs, hs⟩
  rw [Stops, String.toList_append, hs, List.cons_append, List.takeWhile_cons, hc]
  rfl

/-- A number is determined by what stands before a punctuation mark behind it. Numbers of different
    lengths cannot be confused, since a mark is no character of a number. -/
theorem number_mark_inj {mark : String} (hmark : mark.toList.head?.map isNumeral = some false)
    {x y : Float} {t t' : String} (h : number x ++ (mark ++ t) = number y ++ (mark ++ t')) :
    SameText x y ∧ t = t' := by
  rcases number_append_inj (stops_append hmark t) (stops_append hmark t') h with ⟨hxy, h⟩
  exact ⟨hxy, (String.append_right_inj mark).mp h⟩

/-! ## Calls -/

theorem vector_append (v : Vec3) (t : String) :
    vector v ++ t = "[" ++ (number v.x ++ (", " ++ (number v.y ++ (", " ++ (number v.z
      ++ ("]" ++ t)))))) := by
  simp only [vector, Vec3.bracketed, number, String.append_assoc]

theorem vector_append_inj {v w : Vec3} {t t' : String} (h : vector v ++ t = vector w ++ t') :
    v.Matches SameText w ∧ t = t' := by
  rw [vector_append, vector_append, String.append_right_inj] at h
  rcases number_mark_inj rfl h with ⟨hx, h⟩
  rcases number_mark_inj rfl h with ⟨hy, h⟩
  rcases number_mark_inj rfl h with ⟨hz, h⟩
  exact ⟨⟨hx, hy, hz⟩, h⟩

/-- Most calls with a vector end behind it. -/
theorem vector_end_inj {v w : Vec3} {t t' : String}
    (h : vector v ++ (")" ++ t) = vector w ++ (")" ++ t')) : v.Matches SameText w ∧ t = t' := by
  rcases vector_append_inj h with ⟨hvw, h⟩
  exact ⟨hvw, (String.append_right_inj _).mp h⟩

/-- Texts that begin with different characters are different. -/
theorem append_ne {s s' t t' : String} {c c' : Char} (hs : s.toList.head? = some c)
    (hs' : s'.toList.head? = some c') (hne : c ≠ c') : s ++ t ≠ s' ++ t' := by
  rcases List.head?_eq_some_iff.mp hs with ⟨cs, hcs⟩
  rcases List.head?_eq_some_iff.mp hs' with ⟨cs', hcs'⟩
  intro h
  rw [← String.toList_inj, String.toList_append, String.toList_append, hcs, hcs'] at h
  exact hne (List.cons.inj h).1

/-- The segments argument of a call, with the end of the call. -/
def segmentsEnd : Option UInt32 → String
  | none => ")"
  | some n => ", $fn = " ++ (toString n.toNat ++ ")")

theorem frustumCall_append (f : Frustum) (t : String) :
    primitiveCall (.frustum f) ++ t = "cylinder(h = " ++ (number f.height ++ (", d1 = "
      ++ (number f.bottomDiameter ++ (", d2 = " ++ (number f.topDiameter ++ (", center = "
      ++ (toString f.centered ++ (segmentsEnd f.segments ++ t)))))))) := by
  rcases f with ⟨_, _, _, _, _ | n⟩ <;> unfold primitiveCall segmentsEnd <;>
    simp only [String.append_assoc, String.empty_append]

theorem sphereCall_append (x : Float) (t : String) :
    primitiveCall (.sphere x) ++ t = "sphere(d = " ++ (number x ++ (")" ++ t)) := by
  unfold primitiveCall
  rw [String.append_assoc, String.append_assoc]

theorem centered_append_inj {a b : Bool} {t t' : String}
    (h : toString a ++ t = toString b ++ t') : a = b ∧ t = t' := by
  cases a <;> cases b
  · exact ⟨rfl, (String.append_right_inj _).mp h⟩
  · exact absurd h (append_ne rfl rfl (by decide))
  · exact absurd h (append_ne rfl rfl (by decide))
  · exact ⟨rfl, (String.append_right_inj _).mp h⟩

theorem segmentsEnd_append_inj {m n : Option UInt32} {t t' : String}
    (h : segmentsEnd m ++ t = segmentsEnd n ++ t') : m = n ∧ t = t' := by
  rcases m with _ | m <;> rcases n with _ | n <;>
    simp only [segmentsEnd, String.append_assoc] at h
  · exact ⟨rfl, (String.append_right_inj _).mp h⟩
  · exact absurd h (append_ne rfl rfl (by decide))
  · exact absurd h (append_ne rfl rfl (by decide))
  · rw [String.append_right_inj] at h
    rcases numeral_append_inj (isNumeral_repr _) (isNumeral_repr _) (stops_append rfl t)
      (stops_append rfl t') h with ⟨hn, ht⟩
    exact ⟨congrArg some (UInt32.toNat_inj.mp (repr_inj hn)), (String.append_right_inj _).mp ht⟩

theorem frustum_append_inj {f g : Frustum} {t t' : String}
    (h : primitiveCall (.frustum f) ++ t = primitiveCall (.frustum g) ++ t') :
    f.Matches SameText g ∧ t = t' := by
  rw [frustumCall_append, frustumCall_append, String.append_right_inj] at h
  rcases number_mark_inj rfl h with ⟨hheight, h⟩
  rcases number_mark_inj rfl h with ⟨hbottom, h⟩
  rcases number_mark_inj rfl h with ⟨htop, h⟩
  rcases centered_append_inj h with ⟨hcentered, h⟩
  rcases segmentsEnd_append_inj h with ⟨hsegments, h⟩
  exact ⟨⟨hbottom, htop, hheight, hcentered, hsegments⟩, h⟩

theorem sphere_append_inj {x y : Float} {t t' : String}
    (h : primitiveCall (.sphere x) ++ t = primitiveCall (.sphere y) ++ t') :
    SameText x y ∧ t = t' := by
  rw [sphereCall_append, sphereCall_append, String.append_right_inj] at h
  exact number_mark_inj rfl h

/-! ### Rotations -/

/-- An angle in source. -/
def angleText : Angle → String
  | .single degrees => number degrees
  | .euler degrees => vector degrees

/-- The pole argument behind an angle, with the end of the call. -/
def poleEnd : Option Vec3 → String
  | none => ")"
  | some pole => ", " ++ ("v = " ++ (vector pole ++ ")"))

/-- The arguments of a rotation, with the end of the call. -/
def rotationEnd : Rotation → String
  | ⟨some angle, pole⟩ => "a = " ++ (angleText angle ++ poleEnd pole)
  | ⟨none, some pole⟩ => "v = " ++ (vector pole ++ ")")
  | ⟨none, none⟩ => ")"

theorem rotateCall_append (r : Rotation) (t : String) :
    transformationCall (.rotate r) ++ t = "rotate(" ++ (rotationEnd r ++ t) := by
  rw [← String.append_assoc]
  refine congrArg (· ++ t) ?_
  -- The arguments that are there are joined by commas, in each of the six forms.
  rcases r with ⟨_ | _ | _, _ | _⟩ <;> unfold transformationCall <;>
    simp only [angleArgument, poleArgument, rotationEnd, angleText, poleEnd, List.append_nil,
      List.nil_append, List.cons_append, String.intercalate_nil, String.intercalate_singleton,
      String.intercalate_cons_cons, String.append_assoc, String.empty_append]

theorem stops_poleEnd (pole : Option Vec3) (t : String) : Stops (poleEnd pole ++ t) := by
  cases pole with
  | none => exact stops_append rfl t
  | some pole =>
      rw [poleEnd, String.append_assoc]
      exact stops_append rfl _

theorem poleEnd_append_inj {a b : Option Vec3} {t t' : String}
    (h : poleEnd a ++ t = poleEnd b ++ t') : Option.Rel (Vec3.Matches SameText) a b ∧ t = t' := by
  rcases a with _ | v <;> rcases b with _ | w <;> simp only [poleEnd, String.append_assoc] at h
  · exact ⟨.none, (String.append_right_inj _).mp h⟩
  · exact absurd h (append_ne rfl rfl (by decide))
  · exact absurd h (append_ne rfl rfl (by decide))
  · rw [String.append_right_inj, String.append_right_inj] at h
    rcases vector_end_inj h with ⟨hvw, ht⟩
    exact ⟨.some hvw, ht⟩

theorem number_poleEnd_ne_vector {x : Float} {pole : Option Vec3} {v : Vec3} {t t' : String} :
    number x ++ (poleEnd pole ++ t) ≠ vector v ++ t' := by
  intro h
  rw [vector_append, ← @String.empty_append ("[" ++ _)] at h
  -- The bracket is nothing that a number is written with, so it would have to follow the number.
  rcases numeral_append_inj (isNumeral_number x) (List.all_eq_true.mp rfl) (stops_poleEnd pole t)
    (stops_append rfl _) h with ⟨_, h⟩
  cases pole with
  | none => exact absurd h (append_ne rfl rfl (by decide))
  | some pole =>
      rw [poleEnd, String.append_assoc] at h
      exact absurd h (append_ne rfl rfl (by decide))

theorem angleText_append_inj {a b : Angle} {p q : Option Vec3} {t t' : String}
    (h : angleText a ++ (poleEnd p ++ t) = angleText b ++ (poleEnd q ++ t')) :
    a.Matches SameText b ∧ poleEnd p ++ t = poleEnd q ++ t' := by
  cases a with
  | single x =>
      cases b with
      | single y => exact number_append_inj (stops_poleEnd p t) (stops_poleEnd q t') h
      | euler w => exact absurd h number_poleEnd_ne_vector
  | euler v =>
      cases b with
      | single y => exact absurd h.symm number_poleEnd_ne_vector
      | euler w => exact vector_append_inj h

theorem rotationEnd_append_inj {a b : Rotation} {t t' : String}
    (h : rotationEnd a ++ t = rotationEnd b ++ t') : a.Matches SameText b ∧ t = t' := by
  match a, b with
  | ⟨some a, p⟩, ⟨some b, q⟩ =>
      simp only [rotationEnd, String.append_assoc, String.append_right_inj] at h
      rcases angleText_append_inj h with ⟨hangle, h⟩
      rcases poleEnd_append_inj h with ⟨hpole, h⟩
      exact ⟨⟨.some hangle, hpole⟩, h⟩
  | ⟨none, some v⟩, ⟨none, some w⟩ =>
      simp only [rotationEnd, String.append_assoc, String.append_right_inj] at h
      rcases vector_end_inj h with ⟨hvw, ht⟩
      exact ⟨⟨.none, .some hvw⟩, ht⟩
  | ⟨none, none⟩, ⟨none, none⟩ => exact ⟨⟨.none, .none⟩, (String.append_right_inj _).mp h⟩
  | ⟨some _, _⟩, ⟨none, some _⟩ | ⟨some _, _⟩, ⟨none, none⟩ | ⟨none, some _⟩, ⟨some _, _⟩
  | ⟨none, some _⟩, ⟨none, none⟩ | ⟨none, none⟩, ⟨some _, _⟩ | ⟨none, none⟩, ⟨none, some _⟩ =>
      simp only [rotationEnd, String.append_assoc] at h
      exact absurd h (append_ne rfl rfl (by decide))

theorem translateCall_append (v : Vec3) (t : String) :
    transformationCall (.translate v) ++ t = "translate(v = " ++ (vector v ++ (")" ++ t)) := by
  unfold transformationCall
  rw [String.append_assoc, String.append_assoc]

theorem scaleCall_append (v : Vec3) (t : String) :
    transformationCall (.scale v) ++ t = "scale(v = " ++ (vector v ++ (")" ++ t)) := by
  unfold transformationCall
  rw [String.append_assoc, String.append_assoc]

theorem translate_append_inj {v w : Vec3} {t t' : String}
    (h : transformationCall (.translate v) ++ t = transformationCall (.translate w) ++ t') :
    v.Matches SameText w ∧ t = t' := by
  rw [translateCall_append, translateCall_append, String.append_right_inj] at h
  exact vector_end_inj h

theorem scale_append_inj {v w : Vec3} {t t' : String}
    (h : transformationCall (.scale v) ++ t = transformationCall (.scale w) ++ t') :
    v.Matches SameText w ∧ t = t' := by
  rw [scaleCall_append, scaleCall_append, String.append_right_inj] at h
  exact vector_end_inj h

/-- A rotation is determined by its call. Each of its parts may be missing, and an angle has two
    forms, which makes six calls; the first character behind the name of a part tells which it
    is. -/
theorem rotate_append_inj {a b : Rotation} {t t' : String}
    (h : transformationCall (.rotate a) ++ t = transformationCall (.rotate b) ++ t') :
    a.Matches SameText b ∧ t = t' := by
  rw [rotateCall_append, rotateCall_append, String.append_right_inj] at h
  exact rotationEnd_append_inj h

theorem colorCall_append (c : Color) (t : String) :
    colorCall c ++ t = "color(c = [" ++ (number c.red ++ (", " ++ (number c.green ++ (", "
      ++ (number c.blue ++ (", " ++ (number c.alpha ++ ("])" ++ t)))))))) := by
  simp only [colorCall, Color.toList, List.map_cons, List.map_nil, String.intercalate_cons_cons,
    String.intercalate_singleton, String.append_assoc]

theorem color_append_inj {c d : Color} {t t' : String}
    (h : colorCall c ++ t = colorCall d ++ t') : c.Matches SameText d ∧ t = t' := by
  rw [colorCall_append, colorCall_append, String.append_right_inj] at h
  rcases number_mark_inj rfl h with ⟨hred, h⟩
  rcases number_mark_inj rfl h with ⟨hgreen, h⟩
  rcases number_mark_inj rfl h with ⟨hblue, h⟩
  rcases number_mark_inj rfl h with ⟨halpha, h⟩
  exact ⟨⟨hred, hgreen, hblue, halpha⟩, h⟩

/-! ## Calls that say the same -/

theorem vector_congr {v w : Vec3} (h : v.Matches SameText w) : vector v = vector w := by
  rw [← String.append_left_inj "", vector_append, vector_append, h.1, h.2.1, h.2.2]

theorem primitiveCall_congr {p q : Primitive} (h : p.Matches SameText q) :
    primitiveCall p = primitiveCall q := by
  rw [← String.append_left_inj ""]
  cases p with
  | frustum f =>
      cases q with
      | frustum g =>
          rw [frustumCall_append, frustumCall_append, h.height, h.bottomDiameter, h.topDiameter,
            h.centered, h.segments]
      | sphere y => exact h.elim
  | sphere x =>
      cases q with
      | frustum g => exact h.elim
      | sphere y => rw [sphereCall_append, sphereCall_append, h]

theorem angleText_congr {a b : Angle} (h : a.Matches SameText b) :
    angleText a = angleText b := by
  cases a with
  | single x =>
      cases b with
      | single y => exact h
      | euler w => exact h.elim
  | euler v =>
      cases b with
      | single y => exact h.elim
      | euler w => exact vector_congr h

theorem poleEnd_congr {a b : Option Vec3} (h : Option.Rel (Vec3.Matches SameText) a b) :
    poleEnd a = poleEnd b := by
  cases h with
  | none => rfl
  | some h => rw [poleEnd, poleEnd, vector_congr h]

theorem rotationEnd_congr {a b : Rotation} (h : a.Matches SameText b) :
    rotationEnd a = rotationEnd b := by
  rcases a with ⟨angle, pole⟩
  rcases b with ⟨angle', pole'⟩
  rcases h with ⟨hangle, hpole⟩
  cases hangle with
  | some h => rw [rotationEnd, rotationEnd, angleText_congr h, poleEnd_congr hpole]
  | none =>
      cases hpole with
      | none => rfl
      | some h => rw [rotationEnd, rotationEnd, vector_congr h]

theorem transformationCall_congr {a b : Transformation} (h : a.Matches SameText b) :
    transformationCall a = transformationCall b := by
  rw [← String.append_left_inj ""]
  cases a with
  | translate v =>
      cases b with
      | translate w => rw [translateCall_append, translateCall_append, vector_congr h]
      | _ => exact h.elim
  | rotate r =>
      cases b with
      | rotate s => rw [rotateCall_append, rotateCall_append, rotationEnd_congr h]
      | _ => exact h.elim
  | scale v =>
      cases b with
      | scale w => rw [scaleCall_append, scaleCall_append, vector_congr h]
      | _ => exact h.elim

theorem colorCall_congr {c d : Color} (h : c.Matches SameText d) : colorCall c = colorCall d := by
  rcases h with ⟨hred, hgreen, hblue, halpha⟩
  rw [← String.append_left_inj "", colorCall_append, colorCall_append, hred, hgreen, hblue, halpha]

end Scad

end SolidModel
