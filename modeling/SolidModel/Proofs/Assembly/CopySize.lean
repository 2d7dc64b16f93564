import Mathlib
import SolidModel.Proofs.Assembly.Preservation

/-!
# Sizes of Copies

How many components a copy makes.

A copy takes one new component for itself, and for each child as many as the copy of the child
takes. It does not matter how many compositions name the child, since all of them get the copy that
is there. An operand that is no child is another matter: in an isolated copy every mention of it is
a copy of its own, even within one composition.

The number is computed from the source alone, by a recursion with a depth that is never used up.
That this is the number of components made means that nothing is copied twice, and that no copy is
made and then forgotten.

## Main definitions

* `Component.borrowed`: The operands that are no children.
* `Assembly.copySize`: The number of components that an isolated copy takes.

## Theorems

* `Assembly.WellFormed.copySize_eq`: The recursion without depth.
* `Edit.size_copyChildren`, `Edit.size_copyCompositions`: What the two loops of a copy make.
* `Edit.size_copyWithin`: What an isolated copy makes.
* `Assembly.WellFormed.size_copy`: The number of components after a copy.
-/

namespace SolidModel

open Relation

/-- The operands that are no children, with repetitions. They belong to somebody else, or to
    nobody. -/
def Component.borrowed (c : Component) : List ComponentId :=
  c.composed.filter fun operand => operand ∉ c.children

namespace Assembly

variable {a : Assembly}

/-- The number of components that an isolated copy takes, down to a depth. -/
def copySizeWithin (a : Assembly) : Nat → ComponentId → Nat
  | 0, _ => 0
  | depth + 1, id =>
    match a.get? id with
    | none => 0
    | some c => 1 + (c.children.map (a.copySizeWithin depth)).sum
        + (c.borrowed.map (a.copySizeWithin depth)).sum

/-- The number of components that an isolated copy takes. A component that is used in two ways below
    the source is copied twice, unless it is a child that its own parent uses. -/
def copySize (a : Assembly) (id : ComponentId) : Nat := a.copySizeWithin (a.size + 1) id

theorem copySizeWithin_succ {depth : Nat} {id : ComponentId} {c : Component}
    (hc : a.get? id = some c) :
    a.copySizeWithin (depth + 1) id = 1 + (c.children.map (a.copySizeWithin depth)).sum
      + (c.borrowed.map (a.copySizeWithin depth)).sum := by
  simp only [copySizeWithin, hc]

theorem copySizeWithin_eq_of_endsWithin {depth depth' : Nat} {id : ComponentId}
    (hle : depth ≤ depth') (h : EndsWithin a.uses depth id) :
    a.copySizeWithin depth' id = a.copySizeWithin depth id := by
  refine EndsWithin.recursion_eq (fun depth depth' id hpart => ?_) hle h
  cases hc : a.get? id with
  | none => simp only [copySizeWithin, hc]
  | some c =>
      rw [uses_of_get? hc] at hpart
      have hchildren : c.children.map (a.copySizeWithin depth') =
          c.children.map (a.copySizeWithin depth) :=
        List.map_congr_left fun y hy => hpart y (List.mem_append_left _ hy)
      have hborrowed : c.borrowed.map (a.copySizeWithin depth') =
          c.borrowed.map (a.copySizeWithin depth) :=
        List.map_congr_left fun y hy =>
          hpart y (List.mem_append_right _ (List.mem_of_mem_filter hy))
      rw [copySizeWithin_succ hc, copySizeWithin_succ hc, hchildren, hborrowed]

/-- A copy takes what the copies of its children take, what those of borrowed operands take, and one
    component more. Borrowed are the operands that are no children, and one that is mentioned twice
    is copied twice. -/
theorem WellFormed.copySize_eq (h : a.WellFormed) {id : ComponentId} {c : Component}
    (hc : a.get? id = some c) :
    a.copySize id = 1 + (c.children.map a.copySize).sum + (c.borrowed.map a.copySize).sum := by
  have hdeeper : a.copySizeWithin (a.size + 2) id = a.copySize id :=
    copySizeWithin_eq_of_endsWithin (Nat.le_succ _) (h.usesEnd id)
  rw [← hdeeper, copySizeWithin_succ hc]
  rfl

@[simp] theorem size_link (a : Assembly) (parent child : ComponentId) :
    (a.link parent child).size = a.size := by
  rw [link, size_modify, size_modify]

end Assembly

namespace Edit

open Assembly

variable {a : Assembly} {depth : Nat}

/-- What is asked of sizes at a depth: a copy makes as many components as it takes. -/
def Sized (a : Assembly) (depth : Nat) : Prop :=
  ∀ {m : Assembly} {root id : ComponentId}, m.WellFormed → a.Shows m root depth id →
    (copyWithin depth id true m).assembly.size = m.size + a.copySizeWithin depth id

/-- To copy a child and to link its copy makes what the copy takes. -/
theorem size_copyChild (hsized : Sized a depth) {m : Assembly} {root child : ComponentId}
    (hwf : m.WellFormed) (hshow : a.Shows m root depth child) :
    (copyChild depth root child m).assembly.size = m.size + a.copySizeWithin depth child := by
  rcases copyWithin_isolated a depth hwf hshow with ⟨b, hyields, _⟩
  have hlinked : (copyChild depth root child).Yields m (child, m.nextId) (b.link root m.nextId) :=
    hyields.bind ((Yields.change _ _).bind (Yields.pure _ _))
  rw [hlinked.assembly, size_link, ← hyields.assembly, hsized hwf hshow]

/-- Going through the children makes what their copies take. -/
theorem size_copyChildren (hsized : Sized a depth) {root : ComponentId}
    (sources : List ComponentId) : ∀ {m : Assembly} {r : Component}, m.WellFormed →
    m.get? root = some r → (∀ x ∈ sources, a.Shows m root depth x) →
    (sources.mapM (copyChild depth root) m).assembly.size =
      m.size + (sources.map (a.copySizeWithin depth)).sum := by
  have hcopies : Copies a depth := copyWithin_isolated a depth
  -- Each child is copied into what the copies before it have left, so the assembly is free.
  induction sources with
  | nil =>
      intro m r _ _ _
      rw [(Yields.mapM_nil _ m).assembly, List.map_nil, List.sum_nil, Nat.add_zero]
  | cons child rest ih =>
      intro m r hwf hr hshow
      have hchild := hshow child List.mem_cons_self
      rcases copyChild_yields hcopies hwf hr hchild with ⟨m', hyields, hwf', hext, hr', _⟩
      have hshow' := fun x hx => (hshow x (List.mem_cons_of_mem _ hx)).grow hext
      rcases copyChildren_yields hcopies rest hwf' hr' hshow' with ⟨copies, b, hyields', _⟩
      rw [(hyields.mapM_cons hyields').assembly, ← hyields'.assembly, ih hwf' hr' hshow',
        ← hyields.assembly, size_copyChild hsized hwf hchild, List.map_cons, List.sum_cons,
        Nat.add_assoc]

/-- The number of components that an operand takes, which may be there already. -/
def operandSize (a : Assembly) (depth : Nat) (isolated : Bool)
    (copies : List (ComponentId × ComponentId)) (operand : ComponentId) : Nat :=
  match copies.lookup operand with
  | some _ => 0
  | none => if isolated then a.copySizeWithin depth operand else 0

theorem size_copyOperand (hsized : Sized a depth) (isolated : Bool) {m : Assembly}
    {root operand : ComponentId} (copies : List (ComponentId × ComponentId)) (hwf : m.WellFormed)
    (hshow : a.Shows m root depth operand) :
    (copyOperand depth isolated copies operand m).assembly.size =
      m.size + operandSize a depth isolated copies operand := by
  unfold copyOperand operandSize
  cases copies.lookup operand with
  | some y => rfl
  | none =>
      cases isolated with
      | false => rfl
      | true => exact hsized hwf hshow

/-- Going through operands makes what is not there yet. -/
theorem size_copyOperands (hsized : Sized a depth) (isolated : Bool) {root : ComponentId}
    {copies : List (ComponentId × ComponentId)} (operands : List ComponentId) :
    ∀ {m : Assembly}, m.WellFormed → m.contains root = true →
    (∀ x ∈ operands, a.Shows m root depth x) →
    (∀ x y, copies.lookup x = some y → Admissible m root y) →
    (operands.mapM (copyOperand depth isolated copies) m).assembly.size =
      m.size + (operands.map (operandSize a depth isolated copies)).sum := by
  have hcopies : Copies a depth := copyWithin_isolated a depth
  induction operands with
  | nil =>
      intro m _ _ _ _
      rw [(Yields.mapM_nil _ m).assembly, List.map_nil, List.sum_nil, Nat.add_zero]
  | cons operand rest ih =>
      intro m hwf hroot hshow hfound
      have hoperand := hshow operand List.mem_cons_self
      rcases copyOperand_yields hcopies isolated hwf hroot hoperand hfound with
        ⟨y, m', hyields, hwf', hext, _⟩
      -- What was true of the other operands is still true after one of them has been copied.
      have hroot' := hext.contains root hroot
      have hshow' := fun x hx =>
        (hshow x (List.mem_cons_of_mem _ hx)).grow (hext.weaken (some root))
      have hfound' := fun x y hxy => (hfound x y hxy).grow hwf hext
      rcases copyOperands_yields hcopies isolated rest hwf' hroot' hshow' hfound' with
        ⟨ys, b, hyields', _⟩
      rw [(hyields.mapM_cons hyields').assembly, ← hyields'.assembly,
        ih hwf' hroot' hshow' hfound', ← hyields.assembly,
        size_copyOperand hsized isolated copies hwf hoperand, List.map_cons, List.sum_cons,
        Nat.add_assoc]

/-- Going through the compositions makes what is not there yet. -/
theorem size_copyCompositions (hsized : Sized a depth) (isolated : Bool) {root : ComponentId}
    {copies : List (ComponentId × ComponentId)} (sources : List Composition) :
    ∀ {m : Assembly} {r : Component}, m.WellFormed → m.get? root = some r →
    (∀ p ∈ sources, ∀ x ∈ p.operands, a.Shows m root depth x) →
    (∀ x y, copies.lookup x = some y → Admissible m root y) →
    (sources.forM (copyComposition depth isolated root copies) m).assembly.size =
      m.size + ((sources.flatMap Composition.operands).map
        (operandSize a depth isolated copies)).sum := by
  have hcopies : Copies a depth := copyWithin_isolated a depth
  induction sources with
  | nil =>
      intro m r _ _ _ _
      rw [(Yields.forM_nil _ m).assembly, List.flatMap_nil, List.map_nil, List.sum_nil,
        Nat.add_zero]
  | cons p rest ih =>
      intro m r hwf hr hshow hfound
      have hoperands := hshow p List.mem_cons_self
      rcases copyComposition_yields hcopies isolated p hwf hr hoperands hfound with
        ⟨_, m', hyields, hwf', hext, hr', hfound', _⟩
      have hshow' := fun q hq x hx => (hshow q (List.mem_cons_of_mem _ hq) x hx).grow hext
      rcases copyCompositions_yields hcopies isolated rest hwf' hr' hshow' hfound' with
        ⟨_, b, hyields', _⟩
      rw [(Yields.forM_cons hyields hyields').assembly, ← hyields'.assembly,
        ih hwf' hr' hshow' hfound', ← hyields.assembly, copyComposition]
      -- Recording a composition adds no component, so that only the copies of its operands count.
      rcases copyOperands_yields hcopies isolated p.operands hwf (contains_of_get? hr) hoperands
        hfound with ⟨ys, between, hmade, _⟩
      rw [(hmade.bind (Yields.change _ _)).assembly, size_modify, ← hmade.assembly,
        size_copyOperands hsized isolated p.operands hwf (contains_of_get? hr) hoperands hfound,
        List.flatMap_cons, List.map_append, List.sum_append, Nat.add_assoc]

/-- Operands take what borrowed ones take, and only if they are not shared. -/
theorem sum_operandSize (a : Assembly) (depth : Nat) (isolated : Bool)
    {children copies : List ComponentId} (hlength : children.length = copies.length)
    (operands : List ComponentId) :
    (operands.map (operandSize a depth isolated (children.zip copies))).sum =
      if isolated then
        ((operands.filter fun operand => operand ∉ children).map (a.copySizeWithin depth)).sum
      else 0 := by
  induction operands with
  | nil => cases isolated <;> rfl
  | cons operand rest ih =>
      rw [List.map_cons, List.sum_cons, ih, operandSize]
      -- An operand that is a child has its copy already, and takes nothing.
      cases hlookup : (children.zip copies).lookup operand with
      | some y =>
          have hmem := (List.of_mem_zip (mem_zip_of_lookup hlookup)).1
          simp only [List.filter_cons, hmem, not_true_eq_false, decide_false, Bool.false_eq_true,
            if_false, Nat.zero_add]
      | none =>
          have hnot := not_mem_of_lookup hlength hlookup
          cases isolated with
          | false => rfl
          | true => simp only [List.filter_cons, hnot, not_false_eq_true, decide_true, if_true,
              List.map_cons, List.sum_cons]

/-- The parts of a copy in the making. -/
theorem size_copyParts (hsized : Sized a depth) (isolated : Bool) {m : Assembly}
    {root : ComponentId} {s r : Component} (hwf : m.WellFormed) (hroot : m.get? root = some r)
    (hlast : ∀ y, m.contains y = true → y.number ≤ root.number)
    (hshow : ∀ y ∈ s.uses, a.Shows m root depth y) {copies : List (ComponentId × ComponentId)}
    {between b : Assembly}
    (hyields : (s.children.mapM (copyChild depth root)).Yields m copies between)
    (hyields' : (s.compositions.forM (copyComposition depth isolated root copies)).Yields
      between () b) :
    b.size = m.size + (s.children.map (a.copySizeWithin depth)).sum
      + if isolated then (s.borrowed.map (a.copySizeWithin depth)).sum else 0 := by
  rcases copyParts_between (copyWithin_isolated a depth) hwf hroot hlast hshow with
    ⟨copied, between', hmade, hwf', _, hroot', hdups, hforeign, hfound⟩
  -- What is made of the children is the same in both accounts.
  cases hyields.result.symm.trans hmade.result
  cases hyields.assembly.symm.trans hmade.assembly
  rw [← hyields'.assembly,
    size_copyCompositions hsized isolated s.compositions hwf' hroot' hforeign hfound,
    sum_operandSize a depth isolated hdups.length_eq, ← hyields.assembly,
    size_copyChildren hsized s.children hwf hroot fun x hx => hshow x (List.mem_append_left _ hx)]
  rfl

-- What is claimed at a depth is claimed of every assembly in which the source still shows, because
-- the copies of the parts are made while the whole is in the making.
/-- An isolated copy makes as many components as it takes. -/
theorem size_copyWithin (a : Assembly) (depth : Nat) : Sized a depth := by
  induction depth with
  | zero => exact fun _ hshow => absurd hshow.ends (by simp only [EndsWithin, not_false_eq_true])
  | succ depth ih =>
      intro m root id hwf hshow
      rcases hshow.get?_eq id ReflTransGen.refl with ⟨_, s, has, hms⟩
      have hnew : (m.insert s.copied).WellFormed :=
        hwf.insert rfl rfl fun y hy => absurd hy List.not_mem_nil
      have hroot := get?_insert_nextId m s.copied
      have hlast := fun y hy =>
        number_le_nextId_of_contains_insert (m := m) (c := s.copied) (y := y) hy
      have hparts := shows_insert hshow has s.copied
      rcases copyParts_yields (copyWithin_isolated a depth) true hnew hroot hlast hparts with
        ⟨copies, between, b, c, hyields, hyields', _⟩
      have hsize := size_copyParts ih true hnew hroot hlast hparts hyields hyields'
      rw [(copyWithin_isolated_yields hms hyields hyields').assembly, hsize, size_insert,
        copySizeWithin_succ has, if_pos rfl]
      omega

end Edit

namespace Assembly

variable {a b : Assembly} {id : ComponentId} {s : Component}

theorem size_joined (a : Assembly) (s : Component) : (Edit.joined a s).size = a.size + 1 := by
  unfold Edit.joined
  cases s.parent with
  | none => exact size_insert a s.copied
  | some parent => rw [size_link, size_insert]

/-- After a copy there is one component more, what the copies of the children take, and what those
    of borrowed operands take unless they are shared. Together with what `Copied` says of the parts,
    this leaves no room for components that belong to nothing. -/
theorem WellFormed.size_copy (h : a.WellFormed) (hs : a.get? id = some s) (isolated : Bool) :
    (Edit.copy id isolated a).assembly.size = a.size + 1 + (s.children.map a.copySize).sum
      + if isolated then (s.borrowed.map a.copySize).sum else 0 := by
  cases isolated with
  | true =>
      have hshow := h.shows (contains_of_get? hs)
      rw [Edit.copy, Edit.size_copyWithin a _ h hshow, if_pos rfl]
      change a.size + a.copySize id = _
      rw [h.copySize_eq hs]
      omega
  | false =>
      have hends := h.usesEnd id
      rcases Edit.joined_spec h hs with ⟨hwf', hroot, _⟩
      have hlast := fun y hy => Edit.number_le_of_contains_joined (y := y) h hs hy
      have hparts := Edit.shows_joined h hs hends
      rcases Edit.copyParts_yields (Edit.copyWithin_isolated a a.size) false hwf' hroot hlast hparts
        with ⟨copies, between, b, c, hyields, hyields', _⟩
      have hsize := Edit.size_copyParts (Edit.size_copyWithin a a.size) false hwf' hroot hlast
        hparts hyields hyields'
      -- The depth that is left for the parts suffices.
      have hchildren : s.children.map (a.copySizeWithin a.size) = s.children.map a.copySize :=
        List.map_congr_left fun y hy => by
          refine (copySizeWithin_eq_of_endsWithin (Nat.le_succ a.size) (hends y ?_)).symm
          rw [uses_of_get? hs]
          exact List.mem_append_left _ hy
      rw [Edit.copy, (Edit.copyWithin_plain_yields hs hyields hyields').assembly, hsize,
        size_joined, hchildren]
      rfl

end Assembly

end SolidModel
