import SolidModel.Assembly.Copy
import SolidModel.Proofs.Assembly.Duplicate
import SolidModel.Proofs.Assembly.Yields

/-!
# The Making of a Copy

A copy is made without fail, and is what it should be.

The operation goes down the links of its source with a depth, and at every level it goes through
two lists. First the children are copied one by one and linked below the copy; then the
compositions are gone through, and every operand is looked up among the children copied, or
copied itself, or shared. Each of the two loops has an invariant of the same form: the assembly
is well-formed, it has grown from where the loop began, and only the copy in the making has been
touched.

What makes the depth suffice is that the sources never change. They are looked up in the assembly
as it was (`Assembly.Shows`), where every walk down from them ends in time, and what is made on the
way is never among them.

## Main definitions

* `Edit.copyChild`, `Edit.copyOperand`, `Edit.copyComposition`: The steps of the two loops.

## Theorems

* `Edit.copyWithin_succ`: A copy is made in these steps.
* `Edit.copyChildren_yields`, `Edit.copyCompositions_yields`: What the two loops do.
* `Edit.copyWithin_isolated_yields`, `Edit.copyWithin_plain_yields`: A copy as a node that is made
  and the loops that follow.
* `Edit.copyWithin_isolated`, `Edit.copyWithin_plain`: What a copy is.
* `Edit.copyWithin_agrees`: More depth makes no difference to a copy that is made.
-/

namespace SolidModel

open Assembly Relation

namespace Edit

/-- A child is copied and its copy is linked. -/
def copyChild (depth : Nat) (root child : ComponentId) : Edit (ComponentId × ComponentId) := do
  let childCopy ← copyWithin depth child true
  link root childCopy
  pure (child, childCopy)

/-- An operand is what its copy as a child is, if it has one. -/
def copyOperand (depth : Nat) (isolated : Bool) (copies : List (ComponentId × ComponentId))
    (operand : ComponentId) : Edit ComponentId :=
  match copies.lookup operand with
  | some childCopy => pure childCopy
  | none => if isolated then copyWithin depth operand true else pure operand

/-- A composition is recorded with operands of its own. -/
def copyComposition (depth : Nat) (isolated : Bool) (root : ComponentId)
    (copies : List (ComponentId × ComponentId)) (composition : Composition) : Edit Unit := do
  let operands ← composition.operands.mapM (copyOperand depth isolated copies)
  change fun a => a.modify root fun c => c.composing ⟨composition.operator, operands⟩

/-- A plain copy joins the parent of its source. -/
def join (isolated : Bool) (parent : Option ComponentId) (copy : ComponentId) : Edit Unit :=
  match isolated, parent with
  | false, some parent => link parent copy
  | _, _ => pure ()

/-- A copy is made in these steps. -/
theorem copyWithin_succ (depth : Nat) (id : ComponentId) (isolated : Bool) :
    copyWithin (depth + 1) id isolated = (do
      let source ← read fun a => a.find id
      let copy ← insert source.copied
      join isolated source.parent copy
      let copies ← source.children.mapM (copyChild depth copy)
      source.compositions.forM (copyComposition depth isolated copy copies)
      note (.copied id copy isolated)
      pure copy) := by
  rw [copyWithin]
  refine bind_congr fun source => bind_congr fun copy => ?_
  cases isolated <;> cases source.parent <;> rfl

/-- More depth makes no difference to a copy that is made. -/
theorem copyWithin_agrees {depth depth' : Nat} (hle : depth ≤ depth') (id : ComponentId)
    (isolated : Bool) : Agrees (copyWithin depth id isolated) (copyWithin depth' id isolated) := by
  induction depth generalizing depth' id isolated with
  | zero => exact fun a value hok => absurd hok (by simp [copyWithin, read, ask, Logged.ofExcept])
  | succ depth ih =>
      cases depth' with
      | zero => exact absurd hle (Nat.not_succ_le_zero depth)
      | succ depth' =>
          have ih' := fun id isolated => ih (Nat.le_of_succ_le_succ hle) id isolated
          -- The two copies take the same steps, with another depth left for the parts.
          have hchild : ∀ copy child, Agrees (copyChild depth copy child)
              (copyChild depth' copy child) := fun copy child =>
            Agrees.bind (ih' child true) fun _ => Agrees.refl _
          have hoperand : ∀ copies operand, Agrees (copyOperand depth isolated copies operand)
              (copyOperand depth' isolated copies operand) := by
            intro copies operand
            unfold copyOperand
            split
            · exact Agrees.refl _
            · split
              · exact ih' operand true
              · exact Agrees.refl _
          rw [copyWithin_succ, copyWithin_succ]
          refine Agrees.bind (Agrees.refl _) fun source =>
            Agrees.bind (Agrees.refl _) fun copy => ?_
          refine Agrees.bind (Agrees.refl _) fun _ => ?_
          refine Agrees.bind (Agrees.mapM (hchild copy) _) fun copies => ?_
          refine Agrees.bind (Agrees.forM (fun composition => ?_) _) fun _ => Agrees.refl _
          exact Agrees.bind (Agrees.mapM (hoperand copies) _) fun _ => Agrees.refl _

/-- What is asked of copies at a depth: whatever an assembly shows down to it can be copied. -/
def Copies (a : Assembly) (depth : Nat) : Prop :=
  ∀ {m : Assembly} {root id : ComponentId}, m.WellFormed → a.Shows m root depth id →
    ∃ b, (copyWithin depth id true).Yields m m.nextId b ∧ b.WellFormed ∧ m.Extends b none ∧
      a.Duplicate b depth none id m.nextId

theorem number_lt_nextId {a : Assembly} {id : ComponentId} (h : a.contains id = true) :
    id.number < a.nextId.number := by
  have := (contains_iff_number.mp h).2
  simp only [nextId]
  omega

/-- One child is copied and linked. -/
theorem copyChild_yields {a m : Assembly} {depth : Nat} (hcopies : Copies a depth)
    {root child : ComponentId} {r : Component} (hwf : m.WellFormed) (hr : m.get? root = some r)
    (hshow : a.Shows m root depth child) :
    ∃ b, (copyChild depth root child).Yields m (child, m.nextId) b ∧ b.WellFormed ∧
      m.Extends b (some root) ∧
      b.get? root = some { r with children := r.children ++ [m.nextId] } ∧
      a.Duplicate b depth (some root) child m.nextId := by
  rcases hcopies hwf hshow with ⟨b, hyields, hwfb, hext, hdup⟩
  have hroot := contains_of_get? hr
  have hnew := WellFormed.not_contains_nextId m
  have hrootb : b.get? root = some r := by
    rw [hext.kept root hroot (by simp only [ne_eq, reduceCtorEq, not_false_eq_true]), hr]
  have hne : root ≠ m.nextId := ne_nextId_of_contains hroot
  have hlink := hwfb.link (hext.contains root hroot) hdup.contains_copy
    (Or.inl hdup.parent?_copy) (hext.not_reaches_old hnew hroot)
  -- The link is made once the copy is there, and the copy is newer than the root and has no parent.
  refine ⟨b.link root m.nextId, ?_, hlink, ?_, ?_, hdup.link (number_lt_nextId hroot)⟩
  · exact hyields.bind ((Yields.change _ _).bind (Yields.pure _ _))
  · refine ⟨fun id hid hid' => ?_, fun id hid => ?_, fun id other hid huse => ?_⟩
    · rw [get?_link_of_ne (fun heq => hid' (by rw [heq])) (ne_nextId_of_contains hid)]
      exact hext.kept id hid (by simp only [ne_eq, reduceCtorEq, not_false_eq_true])
    · rw [contains_link]
      exact hext.contains id hid
    · rcases (uses_link (hext.contains root hroot) id other).mp huse with hold | ⟨rfl, _⟩
      · exact hext.rising id other hid hold
      · exact absurd hroot hid
  · -- The copy is no child yet, since no child is new.
    have hnot : m.nextId ∉ r.children := by
      intro hmem
      rw [← children_of_get? hr] at hmem
      exact hnew (hwf.contains_of_uses _ _ (uses_of_mem_children hmem))
    simp only [get?_link, hrootb, Option.map_some, if_true, if_neg hne, Component.adopting,
      if_neg hnot]

/-- Going through the children leaves the copy in the making with a copy of each, in order. This is
    the loop invariant of the first loop: at every turn the assembly is well-formed, it has grown
    but for the copy in the making, and the copies made so far are duplicates that are newer than
    that copy. -/
theorem copyChildren_yields {a : Assembly} {depth : Nat} (hcopies : Copies a depth)
    {root : ComponentId} (sources : List ComponentId) : ∀ {m : Assembly} {r : Component},
    m.WellFormed → m.get? root = some r → (∀ x ∈ sources, a.Shows m root depth x) →
    ∃ copies b, (sources.mapM (copyChild depth root)).Yields m (sources.zip copies) b ∧
      b.WellFormed ∧ m.Extends b (some root) ∧
      b.get? root = some { r with children := r.children ++ copies } ∧
      List.Forall₂ (fun x y => root.number < y.number ∧ a.Duplicate b depth (some root) x y)
        sources copies := by
  induction sources with
  | nil =>
      intro m r hwf hr _
      refine ⟨[], m, Yields.mapM_nil _ m, hwf, Extends.refl m _, ?_, List.Forall₂.nil⟩
      rw [hr, List.append_nil]
  | cons child rest ih =>
      intro m r hwf hr hshow
      rcases copyChild_yields hcopies hwf hr (hshow child List.mem_cons_self) with
        ⟨m', hyields, hwf', hext, hr', hdup⟩
      rcases ih hwf' hr' (fun x hx => (hshow x (List.mem_cons_of_mem _ hx)).grow hext) with
        ⟨copies, b, hyields', hwfb, hext', hrb, hdups⟩
      have hlt : root.number < m.nextId.number := number_lt_nextId (contains_of_get? hr)
      refine ⟨m.nextId :: copies, b, hyields.mapM_cons hyields', hwfb, ?_, ?_, ?_⟩
      · exact hext.trans hext' fun id heq => Option.some.inj heq ▸ contains_of_get? hr
      · rw [hrb]
        simp only [List.append_assoc, List.singleton_append]
      · refine List.Forall₂.cons ⟨hlt, hdup.congr fun y hy hcontains => ?_⟩ hdups
        -- Only the root is worked on from here, and no part of the first copy is the root.
        refine hext'.kept y hcontains fun heq => ?_
        rw [← Option.some.inj heq] at hy
        omega

/-- How an operand of a copy that is no child comes from the operand of the source: as a copy of
    its own, or as the same component. -/
def Foreign (a b : Assembly) (depth : Nat) (root : ComponentId) :
    Bool → ComponentId → ComponentId → Prop
  | true, x, y => root.number < y.number ∧ a.Duplicate b depth none x y
  | false, x, y => y = x

/-- How an operand of a copy comes from the operand of the source. -/
def Part (a b : Assembly) (depth : Nat) (root : ComponentId) (isolated : Bool)
    (copies : List (ComponentId × ComponentId)) (x y : ComponentId) : Prop :=
  copies.lookup x = some y ∨ copies.lookup x = none ∧ Foreign a b depth root isolated x y

theorem Part.grow {a b b' : Assembly} {depth : Nat} {root x y : ComponentId} {isolated : Bool}
    {copies : List (ComponentId × ComponentId)} (h : Part a b depth root isolated copies x y)
    (hext : b.Extends b' (some root)) : Part a b' depth root isolated copies x y := by
  refine h.imp_right fun ⟨hnone, hforeign⟩ => ⟨hnone, ?_⟩
  cases isolated with
  | false => exact hforeign
  | true =>
      refine ⟨hforeign.1, hforeign.2.congr fun z hz hcontains =>
        hext.kept z hcontains fun heq => ?_⟩
      have hlt := hforeign.1
      rw [Option.some.inj heq] at hlt
      omega

/-- A component that exists and does not get to the root may become part of it. -/
def Admissible (m : Assembly) (root y : ComponentId) : Prop :=
  m.contains y = true ∧ ¬ m.Reaches y root

theorem Admissible.grow {m b : Assembly} {root y : ComponentId} (h : Admissible m root y)
    (hwf : m.WellFormed) (hext : m.Extends b none) : Admissible b root y :=
  ⟨hext.contains y h.1, fun hreach => h.2 (hext.reaches_old hwf h.1 hreach)⟩

/-- An operand is looked up, copied or shared. -/
theorem copyOperand_yields {a m : Assembly} {depth : Nat} (hcopies : Copies a depth)
    (isolated : Bool) {root operand : ComponentId} {copies : List (ComponentId × ComponentId)}
    (hwf : m.WellFormed) (hroot : m.contains root = true) (hshow : a.Shows m root depth operand)
    (hfound : ∀ x y, copies.lookup x = some y → Admissible m root y) :
    ∃ y b, (copyOperand depth isolated copies operand).Yields m y b ∧ b.WellFormed ∧
      m.Extends b none ∧ Admissible b root y ∧ Part a b depth root isolated copies operand y := by
  unfold copyOperand
  -- A copied child is taken before anything else, whether or not the copy is isolated.
  cases hlookup : copies.lookup operand with
  | some y =>
      exact ⟨y, m, Yields.pure y m, hwf, Extends.refl m none, hfound operand y hlookup,
        Or.inl hlookup⟩
  | none =>
      cases isolated with
      | false =>
          exact ⟨operand, m, Yields.pure operand m, hwf, Extends.refl m none,
            ⟨hshow.contains, hshow.not_reaches⟩, Or.inr ⟨hlookup, rfl⟩⟩
      | true =>
          rcases hcopies hwf hshow with ⟨b, hyields, hwfb, hext, hdup⟩
          have hnot := hext.not_reaches_old (WellFormed.not_contains_nextId m) hroot
          exact ⟨m.nextId, b, hyields, hwfb, hext, ⟨hdup.contains_copy, hnot⟩,
            Or.inr ⟨hlookup, number_lt_nextId hroot, hdup⟩⟩

/-- Going through the operands of a composition touches nothing that is there. -/
theorem copyOperands_yields {a : Assembly} {depth : Nat} (hcopies : Copies a depth)
    (isolated : Bool) {root : ComponentId} {copies : List (ComponentId × ComponentId)}
    (operands : List ComponentId) : ∀ {m : Assembly}, m.WellFormed → m.contains root = true →
    (∀ x ∈ operands, a.Shows m root depth x) →
    (∀ x y, copies.lookup x = some y → Admissible m root y) →
    ∃ ys b, (operands.mapM (copyOperand depth isolated copies)).Yields m ys b ∧ b.WellFormed ∧
      m.Extends b none ∧ (∀ y ∈ ys, Admissible b root y) ∧
      List.Forall₂ (Part a b depth root isolated copies) operands ys := by
  induction operands with
  | nil =>
      intro m hwf _ _ _
      exact ⟨[], m, Yields.mapM_nil _ m, hwf, Extends.refl m none,
        fun y hy => absurd hy List.not_mem_nil, List.Forall₂.nil⟩
  | cons operand rest ih =>
      intro m hwf hroot hshow hfound
      rcases copyOperand_yields hcopies isolated hwf hroot
        (hshow operand List.mem_cons_self) hfound with ⟨y, m', hyields, hwf', hext, hadm, hpart⟩
      -- What was known of the later operands is still known, since the assembly has only grown.
      rcases ih hwf' (hext.contains root hroot)
        (fun x hx => (hshow x (List.mem_cons_of_mem _ hx)).grow (hext.weaken (some root)))
        (fun x y hxy => (hfound x y hxy).grow hwf hext) with
        ⟨ys, b, hyields', hwfb, hext', hadms, hparts⟩
      refine ⟨y :: ys, b, hyields.mapM_cons hyields', hwfb, ?_, ?_, ?_⟩
      · exact hext.trans hext' fun id heq => absurd heq (by simp only [reduceCtorEq,
          not_false_eq_true])
      · intro z hz
        rcases List.mem_cons.mp hz with rfl | hz
        · exact hadm.grow hwf' hext'
        · exact hadms z hz
      · exact List.Forall₂.cons (hpart.grow (hext'.weaken (some root))) hparts

/-- To record a composition on the root touches nothing else. -/
theorem extends_composing {m : Assembly} {root : ComponentId} (hroot : m.contains root = true)
    (composition : Composition) :
    m.Extends (m.modify root fun c => c.composing composition) (some root) where
  kept id _ hid := get?_modify_of_ne _ fun heq => hid (by rw [heq])
  contains id hid := by rw [contains_modify]; exact hid
  rising id other hid huse := by
    rcases (uses_composing hroot composition id other).mp huse with hold | ⟨rfl, _⟩
    · exact absurd (contains_of_mem_uses hold) hid
    · exact absurd hroot hid

/-- One composition is recorded with operands of its own, and what was admissible still is. -/
theorem copyComposition_yields {a : Assembly} {depth : Nat} (hcopies : Copies a depth)
    (isolated : Bool) {root : ComponentId} {copies : List (ComponentId × ComponentId)}
    (p : Composition) {m : Assembly} {r : Component} (hwf : m.WellFormed)
    (hr : m.get? root = some r) (hshow : ∀ x ∈ p.operands, a.Shows m root depth x)
    (hfound : ∀ x y, copies.lookup x = some y → Admissible m root y) :
    ∃ ys b, (copyComposition depth isolated root copies p).Yields m () b ∧ b.WellFormed ∧
      m.Extends b (some root) ∧
      b.get? root = some { r with compositions := r.compositions ++ [⟨p.operator, ys⟩] } ∧
      (∀ x y, copies.lookup x = some y → Admissible b root y) ∧
      List.Forall₂ (Part a b depth root isolated copies) p.operands ys := by
  have hroot := contains_of_get? hr
  rcases copyOperands_yields hcopies isolated p.operands hwf hroot hshow hfound with
    ⟨ys, m', hyields, hwf', hext, hadms, hparts⟩
  have hroot' := hext.contains root hroot
  have hr' : m'.get? root = some r := by
    rw [hext.kept root hroot (by simp only [ne_eq, reduceCtorEq, not_false_eq_true]), hr]
  let made : Composition := ⟨p.operator, ys⟩
  have hrecord := extends_composing hroot' made
  refine ⟨ys, m'.modify root fun c => c.composing made, hyields.bind (Yields.change _ _),
    hwf'.composing hroot' (fun y hy => (hadms y hy).1) fun y hy => (hadms y hy).2,
    (hext.weaken (some root)).trans hrecord fun id heq => Option.some.inj heq ▸ hroot,
    get?_modify_self _ hr', fun x y hxy => ?_,
    forall₂_imp_of_mem hparts fun x _ y _ h => h.grow hrecord⟩
  have hold := (hfound x y hxy).grow hwf hext
  refine ⟨by rw [contains_modify]; exact hold.1, fun hreach => hold.2 ?_⟩
  -- The composition leaves the root, so it does not help to get there.
  refine reflTransGen_of_source (fun v w huse => ?_) hreach
  exact ((uses_composing hroot' made v w).mp huse).imp_right And.left

/-- Going through the compositions leaves the copy in the making with one for each, in order. This
    is the loop invariant of the second loop. What stands in for an operand is looked up among the
    copies of the children first. These have to be there and not to get to the copy in the making,
    so that no circle is closed. -/
theorem copyCompositions_yields {a : Assembly} {depth : Nat} (hcopies : Copies a depth)
    (isolated : Bool) {root : ComponentId} {copies : List (ComponentId × ComponentId)}
    (sources : List Composition) : ∀ {m : Assembly} {r : Component}, m.WellFormed →
    m.get? root = some r →
    (∀ p ∈ sources, ∀ x ∈ p.operands, a.Shows m root depth x) →
    (∀ x y, copies.lookup x = some y → Admissible m root y) →
    ∃ made b, (sources.forM (copyComposition depth isolated root copies)).Yields m () b ∧
      b.WellFormed ∧ m.Extends b (some root) ∧
      b.get? root = some { r with compositions := r.compositions ++ made } ∧
      List.Forall₂ (Composition.Mirrors (Part a b depth root isolated copies)) sources made := by
  induction sources with
  | nil =>
      intro m r hwf hr _ _
      refine ⟨[], m, Yields.forM_nil _ m, hwf, Extends.refl m _, ?_, List.Forall₂.nil⟩
      rw [hr, List.append_nil]
  | cons p rest ih =>
      intro m r hwf hr hshow hfound
      rcases copyComposition_yields hcopies isolated p hwf hr (hshow p List.mem_cons_self) hfound
        with ⟨ys, m', hyields, hwf', hext, hr', hfound', hparts⟩
      -- Copies that may be operands stay so, and the next composition may take them again.
      rcases ih hwf' hr' (fun q hq x hx => (hshow q (List.mem_cons_of_mem _ hq) x hx).grow hext)
        hfound' with ⟨rest', b, hyields', hwfb, hextb, hrb, hmirrors⟩
      refine ⟨⟨p.operator, ys⟩ :: rest', b, Yields.forM_cons hyields hyields', hwfb,
        hext.trans hextb fun id heq => Option.some.inj heq ▸ contains_of_get? hr, ?_, ?_⟩
      · rw [hrb]
        simp only [List.append_assoc, List.singleton_append]
      · exact List.Forall₂.cons ⟨rfl, hparts.imp fun _ _ h => h.grow hextb⟩ hmirrors

theorem mem_zip_of_lookup {l l' : List ComponentId} {x y : ComponentId}
    (h : (l.zip l').lookup x = some y) : (x, y) ∈ l.zip l' := by
  rcases List.lookup_eq_some_iff.mp h with ⟨before, after, heq, _⟩
  rw [heq]
  exact List.mem_append_right _ List.mem_cons_self

theorem not_mem_of_lookup {l l' : List ComponentId} (hlength : l.length = l'.length)
    {x : ComponentId} (h : (l.zip l').lookup x = none) : x ∉ l := by
  intro hx
  rw [← List.map_fst_zip (Nat.le_of_eq hlength), List.mem_map] at hx
  rcases hx with ⟨p, hp, rfl⟩
  have := List.lookup_eq_none_iff.mp h p hp
  simp only [bne_self_eq_false, Bool.false_eq_true] at this

/-- What there is once the children are gone through: copies that may be operands, and sources that
    are still shown. -/
theorem copyParts_between {a m : Assembly} {depth : Nat} (hcopies : Copies a depth)
    {root : ComponentId} {s r : Component} (hwf : m.WellFormed) (hroot : m.get? root = some r)
    (hlast : ∀ y, m.contains y = true → y.number ≤ root.number)
    (hshow : ∀ y ∈ s.uses, a.Shows m root depth y) :
    ∃ copies between,
      (s.children.mapM (copyChild depth root)).Yields m (s.children.zip copies) between ∧
      between.WellFormed ∧ m.Extends between (some root) ∧
      between.get? root = some { r with children := r.children ++ copies } ∧
      List.Forall₂ (fun x y => root.number < y.number ∧ a.Duplicate between depth (some root) x y)
        s.children copies ∧
      (∀ p ∈ s.compositions, ∀ x ∈ p.operands, a.Shows between root depth x) ∧
      ∀ x y, (s.children.zip copies).lookup x = some y → Admissible between root y := by
  rcases copyChildren_yields hcopies s.children hwf hroot
    (fun x hx => hshow x (List.mem_append_left _ hx)) with
    ⟨copies, between, hyields, hwf', hext, hroot', hdups⟩
  refine ⟨copies, between, hyields, hwf', hext, hroot', hdups, fun p hp x hx => ?_,
    fun x y hlookup => ?_⟩
  · exact (hshow x (List.mem_append_right _ (Component.mem_composed.mpr ⟨p, hp, hx⟩))).grow hext
  · -- What is found among the copies is newer than the root, and does not reach it.
    have hdup := List.forall₂_zip hdups (mem_zip_of_lookup hlookup)
    refine ⟨hdup.2.contains_copy, hext.not_reaches_old (fun hy => ?_) (contains_of_get? hroot)⟩
    exact absurd (hlast y hy) (Nat.not_le_of_lt hdup.1)

/-- What a copy in the making becomes once its children and its compositions are gone through. -/
theorem copyParts_yields {a m : Assembly} {depth : Nat} (hcopies : Copies a depth)
    (isolated : Bool) {root : ComponentId} {s : Component} {parent : Option ComponentId}
    (hwf : m.WellFormed) (hroot : m.get? root = some { s.copied with parent := parent })
    (hlast : ∀ y, m.contains y = true → y.number ≤ root.number)
    (hshow : ∀ y ∈ s.uses, a.Shows m root depth y) :
    ∃ copies between b c, (s.children.mapM (copyChild depth root)).Yields m copies between ∧
      (s.compositions.forM (copyComposition depth isolated root copies)).Yields between () b ∧
      b.WellFormed ∧ m.Extends b (some root) ∧ b.get? root = some c ∧ c.parent = parent ∧
      Component.Mirrors
        (fun x y => root.number < y.number ∧ a.Duplicate b depth (some root) x y)
        (Foreign a b depth root isolated) s c := by
  have hself : ∀ id, some root = some id → m.contains id = true :=
    fun id heq => Option.some.inj heq ▸ contains_of_get? hroot
  rcases copyParts_between hcopies hwf hroot hlast hshow with
    ⟨copies, between, hyields, hwf', hext, hroot', hdups, hforeign, hcopied⟩
  rcases copyCompositions_yields hcopies isolated s.compositions hwf' hroot' hforeign hcopied with
    ⟨made, b, hyields', hwfb, hext', hrootb, hmirrors⟩
  refine ⟨s.children.zip copies, between, b, _, hyields, hyields', hwfb,
    hext.trans hext' hself, hrootb, rfl, rfl, rfl, rfl, ?_, ?_⟩
  · refine forall₂_imp_of_mem hdups fun x _ y _ hxy => ⟨hxy.1, ?_⟩
    -- Compositions change the root, and what is below a copied child is newer than that.
    refine hxy.2.congr fun z hz hcontains => hext'.kept z hcontains fun heq => ?_
    have hlt := hxy.1
    rw [Option.some.inj heq] at hlt
    omega
  · have hlength := hdups.length_eq
    refine forall₂_imp_of_mem hmirrors fun p _ q _ hpq => ⟨hpq.operator, ?_⟩
    refine forall₂_imp_of_mem hpq.operands fun x _ y _ hxy => ?_
    exact hxy.imp mem_zip_of_lookup (And.imp_left (not_mem_of_lookup hlength))

/-- Parts of a source are shown once the copy has been inserted. -/
theorem shows_insert {a m : Assembly} {root id : ComponentId} {depth : Nat} {s : Component}
    (hshow : a.Shows m root (depth + 1) id) (hs : a.get? id = some s) (c : Component) :
    ∀ y ∈ s.uses, a.Shows (m.insert c) m.nextId depth y := by
  intro y hy
  rw [← uses_of_get? hs] at hy
  refine ⟨hshow.ends y hy, fun z hz => ?_⟩
  rcases hshow.get?_eq z (ReflTransGen.head hy hz) with ⟨_, k, hak, hmk⟩
  have hz' := contains_of_get? hmk
  exact ⟨ne_nextId_of_contains hz', k, hak, by rw [get?_insert_of_contains c hz', hmk]⟩

theorem number_le_nextId_of_contains_insert {m : Assembly} {c : Component} {y : ComponentId}
    (h : (m.insert c).contains y = true) : y.number ≤ m.nextId.number := by
  rcases contains_insert_iff.mp h with hold | rfl
  · exact Nat.le_of_lt (number_lt_nextId hold)
  · exact Nat.le_refl _

/-- An isolated copy is made of the two loops. -/
theorem copyWithin_isolated_yields {m b between : Assembly} {depth : Nat} {id : ComponentId}
    {s : Component} (hs : m.get? id = some s) {copies : List (ComponentId × ComponentId)}
    (hyields : (s.children.mapM (copyChild depth m.nextId)).Yields (m.insert s.copied) copies
      between)
    (hyields' : (s.compositions.forM (copyComposition depth true m.nextId copies)).Yields
      between () b) :
    (copyWithin (depth + 1) id true).Yields m m.nextId b := by
  rw [copyWithin_succ]
  have hfind : m.find id = .ok s := by simp only [find, hs]
  refine (Yields.read hfind).bind ((Yields.insert _ m).bind ?_)
  exact (Yields.pure () _).bind (hyields.bind (hyields'.bind
    ((Yields.note _ b).bind (Yields.pure _ b))))

/-- Whatever an assembly shows can be copied, and the copy is a duplicate with nothing old in it. By
    induction on the depth, which is that of the sources. What the copy is made in may be larger
    than the assembly that shows them, and grows on the way. -/
theorem copyWithin_isolated (a : Assembly) (depth : Nat) : Copies a depth := by
  induction depth with
  | zero => exact fun _ hshow => absurd hshow.ends (by simp only [EndsWithin, not_false_eq_true])
  | succ depth ih =>
      intro m root id hwf hshow
      rcases hshow.get?_eq id ReflTransGen.refl with ⟨_, s, has, hms⟩
      have hnew : (m.insert s.copied).WellFormed :=
        hwf.insert rfl rfl fun y hy => absurd hy List.not_mem_nil
      -- The copy comes first, without its parts, and these are copied below it with one level less.
      rcases copyParts_yields ih true hnew (get?_insert_nextId m s.copied)
        (fun y hy => number_le_nextId_of_contains_insert hy) (shows_insert hshow has s.copied) with
        ⟨copies, between, b, c, hyields, hyields', hwfb, hext, hc, hparent, hmirrors⟩
      have hold : ∀ x, m.contains x = true → (m.insert s.copied).contains x = true :=
        fun x hx => contains_insert_iff.mpr (Or.inl hx)
      refine ⟨b, copyWithin_isolated_yields hms hyields hyields', hwfb,
        ⟨fun x hx _ => ?_, fun x hx => hext.contains x (hold x hx), ?_⟩,
        s, c, has, hc, hparent, hmirrors⟩
      · rw [hext.kept x (hold x hx) fun heq => ne_nextId_of_contains hx (Option.some.inj heq).symm]
        exact get?_insert_of_contains _ hx
      · intro x y hx huse
        by_cases hxroot : x = m.nextId
        · -- The links of the copy itself lead to parts, which are newer.
          rw [hxroot, Uses, uses_of_get? hc] at huse
          rcases hmirrors.exists_of_mem_uses huse with ⟨z, _, hz | ⟨_, hz⟩⟩
          · rw [hxroot]
            exact hz.1
          · rw [hxroot]
            exact hz.1
        · exact hext.rising x y
            (fun h => (contains_insert_iff.mp h).elim hx hxroot) huse

/-- The assembly in which a plain copy has been inserted and has joined the parent. -/
def joined (a : Assembly) (s : Component) : Assembly :=
  match s.parent with
  | none => a.insert s.copied
  | some parent => (a.insert s.copied).link parent a.nextId

/-- What joining the parent of the source does. -/
theorem joined_spec {a : Assembly} {id : ComponentId} {s : Component} (hwf : a.WellFormed)
    (hs : a.get? id = some s) :
    (joined a s).WellFormed ∧
      (joined a s).get? a.nextId = some { s.copied with parent := s.parent } ∧
      (∀ y, (joined a s).contains y = true ↔ a.contains y = true ∨ y = a.nextId) ∧
      (∀ y, a.contains y = true → s.parent ≠ some y → (joined a s).get? y = a.get? y) ∧
      ∀ p c, s.parent = some p → a.get? p = some c →
        (joined a s).get? p = some { c with children := c.children ++ [a.nextId] } := by
  have hnew : (a.insert s.copied).WellFormed :=
    hwf.insert rfl rfl fun y hy => absurd hy List.not_mem_nil
  have hget := get?_insert_nextId a s.copied
  unfold joined
  cases hparent : s.parent with
  | none =>
      refine ⟨hnew, hget, fun y => contains_insert_iff, fun y hy _ => ?_, ?_⟩
      · exact get?_insert_of_contains _ hy
      · exact fun p _ h => absurd h (by simp only [reduceCtorEq, not_false_eq_true])
  | some parent =>
      have hknown : a.contains parent = true :=
        hwf.contains_parent (by rw [parent?_of_get? hs, hparent])
      have hne := ne_nextId_of_contains hknown
      have hknown' := contains_insert_iff (c := s.copied).mpr (Or.inl hknown)
      have hself := contains_insert_iff (c := s.copied).mpr (Or.inr (Eq.refl a.nextId))
      have hfree : (a.insert s.copied).parent? a.nextId = none := by
        rw [parent?_of_get? hget]
        rfl
      -- The copy uses nothing yet, so it does not get to the parent.
      have hreach : ¬ (a.insert s.copied).Reaches a.nextId parent := by
        intro h
        rcases ReflTransGen.cases_head h with heq | ⟨y, hstep, _⟩
        · exact hne heq.symm
        · rw [Uses, uses_of_get? hget] at hstep
          exact absurd hstep List.not_mem_nil
      refine ⟨hnew.link hknown' hself (Or.inl hfree) hreach, ?_, fun y => ?_,
        fun y hy hyp => ?_, ?_⟩
      · simp only [get?_link, hget, Option.map_some, if_true, hne.symm, if_false]
      · rw [contains_link]
        exact contains_insert_iff
      · rw [get?_link_of_ne (fun heq => hyp (by rw [heq])) (ne_nextId_of_contains hy)]
        exact get?_insert_of_contains _ hy
      · intro p c hp hc
        rw [← Option.some.inj hp] at hc
        have hnot : a.nextId ∉ c.children := by
          intro hmem
          rw [← children_of_get? hc] at hmem
          exact WellFormed.not_contains_nextId a
            (hwf.contains_of_uses _ _ (uses_of_mem_children hmem))
        rw [← Option.some.inj hp]
        simp only [get?_link, get?_insert_of_contains s.copied hknown, hc, Option.map_some, if_true,
          if_neg hne, Component.adopting, if_neg hnot]

/-- The copy is the last of what there is when it has joined the parent. -/
theorem number_le_of_contains_joined {a : Assembly} {id : ComponentId} {s : Component}
    (hwf : a.WellFormed) (hs : a.get? id = some s) {y : ComponentId}
    (hy : (joined a s).contains y = true) : y.number ≤ a.nextId.number := by
  rcases joined_spec hwf hs with ⟨_, _, hcontains, _⟩
  exact number_le_nextId_of_contains_insert
    (contains_insert_iff (c := s.copied).mpr ((hcontains y).mp hy))

/-- Parts of the source are shown once the copy has joined the parent. -/
theorem shows_joined {a : Assembly} {depth : Nat} {id : ComponentId} {s : Component}
    (hwf : a.WellFormed) (hs : a.get? id = some s) (hends : EndsWithin a.uses (depth + 1) id) :
    ∀ y ∈ s.uses, a.Shows (joined a s) a.nextId depth y := by
  rcases joined_spec hwf hs with ⟨_, _, _, hkept, _⟩
  intro y hy
  rw [← uses_of_get? hs] at hy
  refine ⟨hends y hy, fun z hz => ?_⟩
  have hknown := hwf.contains_of_reaches (hwf.contains_of_uses _ _ hy) hz
  rcases get?_of_contains hknown with ⟨k, hk⟩
  refine ⟨ne_nextId_of_contains hknown, k, hk, ?_⟩
  -- The parent is not below the source, so it is not among what is shown.
  rw [hkept z hknown fun hp => ?_, hk]
  have hparent : a.parent? id = some z := by rw [parent?_of_get? hs, hp]
  have huse := hwf.uses_of_parent? hparent
  exact hwf.acyclic z (TransGen.head huse (TransGen.head' hy hz))

/-- A plain copy is made of the two loops. -/
theorem copyWithin_plain_yields {a b between : Assembly} {depth : Nat} {id : ComponentId}
    {s : Component} (hs : a.get? id = some s) {copies : List (ComponentId × ComponentId)}
    (hyields : (s.children.mapM (copyChild depth a.nextId)).Yields (joined a s) copies between)
    (hyields' : (s.compositions.forM (copyComposition depth false a.nextId copies)).Yields
      between () b) :
    (copyWithin (depth + 1) id false).Yields a a.nextId b := by
  rw [copyWithin_succ]
  have hfind : a.find id = .ok s := by simp only [find, hs]
  have hjoin : (join false s.parent a.nextId).Yields (a.insert s.copied) () (joined a s) := by
    unfold join joined
    cases s.parent with
    | none => exact Yields.pure () _
    | some parent => exact Yields.change _ _
  refine (Yields.read hfind).bind ((Yields.insert _ a).bind (hjoin.bind ?_))
  exact hyields.bind (hyields'.bind ((Yields.note _ b).bind (Yields.pure _ b)))

/-- A component that exists can be copied plainly, if the depth suffices. The copy shares what
    its source does not own, and apart from the parent of the source nothing old is changed. -/
theorem copyWithin_plain {a : Assembly} {depth : Nat} {id : ComponentId} {s : Component}
    (hwf : a.WellFormed) (hs : a.get? id = some s)
    (hends : EndsWithin a.uses (depth + 1) id) :
    ∃ b c, (copyWithin (depth + 1) id false).Yields a a.nextId b ∧ b.WellFormed ∧
      (joined a s).Extends b (some a.nextId) ∧ b.get? a.nextId = some c ∧
      c.parent = s.parent ∧
      Component.Mirrors
        (fun x y => a.nextId.number < y.number ∧ a.Duplicate b depth (some a.nextId) x y)
        (fun x y => y = x) s c := by
  rcases joined_spec hwf hs with ⟨hwf', hroot, _⟩
  rcases copyParts_yields (copyWithin_isolated a depth) false hwf' hroot
    (fun _ hy => number_le_of_contains_joined hwf hs hy) (shows_joined hwf hs hends) with
    ⟨copies, between, b, c, hyields, hyields', hwfb, hext, hc, hparent, hmirrors⟩
  exact ⟨b, c, copyWithin_plain_yields hs hyields hyields', hwfb, hext, hc, hparent, hmirrors⟩

end Edit

end SolidModel
