import SolidModel.Proofs.Assembly.Changes

/-!
# What Operations Change

Every operation is a sequence of changes, whether it succeeds or not.

Most operations change nothing before they have asked everything, so that a failure is the easy
case. Two are different. To adopt several children is to adopt one after another, and those
adopted before a refusal stay adopted; each adoption is a change by itself. And copies are made
before a composition is checked, but a copy of what exists never fails.

Where an operation links several components at once, each of them was checked alone, against the
assembly as it was. That is enough: all the links leave the same component, and no such link helps
anybody to get there.

## Main definitions

* `Assembly.Apart`: Two components have nothing in common.
* `Assembly.drafted`: A draft has become a component.

## Theorems

* `Edit.copy_isolated_yields`, `Edit.copies_yields`: Isolated copies of what exists succeed.
* `Assembly.exists_plainCopy`: So do plain copies.
* `Edit.copy_changes`, `Edit.addChildren_changes`, `Edit.create_changes`, `Edit.transform_changes`,
  `Edit.compose_changes`: What every operation is made of.
-/

namespace SolidModel

open Assembly Relation

namespace Assembly

/-- A well-formed assembly shows all that it contains. -/
theorem WellFormed.shows {a : Assembly} (h : a.WellFormed) {id : ComponentId}
    (hid : a.contains id = true) : a.Shows a a.nextId (a.size + 1) id where
  ends := h.usesEnd id
  get?_eq y hy := by
    have hknown := h.contains_of_reaches hid hy
    rcases get?_of_contains hknown with ⟨c, hc⟩
    exact ⟨ne_nextId_of_contains hknown, c, hc, hc⟩

/-- What an assembly contains is still shown when it has grown. -/
theorem WellFormed.shows_of_extends {a m : Assembly} (h : a.WellFormed) (hext : a.Extends m none)
    {id : ComponentId} (hid : a.contains id = true) : a.Shows m a.nextId (a.size + 1) id :=
  (h.shows hid).grow (hext.weaken (some a.nextId))

/-- Two components have nothing in common. -/
def Apart (a : Assembly) (x y : ComponentId) : Prop := ∀ z, a.Reaches x z → ¬ a.Reaches y z

end Assembly

namespace Edit

variable {a m : Assembly}

/-- An id that names nothing cannot be copied. -/
theorem copyWithin_unknown {id : ComponentId} (hid : ¬ a.contains id = true) (depth : Nat)
    (isolated : Bool) : copyWithin depth id isolated a = ⟨a, [], .error (.unknown id)⟩ := by
  cases depth with
  | zero => rfl
  | succ depth =>
      have hnone : a.get? id = none := by
        simpa only [Assembly.contains, Option.isSome_iff_ne_none, ne_eq, not_not] using hid
      have hfind : a.find id = .error (.unknown id) := by simp only [find, hnone]
      rw [copyWithin_succ, read_bind_of_error hfind]

/-- What exists can be copied in isolation, also after the assembly has grown. The source is looked
    up in the assembly as it was, and the copy is the newest component of the one that has grown. -/
theorem copy_isolated_yields (h : a.WellFormed) (hm : m.WellFormed) (hext : a.Extends m none)
    {id : ComponentId} (hid : a.contains id = true) :
    ∃ b, (copy id true).Yields m m.nextId b ∧ b.WellFormed ∧ m.Extends b none ∧
      a.Duplicate b (a.size + 1) none id m.nextId := by
  rcases copyWithin_isolated a (a.size + 1) hm (h.shows_of_extends hext hid) with
    ⟨b, hyields, hwf, hext', hdup⟩
  have hle := Nat.succ_le_succ (size_le_of_contains hext.contains)
  have hagree := copyWithin_agrees hle id true m _ hyields.result
  refine ⟨b, ⟨?_, ?_⟩, hwf, hext', hdup⟩
  · rw [copy, hagree]
    exact hyields.result
  · rw [copy, hagree]
    exact hyields.assembly

/-- Several components that exist can be copied one after another, and no two copies have anything
    in common. Each copy is newer than all that was there when it was begun, and a copy that is
    finished is not touched any more. -/
theorem copies_yields (h : a.WellFormed) {ids : List ComponentId} :
    ∀ {m : Assembly}, m.WellFormed → a.Extends m none → (∀ id ∈ ids, a.contains id = true) →
    ∃ copies b, (ids.mapM fun id => copy id true).Yields m copies b ∧ b.WellFormed ∧
      m.Extends b none ∧
      List.Forall₂ (fun x y => ¬ m.contains y = true ∧ a.Duplicate b (a.size + 1) none x y)
        ids copies ∧ copies.Pairwise b.Apart := by
  have hnone : ∀ b : Assembly, ∀ id, (none : Option ComponentId) = some id →
      b.contains id = true := fun _ _ heq => absurd heq (by simp only [reduceCtorEq,
        not_false_eq_true])
  -- All that one copy needs of those before it is that they have left the old components alone.
  induction ids with
  | nil =>
      intro m hm _ _
      exact ⟨[], m, Yields.mapM_nil _ m, hm, Extends.refl m none, List.Forall₂.nil,
        List.Pairwise.nil⟩
  | cons id rest ih =>
      intro m hm hext hall
      rcases copy_isolated_yields h hm hext (hall id List.mem_cons_self) with
        ⟨m', hyields, hm', hext', hdup⟩
      rcases ih hm' (hext.trans hext' (hnone a)) (fun x hx => hall x (List.mem_cons_of_mem _ hx))
        with ⟨copies, b, hyields', hwfb, hextb, hdups, hapart⟩
      refine ⟨m.nextId :: copies, b,
        Yields.mapM_cons (f := fun id => copy id true) hyields hyields', hwfb,
        hext'.trans hextb (hnone m), List.Forall₂.cons ⟨?_, ?_⟩ ?_, List.Pairwise.cons ?_ hapart⟩
      · exact WellFormed.not_contains_nextId m
      · exact hdup.congr fun y _ hy => hextb.kept y hy (by simp only [ne_eq, reduceCtorEq,
          not_false_eq_true])
      · exact forall₂_imp_of_mem hdups fun x _ y _ hxy =>
          ⟨fun hy => hxy.1 (hext'.contains y hy), hxy.2⟩
      · -- What is below the first copy was there before the others were made.
        intro y hy z hfirst hz
        rcases exists_of_mem_right hdups hy with ⟨_, _, hnew, _⟩
        have hold := hextb.reaches_old hm' hdup.contains_copy hfirst
        exact hextb.not_reaches_old hnew (hm'.contains_of_reaches hdup.contains_copy hold) hz

end Edit

namespace Assembly

variable {a : Assembly}

/-- What exists can be copied plainly. -/
theorem exists_plainCopy (h : a.WellFormed) {id : ComponentId} (hid : a.contains id = true) :
    ∃ b s c, (Edit.copy id false).Yields a a.nextId b ∧ a.PlainCopy b id s c := by
  rcases get?_of_contains hid with ⟨s, hs⟩
  rcases Edit.copyWithin_plain h hs (h.usesEnd id) with
    ⟨b, c, hyields, hb, hgrown, hcopy, hparent, hmirrors⟩
  exact ⟨b, s, c, hyields, h, hb, hs, hgrown, hcopy, hparent, hmirrors⟩

/-- The assembly in which a draft has become a component and has joined its parent. -/
def drafted (a : Assembly) (draft : Draft) : Assembly :=
  match draft.parent with
  | none => a.insert draft.component
  | some parent => (a.insert draft.component).link parent a.nextId

/-- A draft that passes the check may become a component, and that one may adopt its children. -/
theorem changes_drafted (h : a.WellFormed) {draft : Draft} (hok : a.checkDraft draft = .ok ()) :
    a.Changes (a.drafted draft) ∧ (a.drafted draft).contains a.nextId = true ∧
      ∀ child ∈ draft.children, (a.drafted draft).MayAdopt a.nextId child := by
  rcases (checkDraft_eq_ok_iff fun _ _ hp => h.uses_of_parent? hp).mp hok with
    ⟨hfree, hknown, habove⟩
  have hinsert : a.Change (a.insert draft.component) := Change.insert rfl rfl hknown
  have hself := contains_insert_iff (c := draft.component).mpr (Or.inr (Eq.refl a.nextId))
  have hchildren : ∀ child ∈ draft.children,
      (a.insert draft.component).contains child = true ∧
        (a.insert draft.component).parent? child = none ∧
        ¬ (a.insert draft.component).Reaches child a.nextId := by
    intro child hchild
    rcases hfree child hchild with ⟨hc, hnone⟩
    refine ⟨contains_insert_iff.mpr (Or.inl hc), ?_, h.not_reaches_nextId_insert _ hc⟩
    rw [parent?_congr (get?_insert_of_contains _ hc), hnone]
  unfold drafted
  cases hparent : draft.parent with
  | none =>
      refine ⟨Changes.single hinsert, hself, fun child hchild => ?_⟩
      rcases hchildren child hchild with ⟨hc, hnone, hnot⟩
      exact ⟨hc, Or.inl hnone, hnot⟩
  | some parent =>
      rcases habove parent hparent with ⟨hp, hparts⟩
      have hp' := contains_insert_iff (c := draft.component).mpr (Or.inl hp)
      -- The new component has no parent yet, and its operands do not get to the one it is given.
      have hnew : (a.insert draft.component).MayAdopt parent a.nextId := by
        refine ⟨hself, Or.inl ?_, fun hr => ?_⟩
        · rw [parent?_of_get? (get?_insert_nextId a _)]
          rfl
        · rcases ReflTransGen.cases_head hr with heq | ⟨y, hstep, hr'⟩
          · exact ne_nextId_of_contains hp heq.symm
          · rw [Uses, uses_of_get? (get?_insert_nextId a _)] at hstep
            have hy : y ∈ draft.composed := hstep
            exact hparts y (List.mem_append_right _ hy) (h.reaches_of_insert (hknown y hy) hr')
      refine ⟨(Changes.single hinsert).trans (Changes.single (Change.link hp' hnew)),
        by rw [contains_link]; exact hself, fun child hchild => ?_⟩
      rcases hchildren child hchild with ⟨hc, hnone, hnot⟩
      refine ⟨by rw [contains_link]; exact hc, Or.inl ?_, fun hr => ?_⟩
      · rw [parent?_link hself, if_neg (ne_nextId_of_contains (hfree child hchild).1), hnone]
      · -- The link to the new component leaves the parent, which the child does not get to.
        refine hnot (reflTransGen_of_not_source (p := parent) (fun x y huse => ?_) ?_ hr)
        · exact ((uses_link hp' x y).mp huse).imp_right And.left
        · intro hr'
          exact hparts child (List.mem_append_left _ hchild)
            (h.reaches_of_insert (hfree child hchild).1 hr')

end Assembly

namespace Edit

variable {a m : Assembly}

/-- A copy succeeds if there is something to be copied, and it is one change. -/
theorem copy_yields (h : a.WellFormed) {id : ComponentId} (hid : a.contains id = true)
    (isolated : Bool) : ∃ b, (copy id isolated).Yields a a.nextId b ∧ a.Change b := by
  cases isolated with
  | true =>
      rcases copy_isolated_yields h h (Extends.refl a none) hid with ⟨b, hyields, hb, hgrown, _⟩
      exact ⟨b, hyields, Change.isolatedCopies hgrown hb⟩
  | false =>
      rcases exists_plainCopy h hid with ⟨b, _, _, hyields, hcopy⟩
      exact ⟨b, hyields, Change.plainCopy hcopy⟩

theorem copy_changes (h : a.WellFormed) (id : ComponentId) (isolated : Bool) :
    a.Changes (copy id isolated a).assembly := by
  by_cases hid : a.contains id = true
  · rcases copy_yields h hid isolated with ⟨b, hyields, hchange⟩
    rw [hyields.assembly]
    exact Changes.single hchange
  · rw [copy, copyWithin_unknown hid]
    exact Changes.refl a

theorem transform_changes (a : Assembly) (id : ComponentId) (steps : List Transformation) :
    a.Changes (transform id steps a).assembly :=
  read_keeps (Changes.refl a) fun _ _ => Changes.single (Change.move id steps)

theorem setColor_changes (a : Assembly) (id : ComponentId) (color : Option Color) :
    a.Changes (setColor id color a).assembly :=
  read_keeps (Changes.refl a) fun _ _ => Changes.single (Change.paint id color)

theorem addChild_changes (h : a.WellFormed) (parent child : ComponentId) :
    a.Changes (addChild parent child a).assembly := by
  refine ask_keeps (Changes.refl a) fun _ hok => ?_
  rcases (checkAdoption_eq_ok_iff fun _ _ hp => h.uses_of_parent? hp).mp hok with
    ⟨hparent, hchild⟩
  exact Changes.single (Change.link hparent hchild)

/-- The children adopted before a refusal stay adopted. -/
theorem addChildren_changes (h : a.WellFormed) (parent : ComponentId)
    (children : List ComponentId) : a.Changes (addChildren parent children a).assembly := by
  induction children generalizing a with
  | nil => exact Changes.refl a
  | cons child rest ih =>
      rw [addChildren]
      have hfirst := addChild_changes h parent child
      exact bind_keeps hfirst fun _ _ => hfirst.trans (ih (hfirst.wellFormed h))

theorem add_changes (a : Assembly) (shape : Shape) : a.Changes (add shape a).assembly :=
  Changes.single (Change.insert rfl rfl fun _ hy => absurd hy List.not_mem_nil)

theorem container_changes (a : Assembly) : a.Changes (container a).assembly :=
  Changes.single (Change.insert rfl rfl fun _ hy => absurd hy List.not_mem_nil)

/-- A component that has just come into being may get its parent and its children. -/
theorem create_changes (h : a.WellFormed) (draft : Draft) :
    a.Changes (create draft a).assembly := by
  unfold create
  cases hok : a.checkDraft draft with
  | error e =>
      rw [read_bind_of_error hok]
      exact Changes.refl a
  | ok _ =>
      rcases changes_drafted h hok with ⟨hdrafted, hself, hchildren⟩
      have hlinked := hdrafted.trans
        (changes_linkAll (hdrafted.wellFormed h) hself hchildren)
      rw [read_bind_of_ok hok]
      unfold drafted at hlinked
      cases hparent : draft.parent with
      | none =>
          rw [hparent] at hlinked
          exact hlinked
      | some parent =>
          rw [hparent] at hlinked
          exact hlinked

/-- What is involved in a composition exists, be it copied or not. -/
theorem involved_yields (h : a.WellFormed) (hm : m.WellFormed) (hext : a.Extends m none)
    (copies : Bool) {ids : List ComponentId} (hall : ∀ id ∈ ids, a.contains id = true) :
    ∃ parts b, (involved copies ids).Yields m parts b ∧ b.WellFormed ∧ m.Extends b none ∧
      ∀ part ∈ parts, b.contains part = true := by
  unfold involved
  split
  · rcases copies_yields h hm hext hall with ⟨parts, b, hyields, hwf, hext', hparts, _⟩
    refine ⟨parts, b, hyields, hwf, hext', fun part hpart => ?_⟩
    rcases exists_of_mem_right hparts hpart with ⟨_, _, _, hdup⟩
    exact hdup.contains_copy
  · exact ⟨ids, m, Yields.pure ids m, hm, Extends.refl m none,
      fun part hpart => hext.contains part (hall part hpart)⟩

/-- Once a composition is recorded, operands may be adopted that would have been adopted before. -/
theorem conclude_changes (h : a.WellFormed) {target : ComponentId} {composition : Composition}
    {adopts : Bool} (htarget : a.contains target = true)
    (hparts : adopts = true → ∀ part ∈ composition.operands, a.MayAdopt target part) :
    a.Changes (conclude target composition adopts a).assembly := by
  cases adopts with
  | false => exact Changes.refl a
  | true => exact changes_linkAll h htarget (hparts rfl)

theorem composeOn_changes (h : a.WellFormed) {id : ComponentId} (hid : a.contains id = true)
    {composition : Composition} (hknown : ∀ part ∈ composition.operands, a.contains part = true)
    (adopts : Bool) : a.Changes (composeOn id composition adopts a).assembly := by
  refine ask_keeps (Changes.refl a) fun _ hok => ?_
  rcases checkInPlace_eq_ok_iff.mp hok with ⟨hreach, hadopt⟩
  have hrecord : a.Change (a.modify id fun c => c.composing composition) :=
    Change.record hid hknown hreach
  refine bind_keeps (Changes.single hrecord) fun _ _ => (Changes.single hrecord).trans ?_
  refine conclude_changes (hrecord.wellFormed h) (by rw [contains_modify]; exact hid) ?_
  intro hadopts part hpart
  rcases (checkAdoption_eq_ok_iff fun _ _ hp => h.uses_of_parent? hp).mp (hadopt hadopts part hpart)
    with ⟨_, hmay⟩
  refine ⟨by rw [contains_modify]; exact hmay.known, by rw [parent?_composing]; exact hmay.free, ?_⟩
  -- The composition itself leaves the component as well.
  intro hr
  refine hreach part hpart (reflTransGen_of_source (fun x y huse => ?_) hr)
  exact ((uses_composing hid composition x y).mp huse).imp_right And.left

theorem composeNew_changes (h : a.WellFormed) {composition : Composition}
    (hknown : ∀ part ∈ composition.operands, a.contains part = true) (adopts : Bool) :
    a.Changes (composeNew composition adopts a).assembly := by
  let c : Component := { compositions := [composition] }
  have hcomposed : ∀ y ∈ c.composed, a.contains y = true := fun y hy =>
    hknown y (by simpa only [Component.composed, c, List.flatMap_singleton] using hy)
  -- The new component is there before it gets its children, and nothing reaches it yet.
  have hinsert : a.Change (a.insert c) := Change.insert rfl rfl hcomposed
  have hself := contains_insert_iff (c := c).mpr (Or.inr (Eq.refl a.nextId))
  cases adopts with
  | false =>
      refine bind_keeps (Changes.single hinsert) fun id hid => (Changes.single hinsert).trans ?_
      rw [← Except.ok.inj hid]
      exact conclude_changes (hinsert.wellFormed h) hself fun hfalse =>
        absurd hfalse Bool.false_ne_true
  | true =>
      refine read_keeps (Changes.refl a) fun _ hok =>
        bind_keeps (Changes.single hinsert) fun id hid => (Changes.single hinsert).trans ?_
      rw [← Except.ok.inj hid]
      refine conclude_changes (hinsert.wellFormed h) hself fun _ part hpart => ?_
      rcases checkFree_eq_ok_iff.mp (Except.forM_eq_ok_iff.mp hok part hpart) with ⟨hp, hfree⟩
      refine ⟨contains_insert_iff.mpr (Or.inl hp), Or.inl ?_, h.not_reaches_nextId_insert _ hp⟩
      rw [parent?_congr (get?_insert_of_contains _ hp), hfree]

/-- What a composition does is a sequence of changes, whether it succeeds or not. Copies that are
    made before it is refused would stay, and do no harm. -/
theorem compose_changes (h : a.WellFormed) (id : ComponentId) (operator : Operator)
    (operands : List ComponentId) (mode : ComposeMode) :
    a.Changes (compose id operator operands mode a).assembly := by
  refine read_keeps (Changes.refl a) fun _ hid =>
    read_keeps (Changes.refl a) fun _ hoperands => ?_
  have hid' : a.contains id = true := checkKnown_eq_ok_iff.mp hid
  have hoperands' : ∀ operand ∈ operands, a.contains operand = true := fun operand ho =>
    checkKnown_eq_ok_iff.mp (Except.forM_eq_ok_iff.mp hoperands operand ho)
  rcases involved_yields h h (Extends.refl a none) mode.copies hoperands' with
    ⟨others, b, hyields, hwf, hext, hothers⟩
  have hcopies : a.Changes b := Changes.single (Change.isolatedCopies hext hwf)
  refine bind_keeps (by rw [hyields.assembly]; exact hcopies) fun others' heq => ?_
  rw [hyields.result] at heq
  rw [hyields.assembly, ← Except.ok.inj heq]
  split
  · exact hcopies.trans (composeOn_changes hwf (hext.contains id hid') hothers mode.adopts)
  · have hself : ∀ x ∈ [id], a.contains x = true := fun x hx =>
      (List.mem_singleton.mp hx).symm ▸ hid'
    -- Out of place, the receiver is a part as well, and it is copied after the others.
    rcases involved_yields h hwf hext mode.copies hself with
      ⟨receiver, b', hyields', hwf', hext', hreceiver⟩
    have hcopies' : a.Changes b' :=
      hcopies.trans (Changes.single (Change.isolatedCopies hext' hwf'))
    refine bind_keeps (by rw [hyields'.assembly]; exact hcopies') fun receiver' heq' => ?_
    rw [hyields'.result] at heq'
    rw [hyields'.assembly, ← Except.ok.inj heq']
    refine hcopies'.trans (composeNew_changes hwf' (fun part hpart => ?_) mode.adopts)
    rcases List.mem_append.mp hpart with hpart | hpart
    · exact hext'.contains part (hothers part hpart)
    · exact hreceiver part hpart

end Edit

end SolidModel
