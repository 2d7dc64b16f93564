import SolidModel.Proofs.Assembly.Guards
import SolidModel.Proofs.ReferenceFrame.Arrows

/-!
# The Course of a Reference Frame

What the builders of reference frames leave behind, if they succeed and if they do not.

A frame is put together from parts that are made first. So by the time that the parent is looked
for, there are ten components more than before, and if there is no such parent, they are there to
stay: a ball, three shafts, three tips and three arrows, which belong to nothing. A frame on a
connector comes into being in the orientation of the world, below its parent, before the connector
is looked at. If the world cannot be aligned to it, the frame stays where it is.

These are the only failures, and none of them leaves the assembly as it was. All other operations
that make or link single components ask first and change afterwards. A builder cannot be used in
that way, since there is no operation that takes components out of an assembly again.

At least nothing else happens. What was there before is what it was, apart from the parent that has
got a frame, and what is left behind is as well-formed as anything that commands make.

## Main definitions

* `ReferenceFrame.parts`: The ball and the arrows of a frame.
* `ReferenceFrame.framed`: An assembly with a frame in the orientation of the world.
* `ReferenceFrame.Course`: Every way in which the builders can end.

## Theorems

* `ReferenceFrame.prepare_yields`: The parts are always made.
* `ReferenceFrame.create_of_unknown`, `ReferenceFrame.create_of_known`: It is up to the parent then.
* `ReferenceFrame.createAt_of_error`, `ReferenceFrame.createAt_of_unaligned`,
  `ReferenceFrame.createAt_of_aligned`: And up to the connector afterwards.
* `Assembly.Reachable.frame_course`: The course of the builders.
-/

namespace SolidModel

open Assembly Edit

namespace Edit.Yields

variable {α β : Type} {first : Edit α} {a b : Assembly} {value : α}

theorem result_bind (h : first.Yields a value b) (next : α → Edit β) :
    ((first >>= next) a).result = (next value b).result := by
  rw [result_bind_of_ok h.result, h.assembly]

theorem assembly_bind (h : first.Yields a value b) (next : α → Edit β) :
    ((first >>= next) a).assembly = (next value b).assembly := by
  rw [assembly_bind_of_ok h.result, h.assembly]

end Edit.Yields

namespace ReferenceFrame

/-- The components of a frame after `n` others, which may or may not belong to the frame yet. -/
def parts (n : Nat) (x y z : List Transformation) (frame : Option ComponentId) : List Component :=
  { parent := frame, shape := some ball } ::
    (arrow (n + 1) (.rgb 1.0 0.0 0.0) x frame ++ (arrow (n + 4) (.rgb 0.0 1.0 0.0) y frame ++
      arrow (n + 7) (.rgb 0.0 0.0 1.0) z frame))

/-- The ids of the ball and the arrows among them. -/
def children (n : Nat) : List ComponentId := [⟨n + 1⟩, ⟨n + 4⟩, ⟨n + 7⟩, ⟨n + 10⟩]

/-- The assembly with a frame in the orientation of the world, perhaps below a parent. -/
def framed (a : Assembly) (x y z : List Transformation) (parent : Option ComponentId) : Assembly :=
  (parent.elim a fun p => a.modify p fun c => c.adopting (a.nth 10)).append
    (parts a.size x y z (some (a.nth 10)) ++ [{ parent, children := children a.size }])

theorem size_framed (a : Assembly) (x y z : List Transformation) (parent : Option ComponentId) :
    (framed a x y z parent).size = a.size + 11 := by
  cases parent with
  | none => exact size_append a _
  | some p =>
      have hsize := size_append (a.modify p fun c => c.adopting (a.nth 10))
        (parts a.size x y z (some (a.nth 10)) ++
          [{ parent := some p, children := children a.size }])
      rw [size_modify] at hsize
      exact hsize

theorem contains_framed (a : Assembly) (x y z : List Transformation) (parent : Option ComponentId) :
    (framed a x y z parent).contains (a.nth 10) = true := by
  rw [contains_iff_number, size_framed]
  exact ⟨Nat.succ_pos _, Nat.le_refl _⟩

/-- A frame concerns nothing that was there but its parent. -/
theorem get?_framed {a : Assembly} (x y z : List Transformation) {parent : Option ComponentId}
    {id : ComponentId} (hid : a.contains id = true) (hne : parent ≠ some id) :
    (framed a x y z parent).get? id = a.get? id := by
  unfold framed
  cases parent with
  | none => exact get?_append_of_contains hid _
  | some p =>
      have hother : id ≠ p := fun heq => hne (congrArg some heq.symm)
      have hid' := (contains_modify a p id fun c => c.adopting (a.nth 10)).trans hid
      rw [Option.elim_some, get?_append_of_contains hid', get?_modify_of_ne _ hother]

/-- Links of the parts lead to parts. -/
theorem uses_parts (a : Assembly) (x y z : List Transformation) (frame : Option ComponentId) :
    ∀ c ∈ parts a.size x y z frame, ∀ other ∈ c.uses, ¬ a.contains other = true := by
  intro c hc other hother hold
  have hnumber := (contains_iff_number.mp hold).2
  simp only [parts, arrow, List.cons_append, List.nil_append, List.mem_cons, List.not_mem_nil,
    or_false] at hc
  rcases hc with rfl | rfl | rfl | rfl | rfl | rfl | rfl | rfl | rfl | rfl <;>
    simp only [Component.uses, Component.composed, List.flatMap_nil, List.append_nil, List.mem_cons,
      List.not_mem_nil, or_false] at hother <;>
    rcases hother with rfl | rfl <;> simp only at hnumber <;> omega

/-- Ball and arrows are free before there is a frame. -/
theorem free_parts (a : Assembly) (x y z : List Transformation) :
    ∀ child ∈ children a.size,
      (a.append (parts a.size x y z none)).checkFree child = .ok () := by
  intro child hchild
  simp only [children, List.mem_cons, List.not_mem_nil, or_false] at hchild
  rcases hchild with rfl | rfl | rfl | rfl
  · exact checkFree_append (k := 0) rfl rfl
  · exact checkFree_append (k := 3) rfl rfl
  · exact checkFree_append (k := 6) rfl rfl
  · exact checkFree_append (k := 9) rfl rfl

/-- Each part is one of the children of the frame or stands below one. -/
theorem owned_parts (a : Assembly) (x y z : List Transformation) {k : Nat} (hk : k < 10) :
    ∃ child ∈ children a.size, a.nth k = child ∨
      child ∈ (a.append (parts a.size x y z none)).ancestors (a.nth k) := by
  let b := a.append (parts a.size x y z none)
  have hsize : 0 < b.size := by
    rw [size_append]
    exact Nat.succ_pos _
  have hbelow (j k : Nat) {c arrow : Component} (hc : (parts a.size x y z none)[k]? = some c)
      (hparent : c.parent = some (a.nth j)) (harrow : (parts a.size x y z none)[j]? = some arrow)
      (hroot : arrow.parent = none) : a.nth j ∈ b.ancestors (a.nth k) := by
    have hc' := parent?_of_get? ((get?_append_nth a _ k).trans hc)
    have harrow' := parent?_of_get? ((get?_append_nth a _ j).trans harrow)
    rw [ancestors_below_root (hc'.trans hparent) (harrow'.trans hroot) hsize]
    exact List.mem_singleton.mpr rfl
  have hmem (j : Nat) (hj : j ∈ [0, 3, 6, 9]) : a.nth j ∈ children a.size :=
    List.mem_map_of_mem (f := a.nth) hj
  -- The shaft and the tip of an arrow are below it, and the arrows and the sphere are the children.
  interval_cases k
  · exact ⟨a.nth 0, hmem 0 (by decide), Or.inl rfl⟩
  · exact ⟨a.nth 3, hmem 3 (by decide), Or.inr (hbelow 3 1 rfl rfl rfl rfl)⟩
  · exact ⟨a.nth 3, hmem 3 (by decide), Or.inr (hbelow 3 2 rfl rfl rfl rfl)⟩
  · exact ⟨a.nth 3, hmem 3 (by decide), Or.inl rfl⟩
  · exact ⟨a.nth 6, hmem 6 (by decide), Or.inr (hbelow 6 4 rfl rfl rfl rfl)⟩
  · exact ⟨a.nth 6, hmem 6 (by decide), Or.inr (hbelow 6 5 rfl rfl rfl rfl)⟩
  · exact ⟨a.nth 6, hmem 6 (by decide), Or.inl rfl⟩
  · exact ⟨a.nth 9, hmem 9 (by decide), Or.inr (hbelow 9 7 rfl rfl rfl rfl)⟩
  · exact ⟨a.nth 9, hmem 9 (by decide), Or.inr (hbelow 9 8 rfl rfl rfl rfl)⟩
  · exact ⟨a.nth 9, hmem 9 (by decide), Or.inl rfl⟩

/-- The error tells of an unknown parent, or of a parent that is one of the parts. -/
inductive Orphans (a : Assembly) (p : ComponentId) : AssemblyError → Prop
  | unknown (h : ∀ k, k < 10 → p ≠ a.nth k) : Orphans a p (.unknown p)
  | part {k : Nat} (hk : k < 10) (h : p = a.nth k) {child : ComponentId}
      (hchild : child ∈ children a.size) : Orphans a p (.cyclicParent child p)

/-- A parent that was not there when the parts were made is refused. -/
theorem checkDraft_of_unknown {a : Assembly} {p : ComponentId} (hp : ¬ a.contains p = true)
    (x y z : List Transformation) :
    ∃ e, (a.append (parts a.size x y z none)).checkDraft
      { parent := some p, children := children a.size } = .error e ∧ Orphans a p e := by
  obtain ⟨b, hb⟩ : ∃ b, a.append (parts a.size x y z none) = b := ⟨_, rfl⟩
  have hfree : (children a.size).forM b.checkFree = .ok () :=
    Except.forM_eq_ok_iff.mpr (hb ▸ free_parts a x y z)
  rw [hb, checkDraft, hfree, Except.ok_bind]
  by_cases hknown : b.contains p = true
  · -- The parent is one of the parts, and the check for circles finds it.
    have hpart := hknown
    rw [← hb] at hpart
    rcases contains_append hpart with hold | ⟨k, hk, rfl⟩
    · exact absurd hold hp
    rcases owned_parts a x y z hk with ⟨child, hchild, howned⟩
    rw [hb] at howned
    cases habove : (children a.size).forM (b.checkAbove (a.nth k)) with
    | ok _ =>
        have hok := checkAbove_eq_ok_iff.mp (Except.forM_eq_ok_iff.mp habove child hchild)
        exact absurd howned (not_or.mpr hok)
    | error e =>
        rcases Except.exists_of_forM_eq_error habove with ⟨child, hchild, hrefused⟩
        simp only [checkKnown_eq_ok_iff.mpr hknown, Except.ok_bind, habove]
        refine ⟨e, rfl, ?_⟩
        rw [checkAbove_eq_error hrefused]
        exact .part hk rfl hchild
  · cases hcheck : b.checkKnown p with
    | ok _ => exact absurd (checkKnown_eq_ok_iff.mp hcheck) hknown
    | error e =>
        simp only [hcheck]
        refine ⟨e, rfl, ?_⟩
        rw [checkKnown_eq_error hcheck]
        refine .unknown fun k hk heq => hknown ?_
        rw [heq, ← hb]
        exact contains_append_nth hk

/-- Nothing is against a parent that was there before the parts were made, or against none. -/
theorem checkDraft_of_known {a : Assembly} {x y z : List Transformation}
    (hwf : (a.append (parts a.size x y z none)).WellFormed) {parent : Option ComponentId}
    (hparent : ∀ p, parent = some p → a.contains p = true) :
    (a.append (parts a.size x y z none)).checkDraft { parent, children := children a.size } =
      .ok () := by
  refine (checkDraft_eq_ok_iff fun _ _ hp => hwf.uses_of_parent? hp).mpr ⟨?_, ?_, ?_⟩
  · exact fun child hchild => checkFree_eq_ok_iff.mp (free_parts a x y z child hchild)
  · exact fun operand hoperand => absurd hoperand List.not_mem_nil
  · intro p hp
    have hold := hparent p hp
    refine ⟨?_, fun part hpart => ?_⟩
    · rw [contains_congr (get?_append_of_contains hold _)]
      exact hold
    · have hnew : ¬ a.contains part = true := by
        intro hpart'
        have hnumber := (contains_iff_number.mp hpart').2
        simp only [Draft.composed, List.flatMap_nil, List.append_nil, children, List.mem_cons,
          List.not_mem_nil, or_false] at hpart
        rcases hpart with rfl | rfl | rfl | rfl <;> simp only at hnumber <;> omega
      exact not_reaches_of_append (uses_parts a x y z none) hnew hold

/-- Ball and arrows become the children of a frame. -/
theorem linkAll_parts (a : Assembly) (x y z : List Transformation) (parent : Option ComponentId) :
    (a.append (parts a.size x y z none ++ [{ parent := parent }])).linkAll (a.nth 10)
      (children a.size) =
      a.append (parts a.size x y z (some (a.nth 10)) ++
        [{ parent, children := children a.size }]) := by
  have hchildren : children a.size = [a.nth 0, a.nth 3, a.nth 6, a.nth 9] := rfl
  rw [hchildren, Assembly.linkAll]
  simp only [List.foldl, link_append_nth]
  simp [parts, arrow, nth, Component.adopting]

/-- A frame is made of its parts, below a parent that was there before them, or below none. -/
theorem create_parts_yields {a : Assembly} {x y z : List Transformation}
    (hwf : (a.append (parts a.size x y z none)).WellFormed) {parent : Option ComponentId}
    (hparent : ∀ p, parent = some p → a.contains p = true) :
    (Edit.create { parent, children := children a.size }).Yields
      (a.append (parts a.size x y z none)) (a.nth 10) (framed a x y z parent) := by
  have hyields := create_yields (checkDraft_of_known hwf hparent)
  have hid : (a.append (parts a.size x y z none)).nextId = a.nth 10 := nextId_append a _
  rw [hid] at hyields
  cases parent with
  | none =>
      rw [insert_append] at hyields
      rw [framed, Option.elim_none, ← linkAll_parts]
      exact hyields
  | some p =>
      let above := a.modify p fun c => c.adopting (a.nth 10)
      have hsize : above.size = a.size := size_modify a p _
      have hnth (k : Nat) : above.nth k = a.nth k := by rw [nth, nth, hsize]
      -- The parent gets the frame before the frame gets its children.
      have hlinked := linkAll_parts above x y z (some p)
      rw [hnth, hsize] at hlinked
      have hplaced : ((a.append (parts a.size x y z none)).insert
          ({ parent := some p, children := children a.size } : Draft).component).link p (a.nth 10) =
            above.append (parts a.size x y z none ++ [{ parent := some p }]) := by
        have hlist : (parts a.size x y z none ++ [({} : Component)]).modify 10
            (fun c => { c with parent := some p }) =
              parts a.size x y z none ++ [{ parent := some p }] := rfl
        rw [insert_append, Assembly.link, modify_append_nth,
          modify_append_of_contains (hparent p rfl)]
        exact congrArg above.append hlist
      simp only [hplaced] at hyields
      rw [framed, Option.elim_some, ← hlinked]
      exact hyields

section Frames

variable [t : Trigonometry]

/-- The parts of a frame, as far as they are made before there is a frame. -/
def prepare : Edit (List ComponentId) := do
  let ball ← Edit.add ball
  let x ← arm .axisX (.rgb 1.0 0.0 0.0)
  let y ← arm .axisY (.rgb 0.0 1.0 0.0)
  let z ← arm .axisZ (.rgb 0.0 0.0 1.0)
  pure [ball, x, y, z]

theorem create_eq (parent : Option ComponentId) :
    create parent = prepare >>= fun children => Edit.create { parent, children } := by
  unfold create prepare
  simp only [bind_assoc, pure_bind]

theorem prepare_yields (a : Assembly) {x y z : List Transformation} (hx : Turns .axisX x)
    (hy : Turns .axisY y) (hz : Turns .axisZ z) :
    prepare.Yields a (children a.size) (a.append (parts a.size x y z none)) := by
  let hub : Component := { shape := some ball }
  let first := arrow (a.size + 1) (.rgb 1.0 0.0 0.0) x none
  let second := arrow (a.size + 4) (.rgb 0.0 1.0 0.0) y none
  have hball : (add ball).Yields a (a.nth 0) (a.append [hub]) := Yields.insert _ a
  have harm := arm_yields (a.append [hub]) hx (.rgb 1.0 0.0 0.0)
  have harm' := arm_yields (a.append (hub :: first)) hy (.rgb 0.0 1.0 0.0)
  have harm'' := arm_yields (a.append (hub :: (first ++ second))) hz (.rgb 0.0 0.0 1.0)
  rw [nth, append_append, size_append] at harm harm' harm''
  exact hball.bind (harm.bind (harm'.bind (harm''.bind (Yields.pure _ _))))

theorem prepare_commanded : Commanded prepare := by
  unfold prepare
  refine .bind (.add _) fun ball => .bind (arm_commanded _ _) fun x => ?_
  exact .bind (arm_commanded _ _) fun y => .bind (arm_commanded _ _) fun z => .pure _

variable {a : Assembly} {x y z : List Transformation} {parent : Option ComponentId}

theorem parts_reachable (h : a.Reachable) (hx : Turns .axisX x) (hy : Turns .axisY y)
    (hz : Turns .axisZ z) : (a.append (parts a.size x y z none)).Reachable :=
  (prepare_yields a hx hy hz).assembly ▸ prepare_commanded a h

/-- If the parent has not been there, its absence is noticed when the parts are. An id that one of
    the parts has taken by then is refused as well, with another error: the frame would be a child
    of its own part. -/
theorem create_of_unknown (hx : Turns .axisX x) (hy : Turns .axisY y) (hz : Turns .axisZ z)
    {p : ComponentId} (hp : ¬ a.contains p = true) :
    ∃ e, (create (some p) a).result = .error e ∧ Orphans a p e ∧
      (create (some p) a).assembly = a.append (parts a.size x y z none) := by
  have hprepare := prepare_yields a hx hy hz
  rcases checkDraft_of_unknown hp x y z with ⟨e, he, horphans⟩
  rcases (create_decidedBy _).refused e he with ⟨hresult, hassembly⟩
  rw [create_eq]
  refine ⟨e, ?_, horphans, ?_⟩
  · rw [hprepare.result_bind]
    exact hresult
  · rw [hprepare.assembly_bind]
    exact hassembly

/-- Otherwise there is a frame in the end. -/
theorem create_of_known (h : a.Reachable) (hx : Turns .axisX x) (hy : Turns .axisY y)
    (hz : Turns .axisZ z) (hparent : ∀ p, parent = some p → a.contains p = true) :
    (create parent).Yields a (a.nth 10) (framed a x y z parent) := by
  rw [create_eq]
  exact (prepare_yields a hx hy hz).bind
    (create_parts_yields (parts_reachable h hx hy hz).wellFormed hparent)

/-- If there is no frame, there is none on a connector. -/
theorem createAt_of_error (c : Connector) {e : AssemblyError}
    (h : (create parent a).result = .error e) : (createAt c parent a).result = .error e ∧
      (createAt c parent a).assembly = (create parent a).assembly := by
  unfold createAt
  rw [bind_of_error h]
  exact ⟨rfl, rfl⟩

/-- A frame whose connector cannot be reached is left where it has come into being. -/
theorem createAt_of_unaligned {c : Connector} {b : Assembly} {frame : ComponentId}
    (h : (create parent).Yields a frame b) {cause : PlacementError}
    (hcause : (Connector.world.align c).result = .error cause) :
    (createAt c parent a).result = .error (.placement cause) ∧
      (createAt c parent a).assembly = b := by
  have hrefused : (alignment .world c b).result = .error (.placement cause) := by
    change (Connector.world.align c).result.mapError _ = _
    rw [hcause]
    rfl
  unfold createAt
  rw [h.result_bind, h.assembly_bind, bind_of_error hrefused]
  exact ⟨rfl, rfl⟩

/-- Otherwise it is carried there. -/
theorem createAt_of_aligned {c : Connector} {b : Assembly} {frame : ComponentId}
    (h : (create parent).Yields a frame b) (hframe : b.contains frame = true)
    {steps : List Transformation} (hsteps : (Connector.world.align c).result = .ok steps) :
    (createAt c parent).Yields a frame (b.modify frame fun c => c.moving steps) := by
  unfold createAt
  exact h.bind ((alignment_yields hsteps b).bind
    ((transform_yields hframe steps).bind (Yields.pure frame _)))

/-- How the builders end on an assembly, given the turns of the arrows. The builders are two:
    `create` makes a frame, perhaps below a parent, and `createAt` makes one and carries it onto a
    connector. -/
structure Course (a : Assembly) (x y z : List Transformation) : Prop where
  /-- Each arrow has its turn, from the world to the connector along its axis. -/
  turns : Turns .axisX x ∧ Turns .axisY y ∧ Turns .axisZ z
  /-- A parent that has not been there is refused, after the parts have been made. -/
  refused : ∀ p, ¬ a.contains p = true → ∃ e, Orphans a p e ∧
    (create (some p) a).result = .error e ∧
    (create (some p) a).assembly = a.append (parts a.size x y z none) ∧
    ∀ c, (createAt c (some p) a).result = .error e ∧
      (createAt c (some p) a).assembly = a.append (parts a.size x y z none)
  /-- With any other parent, or without, a frame comes into being. -/
  created : ∀ parent, (∀ p, parent = some p → a.contains p = true) →
    (create parent).Yields a (a.nth 10) (framed a x y z parent)
  /-- If its connector cannot be reached, it stays, in the orientation of the world. -/
  stranded : ∀ parent, (∀ p, parent = some p → a.contains p = true) → ∀ c cause,
    (Connector.world.align c).result = .error cause →
    (createAt c parent a).result = .error (.placement cause) ∧
      (createAt c parent a).assembly = framed a x y z parent
  /-- If its connector can be reached, it is carried there. -/
  carried : ∀ parent, (∀ p, parent = some p → a.contains p = true) → ∀ c steps,
    (Connector.world.align c).result = .ok steps →
    (createAt c parent).Yields a (a.nth 10)
      ((framed a x y z parent).modify (a.nth 10) fun frame => frame.moving steps)
  /-- No failure leaves the assembly as it was. -/
  never_spared : ∀ parent c,
    (∀ e, (create parent a).result = .error e → (create parent a).assembly ≠ a) ∧
    ∀ e, (createAt c parent a).result = .error e → (createAt c parent a).assembly ≠ a
  /-- Whatever else happens, what was there is what it was, except for the parent. -/
  kept : ∀ parent c id, a.contains id = true → parent ≠ some id →
    (create parent a).assembly.get? id = a.get? id ∧
      (createAt c parent a).assembly.get? id = a.get? id
  /-- What is left is well-formed, also after a failure. -/
  wellFormed : ∀ parent c, (create parent a).assembly.WellFormed ∧
    (createAt c parent a).assembly.WellFormed

theorem create_commanded (parent : Option ComponentId) : Commanded (create parent) := by
  rw [create_eq]
  exact prepare_commanded.bind fun children => .create _

theorem createAt_commanded (c : Connector) (parent : Option ComponentId) :
    Commanded (createAt c parent) := by
  unfold createAt
  refine (create_commanded parent).bind fun frame => .bind (.ask _) fun steps => ?_
  exact .bind (.transform frame steps) fun _ => .pure frame

omit t in
theorem known_or_unknown (a : Assembly) (parent : Option ComponentId) :
    (∀ p, parent = some p → a.contains p = true) ∨
      ∃ p, parent = some p ∧ ¬ a.contains p = true := by
  by_cases hall : ∀ p, parent = some p → a.contains p = true
  · exact Or.inl hall
  · push Not at hall
    exact Or.inr hall

/-- A frame that is not finished makes a difference all the same. -/
theorem not_spared (h : a.Reachable) (hx : Turns .axisX x) (hy : Turns .axisY y)
    (hz : Turns .axisZ z) (parent : Option ComponentId) (c : Connector) :
    (∀ e, (create parent a).result = .error e → (create parent a).assembly ≠ a) ∧
      ∀ e, (createAt c parent a).result = .error e → (createAt c parent a).assembly ≠ a := by
  have hparts : a.append (parts a.size x y z none) ≠ a := append_ne (List.cons_ne_nil _ _)
  -- If the parent is known then the whole frame is there before anything can fail, or else its
  -- parts are.
  rcases known_or_unknown a parent with hparent | ⟨p, rfl, hp⟩
  · have hcreated := create_of_known h hx hy hz hparent
    have hframed : framed a x y z parent ≠ a := by
      intro heq
      have hsize := size_framed a x y z parent
      rw [heq] at hsize
      omega
    refine ⟨fun e he => ?_, fun e he => ?_⟩
    · exact absurd (hcreated.result.symm.trans he) (by simp only [reduceCtorEq, not_false_eq_true])
    · cases halign : (Connector.world.align c).result with
      | error cause =>
          rw [(createAt_of_unaligned hcreated halign).2]
          exact hframed
      | ok steps =>
          have hdone := createAt_of_aligned hcreated (contains_framed a x y z parent) halign
          exact absurd (hdone.result.symm.trans he) (by simp only [reduceCtorEq, not_false_eq_true])
  · rcases create_of_unknown hx hy hz hp with ⟨e, he, _, hleft⟩
    rw [(createAt_of_error c he).2, hleft]
    exact ⟨fun _ _ => hparts, fun _ _ => hparts⟩

/-- Whatever becomes of a frame, it concerns nothing that was there but its parent. -/
theorem builders_keep (h : a.Reachable) (hx : Turns .axisX x) (hy : Turns .axisY y)
    (hz : Turns .axisZ z) (parent : Option ComponentId) (c : Connector) {id : ComponentId}
    (hid : a.contains id = true) (hne : parent ≠ some id) :
    (create parent a).assembly.get? id = a.get? id ∧
      (createAt c parent a).assembly.get? id = a.get? id := by
  rcases known_or_unknown a parent with hparent | ⟨p, rfl, hp⟩
  · have hcreated := create_of_known h hx hy hz hparent
    have hkept := get?_framed x y z hid hne
    rw [hcreated.assembly]
    refine ⟨hkept, ?_⟩
    cases halign : (Connector.world.align c).result with
    | error cause =>
        rw [(createAt_of_unaligned hcreated halign).2]
        exact hkept
    | ok steps =>
        -- The frame is a new component, so that carrying it concerns no old one.
        have hother : id ≠ a.nth 10 := by
          rintro rfl
          exact not_contains_nth a 10 hid
        have hdone := createAt_of_aligned hcreated (contains_framed a x y z parent) halign
        rw [hdone.assembly, get?_modify_of_ne _ hother]
        exact hkept
  · rcases create_of_unknown hx hy hz hp with ⟨e, he, _, hleft⟩
    rw [(createAt_of_error c he).2, hleft]
    exact ⟨get?_append_of_contains hid _, get?_append_of_contains hid _⟩

theorem Course.of_turns (h : a.Reachable) (hx : Turns .axisX x) (hy : Turns .axisY y)
    (hz : Turns .axisZ z) : Course a x y z where
  turns := ⟨hx, hy, hz⟩
  refused p hp := by
    rcases create_of_unknown hx hy hz hp with ⟨e, he, horphans, hleft⟩
    refine ⟨e, horphans, he, hleft, fun c => ?_⟩
    rcases createAt_of_error c he with ⟨he', hleft'⟩
    exact ⟨he', hleft'.trans hleft⟩
  created parent hparent := create_of_known h hx hy hz hparent
  stranded parent hparent c cause hcause :=
    createAt_of_unaligned (create_of_known h hx hy hz hparent) hcause
  carried parent hparent c steps hsteps :=
    createAt_of_aligned (create_of_known h hx hy hz hparent) (contains_framed a x y z parent) hsteps
  never_spared := not_spared h hx hy hz
  kept parent c id hid hne := builders_keep h hx hy hz parent c hid hne
  wellFormed parent c :=
    ⟨(create_commanded parent a h).wellFormed, (createAt_commanded c parent a h).wellFormed⟩

end Frames

end ReferenceFrame

open ReferenceFrame

/-- On accurate functions the builders of reference frames fail for want of the parent or of a way
    to the connector, and for nothing else. By then the parts have been made, or the frame has, and
    they stay.

    `Course` tells the ways to end apart and says in each what the assembly is afterwards. If the
    parent is not there, ten parts of no frame have been added. If the connector cannot be reached,
    the whole frame has been added, below its parent and in the orientation of the world. Otherwise
    the frame has been added, and carried if there is a connector. The turns `x`, `y` and `z` of the
    arrows are the same every time. -/
theorem Assembly.Reachable.frame_course [t : Trigonometry] (accurate : t.Accurate) {a : Assembly}
    (h : a.Reachable) : ∃ x y z, Course a x y z := by
  rcases turns_found accurate Vec3.axisX_normed with ⟨x, hx⟩
  rcases turns_found accurate (Vec3.axisY_normed) with ⟨y, hy⟩
  rcases turns_found accurate Vec3.axisZ_normed with ⟨z, hz⟩
  exact ⟨x, y, z, Course.of_turns h hx hy hz⟩

/-- A ball is to get a frame that cannot be aligned, and then one whose parent is missing. -/
theorem Assembly.Reachable.frame_course_ball :
    let a : Assembly := ⟨#[{ shape := some (.sphere 1) }]⟩
    let flat : Connector := ⟨.origin, .origin, .axisX⟩
    Trigonometry.rounded.Accurate ∧ a.Reachable ∧ ∃ x y z,
      @Course Trigonometry.rounded a x y z ∧
      (@createAt Trigonometry.rounded flat (some ⟨1⟩) a).result =
        .error (.placement (.degenerate (.nullVector .origin .axisZ))) ∧
      (@createAt Trigonometry.rounded flat (some ⟨1⟩) a).assembly = framed a x y z (some ⟨1⟩) ∧
      (@create Trigonometry.rounded (some ⟨99⟩) a).result = .error (.unknown ⟨99⟩) ∧
      (@create Trigonometry.rounded (some ⟨99⟩) a).assembly =
        a.append (ReferenceFrame.parts 1 x y z none) := by
  intro a flat
  have ha : a.Reachable := Reachable.empty.step (.add (.sphere 1))
  rcases @Assembly.Reachable.frame_course Trigonometry.rounded Trigonometry.rounded_accurate a
      ha with ⟨x, y, z, hcourse⟩
  have hparent : ∀ p, some (⟨1⟩ : ComponentId) = some p → a.contains p = true := by
    rintro p hp
    rw [← Option.some.inj hp]
    rfl
  have hflat : (@Connector.align Trigonometry.rounded .world flat).result =
      .error (.degenerate (.nullVector .origin .axisZ)) := by
    decide +kernel
  rcases Course.stranded (t := Trigonometry.rounded) hcourse (some ⟨1⟩) hparent flat _ hflat with
    ⟨hresult, hassembly⟩
  rcases Course.refused (t := Trigonometry.rounded) hcourse ⟨99⟩ (by decide) with
    ⟨e, horphans, he, hleft, _⟩
  have hunknown : e = .unknown ⟨99⟩ := by
    cases horphans with
    | unknown _ => rfl
    | part hk heq _ =>
        have hnumber := ComponentId.mk.inj heq
        have hsize : a.size = 1 := rfl
        omega
  exact ⟨Trigonometry.rounded_accurate, ha, x, y, z, hcourse, hresult, hassembly, hunknown ▸ he,
    hleft⟩

/-- A frame below nothing that is there, in an assembly without components. -/
theorem ReferenceFrame.create_not_spared :
    ¬ ∀ (a : Assembly) (parent : Option ComponentId) (e : AssemblyError),
      a.Reachable → (@create Trigonometry.rounded parent a).result = .error e →
        (@create Trigonometry.rounded parent a).assembly = a := by
  intro hspared
  have accurate := Trigonometry.rounded_accurate
  rcases @turns_found Trigonometry.rounded accurate .axisX Vec3.axisX_normed with ⟨x, hx⟩
  rcases @turns_found Trigonometry.rounded accurate .axisY Vec3.axisY_normed with ⟨y, hy⟩
  rcases @turns_found Trigonometry.rounded accurate .axisZ Vec3.axisZ_normed with ⟨z, hz⟩
  rcases @create_of_unknown Trigonometry.rounded {} x y z hx hy hz ⟨99⟩ (by decide) with
    ⟨e, he, _, hleft⟩
  have hsame := hspared {} (some ⟨99⟩) e Assembly.Reachable.empty he
  rw [hleft] at hsame
  exact append_ne (List.cons_ne_nil _ _) hsame

end SolidModel
