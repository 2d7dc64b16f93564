import SolidModel.Proofs.Assembly.Reachable

/-!
# Refusals

A command that fails has not happened.

Most commands ask everything before they change anything, and what they do then cannot fail. Two
of them look different. A copy is inserted before its parts are made, and a composition of copies
makes all of them before it asks whether it may be recorded. In both cases the question that comes
too late is one that is never answered with no: what exists can be copied all the way down, and a
copy is free, known and gets to nothing that was there before it.

To adopt several children is the one exception. It is a sequence of adoptions rather than one, and
what comes before a refusal stays.

## Main definitions

* `Assembly.concluded`: Some components have become children of a target, or have not.
* `Edit.Succeeds`: An edit does not fail on an assembly.
* `Edit.Spares`: An edit leaves an assembly as it was if it fails on it.
* `Edit.DecidedBy`: Whether an edit fails, and how, is up to one question that it asks first.

## Theorems

* `Edit.Spares.ask`: What asks first spares the assembly if what follows the answer does.
* `Edit.DecidedBy.ask`: A question decides if nothing that follows can fail.
* `Edit.addChild_decidedBy`, `Edit.create_decidedBy`, `Edit.composeOn_decidedBy`,
  `Edit.composeNew_decidedBy`: The questions that decide.
* `Edit.Fresh.checkInPlace_eq_ok`, `Edit.Fresh.checkFree_eq_ok`: Fresh copies pass every check.
* `Edit.composeOn_yields`, `Edit.composeNew_yields`: What follows once nothing can fail.
* `Edit.compose_copies_yields`: A composition of copies copies first and then records.
* `Edit.copy_spares`, `Edit.compose_spares`: No operation is refused halfway.
* `Assembly.Reachable.refused_unchanged`: A refused command changes nothing.
-/

namespace SolidModel

namespace Assembly

/-- Some components have become children of a target, or have not. -/
def concluded (a : Assembly) (target : ComponentId) (parts : List ComponentId) (adopts : Bool) :
    Assembly :=
  if adopts then a.linkAll target parts else a

end Assembly

open Assembly

namespace Edit

variable {α β : Type} {a b m : Assembly}

/-- The edit does not fail on an assembly. -/
def Succeeds (e : Edit α) (a : Assembly) : Prop := ∃ value b, e.Yields a value b

/-- If the edit fails on an assembly, it leaves the assembly as it was. -/
def Spares (e : Edit α) (a : Assembly) : Prop :=
  ∀ error, (e a).result = .error error → (e a).assembly = a

theorem Yields.succeeds {e : Edit α} {value : α} (h : e.Yields a value b) : e.Succeeds a :=
  ⟨value, b, h⟩

/-- After a success it is up to the second edit. -/
theorem Yields.then_succeeds {first : Edit α} {next : α → Edit β} {value : α}
    (h : first.Yields a value b) (hnext : (next value).Succeeds b) :
    (first >>= next).Succeeds a := by
  rcases hnext with ⟨value', c, hnext⟩
  exact (h.bind hnext).succeeds

/-- What does not fail need not be undone. -/
theorem Succeeds.spares {e : Edit α} (h : e.Succeeds a) : e.Spares a := by
  rcases h with ⟨value, b, h⟩
  intro error herror
  exact absurd (h.result.symm.trans herror) (by simp only [reduceCtorEq, not_false_eq_true])

namespace Spares

/-- A question is no change, so that a refusal by it leaves everything as it was. -/
theorem ask {question : Assembly → Logged AssemblyError α} {next : α → Edit β}
    (hnext : ∀ value, (question a).result = .ok value → (next value).Spares a) :
    (Edit.ask question >>= next).Spares a := by
  intro error herror
  cases h : (Edit.ask question a).result with
  | error e =>
      rw [bind_of_error h]
      rfl
  | ok value =>
      rw [result_bind_of_ok h] at herror
      rw [assembly_bind_of_ok h]
      exact hnext value h error herror

theorem read {question : Assembly → Except AssemblyError α} {next : α → Edit β}
    (hnext : ∀ value, question a = .ok value → (next value).Spares a) :
    (Edit.read question >>= next).Spares a := ask hnext

theorem map {e : Edit α} (h : e.Spares a) (f : α → β) : (f <$> e).Spares a := by
  rw [map_eq_pure_bind]
  intro error herror
  cases hresult : (e a).result with
  | error e' =>
      rw [bind_of_error hresult]
      exact h e' hresult
  | ok value =>
      rw [result_bind_of_ok hresult] at herror
      exact absurd herror (by simp only [pure, Edit.pure, reduceCtorEq, not_false_eq_true])

end Spares

/-- One answer decides: if it is a refusal, the edit is refused in the same words and has done
    nothing, and otherwise the edit does not fail. -/
structure DecidedBy (e : Edit α) (a : Assembly) (answer : Except AssemblyError β) : Prop where
  /-- A refusal is handed on, and the assembly is what it was. -/
  refused : ∀ error, answer = .error error → (e a).result = .error error ∧ (e a).assembly = a
  /-- Nothing that comes after the answer can fail. -/
  done : ∀ value, answer = .ok value → e.Succeeds a

namespace DecidedBy

variable {e : Edit α} {answer : Except AssemblyError β}

/-- A question decides if nothing that follows its answer can fail. -/
theorem ask {question : Assembly → Logged AssemblyError β} {next : β → Edit α}
    (hnext : ∀ value, (question a).result = .ok value → (next value).Succeeds a) :
    (Edit.ask question >>= next).DecidedBy a (question a).result where
  refused error herror := by
    have hasked : (Edit.ask question a).result = .error error := herror
    rw [bind_of_error hasked]
    exact ⟨rfl, rfl⟩
  done value hvalue := by
    have hasked : (Edit.ask question).Yields a value a := ⟨hvalue, rfl⟩
    exact hasked.then_succeeds (hnext value hvalue)

theorem read {question : Assembly → Except AssemblyError β} {next : β → Edit α}
    (hnext : ∀ value, question a = .ok value → (next value).Succeeds a) :
    (Edit.read question >>= next).DecidedBy a (question a) := ask hnext

theorem spares (h : e.DecidedBy a answer) : e.Spares a := by
  cases answer with
  | error error =>
      intro _ _
      exact (h.refused error rfl).2
  | ok value => exact (h.done value rfl).spares

theorem eq_error_iff (h : e.DecidedBy a answer) {error : AssemblyError} :
    (e a).result = .error error ↔ answer = .error error := by
  refine ⟨fun herror => ?_, fun herror => (h.refused error herror).1⟩
  cases answer with
  | error error' =>
      have hsame := (h.refused error' rfl).1.symm.trans herror
      rw [Except.error.inj hsame]
  | ok value =>
      rcases h.done value rfl with ⟨value', b, hyields⟩
      exact absurd (hyields.result.symm.trans herror) (by simp only [reduceCtorEq,
        not_false_eq_true])

theorem succeeds_iff (h : e.DecidedBy a answer) :
    e.Succeeds a ↔ ∃ value, answer = .ok value := by
  refine ⟨?_, fun ⟨value, hvalue⟩ => h.done value hvalue⟩
  rintro ⟨value', b, hyields⟩
  cases answer with
  | error error =>
      exact absurd (hyields.result.symm.trans (h.refused error rfl).1) (by simp only [reduceCtorEq,
        not_false_eq_true])
  | ok value => exact ⟨value, rfl⟩

end DecidedBy

theorem update_decidedBy (id : ComponentId) (f : Component → Component) :
    (update id f).DecidedBy a (a.find id) :=
  .read fun _ _ => (Yields.change _ a).succeeds

theorem addChild_decidedBy (parent child : ComponentId) :
    (addChild parent child).DecidedBy a (a.checkAdoption parent child).result :=
  .ask fun _ _ => (Yields.change _ a).succeeds

/-- Whatever has been checked of a draft, nothing that follows the check can fail. What follows is
    the insertion and the links, and they are made only if the check is passed. -/
theorem create_decidedBy (draft : Draft) :
    (create draft).DecidedBy a (a.checkDraft draft) := by
  refine .read fun _ _ => (Yields.insert _ a).then_succeeds ?_
  cases draft.parent with
  | none => exact (Yields.change _ _).then_succeeds (Yields.pure _ _).succeeds
  | some parent =>
      exact (Yields.change _ _).then_succeeds
        ((Yields.change _ _).then_succeeds (Yields.pure _ _).succeeds)

/-- What exists is copied without fail, and for what does not exist nothing is inserted. So a copy
    that is refused has not been begun, although copying inserts before it goes on to the parts. -/
theorem copy_spares (h : a.WellFormed) (id : ComponentId) (isolated : Bool) :
    (copy id isolated).Spares a := by
  by_cases hid : a.contains id = true
  · rcases copy_yields h hid isolated with ⟨_, hyields, _⟩
    exact hyields.succeeds.spares
  · intro error _
    rw [copy, copyWithin_unknown hid]

/-- Components that nobody owns, and from which one does not get to anything that was there. -/
structure Fresh (a b : Assembly) (parts : List ComponentId) : Prop where
  /-- They are there. -/
  contains : ∀ part ∈ parts, b.contains part = true
  /-- Nobody owns them. -/
  parent : ∀ part ∈ parts, b.parent? part = none
  /-- They are not made of anything that was there before. -/
  not_reaches : ∀ part ∈ parts, ∀ old, a.contains old = true → ¬ b.Reaches part old

/-- Isolated copies of what an assembly had are fresh. -/
theorem Fresh.of_duplicates (hext : m.Extends b none) {depth : Nat} {ids parts : List ComponentId}
    (hparts : List.Forall₂ (fun x y => ¬ m.contains y = true ∧ a.Duplicate b depth none x y)
      ids parts) : Fresh m b parts where
  contains part hpart := by
    rcases exists_of_mem_right hparts hpart with ⟨_, _, _, hdup⟩
    exact hdup.contains_copy
  parent part hpart := by
    rcases exists_of_mem_right hparts hpart with ⟨_, _, _, hdup⟩
    exact hdup.parent?_copy
  not_reaches part hpart old hold := by
    rcases exists_of_mem_right hparts hpart with ⟨_, _, hnew, _⟩
    exact hext.not_reaches_old hnew hold

/-- What exists has fresh copies. -/
theorem copies_fresh (h : a.WellFormed) (hm : m.WellFormed) (hext : a.Extends m none)
    {ids : List ComponentId} (hall : ∀ id ∈ ids, a.contains id = true) :
    ∃ parts b, (ids.mapM fun id => copy id true).Yields m parts b ∧ b.WellFormed ∧
      m.Extends b none ∧ Fresh m b parts := by
  rcases copies_yields h hm hext hall with ⟨parts, b, hyields, hwf, hext', hparts, _⟩
  exact ⟨parts, b, hyields, hwf, hext', Fresh.of_duplicates hext' hparts⟩

namespace Fresh

variable {parts : List ComponentId}

/-- A composition of fresh components may be recorded on anything that was there. They get to
    nothing that was there, and nobody owns them, and this is all that is checked. -/
theorem checkInPlace_eq_ok (h : Fresh a b parts) (hwf : b.WellFormed) {id : ComponentId}
    (hid : a.contains id = true) (hid' : b.contains id = true) (adopts : Bool) :
    (b.checkInPlace id parts adopts).result = .ok () := by
  refine checkInPlace_eq_ok_iff.mpr ⟨fun part hpart => h.not_reaches part hpart id hid, ?_⟩
  intro _ part hpart
  refine (checkAdoption_eq_ok_iff fun _ _ hp => hwf.uses_of_parent? hp).mpr ?_
  exact ⟨hid', h.contains part hpart, Or.inl (h.parent part hpart), h.not_reaches part hpart id hid⟩

theorem checkFree_eq_ok (h : Fresh a b parts) {part : ComponentId} (hpart : part ∈ parts) :
    b.checkFree part = .ok () :=
  checkFree_eq_ok_iff.mpr ⟨h.contains part hpart, h.parent part hpart⟩

end Fresh

/-- Once a composition is recorded nothing can fail. -/
theorem conclude_yields (target : ComponentId) (composition : Composition) (adopts : Bool) :
    (conclude target composition adopts).Yields a target
      (a.concluded target composition.operands adopts) := by
  refine (Yields.note _ a).bind ?_
  cases adopts with
  | false => exact Yields.pure target a
  | true => exact (Yields.change _ a).bind (Yields.pure target _)

/-- A composition on a component can be refused by its check alone. -/
theorem composeOn_decidedBy (id : ComponentId) (composition : Composition) (adopts : Bool) :
    (composeOn id composition adopts).DecidedBy a
      (a.checkInPlace id composition.operands adopts).result :=
  .ask fun _ _ => (Yields.change _ a).then_succeeds (conclude_yields id composition adopts).succeeds

/-- A composition on a new component can be refused only for the sake of its children, and is
    refused before the component is inserted. -/
theorem composeNew_decidedBy (composition : Composition) (adopts : Bool) :
    (composeNew composition adopts).DecidedBy a
      (if adopts then composition.operands.forM a.checkFree else .ok ()) := by
  have hrest : (insert { compositions := [composition] } >>= fun target =>
      conclude target composition adopts).Succeeds a :=
    (Yields.insert _ a).then_succeeds (conclude_yields a.nextId composition adopts).succeeds
  cases adopts with
  | false => exact ⟨fun _ h => absurd h (by simp only [Bool.false_eq_true, if_false, reduceCtorEq,
      not_false_eq_true]), fun _ _ => hrest⟩
  | true => exact .read fun _ _ => hrest

theorem composeOn_yields {id : ComponentId} (composition : Composition) {adopts : Bool}
    (hok : (a.checkInPlace id composition.operands adopts).result = .ok ()) :
    (composeOn id composition adopts).Yields a id
      ((a.modify id fun c => c.composing composition).concluded id composition.operands
        adopts) := by
  have hasked : (ask fun a => a.checkInPlace id composition.operands adopts).Yields a () a :=
    ⟨hok, rfl⟩
  exact hasked.bind ((Yields.change _ a).bind (conclude_yields id composition adopts))

theorem composeNew_yields (composition : Composition) (adopts : Bool)
    (hfree : ∀ part ∈ composition.operands, a.checkFree part = .ok ()) :
    (composeNew composition adopts).Yields a a.nextId
      ((a.insert { compositions := [composition] }).concluded a.nextId composition.operands
        adopts) := by
  have hrest : (insert { compositions := [composition] } >>= fun target =>
      conclude target composition adopts).Yields a a.nextId _ :=
    (Yields.insert _ a).bind (conclude_yields a.nextId composition adopts)
  cases adopts with
  | false => exact hrest
  | true => exact (Yields.read (Except.forM_eq_ok_iff.mpr hfree)).bind hrest

/-- If all that a composition is asked for is there, what is involved is what counts. -/
theorem compose_of_known {id : ComponentId} {operator : Operator} {operands : List ComponentId}
    {mode : ComposeMode} (hid : a.contains id = true)
    (hknown : ∀ operand ∈ operands, a.contains operand = true) :
    compose id operator operands mode a = (involved mode.copies operands >>= fun others =>
      if mode.inPlace then composeOn id ⟨operator, others⟩ mode.adopts
      else involved mode.copies [id] >>= fun receiver =>
        composeNew ⟨operator, others ++ receiver⟩ mode.adopts) a := by
  have hall : operands.forM a.checkKnown = .ok () :=
    Except.forM_eq_ok_iff.mpr fun operand ho => checkKnown_eq_ok_iff.mpr (hknown operand ho)
  unfold compose
  rw [read_bind_of_ok (checkKnown_eq_ok_iff.mpr hid), read_bind_of_ok hall]

/-- A composition of copies makes all the copies and then records what they are. -/
theorem compose_copies_yields {id : ComponentId} (hid : a.contains id = true) {operator : Operator}
    {operands parts : List ComponentId}
    (hoperands : ∀ operand ∈ operands, a.contains operand = true)
    {inPlace adopts : Bool} (hcopies : ((operands ++ if inPlace then [] else [id]).mapM fun id =>
      copy id true).Yields a parts m) {target : ComponentId}
    (hrest : (if inPlace then composeOn id ⟨operator, parts⟩ adopts
      else composeNew ⟨operator, parts⟩ adopts).Yields m target b) :
    (compose id operator operands { copies := true, inPlace, adopts }).Yields a target b := by
  rw [Yields, compose_of_known hid hoperands]
  cases inPlace with
  | true =>
      rw [if_pos rfl, List.append_nil] at hcopies
      exact hcopies.bind hrest
  | false =>
      rw [if_neg Bool.false_ne_true, List.mapM_append] at hcopies
      have hdone : ((operands.mapM fun id => copy id true) >>= (fun others =>
          ([id].mapM fun id => copy id true) >>= fun receiver => Pure.pure (others ++ receiver)) >>=
            fun parts => composeNew ⟨operator, parts⟩ adopts).Yields a target b :=
        hcopies.bind hrest
      simp only [bind_assoc, pure_bind] at hdone
      exact hdone

/-- Whatever is involved in a composition is there. -/
theorem contains_of_mem_involved {id : ComponentId} {operands : List ComponentId}
    (hid : a.contains id = true) (hoperands : ∀ operand ∈ operands, a.contains operand = true)
    (inPlace : Bool) : ∀ x ∈ operands ++ (if inPlace then [] else [id]), a.contains x = true := by
  intro x hx
  rcases List.mem_append.mp hx with hx | hx
  · exact hoperands x hx
  · cases inPlace with
    | true => exact absurd hx List.not_mem_nil
    | false => exact List.mem_singleton.mp hx ▸ hid

/-- With copies a composition is never refused once its operands are known. -/
theorem compose_copies_succeeds (h : a.WellFormed) {id : ComponentId}
    (hid : a.contains id = true) (operator : Operator) {operands : List ComponentId}
    (hoperands : ∀ operand ∈ operands, a.contains operand = true) (inPlace adopts : Bool) :
    (compose id operator operands { copies := true, inPlace, adopts }).Succeeds a := by
  rcases copies_fresh h h (Extends.refl a none) (contains_of_mem_involved hid hoperands inPlace)
    with ⟨parts, b, hyields, hwf, hext, hfresh⟩
  cases inPlace with
  | true =>
      have hcheck := hfresh.checkInPlace_eq_ok hwf hid (hext.contains id hid) adopts
      exact (compose_copies_yields hid hoperands hyields
        (composeOn_yields ⟨operator, parts⟩ hcheck)).succeeds
  | false =>
      exact (compose_copies_yields hid hoperands hyields (composeNew_yields ⟨operator, parts⟩ adopts
        fun part hpart => hfresh.checkFree_eq_ok hpart)).succeeds

/-- A composition that is refused leaves everything as it was. It is refused before anything is
    copied, or it has made no copies, since a composition of copies is not refused. -/
theorem compose_spares (h : a.WellFormed) (id : ComponentId) (operator : Operator)
    (operands : List ComponentId) (mode : ComposeMode) :
    (compose id operator operands mode).Spares a := by
  rcases mode with ⟨copies, inPlace, adopts⟩
  cases copies with
  | true =>
      by_cases hknown : a.contains id = true ∧ ∀ operand ∈ operands, a.contains operand = true
      · exact (compose_copies_succeeds h hknown.1 operator hknown.2 inPlace adopts).spares
      · -- Nothing is copied before it is known that all of it is there.
        refine Spares.read fun _ hid => Spares.read fun _ hoperands => ?_
        refine absurd ⟨checkKnown_eq_ok_iff.mp hid, fun operand ho => ?_⟩ hknown
        exact checkKnown_eq_ok_iff.mp (Except.forM_eq_ok_iff.mp hoperands operand ho)
  | false =>
      refine Spares.read fun _ _ => Spares.read fun _ _ => ?_
      -- Without copies nothing has been changed when the check is made.
      cases inPlace with
      | true => exact (composeOn_decidedBy id ⟨operator, operands⟩ adopts).spares
      | false => exact (composeNew_decidedBy ⟨operator, operands ++ [id]⟩ adopts).spares

end Edit

namespace Command

/-- A command that is refused spares the assembly, unless it is a sequence of adoptions. -/
theorem run_spares {a : Assembly} (h : a.WellFormed) {command : Command}
    (hsingle : ∀ parent children, command ≠ .addChildren parent children) :
    command.run.Spares a := by
  cases command with
  | create draft => exact (Edit.create_decidedBy draft).spares.map _
  | add shape => exact (Edit.Yields.insert _ a).succeeds.spares.map _
  | container => exact (Edit.Yields.insert _ a).succeeds.spares.map _
  | addChild parent child => exact (Edit.addChild_decidedBy parent child).spares.map _
  | addChildren parent children => exact absurd rfl (hsingle parent children)
  | setParent child parent => exact (Edit.addChild_decidedBy parent child).spares.map _
  | transform id steps => exact (Edit.update_decidedBy id _).spares.map _
  | transformOne id step => exact (Edit.update_decidedBy id _).spares.map _
  | setColor id color => exact (Edit.update_decidedBy id _).spares.map _
  | compose id operator operands mode =>
      exact (Edit.compose_spares h id operator operands mode).map _
  | union id operands => exact (Edit.compose_spares h id .union operands {}).map _
  | difference id operands => exact (Edit.compose_spares h id .difference operands {}).map _
  | intersection id operands => exact (Edit.compose_spares h id .intersection operands {}).map _
  | copy id isolated => exact (Edit.copy_spares h id isolated).map _

end Command

namespace Assembly.Reachable

variable {a : Assembly}

/-- A command that is refused leaves the assembly exactly as it was: no component more, and no link,
    composition, transformation or color of any component different. Commands insert components and
    only then go on to link them, so this says that nothing which comes after an insertion is ever
    refused. Only the adoption of several children is refused one child at a time, and keeps those
    that have been adopted by then. -/
theorem refused_unchanged (h : a.Reachable) {command : Command}
    (hsingle : ∀ parent children, command ≠ .addChildren parent children) {e : AssemblyError}
    (hrefused : (command.run a).result = .error e) : (command.run a).assembly = a :=
  Command.run_spares h.wellFormed hsingle e hrefused

/-- A new component is to adopt two operands, the second of which has a parent. -/
theorem refused_unchanged_owned :
    let a : Assembly := ⟨#[
      { parent := some ⟨2⟩, shape := some (.sphere 1) },
      { children := [⟨1⟩], compositions := [⟨.union, [⟨1⟩]⟩] },
      { shape := some (.sphere 2) }]⟩
    let command : Command := .compose ⟨2⟩ .difference [⟨3⟩, ⟨1⟩] { inPlace := false }
    a.Reachable ∧ (∀ parent children, command ≠ .addChildren parent children) ∧
      (command.run a).result = .error (.alreadyOwned ⟨1⟩ ⟨2⟩) ∧ (command.run a).assembly = a := by
  intro a command
  have h : a.Reachable := by
    have h := Reachable.empty.step (.add (.sphere 1))
    exact (h.step (.compose ⟨1⟩ .union [] { inPlace := false })).step (.add (.sphere 2))
  have hsingle : ∀ parent children, command ≠ .addChildren parent children :=
    fun _ _ heq => Command.noConfusion heq
  have hrefused : (command.run a).result = .error (.alreadyOwned ⟨1⟩ ⟨2⟩) := rfl
  exact ⟨h, hsingle, hrefused, h.refused_unchanged hsingle hrefused⟩

end Assembly.Reachable

end SolidModel
