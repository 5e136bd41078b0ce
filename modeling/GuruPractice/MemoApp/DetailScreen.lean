import GuruPractice.MemoApp.MemoListRefinement

/-!
# The detail screen stays open

`MemoApp.step` takes a press on the detail screen together with the way to the screen and back. The
screen itself is finer than that: it is filled in when it loads, its texts are typed, and a press
returns to the table only when its save did not throw, so that the user may press again, or press
the other button, or go back. This file is the machine of the two screens.

Whatever is pressed, the store only grows: a stored note keeps its place and its id, and a stored
deletion is final. The table that is on screen shows the notes that are listed. Under an open detail
screen it keeps its old cells, and reloads them when it appears again.

## Main definitions

* `MemoApp.NoteDetailVC`, `MemoApp.Screens`, `MemoApp.ScreenAction`, `MemoApp.Screens.step`.
* `MemoApp.ContextChange` — all that a step can do to the context.
* `MemoApp.KeepsNotes` — notes keep their places, their ids and their deletions.
* `MemoApp.Screens.RowsCurrent` — the table shows what is listed, unless it is covered.

## Main results

* `MemoApp.Screens.contextChange_of_step`, `MemoApp.Screens.keepsNotes_of_run`.
* `MemoApp.Screens.rowsCurrent_of_run`.
* `MemoApp.Screens.stored_deletions_final`.
-/

namespace GuruPractice.MemoApp

open Storage Transition

/-! ### The screen -/

/-- An instance of the detail screen, with the texts of its two fields. -/
structure NoteDetailVC where
  /-- The note opened from a row, by object; `none` on a new-note screen. -/
  selectedNote : Option ℕ := none
  titleTF : String := ""
  descTV : String := ""

/-- The fields show the texts of the selected note. A text that is `nil` is shown as an empty
one. -/
def NoteDetailVC.viewDidLoad (vc : NoteDetailVC) (s : AppState) : NoteDetailVC :=
  match vc.selectedNote with
  | some selectedNote =>
    { vc with
      titleTF := ((s.note selectedNote).bind Note.title).getD ""
      descTV := ((s.note selectedNote).bind Note.desc).getD "" }
  | none => vc

/-- The loop of `saveAction` and `DelteNote` over the results of a fetch reaches
`popViewController`: it meets the selected note, and the save does not throw. -/
def popsEach (selectedNote : Option ℕ) (saved : Bool) (results : List ℕ) : Bool :=
  results.any fun note => decide (some note = selectedNote) && saved

/-- Save reaches `popViewController`. -/
def saveActionPops (s : AppState) (selectedNote : Option ℕ) (r : Reply) : Bool :=
  match selectedNote with
  | none => r.saved
  | some _ => popsEach selectedNote r.saved (s.viewContext.fetch r.fetchOrder)

/-- Delete reaches `popViewController`. -/
def delteNotePops (s : AppState) (selectedNote : Option ℕ) (r : Reply) : Bool :=
  popsEach selectedNote r.saved (s.viewContext.fetch r.fetchOrder)

/-- The app with the detail screen that is on top of the table, if one is. -/
structure Screens where
  app : AppState
  noteDetailVC : Option NoteDetailVC

/-- What the user and the system do. -/
inductive ScreenAction
  /-- The segue to a new-note screen. -/
  | newNote
  /-- The segue from a row. -/
  | editNote (row : ℕ)
  /-- The user leaves these texts in the fields. -/
  | type (titleTF descTV : String)
  | save (r : Reply)
  | delete (now : Date) (r : Reply)
  /-- The back button. -/
  | back
  | background
  | connectScene (fetchOrder : FetchOrder Note)
  | relaunch (fetchOrder : FetchOrder Note)

namespace Screens

/-- Return to the table, which comes on screen again. -/
def popViewController (s : Screens) : Screens := ⟨viewDidAppear s.app, none⟩

/-- Return to the table if the press has popped the screen. -/
def popIf (popped : Bool) (s : Screens) : Screens :=
  if popped then s.popViewController else s

/-- One action; `none` when it cannot be taken, because its screen or its row is not there. -/
def step (s : Screens) : ScreenAction → Option Screens
  | .newNote =>
    match s.noteDetailVC, s.app.noteTableView with
    | none, some _ => some { s with noteDetailVC := some (NoteDetailVC.viewDidLoad {} s.app) }
    | _, _ => none
  | .editNote row =>
    match s.noteDetailVC with
    | none =>
      (prepare s.app row).map fun note =>
        { s with
          noteDetailVC := some (NoteDetailVC.viewDidLoad { selectedNote := some note } s.app) }
    | some _ => none
  | .type titleTF descTV =>
    s.noteDetailVC.map fun vc =>
      { s with noteDetailVC := some { vc with titleTF := titleTF, descTV := descTV } }
  | .save r =>
    s.noteDetailVC.map fun vc =>
      popIf (saveActionPops s.app vc.selectedNote r)
        { s with app := saveAction s.app vc.selectedNote (some vc.titleTF) (some vc.descTV) r }
  | .delete now r =>
    s.noteDetailVC.map fun vc =>
      popIf (delteNotePops s.app vc.selectedNote r)
        { s with app := delteNote s.app vc.selectedNote now r }
  | .back => s.noteDetailVC.map fun _ => s.popViewController
  | .background => (saveContext s.app true).map fun app => { s with app := app }
  | .connectScene fetchOrder => some ⟨connectScene s.app fetchOrder, none⟩
  | .relaunch fetchOrder => some ⟨launch s.app.viewContext.stored fetchOrder, none⟩

/-- A new process, before its scene connects. -/
def processStart (stored : List Note) : Screens := ⟨MemoApp.processStart stored, none⟩

end Screens

namespace ScreenAction

/-- The answers of Core Data to the presses of an action. -/
def replies : ScreenAction → List Reply
  | save r | delete _ r => [r]
  | newNote | editNote _ | type _ _ | back | background | connectScene _ | relaunch _ => []

end ScreenAction

/-! ### What the presses do -/

theorem popsEach_fetch (selectedNote : Option ℕ) (saved : Bool) (c : ManagedContext Note)
    (fetchOrder : FetchOrder Note) :
    popsEach selectedNote saved (c.fetch fetchOrder) =
      (selectedNote.any (fun i => decide (i < c.objects.length)) && saved) := by
  rw [Bool.eq_iff_iff]
  cases selectedNote with
  | none => simp [popsEach]
  | some i => simp [popsEach, c.mem_fetch]

/-- All that can happen to the context: a note is inserted that is not deleted; an object is changed
and keeps its id and its deletion; the objects are saved, or lost. -/
inductive ContextChange (c : ManagedContext Note) : ManagedContext Note → Prop
  | unchanged : ContextChange c c
  | insert (note : Note) (hnote : note.deletedDate = none) (saved : Bool) :
    ContextChange c ((c.insert note).attemptSave saved)
  | modify (i : ℕ) (f : Note → Note) (hid : ∀ note, (f note).id = note.id)
      (hdeleted : ∀ note, note.deletedDate.isSome → (f note).deletedDate.isSome) (saved : Bool) :
    ContextChange c ((c.modify i f).attemptSave saved)
  | saveContext : ContextChange c (.fresh c.objects)
  | relaunch : ContextChange c (.fresh c.stored)

theorem contextChange_saveEach (c : ManagedContext Note) (selectedNote : Option ℕ)
    (change : Note → Note) (hid : ∀ note, (change note).id = note.id)
    (hdeleted : ∀ note, note.deletedDate.isSome → (change note).deletedDate.isSome) (saved : Bool)
    (fetchOrder : FetchOrder Note) :
    ContextChange c (saveEach change selectedNote saved (c.fetch fetchOrder) c) := by
  cases selectedNote with
  | none =>
    rw [saveEach_none]
    exact .unchanged
  | some i =>
    by_cases hi : i ∈ c.fetch fetchOrder
    · rw [saveEach_of_mem change saved (c.nodup_fetch _) hi]
      exact .modify i change hid hdeleted saved
    · rw [saveEach_of_notMem change saved hi]
      exact .unchanged

theorem contextChange_saveAction (s : AppState) (selectedNote : Option ℕ)
    (titleTF descTV : Option String) (r : Reply) :
    ContextChange s.viewContext (saveAction s selectedNote titleTF descTV r).viewContext := by
  cases selectedNote with
  | none =>
    rw [saveAction_none]
    exact .insert _ rfl _
  | some i =>
    exact contextChange_saveEach _ (some i)
      (fun note => { note with title := titleTF, desc := descTV }) (fun _ => rfl) (fun _ h => h) _ _

theorem contextChange_delteNote (s : AppState) (selectedNote : Option ℕ) (now : Date) (r : Reply) :
    ContextChange s.viewContext (delteNote s selectedNote now r).viewContext :=
  contextChange_saveEach _ selectedNote (fun note => { note with deletedDate := some now })
    (fun _ => rfl) (fun _ _ => rfl) _ _

namespace Screens

variable {s s' : Screens}

@[simp] theorem viewContext_popIf (popped : Bool) (s : Screens) :
    (popIf popped s).app.viewContext = s.app.viewContext := by
  cases popped <;> rfl

theorem step_type {titleTF descTV : String} :
    s.step (.type titleTF descTV) = some s' ↔ ∃ vc, s.noteDetailVC = some vc ∧
      s' = { s with noteDetailVC := some { vc with titleTF := titleTF, descTV := descTV } } := by
  rw [step, Option.map_eq_some_iff]
  exact exists_congr fun vc => and_congr_right fun _ => eq_comm

theorem step_save {r : Reply} :
    s.step (.save r) = some s' ↔ ∃ vc, s.noteDetailVC = some vc ∧
      s' = popIf (saveActionPops s.app vc.selectedNote r)
        { s with
          app := saveAction s.app vc.selectedNote (some vc.titleTF) (some vc.descTV) r } := by
  rw [step, Option.map_eq_some_iff]
  exact exists_congr fun vc => and_congr_right fun _ => eq_comm

theorem step_delete {now : Date} {r : Reply} :
    s.step (.delete now r) = some s' ↔ ∃ vc, s.noteDetailVC = some vc ∧
      s' = popIf (delteNotePops s.app vc.selectedNote r)
        { s with app := delteNote s.app vc.selectedNote now r } := by
  rw [step, Option.map_eq_some_iff]
  exact exists_congr fun vc => and_congr_right fun _ => eq_comm

theorem step_newNote :
    s.step .newNote = some s' ↔ s.noteDetailVC = none ∧ s.app.noteTableView.isSome ∧
      s' = { s with noteDetailVC := some {} } := by
  cases hvc : s.noteDetailVC <;> cases htable : s.app.noteTableView <;>
    simp [step, hvc, htable, NoteDetailVC.viewDidLoad, eq_comm]

theorem step_editNote {row : ℕ} :
    s.step (.editNote row) = some s' ↔ s.noteDetailVC = none ∧ ∃ i, prepare s.app row = some i ∧
      s' = { s with
        noteDetailVC := some (NoteDetailVC.viewDidLoad { selectedNote := some i } s.app) } := by
  cases hvc : s.noteDetailVC with
  | none =>
    simp only [step, hvc, Option.map_eq_some_iff, true_and]
    exact exists_congr fun i => and_congr_right fun _ => eq_comm
  | some vc => simp [step, hvc]

theorem step_back :
    s.step .back = some s' ↔ s.noteDetailVC.isSome ∧ s' = s.popViewController := by
  cases hvc : s.noteDetailVC <;> simp [step, hvc, eq_comm]

theorem step_background :
    s.step .background = some s' ↔
      s' = { s with
        app := { s.app with viewContext := .fresh s.app.viewContext.objects } } := by
  rw [step, saveContext_true, Option.map_some, Option.some.injEq, eq_comm]

theorem step_connectScene {fetchOrder : FetchOrder Note} :
    s.step (.connectScene fetchOrder) = some s' ↔ s' = ⟨connectScene s.app fetchOrder, none⟩ := by
  rw [step, Option.some.injEq, eq_comm]

theorem step_relaunch {fetchOrder : FetchOrder Note} :
    s.step (.relaunch fetchOrder) = some s' ↔
      s' = ⟨launch s.app.viewContext.stored fetchOrder, none⟩ := by
  rw [step, Option.some.injEq, eq_comm]

/-- **All that an action can do to the context.** -/
theorem contextChange_of_step {a : ScreenAction} (h : s.step a = some s') :
    ContextChange s.app.viewContext s'.app.viewContext := by
  cases a with
  | newNote =>
    obtain ⟨-, -, rfl⟩ := step_newNote.mp h
    exact .unchanged
  | editNote row =>
    obtain ⟨-, i, -, rfl⟩ := step_editNote.mp h
    exact .unchanged
  | type titleTF descTV =>
    obtain ⟨vc, -, rfl⟩ := step_type.mp h
    exact .unchanged
  | save r =>
    obtain ⟨vc, -, rfl⟩ := step_save.mp h
    rw [viewContext_popIf]
    exact contextChange_saveAction _ _ _ _ _
  | delete now r =>
    obtain ⟨vc, -, rfl⟩ := step_delete.mp h
    rw [viewContext_popIf]
    exact contextChange_delteNote _ _ _ _
  | back =>
    obtain ⟨-, rfl⟩ := step_back.mp h
    exact .unchanged
  | background =>
    obtain rfl := step_background.mp h
    exact .saveContext
  | connectScene fetchOrder =>
    obtain rfl := step_connectScene.mp h
    exact .unchanged
  | relaunch fetchOrder =>
    obtain rfl := step_relaunch.mp h
    exact .relaunch

end Screens

/-! ### The store only grows -/

/-- The notes of `l` are in `l'`, in their places and with their ids, and those that are deleted
still are. -/
def KeepsNotes (l l' : List Note) : Prop :=
  ∀ (i : ℕ) (note : Note), l[i]? = some note →
    ∃ note' : Note, l'[i]? = some note' ∧ note'.id = note.id ∧
      (note.deletedDate.isSome → note'.deletedDate.isSome)

namespace KeepsNotes

protected theorem refl (l : List Note) : KeepsNotes l l :=
  fun _ note hnote => ⟨note, hnote, rfl, id⟩

protected theorem trans {l m n : List Note} (hlm : KeepsNotes l m) (hmn : KeepsNotes m n) :
    KeepsNotes l n := by
  intro i note hnote
  obtain ⟨note₁, hnote₁, hid₁, hdel₁⟩ := hlm i note hnote
  obtain ⟨note₂, hnote₂, hid₂, hdel₂⟩ := hmn i note₁ hnote₁
  exact ⟨note₂, hnote₂, hid₂.trans hid₁, fun h => hdel₂ (hdel₁ h)⟩

theorem append (l inserted : List Note) : KeepsNotes l (l ++ inserted) := by
  intro i note hnote
  have hi := (List.getElem?_eq_some_iff.mp hnote).1
  exact ⟨note, by rw [List.getElem?_append_left hi, hnote], rfl, id⟩

theorem modify (l : List Note) (i : ℕ) {f : Note → Note} (hid : ∀ note, (f note).id = note.id)
    (hdeleted : ∀ note, note.deletedDate.isSome → (f note).deletedDate.isSome) :
    KeepsNotes l (l.modify i f) := by
  intro j note hnote
  rw [List.getElem?_modify, hnote]
  by_cases hij : i = j
  · exact ⟨f note, by simp [hij], hid note, hdeleted note⟩
  · exact ⟨note, by simp [hij], rfl, id⟩

end KeepsNotes

/-- A change of the context keeps the stored notes, and keeps them in memory. -/
theorem ContextChange.keepsNotes {c c' : ManagedContext Note} (h : ContextChange c c')
    (hc : KeepsNotes c.stored c.objects) :
    KeepsNotes c.stored c'.stored ∧ KeepsNotes c'.stored c'.objects := by
  -- What is stored afterwards is what was stored before, or all objects.
  have hattempt : ∀ (d : ManagedContext Note) (saved : Bool), KeepsNotes c.stored d.objects →
      d.stored = c.stored → KeepsNotes c.stored (d.attemptSave saved).stored ∧
        KeepsNotes (d.attemptSave saved).stored (d.attemptSave saved).objects := by
    intro d saved hobj hstored
    cases saved with
    | true => exact ⟨hobj, .refl _⟩
    | false =>
      rw [ManagedContext.attemptSave_false, hstored]
      exact ⟨.refl _, hobj⟩
  cases h with
  | unchanged => exact ⟨.refl _, hc⟩
  | insert note hnote saved => exact hattempt _ saved (hc.trans (.append _ _)) rfl
  | modify i f hid hdeleted saved =>
    exact hattempt _ saved (hc.trans (.modify _ i hid hdeleted)) rfl
  | saveContext => exact ⟨hc, .refl _⟩
  | relaunch => exact ⟨.refl _, .refl _⟩

namespace Screens

/-- Along a run, what was stored is stored and in memory. -/
theorem keepsNotes_of_run {s s' : Screens} {as : List ScreenAction}
    (hs : KeepsNotes s.app.viewContext.stored s.app.viewContext.objects)
    (h : run step s as = some s') :
    KeepsNotes s.app.viewContext.stored s'.app.viewContext.stored ∧
      KeepsNotes s'.app.viewContext.stored s'.app.viewContext.objects := by
  refine run_induction (I := fun t => KeepsNotes s.app.viewContext.stored t.app.viewContext.stored ∧
    KeepsNotes t.app.viewContext.stored t.app.viewContext.objects) ?_ ⟨.refl _, hs⟩ h
  rintro t a t' ⟨hkept, ht⟩ hstep
  obtain ⟨hkept', ht'⟩ := (contextChange_of_step hstep).keepsNotes ht
  exact ⟨hkept.trans hkept', ht'⟩

/-- A table that no detail screen covers shows the texts of the notes it lists. -/
def RowsCurrent (s : Screens) : Prop :=
  s.noteDetailVC = none → s.app.rows.map some = (nonDeleteNotes s.app).map (shownTexts s.app)

theorem rowsCurrent_popViewController (s : Screens) : RowsCurrent s.popViewController :=
  fun _ => map_some_rows_viewDidAppear s.app

/-- A press reloads the table or leaves it covered. -/
private theorem rowsCurrent_popIf {s : Screens} {vc : NoteDetailVC}
    (hvc : s.noteDetailVC = some vc) (popped : Bool) (app : AppState) :
    RowsCurrent (popIf popped { s with app := app }) := by
  cases popped with
  | true => exact rowsCurrent_popViewController _
  | false => exact fun hnone => absurd (hvc.symm.trans hnone) (by simp)

theorem RowsCurrent.of_step {s s' : Screens} {a : ScreenAction} (hs : RowsCurrent s)
    (h : s.step a = some s') : RowsCurrent s' := by
  cases a with
  | newNote =>
    obtain ⟨-, -, rfl⟩ := step_newNote.mp h
    exact fun hnone => absurd hnone (by simp)
  | editNote row =>
    obtain ⟨-, i, -, rfl⟩ := step_editNote.mp h
    exact fun hnone => absurd hnone (by simp)
  | type titleTF descTV =>
    obtain ⟨vc, -, rfl⟩ := step_type.mp h
    exact fun hnone => absurd hnone (by simp)
  | save r =>
    obtain ⟨vc, hvc, rfl⟩ := step_save.mp h
    exact rowsCurrent_popIf hvc _ _
  | delete now r =>
    obtain ⟨vc, hvc, rfl⟩ := step_delete.mp h
    exact rowsCurrent_popIf hvc _ _
  | back =>
    obtain ⟨-, rfl⟩ := step_back.mp h
    exact rowsCurrent_popViewController s
  | background =>
    obtain rfl := step_background.mp h
    exact hs
  | connectScene fetchOrder =>
    obtain rfl := step_connectScene.mp h
    exact fun _ => map_some_rows_viewDidAppear _
  | relaunch fetchOrder =>
    obtain rfl := step_relaunch.mp h
    exact fun _ => map_some_rows_viewDidAppear _

theorem rowsCurrent_of_run {stored : List Note} {s : Screens} {as : List ScreenAction}
    (h : run step (processStart stored) as = some s) : RowsCurrent s :=
  run_induction (fun _ _ _ hs hstep => hs.of_step hstep) (fun _ => rfl) h

/-- **Saved deletions are final.** However the app is used after its first launch, with saves that
throw, deletions that fail and processes that end at any point, the notes stored once are stored
ever after, in the same order and with the same ids, and a note that was once stored as deleted is
in no later state listed. The rows of a table on screen are the texts of the notes that are
listed. -/
theorem stored_deletions_final {stored : List Note} {as bs : List ScreenAction} {s s' : Screens}
    (hs : run step (processStart stored) as = some s) (hs' : run step s bs = some s') :
    KeepsNotes s.app.viewContext.stored s'.app.viewContext.stored ∧
      (∀ i note, s.app.viewContext.stored[i]? = some note → note.deletedDate.isSome →
        i ∉ nonDeleteNotes s'.app) ∧
      (s'.noteDetailVC = none →
        s'.app.rows.map some = (nonDeleteNotes s'.app).map (shownTexts s'.app)) := by
  obtain ⟨-, hmem⟩ := keepsNotes_of_run (.refl _) hs
  obtain ⟨hkept, hmem'⟩ := keepsNotes_of_run hmem hs'
  have hrows : RowsCurrent s' := rowsCurrent_of_run ((run_append_eq_some step).mpr ⟨s, hs, hs'⟩)
  refine ⟨hkept, fun i note hnote hdel hlisted => ?_, hrows⟩
  obtain ⟨note', hnote', -, hdel'⟩ := (hkept.trans hmem') i note hnote
  obtain ⟨-, shown, hshown, hnone⟩ := mem_nonDeleteNotes.mp hlisted
  obtain rfl := Option.some.inj (hnote'.symm.trans hshown)
  simpa [hnone] using hdel' hdel

/-- A stored note is deleted, and then a note is created and the app relaunched. -/
theorem stored_deletions_final_relaunch :
    KeepsNotes [⟨0, some "a", some "b", some 5⟩]
      [⟨0, some "a", some "b", some 5⟩, ⟨1, some "", some "", none⟩] ∧
    (∀ i note, [(⟨0, some "a", some "b", some 5⟩ : Note)][i]? = some note →
      note.deletedDate.isSome → i ∉ [1]) ∧
    ((none : Option NoteDetailVC) = none →
      [some (some "", some "")] = [some (some "", some "")]) :=
  @stored_deletions_final [⟨0, some "a", some "b", none⟩]
    [.connectScene .insertion, .editNote 0, .delete 5 ⟨true, .insertion⟩]
    [.newNote, .save ⟨true, .insertion⟩, .relaunch .insertion] _ _ rfl rfl

end Screens

end GuruPractice.MemoApp
