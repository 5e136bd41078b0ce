import GuruPractice.Storage.ManagedContext
import GuruPractice.Storage.ListView
import GuruPractice.Transition.Run

/-!
# The screens of MemoApp

MemoApp keeps its notes in a Core Data store. A process holds them three times: the records of the
store, the objects of the shared `viewContext`, and the global `noteList` of the objects to show.
`NoteTableView` lists the objects of `noteList` that are not soft-deleted; `NoteDetailVC` creates a
note, or changes or soft-deletes the one opened from a row.

Core Data is a `Storage.ManagedContext`: a fetch returns every object of the context once, inserted
ones included, in an order of its own (`Reply.fetchOrder`); a save commits all pending changes or
throws and leaves them pending (`Reply.saved`). A note is known by its object, so that
`note == selectedNote` compares positions of the context.

## Main definitions

* `MemoApp.Note`, `MemoApp.AppState`: the data model and the state of the process and the store.
* `MemoApp.nonDeleteNotes`, `MemoApp.viewDidLoad`, `MemoApp.cellForRowAt`, `MemoApp.prepare`,
  `MemoApp.viewDidAppear`: the table.
* `MemoApp.saveAction`, `MemoApp.delteNote`: the detail screen.
* `MemoApp.saveContext`, `MemoApp.launch`, `MemoApp.Action`, `MemoApp.step`: the life of the app.

## Main results

* `MemoApp.saveAction_none`, `MemoApp.saveAction_some`, `MemoApp.delteNote_none`,
  `MemoApp.delteNote_some`: what each press on the detail screen does.
-/

namespace GuruPractice.MemoApp

open Storage Transition

/-! ### Data model and state -/

/-- A point in time, as `Date()` reads it. -/
abbrev Date := ℕ

/-- The entity `Note`. Its texts are optional attributes, and so are the texts of the fields that
set them. -/
structure Note where
  id : Int32
  title : Option String
  desc : Option String
  deletedDate : Option Date
  deriving DecidableEq

/-- An instance of the table's controller. -/
structure NoteTableView where
  firstLoad : Bool := true

/-- The state of the process, with the durable store behind its context. -/
structure AppState where
  /-- The context shared by all screens. -/
  viewContext : ManagedContext Note
  /-- The global list of notes, by object. -/
  noteList : List ℕ
  /-- The controller of the connected scene. -/
  noteTableView : Option NoteTableView
  /-- The texts `titleLable`, `descLabel` of the cells since the last `reloadData`. -/
  rows : List (Option String × Option String)

namespace AppState

/-- The value in memory of a note. -/
def note (s : AppState) (i : ℕ) : Option Note := s.viewContext.objects[i]?

end AppState

/-- How Core Data answers during one press of a button. -/
structure Reply where
  /-- `context.save()` does not throw. -/
  saved : Bool
  /-- The order of the results of `context.fetch`. -/
  fetchOrder : FetchOrder Note := .insertion

/-! ### The table -/

/-- The notes that have not been soft-deleted, in the order of `noteList`. -/
def nonDeleteNotes (s : AppState) : List ℕ :=
  s.noteList.filter fun i => (s.note i).any fun note => note.deletedDate.isNone

/-- Load the controller: on its first load, append the results of a fetch to `noteList`. -/
def viewDidLoad (s : AppState) (fetchOrder : FetchOrder Note) : AppState :=
  match s.noteTableView with
  | some ⟨true⟩ =>
    { s with
      noteTableView := some { firstLoad := false }
      noteList := s.noteList ++ s.viewContext.fetch fetchOrder }
  | _ => s

/-- The texts of the cell of a row; `none` when the row is out of range. -/
def cellForRowAt (s : AppState) (row : ℕ) : Option (Option String × Option String) := do
  let thisNote ← (nonDeleteNotes s)[row]?
  let note ← s.note thisNote
  some (note.title, note.desc)

/-- The number of rows of the table. -/
def numberOfRowsInSection (s : AppState) : ℕ := (nonDeleteNotes s).length

/-- The table comes on screen and reloads its cells. -/
def viewDidAppear (s : AppState) : AppState :=
  { s with rows := (List.range (numberOfRowsInSection s)).filterMap (cellForRowAt s) }

/-- The note handed to the detail screen when a row is selected; `none` when there is no such
row. -/
def prepare (s : AppState) (row : ℕ) : Option ℕ := do
  let _ ← s.noteTableView
  (nonDeleteNotes s)[row]?

/-! ### The detail screen -/

/-- The loop of `saveAction` and `DelteNote` over the results of a fetch: change the selected note
and save. A save that throws leaves the loop. -/
def saveEach (change : Note → Note) (selectedNote : Option ℕ) (saved : Bool) :
    List ℕ → ManagedContext Note → ManagedContext Note
  | [], context => context
  | note :: results, context =>
    if some note = selectedNote then
      match (context.modify note change).save saved with
      | some context => saveEach change selectedNote saved results context
      | none => context.modify note change
    else saveEach change selectedNote saved results context

/-- Save is pressed, with the given texts on the screen. -/
def saveAction (s : AppState) (selectedNote : Option ℕ) (titleTF descTV : Option String)
    (r : Reply) : AppState :=
  match selectedNote with
  | none =>
    let newNote : Note :=
      { id := Int32.ofNat s.noteList.length, title := titleTF, desc := descTV, deletedDate := none }
    let context := s.viewContext.insert newNote
    match context.save r.saved with
    | some saved =>
      { s with viewContext := saved, noteList := s.noteList ++ [s.viewContext.objects.length] }
    | none => { s with viewContext := context } -- "문서를 작성하는데 실패했습니다."
  | some _ =>
    { s with
      viewContext := saveEach (fun note => { note with title := titleTF, desc := descTV })
        selectedNote r.saved (s.viewContext.fetch r.fetchOrder) s.viewContext }

/-- Delete is pressed, at the time `now`. -/
def delteNote (s : AppState) (selectedNote : Option ℕ) (now : Date) (r : Reply) : AppState :=
  { s with
    viewContext := saveEach (fun note => { note with deletedDate := some now }) selectedNote
      r.saved (s.viewContext.fetch r.fetchOrder) s.viewContext }

/-! ### The life of the app -/

/-- Save the context if it has changes; `none` is the `fatalError` of a save that throws. -/
def saveContext (s : AppState) (saved : Bool) : Option AppState :=
  if s.viewContext.hasChanges then
    (s.viewContext.save saved).map fun context => { s with viewContext := context }
  else some s

/-- A new process, before its scene connects. -/
def processStart (stored : List Note) : AppState where
  viewContext := .fresh stored
  noteList := []
  noteTableView := none
  rows := []

/-- The scene connects: the storyboard makes a new `NoteTableView`, which loads and appears. -/
def connectScene (s : AppState) (fetchOrder : FetchOrder Note) : AppState :=
  viewDidAppear (viewDidLoad { s with noteTableView := some {} } fetchOrder)

/-- A new process whose scene has connected. -/
def launch (stored : List Note) (fetchOrder : FetchOrder Note) : AppState :=
  connectScene (processStart stored) fetchOrder

/-- What the user and the system do. Every press on a detail screen ends with the user back at the
table. -/
inductive Action
  /-- Open a new-note screen, type the texts and press Save. -/
  | create (title desc : Option String) (r : Reply)
  /-- Open the note of a row, type the texts and press Save. -/
  | edit (row : ℕ) (title desc : Option String) (r : Reply)
  /-- Open the note of a row and press Delete. -/
  | delete (row : ℕ) (now : Date) (r : Reply)
  /-- Open a new-note screen and press Delete. -/
  | deleteNew (now : Date) (r : Reply)
  /-- The app enters the background, and `saveContext` does not fail. -/
  | background
  /-- The scene is disconnected and connects again in the same process. -/
  | connectScene (fetchOrder : FetchOrder Note)
  /-- The process ends, and the app is launched again. -/
  | relaunch (fetchOrder : FetchOrder Note)

/-- One action; `none` when it cannot be taken, because no table or no such row is on screen. -/
def step (s : AppState) : Action → Option AppState
  | .create title desc r =>
    s.noteTableView.map fun _ => viewDidAppear (saveAction s none title desc r)
  | .edit row title desc r =>
    (prepare s row).map fun note => viewDidAppear (saveAction s (some note) title desc r)
  | .delete row now r =>
    (prepare s row).map fun note => viewDidAppear (delteNote s (some note) now r)
  | .deleteNew now r => s.noteTableView.map fun _ => viewDidAppear (delteNote s none now r)
  | .background => saveContext s true
  | .connectScene fetchOrder => some (connectScene s fetchOrder)
  | .relaunch fetchOrder => some (launch s.viewContext.stored fetchOrder)

namespace Action

/-- The answers of Core Data during a press. -/
def reply? : Action → Option Reply
  | create _ _ r | edit _ _ _ r | delete _ _ r | deleteNew _ r => some r
  | background | connectScene _ | relaunch _ => none

/-- No save of the action throws. -/
def saveSucceeds (a : Action) : Bool := a.reply?.all Reply.saved

end Action

/-! ### What the presses do -/

@[simp] theorem viewContext_viewDidAppear (s : AppState) :
    (viewDidAppear s).viewContext = s.viewContext := rfl

@[simp] theorem noteList_viewDidAppear (s : AppState) :
    (viewDidAppear s).noteList = s.noteList := rfl

@[simp] theorem noteTableView_viewDidAppear (s : AppState) :
    (viewDidAppear s).noteTableView = s.noteTableView := rfl

theorem saveEach_none (change : Note → Note) (saved : Bool) (results : List ℕ)
    (c : ManagedContext Note) : saveEach change none saved results c = c := by
  induction results with
  | nil => rfl
  | cons note results ih => simpa only [saveEach, reduceCtorEq, if_false] using ih

theorem saveEach_of_notMem (change : Note → Note) (saved : Bool) {i : ℕ} {results : List ℕ}
    (hi : i ∉ results) (c : ManagedContext Note) :
    saveEach change (some i) saved results c = c := by
  induction results with
  | nil => rfl
  | cons note results ih =>
    obtain ⟨hne, hi⟩ := not_or.mp fun h => hi (List.mem_cons.mpr h)
    rw [saveEach, if_neg fun h => hne (Option.some.inj h).symm, ih hi]

/-- In results without repetition, the loop changes and saves the selected note once. -/
theorem saveEach_of_mem (change : Note → Note) (saved : Bool) {i : ℕ} {results : List ℕ}
    (hres : results.Nodup) (hi : i ∈ results) (c : ManagedContext Note) :
    saveEach change (some i) saved results c = (c.modify i change).attemptSave saved := by
  induction results with
  | nil => exact absurd hi List.not_mem_nil
  | cons note results ih =>
    obtain ⟨hnote, hres⟩ := List.nodup_cons.mp hres
    by_cases h : note = i
    · subst h
      rw [saveEach, if_pos rfl]
      cases saved with
      | true => exact saveEach_of_notMem change true hnote _
      | false => rfl
    · rw [saveEach, if_neg fun h' => h (Option.some.inj h')]
      exact ih hres ((List.mem_cons.mp hi).resolve_left (Ne.symm h))

/-- Creating a note inserts it, and lists it if the save succeeds. -/
theorem saveAction_none (s : AppState) (title desc : Option String) (r : Reply) :
    saveAction s none title desc r =
      { s with
        viewContext := (s.viewContext.insert
          ⟨Int32.ofNat s.noteList.length, title, desc, none⟩).attemptSave r.saved
        noteList := if r.saved then s.noteList ++ [s.viewContext.objects.length]
          else s.noteList } := by
  cases hr : r.saved <;> simp [saveAction, hr]

/-- Editing changes the texts of the selected note, and saves. -/
theorem saveAction_some (s : AppState) {i : ℕ} (hi : i < s.viewContext.objects.length)
    (title desc : Option String) (r : Reply) :
    saveAction s (some i) title desc r =
      { s with
        viewContext := (s.viewContext.modify i fun note =>
          { note with title := title, desc := desc }).attemptSave r.saved } := by
  rw [saveAction,
    saveEach_of_mem _ _ (s.viewContext.nodup_fetch _) (s.viewContext.mem_fetch.mpr hi)]

/-- Deleting dates the selected note, and saves. -/
theorem delteNote_some (s : AppState) {i : ℕ} (hi : i < s.viewContext.objects.length)
    (now : Date) (r : Reply) :
    delteNote s (some i) now r =
      { s with
        viewContext := (s.viewContext.modify i fun note =>
          { note with deletedDate := some now }).attemptSave r.saved } := by
  rw [delteNote, saveEach_of_mem _ _ (s.viewContext.nodup_fetch _) (s.viewContext.mem_fetch.mpr hi)]

/-- Delete does nothing on a new-note screen. -/
theorem delteNote_none (s : AppState) (now : Date) (r : Reply) : delteNote s none now r = s := by
  rw [delteNote, saveEach_none]

/-- A background save commits the objects as they are. -/
theorem saveContext_true (s : AppState) :
    saveContext s true = some { s with viewContext := .fresh s.viewContext.objects } := by
  cases h : s.viewContext.hasChanges with
  | true => simp [saveContext, h]
  | false =>
    rw [saveContext, h, if_neg Bool.false_ne_true,
      s.viewContext.fresh_objects_of_not_hasChanges h]

theorem connectScene_eq (s : AppState) (fetchOrder : FetchOrder Note) :
    connectScene s fetchOrder = viewDidAppear
      { s with
        noteTableView := some { firstLoad := false }
        noteList := s.noteList ++ s.viewContext.fetch fetchOrder } := rfl

/-- The listed notes that are not soft-deleted. -/
theorem mem_nonDeleteNotes {s : AppState} {i : ℕ} :
    i ∈ nonDeleteNotes s ↔
      i ∈ s.noteList ∧ ∃ note, s.note i = some note ∧ note.deletedDate = none := by
  rw [nonDeleteNotes, List.mem_filter]
  refine and_congr_right fun _ => ?_
  cases s.note i <;> simp

/-- A note of the table is a note of the context. -/
theorem lt_length_of_mem_nonDeleteNotes {s : AppState} {i : ℕ} (hi : i ∈ nonDeleteNotes s) :
    i < s.viewContext.objects.length := by
  obtain ⟨-, note, hnote, -⟩ := mem_nonDeleteNotes.mp hi
  exact (List.getElem?_eq_some_iff.mp hnote).1

/-- The selected row of an action that opens it. -/
theorem prepare_eq_some {s : AppState} {row i : ℕ} :
    prepare s row = some i ↔ s.noteTableView.isSome ∧ (nonDeleteNotes s)[row]? = some i := by
  cases h : s.noteTableView <;> simp [prepare, h]

/-- A row that can be opened holds a note of the context. -/
theorem lt_length_of_prepare {s : AppState} {row i : ℕ} (h : prepare s row = some i) :
    i < s.viewContext.objects.length :=
  lt_length_of_mem_nonDeleteNotes (List.mem_of_getElem? (prepare_eq_some.mp h).2)

/-! ### What the actions do -/

section Step

variable {s s' : AppState}

private theorem map_const_eq_some {α β : Type} {o : Option α} {x y : β} :
    (o.map fun _ => x) = some y ↔ o.isSome ∧ y = x := by
  cases o with
  | none => simp
  | some _ => rw [Option.map_some, Option.some.injEq, eq_comm, Option.isSome_some, eq_self,
      true_and]

theorem step_create {title desc : Option String} {r : Reply} :
    step s (.create title desc r) = some s' ↔
      s.noteTableView.isSome ∧ s' = viewDidAppear
        { s with
          viewContext := (s.viewContext.insert
            ⟨Int32.ofNat s.noteList.length, title, desc, none⟩).attemptSave r.saved
          noteList := if r.saved then s.noteList ++ [s.viewContext.objects.length]
            else s.noteList } := by
  rw [step, saveAction_none, map_const_eq_some]

theorem step_edit {row : ℕ} {title desc : Option String} {r : Reply} :
    step s (.edit row title desc r) = some s' ↔
      ∃ i, prepare s row = some i ∧ s' = viewDidAppear
        { s with
          viewContext := (s.viewContext.modify i fun note =>
            { note with title := title, desc := desc }).attemptSave r.saved } := by
  rw [step, Option.map_eq_some_iff]
  refine exists_congr fun i => and_congr_right fun hi => ?_
  rw [saveAction_some s (lt_length_of_prepare hi), eq_comm]

theorem step_delete {row : ℕ} {now : Date} {r : Reply} :
    step s (.delete row now r) = some s' ↔
      ∃ i, prepare s row = some i ∧ s' = viewDidAppear
        { s with
          viewContext := (s.viewContext.modify i fun note =>
            { note with deletedDate := some now }).attemptSave r.saved } := by
  rw [step, Option.map_eq_some_iff]
  refine exists_congr fun i => and_congr_right fun hi => ?_
  rw [delteNote_some s (lt_length_of_prepare hi), eq_comm]

theorem step_deleteNew {now : Date} {r : Reply} :
    step s (.deleteNew now r) = some s' ↔ s.noteTableView.isSome ∧ s' = viewDidAppear s := by
  rw [step, delteNote_none, map_const_eq_some]

theorem step_background :
    step s .background = some s' ↔ s' = { s with viewContext := .fresh s.viewContext.objects } := by
  rw [step, saveContext_true, Option.some.injEq, eq_comm]

theorem step_connectScene {fetchOrder : FetchOrder Note} :
    step s (.connectScene fetchOrder) = some s' ↔ s' = viewDidAppear
      { s with
        noteTableView := some { firstLoad := false }
        noteList := s.noteList ++ s.viewContext.fetch fetchOrder } := by
  rw [step, connectScene_eq, Option.some.injEq, eq_comm]

theorem step_relaunch {fetchOrder : FetchOrder Note} :
    step s (.relaunch fetchOrder) = some s' ↔
      s' = launch s.viewContext.stored fetchOrder := by
  rw [step, Option.some.injEq, eq_comm]

end Step

end GuruPractice.MemoApp
