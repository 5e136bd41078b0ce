import GuruPractice.MemoApp.NoteListLoads

/-!
# MemoApp refines a plain list of memos

What MemoApp is for: a list of memos, each a title and a text, to which one appends, in which one
replaces and from which one removes (`MemoApp.MemoList`). The app keeps the removed notes in
`noteList`, shows a filtered view of it, and finds the note of a row by scanning a fetch. In a
process that has loaded its table once and whose saves succeed, the rows it shows are nevertheless
those of the plain list, after every sequence of commands.

## Main definitions

* `MemoApp.MemoList`, `MemoApp.Command`, `MemoApp.applyCommand`: the plain list.
* `MemoApp.shownTexts`: the texts by which a note is shown.
* `MemoApp.Press`: a command as it is given to the app.

## Main results

* `MemoApp.rows_viewDidAppear`: the rows as a view of `noteList`.
* `MemoApp.rows_launch`: the rows of a new process.
* `MemoApp.ShowsNotes.map_rows_step`: every command acts on the rows as on the plain list.
* `MemoApp.rows_refine_memoList`.
-/

namespace GuruPractice.MemoApp

open Storage Transition

/-! ### The plain list -/

/-- A list of memos, each a title and a text if it has them. -/
abbrev MemoList := List (Option String × Option String)

/-- What the user wants of a list of memos. -/
inductive Command
  | create (title desc : Option String)
  | edit (row : ℕ) (title desc : Option String)
  | delete (row : ℕ)
  /-- Delete, on the screen of a memo that does not exist yet. -/
  | deleteNew

/-- The effect of a command; `none` when the list has no such row. -/
def applyCommand (l : MemoList) : Command → Option MemoList
  | .create title desc => some (l ++ [(title, desc)])
  | .edit row title desc => if row < l.length then some (l.set row (title, desc)) else none
  | .delete row => if row < l.length then some (l.eraseIdx row) else none
  | .deleteNew => some l

/-- A command as it is given to the app: at some time, and met by some order of the fetch. -/
structure Press where
  command : Command
  now : Date
  fetchOrder : FetchOrder Note

/-- The action of a press whose save succeeds. -/
def Press.toAction (p : Press) : Action :=
  match p.command with
  | .create title desc => .create title desc ⟨true, p.fetchOrder⟩
  | .edit row title desc => .edit row title desc ⟨true, p.fetchOrder⟩
  | .delete row => .delete row p.now ⟨true, p.fetchOrder⟩
  | .deleteNew => .deleteNew p.now ⟨true, p.fetchOrder⟩

theorem Press.saveSucceeds_toAction (p : Press) : p.toAction.saveSucceeds = true := by
  cases h : p.command <;> simp [toAction, h, Action.saveSucceeds, Action.reply?]

theorem Press.loadsEmptyList_toAction (p : Press) (s : AppState) :
    LoadsEmptyList s p.toAction := by
  cases h : p.command <;> simp [toAction, h, LoadsEmptyList]

/-! ### The rows as a view of `noteList` -/

/-- The texts of a note, unless it is soft-deleted. -/
def Note.visibleTexts (note : Note) : Option (Option String × Option String) :=
  if note.deletedDate.isNone then some (note.title, note.desc) else none

/-- The texts by which an object is shown, if it is. -/
def shownTexts (s : AppState) (i : ℕ) : Option (Option String × Option String) :=
  (s.note i).bind Note.visibleTexts

theorem isSome_shownTexts (s : AppState) (i : ℕ) :
    (shownTexts s i).isSome = (s.note i).any fun note => note.deletedDate.isNone := by
  cases h : s.note i with
  | none => simp [shownTexts, h]
  | some note => cases hd : note.deletedDate <;> simp [shownTexts, h, Note.visibleTexts, hd]

theorem nonDeleteNotes_eq (s : AppState) :
    nonDeleteNotes s = s.noteList.filter fun i => (shownTexts s i).isSome := by
  simp only [nonDeleteNotes, isSome_shownTexts]

theorem cellForRowAt_eq (s : AppState) (row : ℕ) :
    cellForRowAt s row = (nonDeleteNotes s)[row]?.bind (shownTexts s) := by
  cases hrow : (nonDeleteNotes s)[row]? with
  | none => simp [cellForRowAt, hrow]
  | some i =>
    obtain ⟨-, note, hnote, hdel⟩ := mem_nonDeleteNotes.mp (List.mem_of_getElem? hrow)
    simp [cellForRowAt, hrow, shownTexts, hnote, Note.visibleTexts, hdel]

/-- The rows that appear are those of the notes of `noteList` that have texts to show. -/
theorem rows_viewDidAppear (s : AppState) :
    (viewDidAppear s).rows = s.noteList.filterMap (shownTexts s) := by
  have hcell : cellForRowAt s = fun row => (nonDeleteNotes s)[row]?.bind (shownTexts s) :=
    funext (cellForRowAt_eq s)
  rw [viewDidAppear, numberOfRowsInSection, hcell, filterMap_range_getElem?, nonDeleteNotes_eq,
    filterMap_filter_isSome]

/-- The rows that appear are the texts of the notes that are listed. -/
theorem map_some_rows_viewDidAppear (s : AppState) :
    (viewDidAppear s).rows.map some = (nonDeleteNotes s).map (shownTexts s) := by
  rw [rows_viewDidAppear, nonDeleteNotes_eq, map_some_filterMap]

/-- **The first rows** are the texts of the stored notes that are not deleted, in the order of the
fetch. -/
theorem rows_launch (stored : List Note) (fetchOrder : FetchOrder Note) :
    (launch stored fetchOrder).rows =
      (fetchOrder.positions stored).filterMap fun i => stored[i]?.bind Note.visibleTexts :=
  rows_viewDidAppear _

/-- Changing one object changes the texts of that object only. -/
theorem shownTexts_modify (s : AppState) {i : ℕ} {note : Note} (hi : s.note i = some note)
    (f : Note → Note) (succeeds : Bool) :
    shownTexts { s with viewContext := (s.viewContext.modify i f).attemptSave succeeds } =
      Function.update (shownTexts s) i (f note).visibleTexts := by
  funext j
  by_cases hj : j = i
  · subst hj
    have hget : s.viewContext.objects[j]? = some note := hi
    simp [shownTexts, AppState.note, hget]
  · have hij : i ≠ j := Ne.symm hj
    simp [shownTexts, AppState.note, hij, Function.update_of_ne hj]

/-- A row that can be opened is the row of a note that is not deleted. -/
theorem exists_note_of_prepare {s : AppState} {row i : ℕ} (h : prepare s row = some i) :
    (s.noteList.filter fun i => (shownTexts s i).isSome)[row]? = some i ∧
      ∃ note, s.note i = some note ∧ note.deletedDate = none := by
  have hrow := (prepare_eq_some.mp h).2
  obtain ⟨-, hnote⟩ := mem_nonDeleteNotes.mp (List.mem_of_getElem? hrow)
  exact ⟨nonDeleteNotes_eq s ▸ hrow, hnote⟩

/-- A change of the note of row `row` that leaves it with the texts `o`. -/
private theorem rows_modify {s : AppState} {row i : ℕ} (h : prepare s row = some i)
    (f : Note → Note) {o : Option (Option String × Option String)}
    (ho : ∀ note, note.deletedDate = none → (f note).visibleTexts = o) :
    (viewDidAppear { s with
      viewContext := (s.viewContext.modify i f).attemptSave true }).rows =
      s.noteList.filterMap (Function.update (shownTexts s) i o) := by
  obtain ⟨-, note, hnote, hdel⟩ := exists_note_of_prepare h
  rw [rows_viewDidAppear, shownTexts_modify s hnote f true, ho note hdel]

/-! ### Every command acts on the rows as on the plain list -/

/-- The table has loaded once and shows its notes. -/
structure ShowsNotes (s : AppState) : Prop where
  listed : Listed s
  loaded : s.noteTableView.isSome
  rows_eq : s.rows = s.noteList.filterMap (shownTexts s)

theorem showsNotes_launch (stored : List Note) (fetchOrder : FetchOrder Note) :
    ShowsNotes (launch stored fetchOrder) :=
  ⟨listed_launch stored fetchOrder, rfl, rows_viewDidAppear _⟩

namespace ShowsNotes

variable {s s' : AppState} (hs : ShowsNotes s)

include hs

theorem nodup_noteList : s.noteList.Nodup :=
  (hs.listed.perm_range hs.loaded).nodup_iff.mpr List.nodup_range

/-- The rows that can be opened are the rows of the table. -/
theorem isSome_prepare_iff (row : ℕ) : (prepare s row).isSome ↔ row < s.rows.length := by
  obtain ⟨table, htable⟩ := Option.isSome_iff_exists.mp hs.loaded
  have hprep : prepare s row = (nonDeleteNotes s)[row]? := by simp [prepare, htable]
  rw [hprep, nonDeleteNotes_eq, hs.rows_eq, length_filterMap_eq_length_filter]
  simp

/-- A command that can be taken keeps the table showing its notes. -/
theorem of_step (p : Press) (h : step s p.toAction = some s') : ShowsNotes s' := by
  have hlisted : Listed s' :=
    listed_of_step hs.listed p.saveSucceeds_toAction (p.loadsEmptyList_toAction s) h
  have hview : ∃ t : AppState, s' = viewDidAppear t ∧ t.noteTableView = s.noteTableView := by
    cases hp : p.command <;> rw [Press.toAction, hp] at h
    · obtain ⟨-, rfl⟩ := step_create.mp h
      exact ⟨_, rfl, rfl⟩
    · obtain ⟨i, -, rfl⟩ := step_edit.mp h
      exact ⟨_, rfl, rfl⟩
    · obtain ⟨i, -, rfl⟩ := step_delete.mp h
      exact ⟨_, rfl, rfl⟩
    · obtain ⟨-, rfl⟩ := step_deleteNew.mp h
      exact ⟨_, rfl, rfl⟩
  obtain ⟨t, rfl, ht⟩ := hview
  exact ⟨hlisted, by simpa [ht] using hs.loaded, rows_viewDidAppear t⟩

/-- The rows after a note is created. -/
private theorem rows_insert (note : Note) (hdel : note.deletedDate = none) :
    (viewDidAppear { s with
      viewContext := (s.viewContext.insert note).attemptSave true
      noteList := s.noteList ++ [s.viewContext.objects.length] }).rows =
      s.rows ++ [(note.title, note.desc)] := by
  rw [rows_viewDidAppear, List.filterMap_append, hs.rows_eq]
  congr 1
  · refine List.filterMap_congr fun i hi => ?_
    have hlt : i < s.viewContext.objects.length :=
      List.mem_range.mp ((hs.listed.perm_range hs.loaded).mem_iff.mp hi)
    simp [shownTexts, AppState.note, List.getElem?_append_left hlt]
  · simp [shownTexts, AppState.note, Note.visibleTexts, hdel]

/-- **One command.** On the rows, a press acts as its command does on the plain list; a press that
cannot be made is a command that has no row. -/
theorem map_rows_step (p : Press) :
    (step s p.toAction).map AppState.rows = applyCommand s.rows p.command := by
  cases hp : p.command with
  | create title desc =>
    obtain ⟨s', hstep⟩ : ∃ s', step s (.create title desc ⟨true, p.fetchOrder⟩) = some s' :=
      ⟨_, step_create.mpr ⟨hs.loaded, rfl⟩⟩
    rw [Press.toAction, hp, hstep, Option.map_some]
    obtain ⟨-, rfl⟩ := step_create.mp hstep
    exact congrArg some (hs.rows_insert ⟨_, title, desc, none⟩ rfl)
  | edit row title desc =>
    cases hprep : prepare s row with
    | none =>
      have hrow : ¬row < s.rows.length := by simp [← hs.isSome_prepare_iff, hprep]
      simp [Press.toAction, hp, step, hprep, applyCommand, hrow]
    | some i =>
      have hrow : row < s.rows.length := by simp [← hs.isSome_prepare_iff, hprep]
      obtain ⟨s', hstep⟩ : ∃ s', step s (.edit row title desc ⟨true, p.fetchOrder⟩) = some s' :=
        ⟨_, step_edit.mpr ⟨i, hprep, rfl⟩⟩
      rw [Press.toAction, hp, hstep, Option.map_some, applyCommand, if_pos hrow]
      obtain ⟨j, hj, rfl⟩ := step_edit.mp hstep
      obtain rfl := Option.some.inj (hprep.symm.trans hj)
      rw [rows_modify hprep
        (o := some (title, desc)) _ (fun note hdel => by simp [Note.visibleTexts, hdel]),
        filterMap_update_some hs.nodup_noteList (exists_note_of_prepare hprep).1, hs.rows_eq]
  | delete row =>
    cases hprep : prepare s row with
    | none =>
      have hrow : ¬row < s.rows.length := by simp [← hs.isSome_prepare_iff, hprep]
      simp [Press.toAction, hp, step, hprep, applyCommand, hrow]
    | some i =>
      have hrow : row < s.rows.length := by simp [← hs.isSome_prepare_iff, hprep]
      obtain ⟨s', hstep⟩ : ∃ s', step s (.delete row p.now ⟨true, p.fetchOrder⟩) = some s' :=
        ⟨_, step_delete.mpr ⟨i, hprep, rfl⟩⟩
      rw [Press.toAction, hp, hstep, Option.map_some, applyCommand, if_pos hrow]
      obtain ⟨j, hj, rfl⟩ := step_delete.mp hstep
      obtain rfl := Option.some.inj (hprep.symm.trans hj)
      rw [rows_modify hprep
        (o := none) _ (fun note _ => by simp [Note.visibleTexts]),
        filterMap_update_none hs.nodup_noteList (exists_note_of_prepare hprep).1, hs.rows_eq]
  | deleteNew =>
    have hstep : step s (.deleteNew p.now ⟨true, p.fetchOrder⟩) = some (viewDidAppear s) :=
      step_deleteNew.mpr ⟨hs.loaded, rfl⟩
    rw [Press.toAction, hp, hstep, Option.map_some, rows_viewDidAppear, ← hs.rows_eq]
    rfl

end ShowsNotes

/-! ### Soft-deleted notes -/

/-- The note of an object is soft-deleted. -/
def IsDeleted (s : AppState) (i : ℕ) : Prop :=
  ∃ note, s.note i = some note ∧ note.deletedDate.isSome

theorem IsDeleted.notMem_nonDeleteNotes {s : AppState} {i : ℕ} (h : IsDeleted s i) :
    i ∉ nonDeleteNotes s := by
  obtain ⟨note, hnote, hdel⟩ := h
  intro hi
  obtain ⟨-, note', hnote', hdel'⟩ := mem_nonDeleteNotes.mp hi
  obtain rfl := Option.some.inj (hnote.symm.trans hnote')
  simp [hdel'] at hdel

private theorem IsDeleted.modify {s : AppState} {i : ℕ} (h : IsDeleted s i) (j : ℕ)
    {f : Note → Note} (hf : ∀ note, note.deletedDate.isSome → (f note).deletedDate.isSome)
    (succeeds : Bool) :
    IsDeleted { s with viewContext := (s.viewContext.modify j f).attemptSave succeeds } i := by
  obtain ⟨note, hnote, hdel⟩ := h
  have hget : s.viewContext.objects[i]? = some note := hnote
  by_cases hij : j = i
  · exact ⟨f note, by simp [AppState.note, hij, hget], hf note hdel⟩
  · exact ⟨note, by simp [AppState.note, hij, hget], hdel⟩

/-- No command revives a soft-deleted note. -/
theorem IsDeleted.of_step {s s' : AppState} {i : ℕ} (h : IsDeleted s i) (p : Press)
    (hstep : step s p.toAction = some s') : IsDeleted s' i := by
  cases hp : p.command with
  | create title desc =>
    rw [Press.toAction, hp] at hstep
    obtain ⟨-, rfl⟩ := step_create.mp hstep
    obtain ⟨note, hnote, hdel⟩ := h
    have hget : s.viewContext.objects[i]? = some note := hnote
    refine ⟨note, ?_, hdel⟩
    simp [AppState.note, List.getElem?_append_left (List.getElem?_eq_some_iff.mp hget).1, hget]
  | edit row title desc =>
    rw [Press.toAction, hp] at hstep
    obtain ⟨j, -, rfl⟩ := step_edit.mp hstep
    exact h.modify j (f := fun note => { note with title := title, desc := desc })
      (fun note hdel => hdel) true
  | delete row =>
    rw [Press.toAction, hp] at hstep
    obtain ⟨j, -, rfl⟩ := step_delete.mp hstep
    exact h.modify j (fun note _ => rfl) true
  | deleteNew =>
    rw [Press.toAction, hp] at hstep
    obtain ⟨-, rfl⟩ := step_deleteNew.mp hstep
    exact h

/-! ### Whole runs -/

/-- **MemoApp refines a plain list of memos.** Take a process that has loaded its table once, from
any stored notes fetched in any order, and in which every save succeeds. For every sequence of
presses, the rows shown are those of the plain list under the same commands; a press cannot be made
exactly when its command has no row. A note that is soft-deleted at some point of such a run is
never listed again. -/
theorem rows_refine_memoList (stored : List Note) (fetchOrder : FetchOrder Note) :
    (∀ ps : List Press,
      (run step (launch stored fetchOrder) (ps.map Press.toAction)).map AppState.rows =
        run (fun l (p : Press) => applyCommand l p.command) (launch stored fetchOrder).rows ps) ∧
    ∀ (ps qs : List Press) (s s' : AppState) (i : ℕ),
      run step (launch stored fetchOrder) (ps.map Press.toAction) = some s → IsDeleted s i →
      run step s (qs.map Press.toAction) = some s' → i ∉ nonDeleteNotes s' := by
  constructor
  · exact map_run_eq_run (I := ShowsNotes) (fun s p s' hs h => hs.of_step p h)
      (fun s p hs => hs.map_rows_step p) (showsNotes_launch stored fetchOrder)
  · intro ps qs s s' i _ hdel hrun
    refine IsDeleted.notMem_nonDeleteNotes ?_
    rw [run, List.foldlM_map] at hrun
    exact run_induction (I := fun s => IsDeleted s i) (fun s p s' h hstep => h.of_step p hstep)
      hdel hrun

end GuruPractice.MemoApp
