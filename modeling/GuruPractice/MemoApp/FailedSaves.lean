import GuruPractice.MemoApp.MemoListRefinement

/-!
# Saves that throw

When `context.save()` throws, both handlers report the failure and leave the context as it is: a new
note stays inserted, a change stays in the object. The next save commits them with its own change,
and a changed object is on screen at once. This file says exactly when a run with failing saves is
indistinguishable from the run in which the failed actions never happened.

## Main definitions

* `MemoApp.SameNotes` — the same notes are stored and the same are listed.
* `MemoApp.LeavesNoTrace` — failed actions are as if they had not happened.
* `MemoApp.Harmless` — the condition on a single action.

## Main results

* `MemoApp.exists_shadows_step`, `MemoApp.not_sameNotes_of_not_harmless`: the two directions for one
  action.
* `MemoApp.leavesNoTrace_iff_harmless`.
-/

namespace GuruPractice.MemoApp

open Storage Transition

/-! ### Comparing two states -/

/-- The durable notes: title, text, and whether deleted. -/
def durableNotes (s : AppState) : List (Option String × Option String × Bool) :=
  s.viewContext.stored.map fun note => (note.title, note.desc, note.deletedDate.isSome)

/-- The texts of the notes returned by `nonDeleteNotes`. -/
def listedTexts (s : AppState) : List (Option (Option String × Option String)) :=
  (nonDeleteNotes s).map (shownTexts s)

/-- The same notes are stored and the same are listed. -/
def SameNotes (s t : AppState) : Prop :=
  durableNotes s = durableNotes t ∧ listedTexts s = listedTexts t

/-- From a launch, the actions and those of them whose saves succeed end with the same notes. -/
def LeavesNoTrace (stored : List Note) (fetchOrder : FetchOrder Note) (as : List Action) : Prop :=
  AgreesWithKept step Action.saveSucceeds SameNotes (launch stored fetchOrder)
    (launch stored fetchOrder) as

/-- Nothing of the context is waiting to be saved. -/
def NothingPending (s : AppState) : Prop := s.viewContext.objects = s.viewContext.stored

/-- What the action does, or fails to do, leaves no trace of a failure: it saves or lists the
objects of the context only when nothing is pending; it is not a delete whose save throws; and an
edit whose save throws has changed nothing. -/
def Harmless (s : AppState) : Action → Prop
  | .create _ _ r => r.saved = true → NothingPending s
  | .edit row title desc r =>
    if r.saved then NothingPending s
    else ∀ i, prepare s row = some i → shownTexts s i = some (title, desc)
  | .delete _ _ r => r.saved = true ∧ NothingPending s
  | .background | .connectScene _ => NothingPending s
  | .deleteNew _ _ | .relaunch _ => True

/-! ### The run without the failures -/

/-- `s` is `t`, in which all is saved, with some notes inserted and not saved. -/
structure Shadows (s t : AppState) : Prop where
  stored_eq : s.viewContext.stored = t.viewContext.stored
  saved : t.viewContext.objects = t.viewContext.stored
  pending : ∃ inserted, s.viewContext.objects = s.viewContext.stored ++ inserted ∧
    ∀ note ∈ inserted, note.deletedDate = none
  noteList_eq : s.noteList = t.noteList
  noteList_lt : ∀ i ∈ s.noteList, i < s.viewContext.stored.length
  noteTableView_eq : s.noteTableView = t.noteTableView

theorem shadows_launch (stored : List Note) (fetchOrder : FetchOrder Note) :
    Shadows (launch stored fetchOrder) (launch stored fetchOrder) where
  stored_eq := rfl
  saved := rfl
  pending := ⟨[], (List.append_nil _).symm, by simp⟩
  noteList_eq := rfl
  noteList_lt i hi := List.mem_range.mp ((fetchOrder.perm_range stored).mem_iff.mp hi)
  noteTableView_eq := rfl

namespace Shadows

variable {s t s' : AppState} (h : Shadows s t)

include h

/-- A stored object has the same value on both sides. -/
theorem note_eq {i : ℕ} (hi : i < s.viewContext.stored.length) : s.note i = t.note i := by
  obtain ⟨inserted, hobj, -⟩ := h.pending
  rw [AppState.note, AppState.note, hobj, h.saved, ← h.stored_eq, List.getElem?_append_left hi]

theorem shownTexts_eq {i : ℕ} (hi : i < s.viewContext.stored.length) :
    shownTexts s i = shownTexts t i := by
  rw [shownTexts, shownTexts, h.note_eq hi]

theorem nonDeleteNotes_eq : nonDeleteNotes s = nonDeleteNotes t := by
  rw [nonDeleteNotes, nonDeleteNotes, ← h.noteList_eq]
  exact List.filter_congr fun i hi => by rw [h.note_eq (h.noteList_lt i hi)]

theorem prepare_eq (row : ℕ) : prepare s row = prepare t row := by
  rw [prepare, prepare, h.nonDeleteNotes_eq, h.noteTableView_eq]

theorem lt_of_mem_nonDeleteNotes {i : ℕ} (hi : i ∈ nonDeleteNotes s) :
    i < s.viewContext.stored.length :=
  h.noteList_lt i (mem_nonDeleteNotes.mp hi).1

/-- States that differ by pending insertions have the same notes. -/
theorem sameNotes : SameNotes s t := by
  refine ⟨by rw [durableNotes, durableNotes, h.stored_eq], ?_⟩
  rw [listedTexts, listedTexts, ← h.nonDeleteNotes_eq]
  exact List.map_congr_left fun i hi => h.shownTexts_eq (h.lt_of_mem_nonDeleteNotes hi)

theorem objects_eq (hp : NothingPending s) : s.viewContext.objects = t.viewContext.objects := by
  rw [show s.viewContext.objects = _ from hp, h.stored_eq, h.saved]

/-- With a pending insertion there are more objects than stored records. -/
theorem length_stored_lt (hp : ¬NothingPending s) :
    t.viewContext.stored.length < s.viewContext.objects.length := by
  obtain ⟨inserted, hobj, -⟩ := h.pending
  have hne : inserted ≠ [] := by
    rintro rfl
    exact hp (by rw [NothingPending, hobj, List.append_nil])
  have hpos := List.length_pos_iff.mpr hne
  rw [hobj, List.length_append, h.stored_eq]
  omega

end Shadows

/-- After the same successful save on both sides. -/
private theorem shadows_of_saved {s t : AppState}
    (hobj : s.viewContext.objects = t.viewContext.objects)
    (hlist : s.noteList = t.noteList) (hlt : ∀ i ∈ s.noteList, i < s.viewContext.objects.length)
    (htable : s.noteTableView = t.noteTableView) :
    Shadows { s with viewContext := s.viewContext.attemptSave true }
      { t with viewContext := t.viewContext.attemptSave true } where
  stored_eq := hobj
  saved := rfl
  pending := ⟨[], (List.append_nil _).symm, by simp⟩
  noteList_eq := hlist
  noteList_lt := hlt
  noteTableView_eq := htable

/-- Coming back to the table does not change the comparison. -/
private theorem Shadows.viewDidAppear_left {s t : AppState} (h : Shadows s t) :
    Shadows (viewDidAppear s) t :=
  ⟨h.stored_eq, h.saved, h.pending, h.noteList_eq, h.noteList_lt, h.noteTableView_eq⟩

private theorem Shadows.viewDidAppear {s t : AppState} (h : Shadows s t) :
    Shadows (viewDidAppear s) (viewDidAppear t) :=
  ⟨h.stored_eq, h.saved, h.pending, h.noteList_eq, h.noteList_lt, h.noteTableView_eq⟩

/-- The same change of an object, saved on both sides. -/
private theorem Shadows.modify {s t : AppState} (h : Shadows s t) (hp : NothingPending s) (i : ℕ)
    (f : Note → Note) :
    Shadows (MemoApp.viewDidAppear
        { s with viewContext := (s.viewContext.modify i f).attemptSave true })
      (MemoApp.viewDidAppear
        { t with viewContext := (t.viewContext.modify i f).attemptSave true }) := by
  refine Shadows.viewDidAppear (shadows_of_saved
    (s := { s with viewContext := s.viewContext.modify i f })
    (t := { t with viewContext := t.viewContext.modify i f })
    (congrArg (List.modify · i f) (h.objects_eq hp)) h.noteList_eq (fun j hj => ?_)
    h.noteTableView_eq)
  have hlt := h.noteList_lt j hj
  rw [← show s.viewContext.objects = _ from hp] at hlt
  simpa only [ManagedContext.objects_modify, List.length_modify] using hlt

/-- A change that does not change the object leaves the objects as they are. -/
private theorem modify_eq_self {l : List Note} {i : ℕ} {f : Note → Note} {note : Note}
    (hi : l[i]? = some note) (hf : f note = note) : l.modify i f = l := by
  refine List.ext_getElem? fun j => ?_
  rw [List.getElem?_modify]
  by_cases hj : i = j
  · subst hj
    simp [hi, hf]
  · simp [hj]

/-! ### Harmless actions -/

private theorem exists_of_saveSucceeds {s' t t' : AppState} {a : Action}
    (ha : a.saveSucceeds = true) (ht : step t a = some t') (h : Shadows s' t') :
    ∃ t', (if a.saveSucceeds then step t a = some t' else t' = t) ∧ Shadows s' t' :=
  ⟨t', by rwa [if_pos ha], h⟩

private theorem exists_of_not_saveSucceeds {s' t : AppState} {a : Action}
    (ha : a.saveSucceeds = false) (h : Shadows s' t) :
    ∃ t', (if a.saveSucceeds then step t a = some t' else t' = t) ∧ Shadows s' t' :=
  ⟨t, by rw [ha, if_neg Bool.false_ne_true], h⟩

/-- The same note, inserted, saved and listed on both sides. -/
private theorem Shadows.insert {s t : AppState} (h : Shadows s t) (hp : NothingPending s)
    (note : Note) :
    Shadows (MemoApp.viewDidAppear { s with
        viewContext := (s.viewContext.insert note).attemptSave true
        noteList := s.noteList ++ [s.viewContext.objects.length] })
      (MemoApp.viewDidAppear { t with
        viewContext := (t.viewContext.insert note).attemptSave true
        noteList := t.noteList ++ [t.viewContext.objects.length] }) := by
  have hobj := h.objects_eq hp
  refine Shadows.viewDidAppear (shadows_of_saved
    (s := { s with
      viewContext := s.viewContext.insert note
      noteList := s.noteList ++ [s.viewContext.objects.length] })
    (t := { t with
      viewContext := t.viewContext.insert note
      noteList := t.noteList ++ [t.viewContext.objects.length] })
    (congrArg (· ++ [note]) hobj) (by rw [h.noteList_eq, hobj]) (fun i hi => ?_)
    h.noteTableView_eq)
  have hlt : i < s.viewContext.objects.length + 1 := by
    rcases List.mem_append.mp hi with hi | hi
    · have := h.noteList_lt i hi
      have hlen := s.viewContext.length_stored_le
      omega
    · rw [List.mem_singleton.mp hi]
      omega
  simpa only [ManagedContext.objects_insert, List.length_append, List.length_singleton] using hlt

/-- A note that is inserted and not saved. -/
private theorem Shadows.insert_left {s t : AppState} (h : Shadows s t) {note : Note}
    (hdel : note.deletedDate = none) :
    Shadows { s with viewContext := s.viewContext.insert note } t := by
  obtain ⟨inserted, hobj, hinserted⟩ := h.pending
  refine ⟨h.stored_eq, h.saved, ⟨inserted ++ [note], ?_, ?_⟩, h.noteList_eq, h.noteList_lt,
    h.noteTableView_eq⟩
  · simp [hobj]
  · simpa [or_imp, forall_and, hdel] using hinserted

/-- **A harmless action keeps the two runs together.** -/
theorem exists_shadows_step {s t s' : AppState} {a : Action} (h : Shadows s t)
    (ha : Harmless s a) (hstep : step s a = some s') :
    ∃ t', (if a.saveSucceeds then step t a = some t' else t' = t) ∧ Shadows s' t' := by
  cases a with
  | create title desc r =>
    obtain ⟨htable, rfl⟩ := step_create.mp hstep
    rw [h.noteTableView_eq] at htable
    cases hr : r.saved with
    | true =>
      refine exists_of_saveSucceeds hr (step_create.mpr ⟨htable, rfl⟩) ?_
      have hins := h.insert (ha hr) ⟨Int32.ofNat t.noteList.length, title, desc, none⟩
      rw [h.noteList_eq] at hins
      rw [hr, if_pos rfl, if_pos rfl, h.noteList_eq]
      exact hins
    | false =>
      refine exists_of_not_saveSucceeds hr ?_
      rw [if_neg Bool.false_ne_true]
      exact (h.insert_left rfl).viewDidAppear_left
  | edit row title desc r =>
    obtain ⟨i, hi, rfl⟩ := step_edit.mp hstep
    cases hr : r.saved with
    | true =>
      have hp : NothingPending s := by simpa [Harmless, hr] using ha
      refine exists_of_saveSucceeds hr (step_edit.mpr ⟨i, h.prepare_eq row ▸ hi, rfl⟩) ?_
      rw [hr]
      exact h.modify hp i _
    | false =>
      refine exists_of_not_saveSucceeds hr ?_
      have htexts : shownTexts s i = some (title, desc) := by
        simp only [Harmless, hr, Bool.false_eq_true, if_false] at ha
        exact ha i hi
      obtain ⟨-, note, hnote, hdel⟩ := exists_note_of_prepare hi
      have hsame : note.title = title ∧ note.desc = desc := by
        simpa [shownTexts, hnote, Note.visibleTexts, hdel] using htexts
      have hobj : (s.viewContext.modify i fun note =>
          { note with title := title, desc := desc }).objects = s.viewContext.objects :=
        modify_eq_self hnote (by rw [← hsame.1, ← hsame.2])
      refine Shadows.viewDidAppear_left ⟨h.stored_eq, h.saved, ?_, h.noteList_eq, h.noteList_lt,
        h.noteTableView_eq⟩
      change ∃ inserted, (s.viewContext.modify i _).objects = _ ∧ _
      rw [hobj]
      exact h.pending
  | delete row now r =>
    obtain ⟨i, hi, rfl⟩ := step_delete.mp hstep
    obtain ⟨hr, hp⟩ : r.saved = true ∧ NothingPending s := ha
    refine exists_of_saveSucceeds hr (step_delete.mpr ⟨i, h.prepare_eq row ▸ hi, rfl⟩) ?_
    rw [hr]
    exact h.modify hp i _
  | deleteNew now r =>
    obtain ⟨htable, rfl⟩ := step_deleteNew.mp hstep
    rw [h.noteTableView_eq] at htable
    cases hr : r.saved with
    | true =>
      exact exists_of_saveSucceeds hr (step_deleteNew.mpr ⟨htable, rfl⟩) h.viewDidAppear
    | false => exact exists_of_not_saveSucceeds hr h.viewDidAppear_left
  | background =>
    obtain rfl := step_background.mp hstep
    have hp : NothingPending s := ha
    refine exists_of_saveSucceeds rfl (step_background.mpr rfl) ?_
    refine shadows_of_saved (h.objects_eq hp) h.noteList_eq (fun i hi => ?_) h.noteTableView_eq
    rw [show s.viewContext.objects = _ from hp]
    exact h.noteList_lt i hi
  | connectScene fetchOrder =>
    obtain rfl := step_connectScene.mp hstep
    have hp : NothingPending s := ha
    refine exists_of_saveSucceeds rfl (step_connectScene.mpr rfl) ?_
    refine Shadows.viewDidAppear ⟨h.stored_eq, h.saved, h.pending, ?_, fun i hi => ?_, rfl⟩
    · change s.noteList ++ fetchOrder.positions _ = t.noteList ++ fetchOrder.positions _
      rw [h.noteList_eq, h.objects_eq hp]
    · rcases List.mem_append.mp hi with hi | hi
      · exact h.noteList_lt i hi
      · have hlt := s.viewContext.mem_fetch.mp hi
        rwa [show s.viewContext.objects = _ from hp] at hlt
  | relaunch fetchOrder =>
    obtain rfl := step_relaunch.mp hstep
    refine exists_of_saveSucceeds rfl (step_relaunch.mpr rfl) ?_
    rw [h.stored_eq]
    exact shadows_launch _ _

/-! ### Harmful actions -/

theorem SameNotes.length_stored_eq {s t : AppState} (h : SameNotes s t) :
    s.viewContext.stored.length = t.viewContext.stored.length := by
  simpa [durableNotes] using congrArg List.length h.1

theorem SameNotes.length_nonDeleteNotes_eq {s t : AppState} (h : SameNotes s t) :
    (nonDeleteNotes s).length = (nonDeleteNotes t).length := by
  simpa [listedTexts] using congrArg List.length h.2

/-- New texts for the note of a row, saved or not, are listed in that row. -/
private theorem listedTexts_modify {s : AppState} {row i : ℕ} (hi : prepare s row = some i)
    {f : Note → Note} (texts : Option String × Option String)
    (hf : ∀ note, note.deletedDate = none → (f note).visibleTexts = some texts)
    (succeeds : Bool) :
    (listedTexts { s with
      viewContext := (s.viewContext.modify i f).attemptSave succeeds })[row]? =
        some (some texts) := by
  obtain ⟨hrow, note, hnote, hdel⟩ := exists_note_of_prepare hi
  have hshown := shownTexts_modify s hnote f succeeds
  rw [hf note hdel] at hshown
  have hlist : nonDeleteNotes { s with
      viewContext := (s.viewContext.modify i f).attemptSave succeeds } = nonDeleteNotes s := by
    rw [nonDeleteNotes_eq, nonDeleteNotes_eq, hshown]
    refine List.filter_congr fun j _ => ?_
    by_cases hj : j = i
    · subst hj
      rw [Function.update_self, (mem_of_row hrow).2, Option.isSome_some]
    · rw [Function.update_of_ne hj]
  rw [listedTexts, hlist, hshown, List.getElem?_map, (prepare_eq_some.mp hi).2, Option.map_some,
    Function.update_self]

/-- A note that loses its row, saved or not, is missing from the list. -/
private theorem length_nonDeleteNotes_modify {s : AppState} {row i : ℕ}
    (hi : prepare s row = some i) {f : Note → Note} (hf : ∀ note, (f note).visibleTexts = none)
    (succeeds : Bool) :
    (nonDeleteNotes { s with
      viewContext := (s.viewContext.modify i f).attemptSave succeeds }).length <
        (nonDeleteNotes s).length := by
  obtain ⟨hrow, note, hnote, -⟩ := exists_note_of_prepare hi
  have hshown := shownTexts_modify s hnote f succeeds
  rw [hf note] at hshown
  have hlist : nonDeleteNotes { s with
      viewContext := (s.viewContext.modify i f).attemptSave succeeds } =
        (nonDeleteNotes s).filter fun j => decide (j ≠ i) := by
    rw [nonDeleteNotes_eq, nonDeleteNotes_eq, hshown, List.filter_filter]
    refine List.filter_congr fun j _ => ?_
    by_cases hj : j = i
    · subst hj
      simp
    · simp [hj]
  rw [hlist, List.length_filter_lt_length_iff_exists]
  exact ⟨i, List.mem_of_getElem? (prepare_eq_some.mp hi).2, by simp⟩

/-- The insertions pending on the left are listed when the scene connects. -/
private theorem Shadows.length_nonDeleteNotes_lt {s t : AppState} (h : Shadows s t)
    (hp : ¬NothingPending s) (fetchOrder : FetchOrder Note) :
    (nonDeleteNotes (connectScene t fetchOrder)).length <
      (nonDeleteNotes (connectScene s fetchOrder)).length := by
  obtain ⟨inserted, hobj, hdel⟩ := h.pending
  have hlen : s.viewContext.objects.length = t.viewContext.objects.length + inserted.length := by
    rw [hobj, List.length_append, h.saved, h.stored_eq]
  have hpos : 0 < inserted.length := by
    have hlt := h.length_stored_lt hp
    rw [hlen, h.saved] at hlt
    omega
  have hcount : ∀ u : AppState, (nonDeleteNotes (connectScene u fetchOrder)).length =
      (nonDeleteNotes u).length + (List.range u.viewContext.objects.length).countP
        fun i => (shownTexts u i).isSome := by
    intro u
    rw [MemoApp.nonDeleteNotes_eq, MemoApp.nonDeleteNotes_eq]
    change ((u.noteList ++ u.viewContext.fetch fetchOrder).filter _).length = _
    rw [List.filter_append, List.length_append,
      ← (fetchOrder.perm_range u.viewContext.objects).countP_eq, List.countP_eq_length_filter]
    rfl
  have hold : (List.range t.viewContext.objects.length).countP
      (fun i => (shownTexts s i).isSome) =
        (List.range t.viewContext.objects.length).countP fun i => (shownTexts t i).isSome := by
    refine List.countP_congr fun i hi => ?_
    rw [List.mem_range, h.saved, ← h.stored_eq] at hi
    rw [h.shownTexts_eq hi]
  have hnew : ((List.range inserted.length).map (t.viewContext.objects.length + ·)).countP
      (fun i => (shownTexts s i).isSome) = inserted.length := by
    rw [List.countP_eq_length.mpr, List.length_map, List.length_range]
    intro i hi
    obtain ⟨k, hk, rfl⟩ := List.mem_map.mp hi
    have hk := List.mem_range.mp hk
    have hnote : s.note (t.viewContext.objects.length + k) = some inserted[k] := by
      rw [AppState.note, hobj, h.saved, ← h.stored_eq, List.getElem?_append_right (by omega),
        Nat.add_sub_cancel_left, List.getElem?_eq_getElem hk]
    simp [shownTexts, hnote, Note.visibleTexts, hdel _ (List.getElem_mem hk)]
  rw [hcount, hcount, h.nonDeleteNotes_eq, hlen, List.range_add, List.countP_append, hold, hnew]
  omega

private theorem step_of_kept {t t' : AppState} {a : Action}
    (ht : if a.saveSucceeds then step t a = some t' else t' = t) (ha : a.saveSucceeds = true) :
    step t a = some t' := by
  rwa [if_pos ha] at ht

private theorem eq_of_left_out {t t' : AppState} {a : Action}
    (ht : if a.saveSucceeds then step t a = some t' else t' = t) (ha : a.saveSucceeds = false) :
    t' = t := by
  rwa [ha, if_neg Bool.false_ne_true] at ht

/-- **Any other action separates the two runs.** -/
theorem not_sameNotes_of_not_harmless {s t s' t' : AppState} {a : Action} (h : Shadows s t)
    (ha : ¬Harmless s a) (hs : step s a = some s')
    (ht : if a.saveSucceeds then step t a = some t' else t' = t) : ¬SameNotes s' t' := by
  intro hsame
  have hsaved := h.saved
  cases a with
  | create title desc r =>
    obtain ⟨hr, hp⟩ := Classical.not_imp.mp ha
    have ht := step_of_kept ht hr
    obtain ⟨-, rfl⟩ := step_create.mp hs
    obtain ⟨-, rfl⟩ := step_create.mp ht
    have hlt := h.length_stored_lt hp
    have hlen := hsame.length_stored_eq
    simp [hr, hsaved] at hlen
    omega
  | edit row title desc r =>
    obtain ⟨i, hi, rfl⟩ := step_edit.mp hs
    cases hr : r.saved with
    | true =>
      have hp : ¬NothingPending s := by simpa [Harmless, hr] using ha
      have ht := step_of_kept ht hr
      obtain ⟨j, -, rfl⟩ := step_edit.mp ht
      have hlt := h.length_stored_lt hp
      have hlen := hsame.length_stored_eq
      simp [hr, hsaved] at hlen
      omega
    | false =>
      obtain rfl := eq_of_left_out ht hr
      have hrow := listedTexts_modify hi (title, desc)
        (f := fun note => { note with title := title, desc := desc })
        (fun note hdel => by simp [Note.visibleTexts, hdel]) r.saved
      have htexts : (listedTexts s)[row]? = some (some (title, desc)) := by
        rw [h.sameNotes.2, ← hsame.2]
        exact hrow
      rw [listedTexts, List.getElem?_map, (prepare_eq_some.mp hi).2, Option.map_some,
        Option.some.injEq] at htexts
      refine ha ?_
      simp only [Harmless, hr, Bool.false_eq_true, if_false]
      intro j hj
      rwa [Option.some.inj (hj.symm.trans hi)]
  | delete row now r =>
    obtain ⟨i, hi, rfl⟩ := step_delete.mp hs
    cases hr : r.saved with
    | true =>
      have hp : ¬NothingPending s := fun hp => ha ⟨hr, hp⟩
      have ht := step_of_kept ht hr
      obtain ⟨j, -, rfl⟩ := step_delete.mp ht
      have hlt := h.length_stored_lt hp
      have hlen := hsame.length_stored_eq
      simp [hr, hsaved] at hlen
      omega
    | false =>
      obtain rfl := eq_of_left_out ht hr
      have hlt := length_nonDeleteNotes_modify hi
        (f := fun note => { note with deletedDate := some now })
        (fun note => by simp [Note.visibleTexts]) r.saved
      have hlen := hsame.length_nonDeleteNotes_eq
      rw [← h.nonDeleteNotes_eq] at hlen
      exact absurd hlen (Nat.ne_of_lt hlt)
  | background =>
    obtain rfl := step_background.mp hs
    obtain rfl := step_background.mp (step_of_kept ht rfl)
    have hlt := h.length_stored_lt ha
    have hlen := hsame.length_stored_eq
    simp [hsaved] at hlen
    omega
  | connectScene fetchOrder =>
    obtain rfl := Option.some.inj hs
    obtain rfl := Option.some.inj (step_of_kept ht rfl)
    have hlt := h.length_nonDeleteNotes_lt ha fetchOrder
    exact absurd hsame.length_nonDeleteNotes_eq (Nat.ne_of_gt hlt)
  | deleteNew now r => exact absurd trivial ha
  | relaunch fetchOrder => exact absurd trivial ha

/-! ### Whole runs -/

/-- **Failed saves leave no trace exactly in harmless runs.** Along a run from a launch, the stored
and the listed notes are those of the run without the failed actions, after every action, if and
only if every action is harmless in the state it is taken in. -/
theorem leavesNoTrace_iff_harmless (stored : List Note) (fetchOrder : FetchOrder Note)
    {as : List Action} (hrun : (run step (launch stored fetchOrder) as).isSome) :
    (∀ bs, bs <+: as → LeavesNoTrace stored fetchOrder bs) ↔
      AllSteps step Harmless (launch stored fetchOrder) as := by
  obtain ⟨u, hu⟩ := Option.isSome_iff_exists.mp hrun
  exact forall_prefix_filter_iff_allSteps (R := Shadows) (fun s t h => h.sameNotes)
    (fun s t a s' h ha hs => exists_shadows_step h ha hs)
    (fun s t a s' t' h ha hs ht => not_sameNotes_of_not_harmless h ha hs ht)
    (shadows_launch stored fetchOrder) hu

/-- A note is created without success and the app is relaunched: the criterion applies. -/
theorem leavesNoTrace_iff_harmless_relaunch :
    (∀ bs, bs <+: [.create "a" "b" ⟨false, .insertion⟩, .relaunch .insertion] →
        LeavesNoTrace [] .insertion bs) ↔
      AllSteps step Harmless (launch [] .insertion)
        [.create "a" "b" ⟨false, .insertion⟩, .relaunch .insertion] :=
  leavesNoTrace_iff_harmless [] .insertion rfl

/-- A create whose save throws, followed by one whose save succeeds, stores both notes. -/
theorem not_leavesNoTrace_create :
    ¬LeavesNoTrace [] .insertion
      [.create "a" "b" ⟨false, .insertion⟩, .create "c" "d" ⟨true, .insertion⟩] := by
  rintro ⟨s, t, hs, ht, hsame⟩
  have hlen := hsame.length_stored_eq
  cases hs
  cases ht
  exact absurd hlen (by decide)

end GuruPractice.MemoApp
