import GuruPractice.MemoApp.DetailScreen

/-!
# Pressing again

A save that throws leaves the detail screen open, with the change still in the context. This file
says what the store holds once a later press on the same screen succeeds: on a new-note screen every
press of Save has inserted a note of its own, and all of them are stored; on the screen of a note
every change of an earlier press is stored with the last one, a deletion included.

As long as no button is pressed for a note that is already deleted in memory, the two screens do
what `MemoApp.step` says.

## Main definitions

* `MemoApp.ScreenAction.StaysOpen` — an action that leaves the screen open.
* `MemoApp.Attempt`, `MemoApp.attempts` — the presses, with the texts they were made with.
* `MemoApp.Screens.PressesUndeleted` — the condition on a press.
* `MemoApp.Screens.Observation`, `MemoApp.Screens.observe`, `MemoApp.Screens.observeApp` — what an
  action shows, on the screens and in the app.

## Main results

* `MemoApp.Screens.stored_of_repeated_create`.
* `MemoApp.Screens.stored_of_repeated_edit`.
* `MemoApp.Screens.exists_run_of_pressesUndeleted`.
-/

namespace GuruPractice.MemoApp

open Storage Transition

/-! ### Presses on one screen -/

/-- A press, with what it writes. -/
inductive Attempt
  | save (title desc : String)
  | delete (now : Date)

namespace Attempt

/-- What the press does to the selected note. -/
def change : Attempt → Note → Note
  | save title desc, note => { note with title := some title, desc := some desc }
  | delete now, note => { note with deletedDate := some now }

/-- The note that the press inserts on a new-note screen, where Delete finds nothing to delete. -/
def inserts (id : Int32) : Attempt → Option Note
  | save title desc => some ⟨id, some title, some desc, none⟩
  | delete _ => none

def isDelete : Attempt → Bool
  | save _ _ => false
  | delete _ => true

end Attempt

/-- The presses of a list of actions on one screen, whose fields first show the texts of `vc`. -/
def attempts (vc : NoteDetailVC) : List ScreenAction → List Attempt
  | [] => []
  | .type titleTF descTV :: as => attempts { vc with titleTF := titleTF, descTV := descTV } as
  | .save _ :: as => .save vc.titleTF vc.descTV :: attempts vc as
  | .delete now _ :: as => .delete now :: attempts vc as
  | _ :: as => attempts vc as

/-- The action is typing, a press whose save throws, or a save in the background. -/
def ScreenAction.StaysOpen : ScreenAction → Prop
  | .type _ _ | .background => True
  | .save r | .delete _ r => r.saved = false
  | _ => False

theorem saveActionPops_of_not_saved (s : AppState) (selectedNote : Option ℕ) {r : Reply}
    (hr : r.saved = false) : saveActionPops s selectedNote r = false := by
  cases selectedNote with
  | none => exact hr
  | some i => simp [saveActionPops, popsEach, hr]

theorem delteNotePops_of_not_saved (s : AppState) (selectedNote : Option ℕ) {r : Reply}
    (hr : r.saved = false) : delteNotePops s selectedNote r = false := by
  simp [delteNotePops, popsEach, hr]

/-! ### The objects after the presses -/

/-- The changes of the presses, one after the other. -/
def changes (l : List Attempt) (note : Note) : Note := l.foldl (fun note p => p.change note) note

/-- The objects after presses of which none has returned to the table. -/
def afterPresses (id : Int32) (selectedNote : Option ℕ) (l : List Attempt) (objects : List Note) :
    List Note :=
  match selectedNote with
  | none => objects ++ l.filterMap (Attempt.inserts id)
  | some i => objects.modify i (changes l)

theorem changes_append (l m : List Attempt) : changes (l ++ m) = changes m ∘ changes l :=
  funext fun _ => List.foldl_append

/-- Once a press has deleted the note, the later ones leave it deleted. -/
theorem isSome_deletedDate_changes (l : List Attempt) (note : Note) :
    (changes l note).deletedDate.isSome =
      (note.deletedDate.isSome || l.any Attempt.isDelete) := by
  induction l generalizing note with
  | nil => simp [changes]
  | cons p l ih =>
    rw [changes, List.foldl_cons, ← changes, ih]
    cases p <;> simp [Attempt.change, Attempt.isDelete]

theorem afterPresses_nil (id : Int32) (selectedNote : Option ℕ) (objects : List Note) :
    afterPresses id selectedNote [] objects = objects := by
  cases selectedNote with
  | none => exact List.append_nil _
  | some i => exact List.modify_id i objects

theorem afterPresses_append (id : Int32) (selectedNote : Option ℕ) (l m : List Attempt)
    (objects : List Note) :
    afterPresses id selectedNote (l ++ m) objects =
      afterPresses id selectedNote m (afterPresses id selectedNote l objects) := by
  cases selectedNote with
  | none => simp [afterPresses]
  | some i => simp [afterPresses, changes_append, List.modify_modify_eq]

/-- The loop of a press, whether its save throws or not. -/
private theorem objects_saveEach (change : Note → Note) (i : ℕ) (saved : Bool)
    (c : ManagedContext Note) (fetchOrder : FetchOrder Note) :
    (saveEach change (some i) saved (c.fetch fetchOrder) c).objects =
      c.objects.modify i change := by
  by_cases hi : i ∈ c.fetch fetchOrder
  · rw [saveEach_of_mem change saved (c.nodup_fetch _) hi, ManagedContext.objects_attemptSave,
      ManagedContext.objects_modify]
  · rw [saveEach_of_notMem change saved hi, List.modify_eq_self]
    exact not_lt.mp fun h => hi (c.mem_fetch.mpr h)

theorem objects_saveAction (s : AppState) (selectedNote : Option ℕ) (title desc : String)
    (r : Reply) :
    (saveAction s selectedNote (some title) (some desc) r).viewContext.objects =
      afterPresses (Int32.ofNat s.noteList.length) selectedNote [.save title desc]
        s.viewContext.objects := by
  cases selectedNote with
  | none => simp [saveAction_none, afterPresses, Attempt.inserts]
  | some i => exact objects_saveEach _ i _ _ _

theorem objects_delteNote (s : AppState) (selectedNote : Option ℕ) (now : Date) (r : Reply) :
    (delteNote s selectedNote now r).viewContext.objects =
      afterPresses (Int32.ofNat s.noteList.length) selectedNote [.delete now]
        s.viewContext.objects := by
  cases selectedNote with
  | none => simp [delteNote_none, afterPresses, Attempt.inserts]
  | some i => exact objects_saveEach _ i _ _ _

theorem noteList_saveAction_of_not_saved (s : AppState) (selectedNote : Option ℕ)
    (title desc : Option String) {r : Reply} (hr : r.saved = false) :
    (saveAction s selectedNote title desc r).noteList = s.noteList := by
  cases selectedNote with
  | none => simp [saveAction_none, hr]
  | some i => rfl

theorem noteList_subset_saveAction (s : AppState) (selectedNote : Option ℕ)
    (title desc : Option String) (r : Reply) :
    s.noteList ⊆ (saveAction s selectedNote title desc r).noteList := by
  cases selectedNote with
  | none => cases hr : r.saved <;> simp [saveAction_none, hr]
  | some i => exact List.Subset.refl _

theorem noteTableView_saveAction (s : AppState) (selectedNote : Option ℕ)
    (title desc : Option String) (r : Reply) :
    (saveAction s selectedNote title desc r).noteTableView = s.noteTableView := by
  cases selectedNote with
  | none => rw [saveAction_none]
  | some i => rfl

/-! ### A screen that stays open -/

/-- The presses `l` have been made on a screen that first showed `vc`, is still open and now shows
`vc'`. -/
structure Pressed (l : List Attempt) (s : Screens) (vc : NoteDetailVC) (s' : Screens)
    (vc' : NoteDetailVC) : Prop where
  noteDetailVC_eq : s'.noteDetailVC = some vc'
  selectedNote_eq : vc'.selectedNote = vc.selectedNote
  noteList_eq : s'.app.noteList = s.app.noteList
  objects_eq : s'.app.viewContext.objects =
    afterPresses (Int32.ofNat s.app.noteList.length) vc.selectedNote l s.app.viewContext.objects

namespace Screens

variable {s s' : Screens} {vc : NoteDetailVC}

/-- An action that leaves the screen open makes its press. -/
private theorem exists_pressed_of_step {a : ScreenAction} (hvc : s.noteDetailVC = some vc)
    (ha : a.StaysOpen) (h : s.step a = some s') :
    ∃ vc', Pressed (attempts vc [a]) s vc s' vc' ∧
      ∀ as, attempts vc (a :: as) = attempts vc [a] ++ attempts vc' as := by
  cases a with
  | type titleTF descTV =>
    obtain ⟨vc₀, hvc₀, rfl⟩ := step_type.mp h
    obtain rfl := Option.some.inj (hvc.symm.trans hvc₀)
    exact ⟨_, ⟨rfl, rfl, rfl, (afterPresses_nil _ _ _).symm⟩, fun as => rfl⟩
  | save r =>
    obtain ⟨vc₀, hvc₀, rfl⟩ := step_save.mp h
    obtain rfl := Option.some.inj (hvc.symm.trans hvc₀)
    refine ⟨vc, ?_, fun as => rfl⟩
    rw [saveActionPops_of_not_saved _ _ ha]
    exact ⟨hvc, rfl, noteList_saveAction_of_not_saved _ _ _ _ ha, objects_saveAction _ _ _ _ _⟩
  | delete now r =>
    obtain ⟨vc₀, hvc₀, rfl⟩ := step_delete.mp h
    obtain rfl := Option.some.inj (hvc.symm.trans hvc₀)
    refine ⟨vc, ?_, fun as => rfl⟩
    rw [delteNotePops_of_not_saved _ _ ha]
    exact ⟨hvc, rfl, rfl, objects_delteNote _ _ _ _⟩
  | background =>
    obtain rfl := step_background.mp h
    exact ⟨vc, ⟨hvc, rfl, rfl, (afterPresses_nil _ _ _).symm⟩, fun as => rfl⟩
  | _ => exact absurd ha id

/-- Actions that leave the screen open make their presses one after the other. -/
private theorem exists_pressed_of_run {as : List ScreenAction} (hvc : s.noteDetailVC = some vc)
    (has : ∀ a ∈ as, a.StaysOpen) (h : run step s as = some s') :
    ∃ vc', Pressed (attempts vc as) s vc s' vc' ∧
      ∀ bs, attempts vc (as ++ bs) = attempts vc as ++ attempts vc' bs := by
  induction as generalizing s vc with
  | nil =>
    obtain rfl := Option.some.inj h
    exact ⟨vc, ⟨hvc, rfl, rfl, (afterPresses_nil _ _ _).symm⟩, fun bs => rfl⟩
  | cons a as ih =>
    obtain ⟨s₁, hs₁, hrun⟩ := (run_cons_eq_some step).mp h
    obtain ⟨ha, has⟩ := List.forall_mem_cons.mp has
    obtain ⟨vc₁, hpressed, happend⟩ := exists_pressed_of_step hvc ha hs₁
    obtain ⟨vc', hpressed', happend'⟩ := ih hpressed.noteDetailVC_eq has hrun
    refine ⟨vc', ⟨hpressed'.noteDetailVC_eq,
      hpressed'.selectedNote_eq.trans hpressed.selectedNote_eq,
      hpressed'.noteList_eq.trans hpressed.noteList_eq, ?_⟩, fun bs => ?_⟩
    · rw [hpressed'.objects_eq, hpressed.objects_eq, hpressed.selectedNote_eq,
        hpressed.noteList_eq, happend as, afterPresses_append]
    · rw [List.cons_append, happend (as ++ bs), happend', happend as, List.append_assoc]

/-! ### The selected note is listed -/

/-- A note that is open on the detail screen is in `noteList`, and is an object. -/
def SelectedListed (s : Screens) : Prop :=
  ∀ vc, s.noteDetailVC = some vc → s.app.noteTableView.isSome ∧
    ∀ i, vc.selectedNote = some i → i ∈ s.app.noteList ∧ i < s.app.viewContext.objects.length

/-- The detail screen and its note are still there when the app has listed and inserted more. -/
private theorem SelectedListed.of_app {vc' : NoteDetailVC} {app : AppState} (hs : SelectedListed s)
    (hvc : s.noteDetailVC = some vc) (hsel : vc'.selectedNote = vc.selectedNote)
    (htable : app.noteTableView = s.app.noteTableView) (hlist : s.app.noteList ⊆ app.noteList)
    (hlen : s.app.viewContext.objects.length ≤ app.viewContext.objects.length) :
    SelectedListed ⟨app, some vc'⟩ := by
  rintro vc₀ hvc₀
  obtain rfl := Option.some.inj hvc₀
  obtain ⟨hloaded, hlisted⟩ := hs vc hvc
  refine ⟨htable ▸ hloaded, fun i hi => ?_⟩
  obtain ⟨hmem, hlt⟩ := hlisted i (hsel ▸ hi)
  exact ⟨hlist hmem, hlt.trans_le hlen⟩

private theorem selectedListed_popIf {popped : Bool} (hs : SelectedListed s) :
    SelectedListed (popIf popped s) := by
  cases popped with
  | true => exact fun vc hvc => absurd hvc (by simp [popIf, popViewController])
  | false => exact hs

theorem length_le_afterPresses (id : Int32) (selectedNote : Option ℕ) (l : List Attempt)
    (objects : List Note) : objects.length ≤ (afterPresses id selectedNote l objects).length := by
  cases selectedNote <;> simp [afterPresses]

theorem SelectedListed.of_step {a : ScreenAction} (hs : SelectedListed s)
    (h : s.step a = some s') : SelectedListed s' := by
  have hclosed : ∀ app, SelectedListed ⟨app, none⟩ := fun app vc hvc => absurd hvc (by simp)
  cases a with
  | newNote =>
    obtain ⟨-, htable, rfl⟩ := step_newNote.mp h
    rintro vc hvc
    obtain rfl := Option.some.inj hvc
    exact ⟨htable, fun i hi => absurd hi (by simp)⟩
  | editNote row =>
    obtain ⟨-, i, hi, rfl⟩ := step_editNote.mp h
    rintro vc hvc
    obtain rfl := Option.some.inj hvc
    refine ⟨(prepare_eq_some.mp hi).1, fun j hj => ?_⟩
    obtain rfl : i = j := Option.some.inj hj
    exact ⟨(mem_nonDeleteNotes.mp (List.mem_of_getElem? (prepare_eq_some.mp hi).2)).1,
      lt_length_of_prepare hi⟩
  | type titleTF descTV =>
    obtain ⟨vc, hvc, rfl⟩ := step_type.mp h
    exact hs.of_app hvc rfl rfl (List.Subset.refl _) le_rfl
  | save r =>
    obtain ⟨vc, hvc, rfl⟩ := step_save.mp h
    refine selectedListed_popIf ?_
    rw [hvc]
    refine hs.of_app hvc rfl (noteTableView_saveAction _ _ _ _ _)
      (noteList_subset_saveAction _ _ _ _ _) ?_
    rw [objects_saveAction]
    exact length_le_afterPresses _ _ _ _
  | delete now r =>
    obtain ⟨vc, hvc, rfl⟩ := step_delete.mp h
    refine selectedListed_popIf ?_
    rw [hvc]
    refine hs.of_app hvc rfl rfl (List.Subset.refl _) ?_
    rw [objects_delteNote]
    exact length_le_afterPresses _ _ _ _
  | back =>
    obtain ⟨-, rfl⟩ := step_back.mp h
    exact hclosed _
  | background =>
    obtain rfl := step_background.mp h
    exact hs
  | connectScene fetchOrder =>
    obtain rfl := step_connectScene.mp h
    exact hclosed _
  | relaunch fetchOrder =>
    obtain rfl := step_relaunch.mp h
    exact hclosed _

theorem selectedListed_of_run {stored : List Note} {as : List ScreenAction}
    (h : run step (processStart stored) as = some s) : SelectedListed s :=
  run_induction (fun _ _ _ hs hstep => hs.of_step hstep)
    (fun vc hvc => absurd hvc (by simp [processStart])) h

/-! ### The press that succeeds -/

/-- A press of Save or Delete. -/
def IsPress : ScreenAction → Prop
  | .save _ | .delete _ _ => True
  | _ => False

/-- A press that succeeds on the screen of a note stores all objects, and returns to the table. -/
private theorem step_of_isPress {p : ScreenAction} {i : ℕ} (hvc : s.noteDetailVC = some vc)
    (hi : vc.selectedNote = some i) (hlt : i < s.app.viewContext.objects.length) (hp : IsPress p)
    (hsaved : ∀ r ∈ p.replies, r.saved = true) (h : s.step p = some s') :
    s'.noteDetailVC = none ∧ s'.app.noteList = s.app.noteList ∧
      s'.app.viewContext =
        .fresh (s.app.viewContext.objects.modify i (changes (attempts vc [p]))) := by
  cases p with
  | save r =>
    obtain ⟨vc₀, hvc₀, rfl⟩ := step_save.mp h
    obtain rfl := Option.some.inj (hvc.symm.trans hvc₀)
    have hr : r.saved = true := hsaved r (List.mem_singleton_self r)
    have hpops : saveActionPops s.app vc.selectedNote r = true := by
      rw [hi, saveActionPops, popsEach_fetch]
      simp [hlt, hr]
    rw [hpops, hi, saveAction_some s.app hlt, hr]
    exact ⟨rfl, rfl, rfl⟩
  | delete now r =>
    obtain ⟨vc₀, hvc₀, rfl⟩ := step_delete.mp h
    obtain rfl := Option.some.inj (hvc.symm.trans hvc₀)
    have hr : r.saved = true := hsaved r (List.mem_singleton_self r)
    have hpops : delteNotePops s.app vc.selectedNote r = true := by
      rw [hi, delteNotePops, popsEach_fetch]
      simp [hlt, hr]
    rw [hpops, hi, delteNote_some s.app hlt, hr]
    exact ⟨rfl, rfl, rfl⟩
  | _ => exact absurd hp id

/-- Changing a note keeps it in the table unless the change deletes it. -/
private theorem mem_nonDeleteNotes_of_modify {t t' : AppState} {i : ℕ} {f : Note → Note}
    {deletes : Bool} (hlist : t'.noteList = t.noteList)
    (hobj : t'.viewContext.objects = t.viewContext.objects.modify i f)
    (hf : ∀ note, (f note).deletedDate.isSome = (note.deletedDate.isSome || deletes)) :
    i ∈ nonDeleteNotes t' ↔ i ∈ nonDeleteNotes t ∧ deletes = false := by
  have hnote : t'.note i = (t.note i).map f := by
    rw [AppState.note, hobj, List.getElem?_modify_eq]
    rfl
  have hnone : ∀ note, (f note).deletedDate = none ↔ note.deletedDate = none ∧ deletes = false := by
    intro note
    rw [← Option.not_isSome_iff_eq_none, hf, ← Option.not_isSome_iff_eq_none]
    simp
  rw [mem_nonDeleteNotes, mem_nonDeleteNotes, hlist, hnote]
  cases t.note i <;> simp [hnone, and_assoc]

/-- **The press that succeeds stores what the others wrote.** When a press on the screen of a note
succeeds after presses whose saves threw, the note is stored with the changes of all of them, in
their order. If one of them was Delete, the note is stored as deleted and gone from the table, even
when the press that succeeds is Save. -/
theorem stored_of_repeated_edit {stored : List Note} {before as : List ScreenAction}
    {p : ScreenAction} {i : ℕ} (hs : run step (processStart stored) before = some s)
    (hvc : s.noteDetailVC = some vc) (hi : vc.selectedNote = some i)
    (has : ∀ a ∈ as, a.StaysOpen) (hp : IsPress p) (hsaved : ∀ r ∈ p.replies, r.saved = true)
    (h : run step s (as ++ [p]) = some s') :
    s'.app.viewContext.stored =
      s.app.viewContext.objects.modify i (changes (attempts vc (as ++ [p]))) ∧
    s'.noteDetailVC = none ∧
    (i ∈ nonDeleteNotes s'.app ↔
      i ∈ nonDeleteNotes s.app ∧ (attempts vc (as ++ [p])).any Attempt.isDelete = false) := by
  obtain ⟨s₁, hs₁, hlast⟩ := (run_append_eq_some step).mp h
  obtain ⟨vc', hpressed, happend⟩ := exists_pressed_of_run hvc has hs₁
  obtain ⟨s₂, hs₂, hnil⟩ := (run_cons_eq_some step).mp hlast
  obtain rfl := Option.some.inj hnil
  have hi' : vc'.selectedNote = some i := hpressed.selectedNote_eq.trans hi
  have hlt : i < s₁.app.viewContext.objects.length := by
    have hlisted := selectedListed_of_run ((run_append_eq_some step).mpr ⟨s, hs, hs₁⟩)
    exact ((hlisted vc' hpressed.noteDetailVC_eq).2 i hi').2
  obtain ⟨hclosed, hlist, hcontext⟩ :=
    step_of_isPress hpressed.noteDetailVC_eq hi' hlt hp hsaved hs₂
  have hobj : s₁.app.viewContext.objects.modify i (changes (attempts vc' [p])) =
      s.app.viewContext.objects.modify i (changes (attempts vc (as ++ [p]))) := by
    rw [hpressed.objects_eq, hi, afterPresses, List.modify_modify_eq, happend, changes_append]
  rw [hobj] at hcontext
  refine ⟨by rw [hcontext, ManagedContext.stored_fresh], hclosed, ?_⟩
  exact mem_nonDeleteNotes_of_modify (hlist.trans hpressed.noteList_eq)
    (by rw [hcontext, ManagedContext.objects_fresh]) (isSome_deletedDate_changes _)

/-- Delete fails, the texts are changed, and Save succeeds: the note is stored as deleted. -/
theorem stored_of_repeated_edit_delete :
    [(⟨0, some "c", some "d", some 7⟩ : Note)] = [⟨0, some "c", some "d", some 7⟩] ∧
    (none : Option NoteDetailVC) = none ∧
    (0 ∈ ([] : List ℕ) ↔ 0 ∈ [0] ∧ true = false) :=
  @stored_of_repeated_edit ⟨launch [⟨0, some "a", some "b", none⟩] .insertion,
      some ⟨some 0, "a", "b"⟩⟩ _ _ [⟨0, some "a", some "b", none⟩]
    [.connectScene .insertion, .editNote 0] [.delete 7 ⟨false, .insertion⟩, .type "c" "d"]
    (.save ⟨true, .insertion⟩) 0 rfl rfl rfl (by simp [ScreenAction.StaysOpen]) trivial
    (by simp [ScreenAction.replies]) rfl

/-! ### The screens do what the app does -/

/-- A button of the detail screen, with what it writes. -/
inductive Button
  | save (titleTF descTV : Option String)
  | delete (now : Date)

/-- What can be seen from outside of the use of the app. -/
inductive Observation
  /-- A button is pressed on the screen of a note, or on a new-note screen, and Core Data
  answers. -/
  | press (selectedNote : Option ℕ) (button : Button) (r : Reply)
  | background
  | connectScene (fetchOrder : FetchOrder Note)
  | relaunch (fetchOrder : FetchOrder Note)

/-- What an action of the screens shows. -/
def observe (s : Screens) : ScreenAction → List Observation
  | .newNote | .editNote _ | .type _ _ | .back => []
  | .save r => s.noteDetailVC.toList.map fun vc =>
    .press vc.selectedNote (.save (some vc.titleTF) (some vc.descTV)) r
  | .delete now r => s.noteDetailVC.toList.map fun vc => .press vc.selectedNote (.delete now) r
  | .background => [.background]
  | .connectScene fetchOrder => [.connectScene fetchOrder]
  | .relaunch fetchOrder => [.relaunch fetchOrder]

/-- What an action of the app shows. The note of a row is the one that the row opens. -/
def observeApp (s : AppState) : Action → List Observation
  | .create title desc r => [.press none (.save title desc) r]
  | .edit row title desc r => [.press (prepare s row) (.save title desc) r]
  | .delete row now r => [.press (prepare s row) (.delete now) r]
  | .deleteNew now r => [.press none (.delete now) r]
  | .background => [.background]
  | .connectScene fetchOrder => [.connectScene fetchOrder]
  | .relaunch fetchOrder => [.relaunch fetchOrder]

/-- A press on the screen of a note is made while the note is not deleted in memory. -/
def PressesUndeleted (s : Screens) : ScreenAction → Prop
  | .save _ | .delete _ _ => ∀ vc, s.noteDetailVC = some vc → ∀ i, vc.selectedNote = some i →
      ∀ note, s.app.note i = some note → note.deletedDate = none
  | _ => True

/-- The app of the screens, once it has returned to the table. -/
def Shows (s : Screens) (t : AppState) : Prop := t = viewDidAppear s.app ∧ SelectedListed s

theorem viewDidAppear_saveAction (s : AppState) (selectedNote : Option ℕ)
    (title desc : Option String) (r : Reply) :
    viewDidAppear (saveAction (viewDidAppear s) selectedNote title desc r) =
      viewDidAppear (saveAction s selectedNote title desc r) := by
  cases selectedNote with
  | none =>
    rw [saveAction_none, saveAction_none]
    rfl
  | some i => rfl

theorem viewDidAppear_popIf (popped : Bool) (s : Screens) :
    viewDidAppear (popIf popped s).app = viewDidAppear s.app := by
  cases popped <;> rfl

/-- The row of a note that is open and not deleted. -/
private theorem SelectedListed.prepare_idxOf (hs : SelectedListed s)
    (hvc : s.noteDetailVC = some vc) {i : ℕ} (hi : vc.selectedNote = some i)
    (hdel : ∀ note, s.app.note i = some note → note.deletedDate = none) :
    prepare (viewDidAppear s.app) ((nonDeleteNotes s.app).idxOf i) = some i := by
  obtain ⟨hloaded, hlisted⟩ := hs vc hvc
  obtain ⟨hmem, hlt⟩ := hlisted i hi
  have hnote : s.app.note i = some s.app.viewContext.objects[i] := List.getElem?_eq_getElem hlt
  have hrow : i ∈ nonDeleteNotes s.app := mem_nonDeleteNotes.mpr ⟨hmem, _, hnote, hdel _ hnote⟩
  exact prepare_eq_some.mpr ⟨hloaded, List.getElem?_idxOf hrow⟩

private theorem map_const_of_isSome {α β : Type} {o : Option α} (ho : o.isSome) (x : β) :
    (o.map fun _ => x) = some x := by
  obtain ⟨y, rfl⟩ := Option.isSome_iff_exists.mp ho
  rfl

/-- One action of the screens is at most one action of the app. -/
private theorem exists_run_of_step {t : AppState} {a : ScreenAction} (hst : Shows s t)
    (ha : PressesUndeleted s a) (h : s.step a = some s') :
    ∃ bs t', run MemoApp.step t bs = some t' ∧
      trace MemoApp.step observeApp t bs = observe s a ∧ Shows s' t' := by
  obtain ⟨rfl, hlisted⟩ := hst
  have hlisted' := hlisted.of_step h
  cases a with
  | newNote =>
    obtain ⟨-, -, rfl⟩ := step_newNote.mp h
    exact ⟨[], _, rfl, rfl, rfl, hlisted'⟩
  | editNote row =>
    obtain ⟨-, i, -, rfl⟩ := step_editNote.mp h
    exact ⟨[], _, rfl, rfl, rfl, hlisted'⟩
  | type titleTF descTV =>
    obtain ⟨vc, -, rfl⟩ := step_type.mp h
    exact ⟨[], _, rfl, rfl, rfl, hlisted'⟩
  | save r =>
    obtain ⟨vc, hvc, rfl⟩ := step_save.mp h
    refine ⟨[match vc.selectedNote with
      | none => .create (some vc.titleTF) (some vc.descTV) r
      | some i => .edit ((nonDeleteNotes s.app).idxOf i) (some vc.titleTF) (some vc.descTV) r],
      _, (run_singleton_eq_some _).mpr ?_, ?_, rfl, hlisted'⟩
    · rw [viewDidAppear_popIf, ← viewDidAppear_saveAction]
      cases hsel : vc.selectedNote with
      | none => exact map_const_of_isSome (hlisted vc hvc).1 _
      | some i =>
        have hrow := hlisted.prepare_idxOf hvc hsel (ha vc hvc i hsel)
        simp only [MemoApp.step, hrow, Option.map_some]
    · rw [trace_singleton, observe, hvc]
      cases hsel : vc.selectedNote with
      | none => simp [observeApp, hsel]
      | some i =>
        have hrow := hlisted.prepare_idxOf hvc hsel (ha vc hvc i hsel)
        simp [observeApp, hrow, hsel]
  | delete now r =>
    obtain ⟨vc, hvc, rfl⟩ := step_delete.mp h
    refine ⟨[match vc.selectedNote with
      | none => .deleteNew now r
      | some i => .delete ((nonDeleteNotes s.app).idxOf i) now r],
      _, (run_singleton_eq_some _).mpr ?_, ?_, rfl, hlisted'⟩
    · rw [viewDidAppear_popIf]
      cases hsel : vc.selectedNote with
      | none => exact map_const_of_isSome (hlisted vc hvc).1 _
      | some i =>
        have hrow := hlisted.prepare_idxOf hvc hsel (ha vc hvc i hsel)
        simp only [MemoApp.step, hrow, Option.map_some]
        rfl
    · rw [trace_singleton, observe, hvc]
      cases hsel : vc.selectedNote with
      | none => simp [observeApp, hsel]
      | some i =>
        have hrow := hlisted.prepare_idxOf hvc hsel (ha vc hvc i hsel)
        simp [observeApp, hrow, hsel]
  | back =>
    obtain ⟨-, rfl⟩ := step_back.mp h
    exact ⟨[], _, rfl, rfl, rfl, hlisted'⟩
  | background =>
    obtain rfl := step_background.mp h
    exact ⟨[.background], _, (run_singleton_eq_some _).mpr (MemoApp.step_background.mpr rfl),
      trace_singleton _ _, rfl, hlisted'⟩
  | connectScene fetchOrder =>
    obtain rfl := step_connectScene.mp h
    exact ⟨[.connectScene fetchOrder], _, rfl, trace_singleton _ _, rfl, hlisted'⟩
  | relaunch fetchOrder =>
    obtain rfl := step_relaunch.mp h
    exact ⟨[.relaunch fetchOrder], _, rfl, trace_singleton _ _, rfl, hlisted'⟩

/-- **The two screens do what the app does.** A run of the screens in which no button is pressed for
a note that is already deleted in memory is a run of the app: the same buttons, pressed for the same
notes with the same texts and answered alike by Core Data, between the same background saves, scene
connections and relaunches, end in the same context and the same `noteList`, with the rows that the
table shows once it is on screen again. -/
theorem exists_run_of_pressesUndeleted {stored : List Note} {as : List ScreenAction}
    (hpress : AllSteps step PressesUndeleted (processStart stored) as)
    (h : run step (processStart stored) as = some s) :
    ∃ bs, run MemoApp.step (MemoApp.processStart stored) bs = some (viewDidAppear s.app) ∧
      trace MemoApp.step observeApp (MemoApp.processStart stored) bs =
        trace step observe (processStart stored) as := by
  obtain ⟨bs, t, hrun, hobs, rfl, -⟩ := exists_run_of_simulates
    (fun s t a s' hst ha hstep => exists_run_of_step hst ha hstep)
    ⟨rfl, fun vc hvc => absurd hvc (by simp [processStart])⟩ hpress h
  exact ⟨bs, hrun, hobs⟩

/-- On a new-note screen, Save is pressed once without success and once with. -/
theorem exists_run_of_pressesUndeleted_newNote :
    ∃ bs, (run MemoApp.step (MemoApp.processStart []) bs).map (fun s => s.viewContext.stored) =
        some [⟨0, some "", some "", none⟩, ⟨0, some "c", some "d", none⟩] ∧
      trace MemoApp.step observeApp (MemoApp.processStart []) bs =
        [.connectScene .insertion, .press none (.save (some "") (some "")) ⟨false, .insertion⟩,
          .press none (.save (some "c") (some "d")) ⟨true, .insertion⟩] := by
  have hnew : ∀ (app : AppState) (titleTF descTV : String) (r : Reply),
      PressesUndeleted ⟨app, some ⟨none, titleTF, descTV⟩⟩ (.save r) := by
    rintro app titleTF descTV r vc hvc i hi
    obtain rfl := Option.some.inj hvc
    exact absurd hi (by simp)
  obtain ⟨bs, hrun, hobs⟩ := @exists_run_of_pressesUndeleted _ []
    [.connectScene .insertion, .newNote, .save ⟨false, .insertion⟩, .type "c" "d",
      .save ⟨true, .insertion⟩]
    ((allSteps_cons_iff rfl).mpr ⟨trivial, (allSteps_cons_iff rfl).mpr ⟨trivial,
      (allSteps_cons_iff rfl).mpr ⟨hnew _ _ _ _, (allSteps_cons_iff rfl).mpr ⟨trivial,
        (allSteps_cons_iff rfl).mpr ⟨hnew _ _ _ _, trivial⟩⟩⟩⟩⟩) rfl
  exact ⟨bs, by rw [hrun]; rfl, hobs⟩

end Screens

end GuruPractice.MemoApp
