import GuruPractice.TableViewExample.CrashSafety

/-!
# Empty memos

`addMemo` refuses an empty text, so that the list would never have an empty memo. The Modify button
of the alert, however, accepts any text. Every statement of the handlers but that assignment keeps
the list and the stored array free of empty memos; so they stay free of them exactly as long as
every edit types a text.

## Main definitions

* `TableViewExample.NoEmptyMemo`.
* `TableViewExample.Action.EditsToText` — the condition on a single action.

## Main results

* `TableViewExample.noEmptyMemo_of_step`.
* `TableViewExample.noEmptyMemo_iff_editsToText`.
-/

namespace GuruPractice.TableViewExample

open Transition

/-- The array under `MemoData`, if there is one, holds nonempty strings only. -/
def StoresNoEmptyMemo (memoData : Option (List Element)) : Prop :=
  ∀ value ∈ memoData, ∀ e ∈ value, ∃ memo, memo ≠ "" ∧ e = Element.string memo

/-- There is no empty memo in the list or in the stored array. -/
structure NoEmptyMemo (s : AppState) : Prop where
  ne_of_mem : ∀ memo ∈ s.datasource, memo ≠ ""
  stores : StoresNoEmptyMemo s.memoData

/-- An edit types a text. -/
def Action.EditsToText : Action → Prop
  | .edit _ text => text ≠ ""
  | _ => True

/-- The action of an event, if it has one. -/
def Event.action? : Event → Option Action
  | .completed a | .killed a _ => some a
  | .relaunch => none

/-! ### Restored memos -/

private theorem map_string_of_mapM {value : List Element} {memos : List String}
    (h : value.mapM Element.asString? = some memos) : memos.map Element.string = value := by
  induction value generalizing memos with
  | nil =>
    obtain rfl : [] = memos := Option.some.inj h
    rfl
  | cons e value ih =>
    cases e with
    | other => simp [Element.asString?] at h
    | string memo =>
      rw [List.mapM_cons] at h
      obtain ⟨memos', hmemos, hcons⟩ : ∃ memos', value.mapM Element.asString? = some memos' ∧
          some (memo :: memos') = some memos := Option.bind_eq_some_iff.mp h
      obtain rfl := Option.some.inj hcons
      rw [List.map_cons, ih hmemos]

/-- A memo that a launch restores is in the stored array. -/
private theorem mem_of_mem_restored {memoData : Option (List Element)} {memo : String}
    (h : memo ∈ restored memoData) : ∃ value ∈ memoData, Element.string memo ∈ value := by
  cases memoData with
  | none => simp [restored] at h
  | some value =>
    refine ⟨value, rfl, ?_⟩
    cases hcast : value.mapM Element.asString? with
    | none => simp [restored, hcast] at h
    | some memos =>
      rw [restored, Option.bind_some, hcast, Option.getD_some] at h
      exact map_string_of_mapM hcast ▸ List.mem_map_of_mem h

/-- A launch restores no empty memo. -/
theorem noEmptyMemo_viewDidLoad {memoData : Option (List Element)}
    (h : StoresNoEmptyMemo memoData) : NoEmptyMemo (viewDidLoad memoData) := by
  refine ⟨fun memo hmemo => ?_, h⟩
  obtain ⟨value, hvalue, hmem⟩ := mem_of_mem_restored hmemo
  obtain ⟨memo', hne, heq⟩ := h value hvalue _ hmem
  rwa [Element.string.inj heq]

/-! ### The statements of the handlers -/

/-- The statement brings no empty memo into the list or the stored array. -/
private def BringsNoEmptyMemo (st : Stmt AppState) : Prop :=
  ∀ s s', NoEmptyMemo s → st s = some s' → NoEmptyMemo s'

private theorem bringsNoEmptyMemo_of_keeps {st : Stmt AppState}
    (h : st.Keeps AppState.memos) : BringsNoEmptyMemo st := by
  intro s s' hs hst
  obtain ⟨hdata, hsto⟩ := Prod.mk.inj (h s s' hst)
  exact ⟨hdata ▸ hs.ne_of_mem, hsto ▸ hs.stores⟩

/-- A statement that changes the list, to a list with the memos it had and perhaps one more. -/
private theorem bringsNoEmptyMemo_of_mem {st : Stmt AppState} {memo : String} (hmemo : memo ≠ "")
    (h : ∀ s s', st s = some s' →
      s'.memoData = s.memoData ∧ ∀ m ∈ s'.datasource, m ∈ s.datasource ∨ m = memo) :
    BringsNoEmptyMemo st := by
  intro s s' hs hst
  obtain ⟨hsto, hmem⟩ := h s s' hst
  refine ⟨fun m hm => ?_, hsto ▸ hs.stores⟩
  rcases hmem m hm with hold | rfl
  · exact hs.ne_of_mem m hold
  · exact hmemo

private theorem bringsNoEmptyMemo_setValue : BringsNoEmptyMemo setValue := by
  intro s s' hs hst
  obtain rfl := Option.some.inj hst
  refine ⟨hs.ne_of_mem, fun value hvalue e he => ?_⟩
  obtain rfl := Option.some.inj hvalue
  obtain ⟨memo, hmemo, rfl⟩ := List.mem_map.mp he
  exact ⟨memo, hs.ne_of_mem memo hmemo, rfl⟩

private theorem bringsNoEmptyMemo_append {memo : String} (hmemo : memo ≠ "") :
    BringsNoEmptyMemo (append memo) := by
  refine bringsNoEmptyMemo_of_mem hmemo fun s s' hst => ?_
  obtain rfl := Option.some.inj hst
  exact ⟨rfl, fun m hm => by simpa using hm⟩

private theorem bringsNoEmptyMemo_assign (row : ℕ) {text : String} (htext : text ≠ "") :
    BringsNoEmptyMemo (assign row text) := by
  refine bringsNoEmptyMemo_of_mem htext fun s s' hst => ?_
  obtain ⟨-, hs'⟩ := Option.ite_none_right_eq_some.mp hst
  obtain rfl := Option.some.inj hs'
  exact ⟨rfl, fun m hm => List.mem_or_eq_of_mem_set hm⟩

private theorem bringsNoEmptyMemo_insert {data : String} (hdata : data ≠ "") (row : ℕ) :
    BringsNoEmptyMemo (insert data row) := by
  refine bringsNoEmptyMemo_of_mem hdata fun s s' hst => ?_
  obtain ⟨-, hs'⟩ := Option.ite_none_right_eq_some.mp hst
  obtain rfl := Option.some.inj hs'
  exact ⟨rfl, fun m hm => (List.eq_or_mem_of_mem_insertIdx hm).symm⟩

private theorem bringsNoEmptyMemo_remove (row : ℕ) : BringsNoEmptyMemo (remove row) := by
  intro s s' hs hst
  obtain ⟨-, hs'⟩ := Option.ite_none_right_eq_some.mp hst
  obtain rfl := Option.some.inj hs'
  exact ⟨fun m hm => hs.ne_of_mem m (List.mem_of_mem_eraseIdx hm), hs.stores⟩

/-- Only an edit to an empty text has a statement that brings an empty memo. -/
private theorem bringsNoEmptyMemo_of_mem_block {s : AppState} (hs : NoEmptyMemo s) {a : Action}
    (ha : a.EditsToText) : ∀ st ∈ block s a, BringsNoEmptyMemo st := by
  cases a with
  | add text =>
    by_cases htext : text = ""
    · simp [block, addMemo, htext, bringsNoEmptyMemo_of_keeps, keeps_setMemoText]
    · simp [block, addMemo, htext, saveData, bringsNoEmptyMemo_append htext,
        bringsNoEmptyMemo_setValue, bringsNoEmptyMemo_of_keeps, keeps_setMemoText,
        keeps_synchronize, keeps_reloadData]
  | edit row text =>
    simp [block, editHandler, saveData, bringsNoEmptyMemo_assign row ha,
      bringsNoEmptyMemo_setValue, bringsNoEmptyMemo_of_keeps, keeps_presentEditAlert,
      keeps_reloadRows, keeps_synchronize]
  | cancelEdit row => simp [block, bringsNoEmptyMemo_of_keeps, keeps_presentEditAlert]
  | move fromRow toRow =>
    cases hdata : s.datasource[fromRow]? with
    | none => simp [block, moveRowAt, hdata, BringsNoEmptyMemo]
    | some data =>
      have hne : data ≠ "" := hs.ne_of_mem data (List.mem_of_getElem? hdata)
      simp [block, moveRowAt, hdata, saveData, bringsNoEmptyMemo_remove,
        bringsNoEmptyMemo_insert hne, bringsNoEmptyMemo_setValue, bringsNoEmptyMemo_of_keeps,
        keeps_synchronize, keeps_reloadData]
  | delete row =>
    simp [block, deleteHandler, saveData, bringsNoEmptyMemo_remove, bringsNoEmptyMemo_setValue,
      bringsNoEmptyMemo_of_keeps, keeps_reloadData, keeps_synchronize]

/-! ### One event -/

/-- Events whose edits type a text bring no empty memo, also if the process is killed in them. -/
theorem noEmptyMemo_of_step {s s' : AppState} {e : Event} (hs : NoEmptyMemo s)
    (he : ∀ a ∈ e.action?, a.EditsToText) (h : step s e = some s') : NoEmptyMemo s' := by
  have hblock : ∀ a ∈ e.action?, ∀ k, NoEmptyMemo (Block.killedAfter k (block s a) s) :=
    fun a ha k => Block.reached_induction
      (fun st hst => bringsNoEmptyMemo_of_mem_block hs (he a ha) st (List.mem_of_mem_take hst)) hs
  cases e with
  | completed a =>
    rw [← Block.reached_of_exec h, ← Block.killedAfter_of_length_le (Nat.le_refl _)]
    exact hblock a rfl _
  | killed a k =>
    obtain rfl := Option.some.inj h
    exact noEmptyMemo_viewDidLoad (hblock a rfl k).stores
  | relaunch =>
    obtain rfl := Option.some.inj h
    exact noEmptyMemo_viewDidLoad hs.stores

/-- A completed edit to an empty text puts it into the list. -/
theorem not_noEmptyMemo_of_edit {s s' : AppState} {row : ℕ}
    (h : step s (.completed (.edit row "")) = some s') : ¬NoEmptyMemo s' := by
  obtain ⟨s₁, -, h⟩ := Option.bind_eq_some_iff.mp h
  obtain ⟨s₂, hassign, h⟩ := Option.bind_eq_some_iff.mp h
  obtain ⟨hrow, hs₂⟩ := Option.ite_none_right_eq_some.mp hassign
  obtain rfl := Option.some.inj hs₂
  have hset : Stmt.Keeps AppState.datasource setValue := Stmt.keeps_some fun _ => rfl
  have hrest : ∀ st ∈ reloadRows row :: saveData, Stmt.Keeps AppState.datasource st := by
    simp only [saveData, List.forall_mem_cons]
    exact ⟨(keeps_reloadRows row).comp Prod.fst, hset, keeps_synchronize.comp Prod.fst, by simp⟩
  have hkeep : s'.datasource = s₁.datasource.set row "" := Block.exec_keeps hrest h
  intro hs'
  exact hs'.ne_of_mem "" (hkeep ▸ List.mem_set hrow "") rfl

/-! ### Whole runs -/

/-- **No empty memo exactly as long as edits type a text.** In a run that starts with no empty memo
stored, neither the list nor the stored array ever has an empty memo if and only if every edit types
a text. -/
theorem noEmptyMemo_iff_editsToText {memoData : Option (List Element)}
    (hmemoData : StoresNoEmptyMemo memoData) {es : List Event} {t : AppState}
    (hes : ∀ a k, Event.killed a k ∉ es) (hrun : run step (viewDidLoad memoData) es = some t) :
    (∀ bs, bs <+: es → ∀ s, run step (viewDidLoad memoData) bs = some s → NoEmptyMemo s) ↔
      ∀ row text, .completed (.edit row text) ∈ es → text ≠ "" := by
  have hiff := forall_prefix_iff_allSteps (P := NoEmptyMemo)
    (C := fun _ e => ∀ row text, e = Event.completed (.edit row text) → text ≠ "")
    (A := fun e => ∀ a k, e ≠ Event.killed a k) (fun _ hs => hs) ?_ ?_
    (fun e he a k hek => hes a k (hek ▸ he)) (noEmptyMemo_viewDidLoad hmemoData) hrun
  · rw [hiff, allSteps_const_iff hrun]
    exact ⟨fun h row text hmem => h _ hmem row text rfl,
      fun h e he row text heq => h row text (heq ▸ he)⟩
  · intro s e s' hs hA hC hstep
    refine noEmptyMemo_of_step hs (fun a ha => ?_) hstep
    cases e with
    | completed a' =>
      obtain rfl := Option.some.inj ha
      cases a' with
      | edit row text => exact hC row text rfl
      | _ => trivial
    | killed a' k => exact absurd rfl (hA a' k)
    | relaunch => exact absurd ha (by simp [Event.action?])
  · intro s e s' hs _ hC hstep
    simp only [not_forall, not_not] at hC
    obtain ⟨row, text, rfl, rfl⟩ := hC
    exact not_noEmptyMemo_of_edit hstep

/-- Two memos are added, and one of them is edited to another text. -/
theorem noEmptyMemo_iff_editsToText_edit :
    (∀ bs, bs <+: [.completed (.add "a"), .completed (.add "b"), .completed (.edit 0 "c")] →
      ∀ s, run step (viewDidLoad none) bs = some s → NoEmptyMemo s) ↔
      ∀ row text, Event.completed (.edit row text) ∈
        [.completed (.add "a"), .completed (.add "b"), .completed (.edit 0 "c")] → text ≠ "" :=
  noEmptyMemo_iff_editsToText (by simp [StoresNoEmptyMemo]) (by simp) rfl

/-- **An edit to an empty text.** -/
theorem not_noEmptyMemo_edit :
    ¬∀ s, run step (viewDidLoad none) [.completed (.add "a"), .completed (.edit 0 "")] = some s →
      NoEmptyMemo s :=
  fun h => (h _ rfl).ne_of_mem "" (List.mem_singleton.mpr rfl) rfl

end GuruPractice.TableViewExample
