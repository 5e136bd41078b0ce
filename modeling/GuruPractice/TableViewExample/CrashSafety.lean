import GuruPractice.TableViewExample.MemoTable

/-!
# Memo lists survive a crash

Every handler of the memo table sets the value of `MemoData` at most once, from the list it has
completely changed by then. A process killed anywhere in a handler therefore finds, at the next
launch, the list from before the handler or the list from after it, and completed handlers leave the
list, the user defaults and the table in agreement.

## Main definitions

* `TableViewExample.CopiesAgree` — the table and the user defaults hold the list.
* `TableViewExample.Action.storesAt` — the statement of an action that stores the list.

## Main results

* `TableViewExample.block_storesAt`, `TableViewExample.block_sets_memoData_once`.
* `TableViewExample.copiesAgree_and_survive_crash`.
-/

namespace GuruPractice.TableViewExample

open Transition

/-- The table shows the list, and a launch would restore it. -/
structure CopiesAgree (s : AppState) : Prop where
  rows_eq : s.rows = numbered s.datasource
  restored_eq : restored s.memoData = s.datasource

theorem copiesAgree_viewDidLoad (memoData : Option (List Element)) :
    CopiesAgree (viewDidLoad memoData) :=
  ⟨rfl, rfl⟩

/-! ### Statements that leave the user defaults alone -/

private theorem keeps_of_memos {st : Stmt AppState} (h : st.Keeps AppState.memos) :
    st.Keeps AppState.memoData :=
  h.comp Prod.snd

private theorem keeps_append (memo : String) : Stmt.Keeps AppState.memoData (append memo) :=
  Stmt.keeps_some fun _ => rfl

private theorem keeps_assign (row : ℕ) (text : String) :
    Stmt.Keeps AppState.memoData (assign row text) := by
  refine Stmt.Keeps.ite ?_ _
  exact Stmt.keeps_some fun _ => rfl

private theorem keeps_remove (row : ℕ) : Stmt.Keeps AppState.memoData (remove row) := by
  refine Stmt.Keeps.ite ?_ _
  exact Stmt.keeps_some fun _ => rfl

private theorem keeps_insert (data : String) (row : ℕ) :
    Stmt.Keeps AppState.memoData (insert data row) := by
  refine Stmt.Keeps.ite ?_ _
  exact Stmt.keeps_some fun _ => rfl

/-- The number of statements of an action that come before `setValue`; `none` when the action does
not store the list. -/
def Action.storesAt : Action → Option ℕ
  | .add text => if text ≠ "" then some 3 else none
  | .edit _ _ => some 3
  | .cancelEdit _ => none
  | .move _ _ => some 2
  | .delete _ => some 2

/-- The statements of a block, around the one that sets the value of `MemoData`; a block without it
belongs to an action that does not store the list, or traps. -/
theorem block_storesAt (s : AppState) (a : Action) :
    ((∀ st ∈ block s a, Stmt.Keeps AppState.memoData st) ∧
      (a.storesAt = none ∨ Block.exec (block s a) s = none)) ∨
    ∃ pre post, a.storesAt = some pre.length ∧ block s a = pre ++ setValue :: post ∧
      (∀ st ∈ pre, Stmt.Keeps AppState.memoData st) ∧
      ∀ st ∈ post, Stmt.Keeps AppState.memoData st := by
  cases a with
  | add text =>
    by_cases htext : text = ""
    · left
      simp [block, addMemo, htext, keeps_setMemoText, keeps_of_memos, Action.storesAt]
    · refine Or.inr ⟨[setMemoText text, append text, setMemoText ""], [synchronize, reloadData],
        ?_, ?_, ?_, ?_⟩
      · simp [Action.storesAt, htext]
      · simp [block, addMemo, htext, saveData]
      · simp [keeps_setMemoText, keeps_append, keeps_of_memos]
      · simp [keeps_synchronize, keeps_reloadData, keeps_of_memos]
  | edit row text =>
    refine Or.inr ⟨[presentEditAlert row, assign row text, reloadRows row], [synchronize],
      rfl, rfl, ?_, ?_⟩
    · simp [keeps_presentEditAlert, keeps_assign, keeps_reloadRows, keeps_of_memos]
    · simp [keeps_synchronize, keeps_of_memos]
  | cancelEdit row =>
    left
    simp [block, keeps_presentEditAlert, keeps_of_memos, Action.storesAt]
  | move fromRow toRow =>
    cases hdata : s.datasource[fromRow]? with
    | none =>
      left
      simp [block, moveRowAt, hdata, Stmt.Keeps]
    | some data =>
      refine Or.inr ⟨[remove fromRow, insert data toRow], [synchronize, reloadData], rfl, ?_, ?_,
        ?_⟩
      · simp [block, moveRowAt, hdata, saveData]
      · simp [keeps_remove, keeps_insert]
      · simp [keeps_synchronize, keeps_reloadData, keeps_of_memos]
  | delete row =>
    refine Or.inr ⟨[remove row, reloadData], [synchronize], rfl, rfl, ?_, ?_⟩
    · simp [keeps_remove, keeps_reloadData, keeps_of_memos]
    · simp [keeps_synchronize, keeps_of_memos]

/-- The statements of a block, one of which may set the value of `MemoData`. -/
theorem block_sets_memoData_once (s : AppState) (a : Action) :
    (∀ st ∈ block s a, Stmt.Keeps AppState.memoData st) ∨
    ∃ pre post, block s a = pre ++ setValue :: post ∧
      (∀ st ∈ pre, Stmt.Keeps AppState.memoData st) ∧
      ∀ st ∈ post, Stmt.Keeps AppState.memoData st := by
  rcases block_storesAt s a with ⟨hkeep, -⟩ | ⟨pre, post, -, hblock⟩
  · exact Or.inl hkeep
  · exact Or.inr ⟨pre, post, hblock⟩

/-! ### One action -/

namespace CopiesAgree

variable {s s' : AppState} {a : Action} (hs : CopiesAgree s)

include hs

/-- Completed actions keep the copies in agreement. -/
theorem exists_step_completed (ha : a.OnTable s) :
    ∃ s', step s (.completed a) = some s' ∧ s'.datasource = a.apply s.datasource ∧
      CopiesAgree s' ∧
      (s'.datasource ≠ s.datasource →
        s'.memoData = some (s'.datasource.map Element.string)) := by
  obtain ⟨s', hexec, hdata, hrows, hsto⟩ := exists_exec_block hs.rows_eq ha
  refine ⟨s', hexec, hdata, ⟨hrows, ?_⟩, fun hne => ?_⟩
  · rcases hsto with hsto | ⟨hsto, hsame⟩
    · rw [hsto, restored_map_string]
    · rw [hsto, hsame, hs.restored_eq]
  · rcases hsto with hsto | ⟨-, hsame⟩
    · exact hsto
    · exact absurd hsame hne

/-- Wherever a process is killed, the next launch restores the old or the new list. -/
theorem restored_killedAfter (hs' : CopiesAgree s') (h : step s (.completed a) = some s') (k : ℕ) :
    restored (Block.killedAfter k (block s a) s).memoData = s.datasource ∨
      restored (Block.killedAfter k (block s a) s).memoData = s'.datasource := by
  rw [← hs.restored_eq, ← hs'.restored_eq]
  rcases block_sets_memoData_once s a with hkeep | ⟨pre, post, hblock, hpre, hpost⟩
  · exact Or.inl (congrArg restored (Block.killedAfter_keeps hkeep s k))
  · rw [step, hblock] at h
    rw [hblock]
    rcases Block.killedAfter_eq_or_eq hpre hpost h k with hold | hnew
    · exact Or.inl (congrArg restored hold)
    · exact Or.inr (congrArg restored hnew)

/-- Every event on the rows of the table can happen, and leaves the copies in agreement. -/
theorem exists_step {e : Event} (he : e.OnTable s) :
    ∃ s', step s e = some s' ∧ CopiesAgree s' := by
  cases e with
  | completed a =>
    obtain ⟨s', hstep, -, hagree, -⟩ := hs.exists_step_completed he
    exact ⟨s', hstep, hagree⟩
  | killed a k => exact ⟨_, rfl, copiesAgree_viewDidLoad _⟩
  | relaunch => exact ⟨_, rfl, copiesAgree_viewDidLoad _⟩

end CopiesAgree

/-! ### Whole runs -/

/-- **The copies of the list agree, and survive a crash.** In a run of actions on the rows of the
table, of kills and of relaunches, nothing traps, and the next action `a` on the rows of the table
does to the list what it is for. When it is completed, the table shows the list, and if the list has
changed, it is the array under `MemoData`. When the process is killed anywhere in it, the next
launch restores the list from before or the list from after it. -/
theorem copiesAgree_and_survive_crash (memoData : Option (List Element)) {es : List Event}
    (hes : AllSteps step Event.OnTable (viewDidLoad memoData) es) :
    ∃ s, run step (viewDidLoad memoData) es = some s ∧ ∀ a : Action, a.OnTable s →
      ∃ s', step s (.completed a) = some s' ∧ s'.datasource = a.apply s.datasource ∧
        s'.rows = numbered s'.datasource ∧
        (s'.datasource ≠ s.datasource →
          s'.memoData = some (s'.datasource.map Element.string)) ∧
        ∀ k t, step s (.killed a k) = some t →
          t.datasource = s.datasource ∨ t.datasource = s'.datasource := by
  obtain ⟨s, hrun, hs⟩ := exists_run_of_allSteps (I := CopiesAgree)
    (fun s e hs he => hs.exists_step he) (copiesAgree_viewDidLoad memoData) hes
  refine ⟨s, hrun, fun a ha => ?_⟩
  obtain ⟨s', hstep, hdata, hs', hsto⟩ := hs.exists_step_completed ha
  refine ⟨s', hstep, hdata, hs'.rows_eq, hsto, fun k t ht => ?_⟩
  obtain rfl := Option.some.inj ht
  exact hs.restored_killedAfter hs' hstep k

/-- Two memos are added, the first is edited, and the process is killed while it moves one. -/
theorem copiesAgree_and_survive_crash_move :
    ∃ s, run step (viewDidLoad none) [.completed (.add "a"), .completed (.add "b"),
        .completed (.edit 0 "c"), .killed (.move 0 1) 3] = some s ∧ ∀ a : Action, a.OnTable s →
      ∃ s', step s (.completed a) = some s' ∧ s'.datasource = a.apply s.datasource ∧
        s'.rows = numbered s'.datasource ∧
        (s'.datasource ≠ s.datasource →
          s'.memoData = some (s'.datasource.map Element.string)) ∧
        ∀ k t, step s (.killed a k) = some t →
          t.datasource = s.datasource ∨ t.datasource = s'.datasource := by
  refine copiesAgree_and_survive_crash none ?_
  have hrows : 0 < 2 ∧ 1 < 2 := by decide
  refine (allSteps_cons_iff rfl).mpr ⟨trivial, (allSteps_cons_iff rfl).mpr ⟨trivial, ?_⟩⟩
  refine (allSteps_cons_iff rfl).mpr ⟨hrows.1, (allSteps_cons_iff rfl).mpr ⟨?_, trivial⟩⟩
  exact hrows

end GuruPractice.TableViewExample
