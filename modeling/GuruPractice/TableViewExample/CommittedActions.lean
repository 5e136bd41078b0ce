import GuruPractice.TableViewExample.CrashSafety

/-!
# The memo table is a durable list

What the memo table is for: a list of memos that outlives the process. An action takes effect when
it sets the value of `MemoData`, and not before: of a history of actions, kills and relaunches, the
list is the result of the actions that were completed or killed after that statement, in their
order, and of no others.

## Main definitions

* `TableViewExample.Event.committed` — the actions that an event makes take effect.

## Main results

* `TableViewExample.restored_killedAfter_eq`: a killed action, exactly.
* `TableViewExample.datasource_eq_applyAll_committed`.
-/

namespace GuruPractice.TableViewExample

open Storage Transition

/-! ### When an action takes effect -/

/-- The actions that take effect in an event: a completed one, and a killed one if it had stored the
list. -/
def Event.committed : Event → List Action
  | .completed a => [a]
  | .killed a k =>
    match a.storesAt with
    | some n => if n < k then [a] else []
    | none => []
  | .relaunch => []

/-- Without storing the list, an action does nothing to it. -/
theorem apply_of_storesAt_eq_none {a : Action} (ha : a.storesAt = none) (memos : List String) :
    a.apply memos = memos := by
  cases a with
  | add text =>
    have htext : text = "" := by
      by_contra htext
      simp [Action.storesAt, htext] at ha
    simp [Action.apply, htext]
  | cancelEdit row => rfl
  | edit row text => exact absurd ha (by simp [Action.storesAt])
  | move fromRow toRow => exact absurd ha (by simp [Action.storesAt])
  | delete row => exact absurd ha (by simp [Action.storesAt])

/-- The effect of a list of actions. -/
def applyAll (l : List Action) (memos : List String) : List String :=
  l.foldl (fun memos a => a.apply memos) memos

/-- **A killed action, exactly.** The next launch restores the list from after the action if its
`setValue` was executed, and the list from before it if not. -/
theorem restored_killedAfter_eq {s : AppState} (hs : CopiesAgree s) {a : Action} (ha : a.OnTable s)
    (k : ℕ) :
    restored (Block.killedAfter k (block s a) s).memoData =
      applyAll (Event.killed a k).committed s.datasource := by
  obtain ⟨s', hexec, hdata, hs', -⟩ := hs.exists_step_completed ha
  have hexec : Block.exec (block s a) s = some s' := hexec
  rcases block_storesAt s a with ⟨hkeep, hnone⟩ | ⟨pre, post, hat, hblock, hpre, hpost⟩
  · have hat : a.storesAt = none := hnone.resolve_right (by simp [hexec])
    rw [Block.killedAfter_keeps hkeep s k, hs.restored_eq, Event.committed, hat]
    rfl
  · rw [hblock] at hexec ⊢
    rw [Block.killedAfter_eq_ite hpre hpost hexec k, Event.committed, hat]
    by_cases hk : pre.length < k
    · rw [if_pos hk, hs'.restored_eq, hdata]
      simp [hk, applyAll]
    · rw [if_neg hk, hs.restored_eq]
      simp [hk, applyAll]

/-- Every event does to the list what it commits. -/
theorem exists_step_committed {s : AppState} {e : Event} (hs : CopiesAgree s) (he : e.OnTable s) :
    ∃ s', step s e = some s' ∧ CopiesAgree s' ∧
      s'.datasource = applyAll e.committed s.datasource := by
  cases e with
  | completed a =>
    obtain ⟨s', hstep, hdata, hs', -⟩ := hs.exists_step_completed he
    exact ⟨s', hstep, hs', hdata⟩
  | killed a k =>
    exact ⟨_, rfl, copiesAgree_viewDidLoad _, restored_killedAfter_eq hs he k⟩
  | relaunch => exact ⟨_, rfl, copiesAgree_viewDidLoad _, hs.restored_eq⟩

/-! ### Histories -/

/-- Events one after the other do to the list what they commit. -/
theorem exists_run_committed {s : AppState} {es : List Event} (hs : CopiesAgree s)
    (hes : AllSteps step Event.OnTable s es) :
    ∃ s', run step s es = some s' ∧ CopiesAgree s' ∧
      s'.datasource = applyAll (es.flatMap Event.committed) s.datasource := by
  induction es generalizing s with
  | nil => exact ⟨s, rfl, hs, rfl⟩
  | cons e es ih =>
    obtain ⟨s₁, hs₁, hagree, hdata⟩ := exists_step_committed hs hes.1
    obtain ⟨s', hrun, hs', hdata'⟩ := ih hagree (hes.2 s₁ hs₁)
    refine ⟨s', (run_cons_eq_some step).mpr ⟨s₁, hs₁, hrun⟩, hs', ?_⟩
    rw [hdata', hdata, List.flatMap_cons, applyAll, applyAll, applyAll, List.foldl_append]

/-- **The memo table is a durable list.** After any history of actions on the rows of the table, of
kills at any statement and of relaunches, nothing has trapped, and the list is what the actions that
took effect make of the first one, in their order: those that were completed and those killed after
their `setValue`. The table shows it, and the next launch restores it. -/
theorem datasource_eq_applyAll_committed (memoData : Option (List Element)) {es : List Event}
    (hes : AllSteps step Event.OnTable (viewDidLoad memoData) es) :
    ∃ s, run step (viewDidLoad memoData) es = some s ∧
      s.datasource = applyAll (es.flatMap Event.committed) (restored memoData) ∧
      s.rows = numbered s.datasource ∧ restored s.memoData = s.datasource := by
  obtain ⟨s, hs, hagree, hdata⟩ := exists_run_committed (copiesAgree_viewDidLoad memoData) hes
  exact ⟨s, hs, hdata, hagree.rows_eq, hagree.restored_eq⟩

/-- Two memos are added; a move is killed before its `setValue`, and a deletion after it. -/
theorem datasource_eq_applyAll_committed_killed :
    ∃ s, run step (viewDidLoad none) [.completed (.add "a"), .completed (.add "b"),
        .killed (.move 0 1) 2, .killed (.delete 0) 3] = some s ∧
      s.datasource = ["b"] ∧ s.rows = numbered s.datasource ∧
      restored s.memoData = s.datasource := by
  have hrows : 0 < 2 ∧ 1 < 2 := by decide
  refine datasource_eq_applyAll_committed none ?_
  refine (allSteps_cons_iff rfl).mpr ⟨trivial, (allSteps_cons_iff rfl).mpr ⟨trivial, ?_⟩⟩
  refine (allSteps_cons_iff rfl).mpr ⟨hrows, (allSteps_cons_iff rfl).mpr ⟨?_, trivial⟩⟩
  exact hrows.1

end GuruPractice.TableViewExample
