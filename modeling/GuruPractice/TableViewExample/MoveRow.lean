import GuruPractice.TableViewExample.MemoTable

/-!
# Moving a row of the memo table

`moveRowAt` reads the memo of the old row, removes it, and inserts it at the new row of the list
that is left. This file shows that the new row needs no correction for the removal, in either
direction and at the ends of the list: the memo is then at the new row, the other memos have kept
their order, and dragging the memo back restores the list.

## Main results

* `TableViewExample.moveRowAt_reorders`.
-/

namespace GuruPractice.TableViewExample

open Storage Transition

/-- **A moved row.** On any list, a move of rows in range does not trap. The result has the same
memos, with the moved one at the new row, and without it the list is what it was without it before;
the array under `MemoData` is the result. Moving the memo back restores and stores the list. -/
theorem moveRowAt_reorders (s : AppState) {fromRow toRow : ℕ}
    (hfrom : fromRow < s.datasource.length) (hto : toRow < s.datasource.length) :
    ∃ s', Block.exec (moveRowAt s fromRow toRow) s = some s' ∧
      s'.datasource.Perm s.datasource ∧
      s'.datasource[toRow]? = some s.datasource[fromRow] ∧
      s'.datasource.eraseIdx toRow = s.datasource.eraseIdx fromRow ∧
      s'.memoData = some (s'.datasource.map Element.string) ∧
      ∃ s'', Block.exec (moveRowAt s' toRow fromRow) s' = some s'' ∧
        s''.datasource = s.datasource ∧
        s''.memoData = some (s.datasource.map Element.string) := by
  refine ⟨_, exec_moveRowAt s hfrom hto, moveIdx_perm hfrom hto, getElem?_moveIdx hfrom hto,
    eraseIdx_moveIdx hfrom toRow, rfl, ?_⟩
  have hlen := length_moveIdx hfrom hto
  have hback := moveIdx_moveIdx hfrom hto
  refine ⟨_, exec_moveRowAt _ (Nat.lt_of_lt_of_eq hto hlen.symm)
    (Nat.lt_of_lt_of_eq hfrom hlen.symm), hback, ?_⟩
  exact congrArg (fun memos => some (memos.map Element.string)) hback

/-- The first of two equal memos is moved to the end of a list, and back. -/
theorem moveRowAt_reorders_equal_texts :
    let s := viewDidLoad (some [.string "a", .string "a", .string "b"])
    ∃ s', Block.exec (moveRowAt s 0 2) s = some s' ∧
      s'.datasource.Perm ["a", "a", "b"] ∧
      s'.datasource[2]? = some "a" ∧
      s'.datasource.eraseIdx 2 = ["a", "b"] ∧
      s'.memoData = some (s'.datasource.map Element.string) ∧
      ∃ s'', Block.exec (moveRowAt s' 2 0) s' = some s'' ∧
        s''.datasource = ["a", "a", "b"] ∧
        s''.memoData = some (["a", "a", "b"].map Element.string) :=
  moveRowAt_reorders (viewDidLoad (some [.string "a", .string "a", .string "b"]))
    (show 0 < 3 by decide) (show 2 < 3 by decide)

end GuruPractice.TableViewExample
