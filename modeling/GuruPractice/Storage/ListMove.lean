import Mathlib.Data.List.Perm.Basic

/-!
# Moving an element of a list

`moveIdx l i j` takes the element at position `i` out of `l` and inserts it at position `j` of what
is left. Elements are told apart by their positions, so equal elements do no harm: taking position
`j` out of the result leaves what taking position `i` out of `l` leaves, in the same order, and
moving the element back restores the list.

## Main results

* `Storage.getElem?_moveIdx`, `Storage.eraseIdx_moveIdx`, `Storage.moveIdx_perm`.
* `Storage.moveIdx_moveIdx`: a move is undone by the opposite move.
-/

namespace GuruPractice.Storage

variable {α : Type*} {l : List α} {i j : ℕ}

/-- The list with its element at `i` moved to `j`; a position `i` out of range moves nothing. -/
def moveIdx (l : List α) (i j : ℕ) : List α :=
  l[i]?.elim l fun x => (l.eraseIdx i).insertIdx j x

theorem moveIdx_eq (hi : i < l.length) (j : ℕ) :
    moveIdx l i j = (l.eraseIdx i).insertIdx j l[i] := by
  rw [moveIdx, List.getElem?_eq_getElem hi, Option.elim_some]

/-- A position of the list is one at which the element taken out can be inserted. -/
theorem le_length_eraseIdx (hi : i < l.length) (hj : j < l.length) :
    j ≤ (l.eraseIdx i).length := by
  rw [List.length_eraseIdx_of_lt hi]
  omega

/-- A move keeps every element. -/
theorem moveIdx_perm (hi : i < l.length) (hj : j < l.length) : (moveIdx l i j).Perm l := by
  rw [moveIdx_eq hi]
  exact (List.perm_insertIdx _ _ (le_length_eraseIdx hi hj)).trans
    (List.getElem_cons_eraseIdx_perm hi)

theorem length_moveIdx (hi : i < l.length) (hj : j < l.length) :
    (moveIdx l i j).length = l.length :=
  (moveIdx_perm hi hj).length_eq

/-- The moved element is at its new position. -/
theorem getElem?_moveIdx (hi : i < l.length) (hj : j < l.length) :
    (moveIdx l i j)[j]? = some l[i] := by
  rw [moveIdx_eq hi, List.getElem?_insertIdx_self, if_pos (le_length_eraseIdx hi hj)]

/-- The other elements keep their order. -/
theorem eraseIdx_moveIdx (hi : i < l.length) (j : ℕ) :
    (moveIdx l i j).eraseIdx j = l.eraseIdx i := by
  rw [moveIdx_eq hi, List.eraseIdx_insertIdx_self]

/-- **A move is undone by the opposite move.** -/
theorem moveIdx_moveIdx (hi : i < l.length) (hj : j < l.length) :
    moveIdx (moveIdx l i j) j i = l := by
  rw [moveIdx, getElem?_moveIdx hi hj, Option.elim_some, eraseIdx_moveIdx hi,
    List.insertIdx_eraseIdx_getElem hi]

end GuruPractice.Storage
