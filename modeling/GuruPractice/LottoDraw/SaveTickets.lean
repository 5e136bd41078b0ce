import GuruPractice.LottoDraw.LottoScreen

/-!
# What a save leaves in the table

`doSave` deletes all records and inserts the tickets one by one, outside a transaction, and goes on
after an insert that fails. Killed or failing at any point, it leaves the previous tickets if the
delete has not taken effect, and otherwise the tickets whose inserts were executed and succeeded.

## Main definitions

* `LottoDraw.insertedTickets`.

## Main results

* `LottoDraw.exec_doSave`, `LottoDraw.exec_doSave_of_lotto_eq_none` — a save that is not killed.
* `LottoDraw.savedTickets_killedAfter_doSave` — a save stopped anywhere.
-/

namespace GuruPractice.LottoDraw

open Storage Transition

/-- The tickets whose inserts succeed. -/
def insertedTickets (r : Reply) (tickets : List (List ℤ × ℕ)) : List (List ℤ) :=
  (tickets.filter fun ticket => r.inserted ticket.2).map Prod.fst

/-- The inserted tickets are some of the given ones, in their order. -/
theorem insertedTickets_sublist (r : Reply) (tickets : List (List ℤ × ℕ)) :
    (insertedTickets r tickets).Sublist (tickets.map Prod.fst) :=
  List.filter_sublist.map Prod.fst

theorem insertedTickets_eq {r : Reply} {tickets : List (List ℤ × ℕ)}
    (h : ∀ ticket ∈ tickets, r.inserted ticket.2 = true) :
    insertedTickets r tickets = tickets.map Prod.fst := by
  rw [insertedTickets, List.filter_eq_self.mpr h]

/-- The table `lotto` of the file becomes `lotto`. -/
def AppState.withLotto (s : AppState) (lotto : AutoincrementTable LottoRow) : AppState :=
  { s with file := some { lotto := some lotto } }

@[simp] theorem savedTickets_withLotto (s : AppState) (lotto : AutoincrementTable LottoRow) :
    (s.withLotto lotto).savedTickets = lotto.select.map LottoRow.numbers := rfl

theorem AppState.withLotto_eq_self {s : AppState} {lotto : AutoincrementTable LottoRow}
    (h : s.lotto = some lotto) : s.withLotto lotto = s := by
  rw [withLotto, ← file_eq h]

/-! ### Statements on an existing table -/

section Statements

variable (s : AppState) (lotto : AutoincrementTable LottoRow)

theorem openFile_withLotto : openFile (s.withLotto lotto) = some (s.withLotto lotto) := rfl

theorem deleteFromLotto_withLotto (deleted : Bool) :
    deleteFromLotto deleted (s.withLotto lotto) =
      if deleted then some (s.withLotto lotto.deleteAll) else none := rfl

theorem insertIntoLotto_withLotto {numbers : List ℤ} (hsix : numbers.length = 6)
    (inserted : Bool) :
    insertIntoLotto numbers inserted (s.withLotto lotto) =
      some (s.withLotto (if inserted then lotto.insert (columns.zip numbers) else lotto)) := by
  rw [insertIntoLotto, sixNumbers_eq hsix]
  cases inserted <;> rfl

/-- The inserts of `doSave`: those that succeed take effect in order, the others not at all. -/
theorem exec_insertIntoLotto (r : Reply) {tickets : List (List ℤ × ℕ)}
    (hsix : ∀ ticket ∈ tickets, ticket.1.length = 6) :
    Block.exec (tickets.map fun ticket => insertIntoLotto ticket.1 (r.inserted ticket.2))
        (s.withLotto lotto) =
      some (s.withLotto (lotto.insertAll ((insertedTickets r tickets).map columns.zip))) := by
  induction tickets generalizing lotto with
  | nil => rfl
  | cons ticket tickets ih =>
    obtain ⟨hticket, hsix⟩ := List.forall_mem_cons.mp hsix
    rw [List.map_cons, Block.exec_cons, insertIntoLotto_withLotto _ _ hticket, Option.bind_some,
      ih _ hsix, insertedTickets, insertedTickets, List.filter_cons]
    by_cases hins : r.inserted ticket.2
    · rw [if_pos hins, if_pos hins, List.map_cons, List.map_cons, AutoincrementTable.insertAll_cons]
    · rw [if_neg hins, if_neg hins]

end Statements

/-! ### The save -/

theorem length_of_mem_zipIdx {lottoNumbers : List (List ℤ)}
    (hsix : ∀ numbers ∈ lottoNumbers, numbers.length = 6) {ticket : List ℤ × ℕ}
    (h : ticket ∈ lottoNumbers.zipIdx) : ticket.1.length = 6 :=
  hsix _ (List.fst_mem_of_mem_zipIdx h)

/-- The tickets read back are the inserted ones. -/
theorem savedTickets_insertAll (s : AppState) (lotto : AutoincrementTable LottoRow)
    {tickets : List (List ℤ)} (hsix : ∀ numbers ∈ tickets, numbers.length = 6) :
    (s.withLotto (lotto.deleteAll.insertAll (tickets.map columns.zip))).savedTickets = tickets := by
  rw [savedTickets_withLotto, AutoincrementTable.select_insertAll,
    AutoincrementTable.select_deleteAll, List.nil_append, List.map_map]
  exact (List.map_congr_left fun numbers h => numbers_zip (hsix numbers h)).trans (List.map_id _)

theorem length_of_mem_insertedTickets {r : Reply} {tickets : List (List ℤ × ℕ)}
    (hsix : ∀ ticket ∈ tickets, ticket.1.length = 6) {numbers : List ℤ}
    (h : numbers ∈ insertedTickets r tickets) : numbers.length = 6 := by
  obtain ⟨ticket, hticket, rfl⟩ := List.mem_map.mp h
  exact hsix ticket (List.mem_filter.mp hticket).1

/-- Without the table, the delete fails and aborts the app. -/
theorem exec_doSave_of_lotto_eq_none {s : AppState} {r : Reply} (hlotto : s.lotto = none)
    (hopen : r.opened = true) : Block.exec (doSave s r) s = none := by
  have hdelete : deleteFromLotto r.deleted { s with file := some (s.file.getD {}) } = none := by
    cases hfile : s.file with
    | none => rfl
    | some db =>
      have hdb : db.lotto = none := by rwa [AppState.lotto, hfile, Option.bind_some] at hlotto
      simp [deleteFromLotto, hdb]
  rw [doSave, if_pos hopen, Block.exec_cons, openFile, Option.bind_some, Block.exec_cons, hdelete,
    Option.bind_none]

section Save

variable {s : AppState} {lotto : AutoincrementTable LottoRow} (r : Reply)
  (hlotto : s.lotto = some lotto) (hsix : ∀ numbers ∈ s.lottoNumbers, numbers.length = 6)

include hlotto hsix

/-- A save that is not killed aborts if the delete fails. -/
theorem exec_doSave :
    Block.exec (doSave s r) s =
      if r.opened then
        if r.deleted then
          some (s.withLotto (lotto.deleteAll.insertAll
            ((insertedTickets r s.lottoNumbers.zipIdx).map columns.zip)))
        else none
      else some s := by
  cases hopen : r.opened with
  | false => rw [doSave, hopen]; rfl
  | true =>
    rw [doSave, hopen, if_pos rfl, if_pos rfl]
    conv_lhs => rw [← AppState.withLotto_eq_self hlotto]
    rw [Block.exec_cons, openFile_withLotto, Option.bind_some, Block.exec_cons,
      deleteFromLotto_withLotto]
    cases hdel : r.deleted with
    | false => rfl
    | true =>
      rw [if_pos rfl, if_pos rfl, Option.bind_some]
      exact exec_insertIntoLotto s _ r fun ticket h => length_of_mem_zipIdx hsix h

/-- A save whose statements succeed writes what is in memory. -/
theorem exec_doSave_of_succeeds {r : Reply} (hr : r.Succeeds) :
    Block.exec (doSave s r) s =
      some (s.withLotto (lotto.deleteAll.insertAll (s.lottoNumbers.map columns.zip))) := by
  rw [exec_doSave r hlotto hsix, hr.opened, hr.deleted, if_pos rfl, if_pos rfl,
    insertedTickets_eq fun ticket _ => hr.inserted ticket.2, List.zipIdx_map_fst]

theorem killedAfter_doSave (k : ℕ) :
    Block.killedAfter k (doSave s r) s =
      if r.opened ∧ r.deleted ∧ 2 ≤ k then
        s.withLotto (lotto.deleteAll.insertAll
          ((insertedTickets r (s.lottoNumbers.zipIdx.take (k - 2))).map columns.zip))
      else s := by
  cases hopen : r.opened with
  | false =>
    rw [doSave, hopen, if_neg Bool.false_ne_true, Block.killedAfter_nil, if_neg (by simp)]
  | true =>
    have hs := AppState.withLotto_eq_self hlotto
    rw [doSave, hopen, if_pos rfl]
    rcases k with _ | _ | k
    · rw [Block.killedAfter_zero, if_neg (by omega)]
    · rw [if_neg (by omega), Block.killedAfter_succ_cons, ← hs, openFile_withLotto]
      rfl
    · rw [Block.killedAfter_succ_cons, ← hs, openFile_withLotto, Option.elim_some,
        Block.killedAfter_succ_cons, deleteFromLotto_withLotto]
      cases hdel : r.deleted with
      | false => rfl
      | true =>
        rw [if_pos rfl, if_pos ⟨rfl, rfl, by omega⟩, Option.elim_some, Block.killedAfter,
          ← List.map_take, show k + 1 + 1 - 2 = k from rfl]
        refine Block.reached_of_exec (exec_insertIntoLotto s _ r fun ticket h => ?_)
        exact length_of_mem_zipIdx hsix (List.mem_of_mem_take h)

/-- **What a save leaves.** Killed after `k` statements, or completed if there are no more, a save
leaves the previous tickets unless the delete has succeeded, and then exactly the tickets whose
inserts were executed and succeeded, in their order. If every statement succeeds and is executed,
these are all of `lottoNumbers`. -/
theorem savedTickets_killedAfter_doSave (k : ℕ) :
    (Block.killedAfter k (doSave s r) s).savedTickets =
        (if r.opened ∧ r.deleted ∧ 2 ≤ k then
          insertedTickets r (s.lottoNumbers.zipIdx.take (k - 2))
        else s.savedTickets) ∧
      (r.Succeeds → s.lottoNumbers.length + 2 ≤ k →
        (Block.killedAfter k (doSave s r) s).savedTickets = s.lottoNumbers) := by
  have hleft : (Block.killedAfter k (doSave s r) s).savedTickets =
      if r.opened ∧ r.deleted ∧ 2 ≤ k then
        insertedTickets r (s.lottoNumbers.zipIdx.take (k - 2))
      else s.savedTickets := by
    rw [killedAfter_doSave r hlotto hsix]
    by_cases hk : r.opened ∧ r.deleted ∧ 2 ≤ k
    · rw [if_pos hk, if_pos hk]
      refine savedTickets_insertAll s lotto fun numbers h => ?_
      refine length_of_mem_insertedTickets (fun ticket hticket => ?_) h
      exact length_of_mem_zipIdx hsix (List.mem_of_mem_take hticket)
    · rw [if_neg hk, if_neg hk]
  refine ⟨hleft, fun hr hk => ?_⟩
  have hlen : s.lottoNumbers.zipIdx.length ≤ k - 2 := by
    rw [List.length_zipIdx]
    omega
  rw [hleft, if_pos ⟨hr.opened, hr.deleted, by omega⟩, List.take_of_length_le hlen,
    insertedTickets_eq fun ticket _ => hr.inserted ticket.2, List.zipIdx_map_fst]

end Save

/-- A save of two tickets over another, killed between the inserts or not, with the first insert
failing or not. -/
theorem savedTickets_killedAfter_doSave_two :
    let lotto : AutoincrementTable LottoRow := .insert .empty (columns.zip [1, 2, 3, 4, 5, 6])
    let s : AppState :=
      { processStart (some ⟨lotto⟩) with
        lottoNumbers := [[7, 8, 9, 10, 11, 12], [13, 14, 15, 16, 17, 18]] }
    let r : Reply := { inserted := fun i => i != 0 }
    (Block.killedAfter 3 (doSave s r) s).savedTickets = [] ∧
      (Block.killedAfter 4 (doSave s r) s).savedTickets = [[13, 14, 15, 16, 17, 18]] ∧
      (Block.killedAfter 3 (doSave s {}) s).savedTickets = [[7, 8, 9, 10, 11, 12]] ∧
      (Block.killedAfter 4 (doSave s {}) s).savedTickets = s.lottoNumbers :=
  ⟨(savedTickets_killedAfter_doSave _ rfl (by decide) 3).1,
    (savedTickets_killedAfter_doSave _ rfl (by decide) 4).1,
    (savedTickets_killedAfter_doSave {} rfl (by decide) 3).1,
    (savedTickets_killedAfter_doSave {} rfl (by decide) 4).2 Reply.succeeds_default (by decide)⟩

/-- A save whose first insert fails leaves neither the previous tickets nor all of the new ones. -/
theorem not_savedTickets_all_or_nothing :
    ¬∀ (s : AppState) (r : Reply) (k : ℕ), s.lotto.isSome →
      (∀ numbers ∈ s.lottoNumbers, numbers.length = 6) → r.opened = true → r.deleted = true →
      (Block.killedAfter k (doSave s r) s).savedTickets = s.savedTickets ∨
        (Block.killedAfter k (doSave s r) s).savedTickets = s.lottoNumbers := by
  intro h
  have hsaved := h
    { processStart (some { lotto := some (.insert .empty (columns.zip [1, 2, 3, 4, 5, 6])) }) with
      lottoNumbers := [[7, 8, 9, 10, 11, 12], [13, 14, 15, 16, 17, 18]] }
    { inserted := fun i => i != 0 } 4 rfl (by decide) rfl rfl
  revert hsaved
  decide

end GuruPractice.LottoDraw
