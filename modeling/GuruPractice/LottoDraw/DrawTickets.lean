import Mathlib.Data.Finset.Sort
import Mathlib.Data.Int.ConditionallyCompleteOrder
import Mathlib.Data.Int.Interval
import Mathlib.Order.ConditionallyCompleteLattice.Basic
import GuruPractice.LottoDraw.LottoScreen
import GuruPractice.Sampling.WithoutReplacement

/-!
# The draw is correct and fair

The inner loop of `doDraw` draws six of 45 numbers without replacement: `Int.random` gives an index
of the numbers that are left, and the number there is removed. A ticket is the sorted result, so its
six numbers are different and increase strictly. It is determined by six indices, the first of which
is one of 45, the second one of 44, and so on, and every set of six numbers is the ticket of equally
many sequences of indices.

## Main definitions

* `LottoDraw.RandomSource.indices` — the values of `Int.random` during the draw of a ticket.
* `LottoDraw.ticketOf` — the ticket that is drawn with given values.

## Main results

* `LottoDraw.drawNumbers_eq_takeOut`: the inner loop draws without replacement.
* `LottoDraw.exec_doDraw`: a draw does not trap, and gives the tickets of its indices.
* `LottoDraw.card_ticketOf`: every six numbers are a ticket equally often.
* `LottoDraw.doDraw_correct_and_fair`.
-/

namespace GuruPractice.LottoDraw

open Sampling Transition

/-! ### The indices of a ticket -/

/-- The values of `Int.random` during the draw of a ticket that begins with the given call. -/
def RandomSource.indices (source : RandomSource) (call : ℕ) : Indices 45 6 := fun k =>
  ⟨source.value (call + k) (45 - k), source.value_lt _ _ (by omega)⟩

/-- The source whose first values are the given ones. -/
def RandomSource.ofIndices (indices : Indices 45 6) : RandomSource where
  value call count :=
    if h : call < 6 then min (indices ⟨call, h⟩ : ℕ) (count - 1) else 0
  value_lt call count hcount := by
    split_ifs <;> omega

theorem RandomSource.indices_ofIndices (indices : Indices 45 6) :
    (RandomSource.ofIndices indices).indices 0 = indices := by
  funext k
  have hk := k.isLt
  have hlt := (indices k).isLt
  refine Fin.ext ?_
  simp only [RandomSource.indices, RandomSource.ofIndices, Nat.zero_add, hk, dif_pos]
  change min (indices k : ℕ) (45 - k - 1) = indices k
  omega

/-- The ticket that is drawn with the given values of `Int.random`. -/
def ticketOf (indices : Indices 45 6) : Option (List ℤ) :=
  (drawNumbers (.ofIndices indices) 6 0 originalNumbers []).map fun columnArray =>
    columnArray.insertionSort (· ≤ ·)

/-! ### The loops -/

/-- **The inner loop draws without replacement.** -/
theorem drawNumbers_eq_takeOut (source : RandomSource) {n : ℕ} (call : ℕ) {pool : List ℤ}
    (columnArray : List ℤ) (hn : n ≤ pool.length) :
    drawNumbers source n call pool columnArray =
      (takeOut pool (List.ofFn fun k : Fin n =>
        source.value (call + k) (pool.length - k))).map fun drawn => columnArray ++ drawn := by
  induction n generalizing call pool columnArray with
  | zero => simp [drawNumbers, takeOut]
  | succ n ih =>
    have hpos : 0 < pool.length := by omega
    have hlt := source.value_lt call pool.length hpos
    have hlen : (pool.eraseIdx (source.value call pool.length)).length = pool.length - 1 :=
      List.length_eraseIdx_of_lt hlt
    have hget : pool[source.value call pool.length]? = some pool[source.value call pool.length] :=
      List.getElem?_eq_getElem hlt
    have htail : (fun k : Fin n => source.value (call + k.succ) (pool.length - k.succ)) =
        fun k : Fin n => source.value (call + 1 + k)
          ((pool.eraseIdx (source.value call pool.length)).length - k) := by
      funext k
      rw [Fin.val_succ, hlen, Nat.sub_sub, Nat.add_right_comm, Nat.add_assoc, Nat.add_comm 1]
    rw [List.ofFn_succ, htail, Fin.val_zero, Nat.add_zero call, Nat.sub_zero]
    simp only [drawNumbers, RandomSource.random, if_pos hpos, hget, Option.bind_eq_bind,
      Option.bind_some]
    rw [ih (call + 1) _ (by omega), takeOut_cons hlt, Option.map_map]
    refine congrArg (fun f => Option.map f _) (funext fun drawn => ?_)
    rw [List.append_assoc, List.singleton_append]
    rfl

/-- A ticket is determined by its indices. -/
theorem drawNumbers_originalNumbers (source : RandomSource) (call : ℕ) :
    drawNumbers source 6 call originalNumbers [] =
      takeOut originalNumbers (positions (source.indices call)) := by
  rw [drawNumbers_eq_takeOut source call [] (by decide)]
  exact Option.map_id'

theorem ticketOf_eq (indices : Indices 45 6) :
    ticketOf indices = (takeOut originalNumbers (positions indices)).map fun columnArray =>
      columnArray.insertionSort (· ≤ ·) := by
  rw [ticketOf, drawNumbers_originalNumbers, RandomSource.indices_ofIndices]

/-! ### Tickets -/

theorem nodup_originalNumbers : originalNumbers.Nodup := by
  decide

theorem length_originalNumbers : originalNumbers.length = 45 := rfl

theorem mem_originalNumbers {n : ℤ} : n ∈ originalNumbers ↔ 1 ≤ n ∧ n ≤ 45 := by
  rw [originalNumbers, List.mem_map]
  constructor
  · rintro ⟨i, hi, rfl⟩
    have hlt := List.mem_range.mp hi
    omega
  · intro h
    refine ⟨(n - 1).toNat, ?_, ?_⟩
    · rw [List.mem_range]
      omega
    · omega

/-- Every ticket has six numbers between 1 and 45, in strictly increasing order. -/
theorem exists_ticketOf (indices : Indices 45 6) :
    ∃ numbers, ticketOf indices = some numbers ∧ IsTicket numbers ∧
      numbers.Pairwise (· < ·) := by
  obtain ⟨drawn, hdrawn⟩ :=
    Option.isSome_iff_exists.mp (isSome_takeOut_positions length_originalNumbers indices)
  have hsub := subperm_of_takeOut hdrawn
  have hperm := List.perm_insertionSort (· ≤ ·) drawn
  refine ⟨_, by rw [ticketOf_eq, hdrawn, Option.map_some], ⟨?_, fun x hx => ?_⟩, ?_⟩
  · rw [List.length_insertionSort, length_of_takeOut hdrawn, length_positions]
  · exact mem_originalNumbers.mp (hsub.subset (hperm.mem_iff.mp hx))
  · have hnodup := hperm.nodup_iff.mpr (nodup_of_subperm nodup_originalNumbers hsub)
    exact (List.sortedLE_insertionSort.sortedLT_of_nodup hnodup).pairwise

/-- **The outer loop** draws the tickets of its indices. -/
theorem exists_drawTickets (source : RandomSource) (n call : ℕ) (lottoNumbers : List (List ℤ)) :
    ∃ tickets, drawTickets source n call lottoNumbers = some (lottoNumbers ++ tickets) ∧
      tickets.map some = (List.range n).map fun k => ticketOf (source.indices (call + 6 * k)) := by
  induction n generalizing call lottoNumbers with
  | zero => exact ⟨[], by rw [drawTickets, List.append_nil], rfl⟩
  | succ n ih =>
    obtain ⟨numbers, hnumbers, -, -⟩ := exists_ticketOf (source.indices call)
    obtain ⟨tickets, htickets, hmap⟩ := ih (call + 6) (lottoNumbers ++ [numbers])
    refine ⟨numbers :: tickets, ?_, ?_⟩
    · rw [ticketOf_eq, ← drawNumbers_originalNumbers] at hnumbers
      obtain ⟨drawn, hdrawn, rfl⟩ := Option.map_eq_some_iff.mp hnumbers
      simp only [drawTickets, hdrawn, Option.bind_eq_bind, Option.bind_some]
      rw [htickets, List.append_assoc, List.singleton_append]
    · rw [List.map_cons, hmap, List.range_succ_eq_map, List.map_cons, List.map_map, ← hnumbers]
      refine congrArg₂ List.cons rfl (List.map_congr_left fun k _ => ?_)
      rw [Function.comp_apply, Nat.succ_eq_add_one, Nat.mul_succ, Nat.add_right_comm, Nat.add_assoc]

/-- **A draw** takes and shows the five tickets of the values of `Int.random`. -/
theorem exec_doDraw (source : RandomSource) (s : AppState) :
    ∃ tickets, Block.exec (doDraw source) s =
        some { s with lottoNumbers := tickets, rows := tickets.map labels } ∧
      (∀ numbers ∈ tickets, IsTicket numbers ∧ numbers.Pairwise (· < ·)) ∧
      tickets.map some = (List.range 5).map fun k => ticketOf (source.indices (6 * k)) := by
  obtain ⟨tickets, hdraw, hmap⟩ := exists_drawTickets source 5 0 []
  rw [List.nil_append] at hdraw
  simp only [Nat.zero_add] at hmap
  have htickets : ∀ numbers ∈ tickets, IsTicket numbers ∧ numbers.Pairwise (· < ·) := by
    intro numbers hnumbers
    have hmem : some numbers ∈ (List.range 5).map fun k => ticketOf (source.indices (6 * k)) :=
      hmap ▸ List.mem_map_of_mem hnumbers
    obtain ⟨k, -, hk⟩ := List.mem_map.mp hmem
    obtain ⟨numbers', heq, hticket⟩ := exists_ticketOf (source.indices (6 * k))
    obtain rfl := Option.some.inj (heq.symm.trans hk)
    exact hticket
  have hreload := reloadData_eq (s := { s with lottoNumbers := tickets })
    fun numbers h => (htickets numbers h).1.length_eq
  exact ⟨tickets, by simp [doDraw, clear, hdraw, hreload], htickets, hmap⟩

/-! ### Fairness -/

/-- **Every six numbers are a ticket equally often.** -/
theorem card_ticketOf {S : Finset ℤ} (hS : S ⊆ Finset.Icc 1 45) (hcard : S.card = 6) :
    Finset.card {indices | ticketOf indices = some (S.sort (· ≤ ·))} = 720 := by
  have hmem : ∀ indices : Indices 45 6, ticketOf indices = some (S.sort (· ≤ ·)) ↔
      ∃ drawn ∈ takeOut originalNumbers (positions indices), drawn.Perm (S.sort (· ≤ ·)) := by
    intro indices
    rw [ticketOf_eq, Option.map_eq_some_iff]
    refine exists_congr fun drawn => and_congr_right fun _ => ⟨fun h => ?_, fun h => ?_⟩
    · exact h ▸ (List.perm_insertionSort (· ≤ ·) drawn).symm
    · have hsorted := (List.perm_insertionSort (· ≤ ·) drawn).trans h
      exact hsorted.eq_of_sortedLE List.sortedLE_insertionSort S.sortedLT_sort.sortedLE
  have hsub : (S.sort (· ≤ ·)).Subperm originalNumbers := by
    refine List.subperm_of_subset (Finset.sort_nodup _ _) fun x hx => ?_
    exact mem_originalNumbers.mpr (Finset.mem_Icc.mp (hS ((Finset.mem_sort _).mp hx)))
  simp only [hmem]
  exact card_takeOut_perm nodup_originalNumbers length_originalNumbers hsub
    ((Finset.length_sort _).trans hcard)

/-- **The draw is correct and fair.** Whatever `Int.random` returns, a draw does not trap: no range
is empty and no index out of range. Then there are five tickets, each of six strictly increasing
numbers between 1 and 45, and they are the tickets of the successive indices. There are
45 · 44 · 43 · 42 · 41 · 40 sequences of indices of a ticket, and every set of six numbers between 1
and 45 is the ticket of 720 of them. -/
theorem doDraw_correct_and_fair :
    (∀ (source : RandomSource) (s : AppState), ∃ s', Block.exec (doDraw source) s = some s' ∧
      s'.lottoNumbers.length = 5 ∧
      (∀ numbers ∈ s'.lottoNumbers, IsTicket numbers ∧ numbers.Pairwise (· < ·)) ∧
      s'.lottoNumbers.map some =
        (List.range 5).map fun k => ticketOf (source.indices (6 * k))) ∧
    Fintype.card (Indices 45 6) = 45 * 44 * 43 * 42 * 41 * 40 ∧
    ∀ S : Finset ℤ, S ⊆ Finset.Icc 1 45 → S.card = 6 →
      Finset.card {indices | ticketOf indices = some (S.sort (· ≤ ·))} = 720 := by
  refine ⟨fun source s => ?_, (card_indices 45 6).trans (by decide), fun S => card_ticketOf⟩
  obtain ⟨tickets, hexec, htickets, hmap⟩ := exec_doDraw source s
  have hlen : tickets.length = 5 := by
    simpa using congrArg List.length hmap
  exact ⟨_, hexec, hlen, htickets, hmap⟩

/-- The six lowest numbers are the ticket of 720 sequences of indices. -/
theorem doDraw_correct_and_fair_lowest :
    Finset.card {indices | ticketOf indices = some [1, 2, 3, 4, 5, 6]} = 720 := by
  have hfair := doDraw_correct_and_fair.2.2 [1, 2, 3, 4, 5, 6].toFinset (by decide) (by decide)
  rwa [(List.toFinset_sort (· ≤ ·) (by decide)).mpr (by decide)] at hfair

end GuruPractice.LottoDraw
