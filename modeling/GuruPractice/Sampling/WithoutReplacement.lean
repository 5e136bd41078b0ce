import Mathlib.Algebra.BigOperators.Fin
import Mathlib.Data.Fintype.BigOperators
import Mathlib.Data.List.NodupEquivFin
import Mathlib.Data.List.Permutation
import Mathlib.Data.Nat.Factorial.BigOperators

/-!
# Sampling without replacement

Elements are drawn from a pool one after the other: each draw names a position among the elements
that are left and takes the element there out. A draw of `n` elements from `m` is given by its
`Indices m n`, the `k`-th of which is one of `m - k` positions.

From a pool without repetitions, different indices draw different lists, and every list of different
elements of the pool is drawn. So among all indices, those that draw the elements of a given list,
in any order, are as many as there are orders (`card_takeOut_perm`).

## Main definitions

* `Sampling.takeOut`, `Sampling.Indices`, `Sampling.positions`.

## Main results

* `Sampling.takeOut_injective`, `Sampling.exists_takeOut`.
* `Sampling.card_indices`, `Sampling.card_takeOut_perm`.
-/

namespace GuruPractice.Sampling

open Nat

variable {α : Type*} {pool xs : List α} {is js : List ℕ}

/-- Take elements out of a list one after the other, each at a position of what is left; `none` when
a position is out of range. -/
def takeOut : List α → List ℕ → Option (List α)
  | _, [] => some []
  | pool, i :: is => do
    let x ← pool[i]?
    let xs ← takeOut (pool.eraseIdx i) is
    some (x :: xs)

theorem takeOut_cons {i : ℕ} (hi : i < pool.length) (is : List ℕ) :
    takeOut pool (i :: is) = (takeOut (pool.eraseIdx i) is).map fun xs => pool[i] :: xs := by
  rw [takeOut, List.getElem?_eq_getElem hi]
  cases takeOut (pool.eraseIdx i) is <;> rfl

theorem takeOut_cons_eq_some {i : ℕ} :
    takeOut pool (i :: is) = some xs ↔
      ∃ (hi : i < pool.length) (ys : List α),
        takeOut (pool.eraseIdx i) is = some ys ∧ pool[i] :: ys = xs := by
  simp only [takeOut, Option.bind_eq_bind, Option.bind_eq_some_iff, List.getElem?_eq_some_iff,
    Option.some.injEq]
  constructor
  · rintro ⟨x, ⟨hi, rfl⟩, ys, hys, rfl⟩
    exact ⟨hi, ys, hys, rfl⟩
  · rintro ⟨hi, ys, hys, rfl⟩
    exact ⟨_, ⟨hi, rfl⟩, ys, hys, rfl⟩

/-- As many elements are drawn as positions are named. -/
theorem length_of_takeOut (h : takeOut pool is = some xs) : xs.length = is.length := by
  induction is generalizing pool xs with
  | nil =>
    obtain rfl := Option.some.inj h
    rfl
  | cons i is ih =>
    obtain ⟨-, ys, hys, rfl⟩ := takeOut_cons_eq_some.mp h
    rw [List.length_cons, List.length_cons, ih hys]

/-- The drawn elements are elements of the pool, with their multiplicities. -/
theorem subperm_of_takeOut (h : takeOut pool is = some xs) : xs.Subperm pool := by
  induction is generalizing pool xs with
  | nil =>
    obtain rfl := Option.some.inj h
    exact List.nil_subperm
  | cons i is ih =>
    obtain ⟨hi, ys, hys, rfl⟩ := takeOut_cons_eq_some.mp h
    have hcons : (pool[i] :: ys).Subperm (pool[i] :: pool.eraseIdx i) :=
      (List.subperm_cons _).mpr (ih hys)
    exact hcons.trans (List.getElem_cons_eraseIdx_perm hi).subperm

/-- Elements drawn from a pool without repetitions are different. -/
theorem nodup_of_subperm (hpool : pool.Nodup) (hxs : xs.Subperm pool) : xs.Nodup := by
  obtain ⟨ys, hperm, hsub⟩ := hxs
  exact hperm.nodup_iff.mp (hpool.sublist hsub)

/-- Nothing is out of range exactly if every position is one of the elements that are left. -/
theorem isSome_takeOut_iff :
    (takeOut pool is).isSome ↔ ∀ k, (hk : k < is.length) → is[k] < pool.length - k := by
  induction is generalizing pool with
  | nil => simp [takeOut]
  | cons i is ih =>
    have hcons : (takeOut pool (i :: is)).isSome ↔
        i < pool.length ∧ (takeOut (pool.eraseIdx i) is).isSome := by
      simp only [Option.isSome_iff_exists, takeOut_cons_eq_some]
      exact ⟨fun ⟨_, hi, ys, hys, _⟩ => ⟨hi, ys, hys⟩, fun ⟨hi, ys, hys⟩ => ⟨_, hi, ys, hys, rfl⟩⟩
    rw [hcons, ih]
    constructor
    · rintro ⟨hi, his⟩ k hk
      cases k with
      | zero => exact hi
      | succ k =>
        have hlt := his k (Nat.lt_of_succ_lt_succ hk)
        rw [List.length_eraseIdx_of_lt hi] at hlt
        rw [List.getElem_cons_succ]
        omega
    · intro h
      have hi : i < pool.length := h 0 (Nat.zero_lt_succ _)
      refine ⟨hi, fun k hk => ?_⟩
      have hlt := h (k + 1) (Nat.succ_lt_succ hk)
      rw [List.getElem_cons_succ] at hlt
      rw [List.length_eraseIdx_of_lt hi]
      omega

/-- **Different positions draw different elements**, from a pool without repetitions. -/
theorem takeOut_injective (hpool : pool.Nodup) (his : takeOut pool is = some xs)
    (hjs : takeOut pool js = some xs) : is = js := by
  induction is generalizing pool js xs with
  | nil =>
    obtain rfl := Option.some.inj his
    exact (List.length_eq_zero_iff.mp (length_of_takeOut hjs).symm).symm
  | cons i is ih =>
    obtain ⟨hi, ys, hys, rfl⟩ := takeOut_cons_eq_some.mp his
    cases js with
    | nil => exact absurd (length_of_takeOut hjs) (by simp)
    | cons j js =>
      obtain ⟨hj, zs, hzs, heq⟩ := takeOut_cons_eq_some.mp hjs
      obtain ⟨hhead, rfl⟩ := List.cons.inj heq
      obtain rfl : j = i := (hpool.getElem_inj_iff).mp hhead
      rw [ih (hpool.eraseIdx j) hys hzs]

/-- **Every choice of elements is drawn** in every order. -/
theorem exists_takeOut (hxs : xs.Subperm pool) : ∃ is, takeOut pool is = some xs := by
  induction xs generalizing pool with
  | nil => exact ⟨[], rfl⟩
  | cons x xs ih =>
    obtain ⟨i, hi, hx⟩ := List.getElem_of_mem (hxs.subset List.mem_cons_self)
    have hrest : xs.Subperm (pool.eraseIdx i) := by
      rw [← List.subperm_cons x, ← hx]
      exact (hx ▸ hxs).trans (List.getElem_cons_eraseIdx_perm hi).symm.subperm
    obtain ⟨is, his⟩ := ih hrest
    exact ⟨i :: is, takeOut_cons_eq_some.mpr ⟨hi, xs, his, by rw [hx]⟩⟩

/-! ### Counting draws -/

/-- The positions of a draw of `n` elements from `m`: the `k`-th is one of the `m - k` positions
that are left. -/
abbrev Indices (m n : ℕ) := (k : Fin n) → Fin (m - k)

theorem card_indices (m n : ℕ) : Fintype.card (Indices m n) = m.descFactorial n := by
  rw [Fintype.card_pi, Nat.descFactorial_eq_prod_range, Finset.prod_range]
  exact Finset.prod_congr rfl fun k _ => Fintype.card_fin _

variable {m n : ℕ}

/-- The positions as a list. -/
def positions (indices : Indices m n) : List ℕ := List.ofFn fun k => (indices k : ℕ)

@[simp] theorem length_positions (indices : Indices m n) : (positions indices).length = n :=
  List.length_ofFn

theorem positions_injective : Function.Injective (positions : Indices m n → List ℕ) := by
  intro indices indices' h
  funext k
  exact Fin.ext (congrFun (List.ofFn_injective h) k)

/-- The positions of a draw are never out of range. -/
theorem isSome_takeOut_positions (hpool : pool.length = m) (indices : Indices m n) :
    (takeOut pool (positions indices)).isSome := by
  refine isSome_takeOut_iff.mpr fun k hk => ?_
  simp only [positions, List.getElem_ofFn, hpool]
  exact (indices _).isLt

/-- Positions that are not out of range are those of a draw. -/
theorem exists_positions_eq (hpool : pool.length = m) (his : takeOut pool is = some xs)
    (hn : xs.length = n) : ∃ indices : Indices m n, positions indices = is := by
  obtain rfl : is.length = n := (length_of_takeOut his).symm.trans hn
  have hvalid := isSome_takeOut_iff.mp (Option.isSome_of_eq_some his)
  refine ⟨fun k => ⟨is[k], hpool ▸ hvalid k k.isLt⟩, ?_⟩
  exact List.ofFn_getElem

/-- **Every choice is drawn equally often**: as often as its elements can be ordered. -/
theorem card_takeOut_perm [DecidableEq α] {l : List α} (hpool : pool.Nodup)
    (hm : pool.length = m) (hl : l.Subperm pool) (hn : l.length = n) :
    Finset.card {indices : Indices m n | ∃ xs ∈ takeOut pool (positions indices), xs.Perm l} =
      n ! := by
  have hcard : l.permutations.toFinset.card = n ! := by
    rw [List.toFinset_card_of_nodup (List.nodup_permutations l (nodup_of_subperm hpool hl)),
      List.length_permutations, hn]
  rw [← hcard]
  refine Finset.card_nbij (fun indices => (takeOut pool (positions indices)).getD []) ?_ ?_ ?_
  · intro indices hindices
    obtain ⟨xs, hxs, hperm⟩ := (Finset.mem_filter.mp hindices).2
    simpa [Option.mem_def.mp hxs] using hperm
  · intro indices hindices indices' hindices' heq
    obtain ⟨xs, hxs, -⟩ := (Finset.mem_filter.mp hindices).2
    obtain ⟨ys, hys, -⟩ := (Finset.mem_filter.mp hindices').2
    simp only [Option.mem_def.mp hxs, Option.mem_def.mp hys, Option.getD_some] at heq
    exact positions_injective (takeOut_injective hpool hxs (heq ▸ hys))
  · intro xs hxs
    have hperm : xs.Perm l := by simpa using hxs
    obtain ⟨is, his⟩ := exists_takeOut (hperm.subperm.trans hl)
    obtain ⟨indices, rfl⟩ := exists_positions_eq hm his (hperm.length_eq.trans hn)
    refine ⟨indices, Finset.mem_filter.mpr ⟨Finset.mem_univ _, xs, his, hperm⟩, ?_⟩
    simp only [his, Option.getD_some]

end GuruPractice.Sampling
