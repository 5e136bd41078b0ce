import Mathlib.Data.List.Nodup
import Mathlib.Data.List.Perm.Subperm
import Mathlib.Logic.Function.Basic

/-!
# Obligations that are settled exactly once

A component that takes callbacks owes each of them one call. A *ledger* numbers the obligations in
the order in which they are issued, and keeps those that are pending under a key, such as the
resource they wait for, and those that are settled. A ledger is *balanced* when every issued
obligation is either pending under exactly one key or settled exactly once. The entries of a ledger,
one by one, keep it balanced; when nothing is pending any more, every obligation has been settled
exactly once.

## Main definitions

* `Transition.Ledger`, `Transition.Ledger.Entry`, `Transition.Ledger.Balanced`.

## Main results

* `Transition.Ledger.Balanced.entry`.
* `Transition.Ledger.Balanced.count_settled`.
-/

namespace GuruPractice.Transition

variable {κ : Type*} [DecidableEq κ]

/-- Obligations, numbered in the order in which they are issued. -/
@[ext] structure Ledger (κ : Type*) where
  /-- The number of obligations that have been issued. -/
  issued : ℕ
  pending : κ → List ℕ
  settled : List ℕ

namespace Ledger

variable {l l' : Ledger κ}

/-- The next obligation is issued, and is pending under a key. -/
def issue (l : Ledger κ) (k : κ) : Ledger κ where
  issued := l.issued + 1
  pending := Function.update l.pending k (l.pending k ++ [l.issued])
  settled := l.settled

/-- The next obligation is issued and settled at once. -/
def issueSettled (l : Ledger κ) : Ledger κ where
  issued := l.issued + 1
  pending := l.pending
  settled := l.settled ++ [l.issued]

/-- One obligation is settled. -/
def settle (l : Ledger κ) (k : κ) (n : ℕ) : Ledger κ where
  issued := l.issued
  pending := Function.update l.pending k ((l.pending k).erase n)
  settled := l.settled ++ [n]

/-- All obligations under a key are settled. -/
def settleAll (l : Ledger κ) (k : κ) : Ledger κ where
  issued := l.issued
  pending := Function.update l.pending k []
  settled := l.settled ++ l.pending k

/-- The obligations under one key are pending under another. -/
def transfer (l : Ledger κ) (k k' : κ) : Ledger κ where
  issued := l.issued
  pending := Function.update (Function.update l.pending k []) k' (l.pending k' ++ l.pending k)
  settled := l.settled

/-- One entry of a ledger. -/
inductive Entry (l : Ledger κ) : Ledger κ → Prop
  | none : Entry l l
  | issue (k : κ) : Entry l (l.issue k)
  | issueSettled : Entry l l.issueSettled
  | settle {k : κ} {n : ℕ} (h : n ∈ l.pending k) : Entry l (l.settle k n)
  | settleAll (k : κ) : Entry l (l.settleAll k)
  | transfer {k k' : κ} (h : k ≠ k') : Entry l (l.transfer k k')

theorem Entry.congr {l₁ : Ledger κ} (h : l.Entry l') (hissued : l₁.issued = l'.issued)
    (hpending : l₁.pending = l'.pending) (hsettled : l₁.settled = l'.settled) : l.Entry l₁ :=
  Ledger.ext hissued hpending hsettled ▸ h

/-- What is settled stays settled, in the order in which it was. -/
theorem Entry.settled_prefix (h : l.Entry l') : l.settled <+: l'.settled := by
  cases h with
  | none => exact List.prefix_rfl
  | issue k => exact List.prefix_rfl
  | issueSettled => exact List.prefix_append _ _
  | settle hn => exact List.prefix_append _ _
  | settleAll k => exact List.prefix_append _ _
  | transfer hk => exact List.prefix_rfl

/-- Every issued obligation is pending under one key or settled, and is so once. -/
structure Balanced (l : Ledger κ) : Prop where
  nodup_settled : l.settled.Nodup
  nodup_pending : ∀ k, (l.pending k).Nodup
  eq_of_pending : ∀ k k' n, n ∈ l.pending k → n ∈ l.pending k' → k = k'
  notMem_settled : ∀ k n, n ∈ l.pending k → n ∉ l.settled
  lt_issued_iff : ∀ n, n < l.issued ↔ n ∈ l.settled ∨ ∃ k, n ∈ l.pending k

theorem mem_pending_issue {k k' : κ} {n : ℕ} :
    n ∈ (l.issue k).pending k' ↔ n ∈ l.pending k' ∨ k' = k ∧ n = l.issued := by
  by_cases hk : k' = k
  · subst hk
    simp [issue]
  · simp [issue, hk]

theorem mem_pending_settleAll {k k' : κ} {n : ℕ} :
    n ∈ (l.settleAll k).pending k' ↔ n ∈ l.pending k' ∧ k' ≠ k := by
  by_cases hk : k' = k
  · subst hk
    simp [settleAll]
  · simp [settleAll, hk]

theorem mem_pending_transfer {k k' k₁ : κ} {n : ℕ} (hk : k ≠ k') :
    n ∈ (l.transfer k k').pending k₁ ↔
      n ∈ l.pending k₁ ∧ k₁ ≠ k ∨ n ∈ l.pending k ∧ k₁ = k' := by
  by_cases hk' : k₁ = k'
  · subst hk'
    simp [transfer, hk.symm]
  · by_cases hk₁ : k₁ = k
    · subst hk₁
      simp [transfer, hk]
    · simp [transfer, hk', hk₁]

omit [DecidableEq κ] in
theorem balanced_empty : (⟨0, fun _ => [], []⟩ : Ledger κ).Balanced :=
  ⟨List.nodup_nil, fun _ => List.nodup_nil, by simp, by simp, by simp⟩

namespace Balanced

variable (h : l.Balanced)

include h

theorem mem_pending_settle {k k' : κ} {n m : ℕ} :
    m ∈ (l.settle k n).pending k' ↔ m ∈ l.pending k' ∧ ¬(k' = k ∧ m = n) := by
  by_cases hk : k' = k
  · subst hk
    simp [Ledger.settle, (h.nodup_pending k').mem_erase_iff, and_comm]
  · simp [Ledger.settle, hk]

omit [DecidableEq κ] in
theorem issued_notMem_settled : l.issued ∉ l.settled := fun hmem =>
  Nat.lt_irrefl _ ((h.lt_issued_iff _).mpr (Or.inl hmem))

omit [DecidableEq κ] in
theorem issued_notMem_pending (k : κ) : l.issued ∉ l.pending k := fun hmem =>
  Nat.lt_irrefl _ ((h.lt_issued_iff _).mpr (Or.inr ⟨k, hmem⟩))

theorem issue (k : κ) : (l.issue k).Balanced where
  nodup_settled := h.nodup_settled
  nodup_pending k' := by
    by_cases hk : k' = k
    · subst hk
      simpa [Ledger.issue] using (h.nodup_pending k').concat (h.issued_notMem_pending k')
    · simpa [Ledger.issue, hk] using h.nodup_pending k'
  eq_of_pending k₁ k₂ n h₁ h₂ := by
    rw [mem_pending_issue] at h₁ h₂
    grind [h.eq_of_pending k₁ k₂ n, h.issued_notMem_pending]
  notMem_settled k' n hn := by
    rcases mem_pending_issue.mp hn with hn | ⟨-, rfl⟩
    · exact h.notMem_settled k' n hn
    · exact h.issued_notMem_settled
  lt_issued_iff n := by
    simp only [mem_pending_issue, exists_or, exists_and_right, exists_eq, true_and, ← or_assoc]
    exact Nat.lt_succ_iff_lt_or_eq.trans (or_congr_left (h.lt_issued_iff n))

omit [DecidableEq κ] in
theorem issueSettled : l.issueSettled.Balanced where
  nodup_settled := by
    simpa [Ledger.issueSettled] using h.nodup_settled.concat h.issued_notMem_settled
  nodup_pending := h.nodup_pending
  eq_of_pending := h.eq_of_pending
  notMem_settled k n hn := by
    have hne : n ≠ l.issued := fun heq => h.issued_notMem_pending k (heq ▸ hn)
    simpa [Ledger.issueSettled, hne] using h.notMem_settled k n hn
  lt_issued_iff n := by
    have hiff := h.lt_issued_iff n
    simp only [Ledger.issueSettled, List.mem_append, List.mem_singleton]
    grind

theorem settle {k : κ} {n : ℕ} (hn : n ∈ l.pending k) : (l.settle k n).Balanced where
  nodup_settled := by
    simpa [Ledger.settle] using h.nodup_settled.concat (h.notMem_settled k n hn)
  nodup_pending k' := by
    by_cases hk : k' = k
    · subst hk
      simpa [Ledger.settle] using (h.nodup_pending k').erase n
    · simpa [Ledger.settle, hk] using h.nodup_pending k'
  eq_of_pending k₁ k₂ m h₁ h₂ :=
    h.eq_of_pending k₁ k₂ m (h.mem_pending_settle.mp h₁).1 (h.mem_pending_settle.mp h₂).1
  notMem_settled k' m hm := by
    obtain ⟨hm, hne⟩ := h.mem_pending_settle.mp hm
    have hmn : m ≠ n := fun heq => hne ⟨h.eq_of_pending k' k m hm (heq ▸ hn), heq⟩
    simpa [Ledger.settle, hmn] using h.notMem_settled k' m hm
  lt_issued_iff m := by
    simp only [h.mem_pending_settle]
    have hiff := h.lt_issued_iff m
    have hkey := h.eq_of_pending k
    simp only [Ledger.settle, List.mem_append, List.mem_singleton]
    grind

theorem settleAll (k : κ) : (l.settleAll k).Balanced where
  nodup_settled := List.nodup_append.mpr ⟨h.nodup_settled, h.nodup_pending k, by
    rintro a ha b hb rfl
    exact h.notMem_settled k a hb ha⟩
  nodup_pending k' := by
    by_cases hk : k' = k
    · subst hk
      simp [Ledger.settleAll]
    · simpa [Ledger.settleAll, hk] using h.nodup_pending k'
  eq_of_pending k₁ k₂ m h₁ h₂ :=
    h.eq_of_pending k₁ k₂ m (mem_pending_settleAll.mp h₁).1 (mem_pending_settleAll.mp h₂).1
  notMem_settled k' m hm := by
    obtain ⟨hm, hne⟩ := mem_pending_settleAll.mp hm
    have hmk : m ∉ l.pending k := fun hmk => hne (h.eq_of_pending k' k m hm hmk)
    simpa [Ledger.settleAll, hmk] using h.notMem_settled k' m hm
  lt_issued_iff m := by
    simp only [mem_pending_settleAll]
    have hiff := h.lt_issued_iff m
    have hkey := h.eq_of_pending k
    simp only [Ledger.settleAll, List.mem_append]
    grind

theorem transfer {k k' : κ} (hk : k ≠ k') : (l.transfer k k').Balanced where
  nodup_settled := h.nodup_settled
  nodup_pending k₁ := by
    by_cases hk' : k₁ = k'
    · subst hk'
      have hdisjoint : (l.pending k₁).Disjoint (l.pending k) := fun n h₁ h₂ =>
        hk (h.eq_of_pending k k₁ n h₂ h₁)
      simpa [Ledger.transfer] using (h.nodup_pending k₁).append (h.nodup_pending k) hdisjoint
    · by_cases hk₁ : k₁ = k
      · subst hk₁
        simp [Ledger.transfer, hk]
      · simpa [Ledger.transfer, hk', hk₁] using h.nodup_pending k₁
  eq_of_pending k₁ k₂ n h₁ h₂ := by
    rw [mem_pending_transfer hk] at h₁ h₂
    rcases h₁ with ⟨h₁, hne₁⟩ | ⟨h₁, rfl⟩ <;> rcases h₂ with ⟨h₂, hne₂⟩ | ⟨h₂, rfl⟩
    · exact h.eq_of_pending k₁ k₂ n h₁ h₂
    · exact absurd (h.eq_of_pending k₁ k n h₁ h₂) hne₁
    · exact absurd (h.eq_of_pending k₂ k n h₂ h₁) hne₂
    · rfl
  notMem_settled k₁ n hn := by
    rcases (mem_pending_transfer hk).mp hn with ⟨hn, -⟩ | ⟨hn, -⟩
    · exact h.notMem_settled k₁ n hn
    · exact h.notMem_settled k n hn
  lt_issued_iff n := by
    have hiff := h.lt_issued_iff n
    simp only [mem_pending_transfer hk]
    simp only [Ledger.transfer]
    grind

/-- **Entries keep a ledger balanced.** -/
theorem entry (he : l.Entry l') : l'.Balanced := by
  cases he with
  | none => exact h
  | issue k => exact h.issue k
  | issueSettled => exact h.issueSettled
  | settle hn => exact h.settle hn
  | settleAll k => exact h.settleAll k
  | transfer hk => exact h.transfer hk

omit [DecidableEq κ] in
theorem length_settled_le : l.settled.length ≤ l.issued := by
  have hsubset : l.settled ⊆ List.range l.issued := fun n hn =>
    List.mem_range.mpr ((h.lt_issued_iff n).mpr (Or.inl hn))
  simpa using (List.subperm_of_subset h.nodup_settled hsubset).length_le

omit [DecidableEq κ] in
/-- **Obligations are settled exactly once**, when none is pending any more. -/
theorem count_settled (hpending : ∀ k, l.pending k = []) (n : ℕ) :
    l.settled.count n = if n < l.issued then 1 else 0 := by
  have hmem : n ∈ l.settled ↔ n < l.issued := by
    simp [h.lt_issued_iff, hpending]
  rw [h.nodup_settled.count, if_congr hmem rfl rfl]

end Balanced

end Ledger

end GuruPractice.Transition
