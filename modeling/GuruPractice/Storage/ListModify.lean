import Mathlib.Algebra.GroupWithZero.Nat
import Mathlib.Algebra.BigOperators.Group.List.Basic

/-!
# Changing one entry of a list

A table is often a list whose entries are changed in place, by `List.modify`. This file relates
counts, sums and lookups before and after such a change.

## Main results

* `Storage.countP_modify`, `Storage.sum_map_modify`.
* `Storage.map_getElem?_modify`, `Storage.map_modify_eq`, `Storage.mem_modify`.
-/

namespace GuruPractice.Storage

variable {α β : Type*} {l : List α} {i : ℕ} {f : α → α}

theorem countP_modify_eq {p : α → Bool} (hf : ∀ a, p (f a) = p a) :
    (l.modify i f).countP p = l.countP p := by
  induction l generalizing i with
  | nil => simp
  | cons a l ih => cases i with
    | zero => simp [List.countP_cons, hf]
    | succ i => simp [List.countP_cons, ih]

/-- Counting after one entry has changed. -/
theorem countP_modify {p : α → Bool} {a : α} (h : l[i]? = some a) :
    ((l.modify i f).countP p : ℤ) =
      l.countP p - (if p a then 1 else 0) + if p (f a) then 1 else 0 := by
  induction l generalizing i with
  | nil => simp at h
  | cons b l ih => cases i with
    | zero =>
      obtain rfl : b = a := by simpa using h
      simp only [List.modify_zero_cons, List.countP_cons]
      split_ifs <;> omega
    | succ i =>
      have := ih (i := i) (by simpa using h)
      simp only [List.modify_succ_cons, List.countP_cons]
      omega

theorem sum_map_modify {g : α → ℕ} {a : α} (h : l[i]? = some a) :
    ((l.modify i f).map g).sum + g a = (l.map g).sum + g (f a) := by
  induction l generalizing i with
  | nil => simp at h
  | cons b l ih => cases i with
    | zero =>
      obtain rfl : b = a := by simpa using h
      simp only [List.modify_zero_cons, List.map_cons, List.sum_cons]
      omega
    | succ i =>
      have := ih (i := i) (by simpa using h)
      simp only [List.modify_succ_cons, List.map_cons, List.sum_cons]
      omega

theorem map_getElem?_modify {g : α → β} (hf : ∀ a, g (f a) = g a) (j : ℕ) :
    (l.modify i f)[j]?.map g = l[j]?.map g := by
  rw [List.getElem?_modify]
  cases l[j]? with
  | none => rfl
  | some a => by_cases hij : i = j <;> simp [hij, hf]

theorem map_modify_eq {g : α → β} (hf : ∀ a, g (f a) = g a) :
    (l.modify i f).map g = l.map g :=
  List.ext_getElem? fun j => by
    rw [List.getElem?_map, map_getElem?_modify hf, List.getElem?_map]

theorem mem_modify {b : α} (h : b ∈ l.modify i f) :
    b ∈ l ∨ ∃ a, l[i]? = some a ∧ b = f a := by
  obtain ⟨j, hj⟩ := List.mem_iff_getElem?.mp h
  rw [List.getElem?_modify] at hj
  obtain ⟨a, ha, rfl⟩ := Option.map_eq_some_iff.mp hj
  by_cases hij : i = j
  · subst hij
    exact Or.inr ⟨a, ha, by simp⟩
  · exact Or.inl (by simpa [hij] using List.mem_of_getElem? ha)

end GuruPractice.Storage
