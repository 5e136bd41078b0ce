import Mathlib.Data.List.Basic
import Mathlib.Logic.Function.Basic

/-!
# Codes that can be read from the front

A code writes each symbol as a list of symbols of another alphabet. If one code word can be read
from the front of any input that begins with it, then a text can be recovered from the concatenation
of its code words.

## Main definitions

* `Text.Reads` — `read` reads one code word.

## Main results

* `Text.Reads.flatMap_injective`.
-/

namespace GuruPractice.Text

variable {α β : Type*} {code : α → List β} {read : List β → Option (α × List β)}

/-- Reading an input that begins with a code word gives its symbol and the rest of the input. -/
def Reads (code : α → List β) (read : List β → Option (α × List β)) : Prop :=
  ∀ a rest, read (code a ++ rest) = some (a, rest)

/-- Inputs that begin with code words are equal only if the code words and the rests are. -/
theorem Reads.eq_of_append_eq (h : Reads code read) {a b : α} {rest rest' : List β}
    (heq : code a ++ rest = code b ++ rest') : a = b ∧ rest = rest' := by
  have hread := h a rest
  rw [heq, h b rest'] at hread
  obtain ⟨hab, hrest⟩ := Prod.mk.inj (Option.some.inj hread)
  exact ⟨hab.symm, hrest.symm⟩

/-- **Texts can be recovered from their code words.** -/
theorem Reads.flatMap_injective (h : Reads code read) (hne : ∀ a, code a ≠ []) :
    Function.Injective (List.flatMap code) := by
  intro xs ys heq
  induction xs generalizing ys with
  | nil =>
    cases ys with
    | nil => rfl
    | cons b ys =>
      rw [List.flatMap_nil, List.flatMap_cons] at heq
      exact absurd (List.append_eq_nil_iff.mp heq.symm).1 (hne b)
  | cons a xs ih =>
    cases ys with
    | nil =>
      rw [List.flatMap_nil, List.flatMap_cons] at heq
      exact absurd (List.append_eq_nil_iff.mp heq).1 (hne a)
    | cons b ys =>
      rw [List.flatMap_cons, List.flatMap_cons] at heq
      obtain ⟨rfl, hrest⟩ := h.eq_of_append_eq heq
      rw [ih hrest]

end GuruPractice.Text
