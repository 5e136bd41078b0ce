import Mathlib.Data.Nat.Basic
import GuruPractice.SendMessage.MessageText

/-!
# Deleting characters of a message

The delegate is also called after a deletion. If this leaves a multiple of 25 characters, the
newline that is appended makes up for the deleted character, and the text is as long as before. Zero
is such a multiple: a text can never be emptied again.

## Main definitions

* `SendMessage.DeletingShortens`, `SendMessage.DeletingEmpties`.
* `SendMessage.deleteLast`.

## Main results

* `SendMessage.exists_run_deleteLast`: how far deletions at the end get.
* `SendMessage.deletingShortens_and_empties_iff`.
-/

namespace GuruPractice.SendMessage

open Transition

/-- Deleting any one character makes the text shorter. -/
def DeletingShortens (s : AppState) : Prop :=
  ∀ position s', step s (.delete position) = some s' → s'.text.length < s.text.length

/-- Delete the last character. -/
def deleteLast (s : AppState) (_ : Unit) : Option AppState := step s (.delete (s.text.length - 1))

/-- Some number of deletions at the end empties the text. -/
def DeletingEmpties (s : AppState) : Prop :=
  ∃ n s', run deleteLast s (List.replicate n ()) = some s' ∧ s'.text = []

/-! ### One deletion -/

/-- A deletion shortens the text unless it leaves a multiple of 25 characters. -/
theorem deletingShortens_iff (s : AppState) :
    DeletingShortens s ↔ s.text.length % 25 ≠ 1 := by
  constructor
  · intro h hmod
    have hpos : 0 < s.text.length := by omega
    have hlt := h 0 _ (step_delete.mpr ⟨hpos, rfl⟩)
    rw [length_of_step_delete (step_delete.mpr ⟨hpos, rfl⟩), if_pos hmod] at hlt
    exact Nat.lt_irrefl _ hlt
  · intro hmod position s' hstep
    have hpos : 0 < s.text.length := Nat.zero_lt_of_lt (step_delete.mp hstep).1
    rw [length_of_step_delete hstep, if_neg hmod]
    omega

/-! ### Deletions at the end -/

/-- **How far deletions at the end get.** They can be repeated for ever; when the text is as long as
the last multiple of 25 below its length and one more, they leave its length as it is. -/
theorem exists_run_deleteLast {s : AppState} (hs : s.text.length % 25 ≠ 0) (n : ℕ) :
    ∃ s', run deleteLast s (List.replicate n ()) = some s' ∧
      s'.text.length = max (s.text.length - n) (25 * (s.text.length / 25) + 1) := by
  induction n generalizing s with
  | zero =>
    refine ⟨s, rfl, ?_⟩
    omega
  | succ n ih =>
    have hpos : s.text.length - 1 < s.text.length := by omega
    obtain ⟨s₁, hstep⟩ : ∃ s₁, step s (.delete (s.text.length - 1)) = some s₁ :=
      ⟨_, step_delete.mpr ⟨hpos, rfl⟩⟩
    have hlen := length_of_step_delete hstep
    have hmod : s₁.text.length % 25 ≠ 0 := by
      rw [hlen]
      split_ifs <;> omega
    obtain ⟨s', hrun, hlen'⟩ := ih hmod
    refine ⟨s', ?_, ?_⟩
    · rw [List.replicate_succ, run_cons, deleteLast, hstep, Option.bind_some, hrun]
    · rw [hlen', hlen]
      split_ifs <;> omega

/-- Only the empty text can be emptied. -/
theorem deletingEmpties_iff {s : AppState} (hs : s.text = [] ∨ s.text.length % 25 ≠ 0) :
    DeletingEmpties s ↔ s.text = [] := by
  constructor
  · rintro ⟨n, s', hrun, hnil⟩
    refine hs.resolve_right fun hmod => ?_
    obtain ⟨t, hrun', hlen⟩ := exists_run_deleteLast hmod n
    obtain rfl := Option.some.inj (hrun.symm.trans hrun')
    rw [hnil, List.length_nil] at hlen
    omega
  · exact fun h => ⟨0, s, rfl, h⟩

/-! ### Whole runs -/

/-- After an edit the text is never empty again. -/
theorem text_ne_nil_of_run {es : List Event} {s s' : AppState} (hs : s.text ≠ [])
    (h : run step s es = some s') : s'.text ≠ [] := by
  refine run_induction (I := fun s : AppState => s.text ≠ []) (fun s e s' hs hstep => ?_) hs h
  rcases text_of_step hstep with htext | ⟨text, htext⟩
  · rwa [htext]
  · rw [htext]
    exact textViewDidChange_ne_nil text

/-- The text is empty as long as nothing has been typed. -/
theorem text_eq_nil_iff {es : List Event} {s s' : AppState} (hs : s.text = [])
    (h : run step s es = some s') : s'.text = [] ↔ ∀ position c, .insert position c ∉ es := by
  induction es generalizing s with
  | nil =>
    obtain rfl := Option.some.inj h
    simp [hs]
  | cons e es ih =>
    obtain ⟨s₁, hstep, hrun⟩ := (run_cons_eq_some step).mp h
    cases e with
    | insert position c =>
      obtain ⟨-, rfl⟩ := step_insert.mp hstep
      refine iff_of_false (text_ne_nil_of_run (textViewDidChange_ne_nil _) hrun) fun hnot => ?_
      exact hnot position c List.mem_cons_self
    | delete position =>
      obtain ⟨hlt, -⟩ := step_delete.mp hstep
      rw [hs] at hlt
      exact absurd hlt (Nat.not_lt_zero position)
    | sendMsg written =>
      obtain rfl := Option.some.inj hstep
      rw [ih ((text_sendMsg s written).trans hs) hrun]
      simp

/-- **Deleting makes progress only in the empty text.** In a state that is reached by insertions,
deletions and sent messages, deleting any character shortens the text and some deletions at the end
empty it if and only if nothing has been typed. Of the two, the first holds if and only if the
length of the text is not one more than a multiple of 25. -/
theorem deletingShortens_and_empties_iff {es : List Event} {s : AppState}
    (h : run step {} es = some s) :
    (DeletingShortens s ∧ DeletingEmpties s ↔ ∀ position c, .insert position c ∉ es) ∧
      (DeletingShortens s ↔ s.text.length % 25 ≠ 1) ∧
      (DeletingEmpties s ↔ ∀ position c, .insert position c ∉ es) := by
  have hempties : DeletingEmpties s ↔ s.text = [] :=
    deletingEmpties_iff (text_eq_nil_or_length_mod h)
  have hnil : s.text = [] ↔ ∀ position c, .insert position c ∉ es := text_eq_nil_iff rfl h
  refine ⟨?_, deletingShortens_iff s, hempties.trans hnil⟩
  rw [deletingShortens_iff, hempties, ← hnil]
  refine and_iff_right_of_imp fun htext => ?_
  rw [htext]
  decide

/-- Two characters are typed, one of them is deleted, and the message is sent. -/
theorem deletingShortens_and_empties_iff_sent :
    let es : List Event := [.insert 0 { scalar := 'a' }, .insert 0 { scalar := 'b' }, .delete 1,
      .sendMsg true]
    let s : AppState := { text := [{ scalar := 'b' }], post := [[{ scalar := 'b' }]] }
    (DeletingShortens s ∧ DeletingEmpties s ↔ ∀ position c, .insert position c ∉ es) ∧
      (DeletingShortens s ↔ s.text.length % 25 ≠ 1) ∧
      (DeletingEmpties s ↔ ∀ position c, .insert position c ∉ es) :=
  deletingShortens_and_empties_iff rfl

/-- **The only character of a text.** When it is deleted, a newline takes its place. -/
theorem not_deletingShortens_and_empties_single :
    ¬∀ s, run step {} [.insert 0 { scalar := 'a' }] = some s →
      DeletingShortens s ∧ DeletingEmpties s :=
  fun h => absurd ((h _ rfl).1 0 _ rfl) (by decide)

end GuruPractice.SendMessage
