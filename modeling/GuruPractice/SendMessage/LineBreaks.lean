import Mathlib.Data.List.Induction
import GuruPractice.SendMessage.MessageText
import GuruPractice.Text.Lines

/-!
# Line breaks in a typed message

The delegate is to break a message into lines of 25 characters. It counts all characters of the
text, among them the newlines it has inserted itself; so the first line gets 25 characters, and
every later one 24.

## Main definitions

* `SendMessage.typeAtEnd`.
* `SendMessage.BrokenIntoLines`.

## Main results

* `SendMessage.exists_run_typeAtEnd`: where the newlines are inserted.
* `SendMessage.exists_isCut_24`: the lines that the code makes.
* `SendMessage.brokenIntoLines_iff_length_lt`.
-/

namespace GuruPractice.SendMessage

open Text Transition

/-- Type a character at the end of the text. -/
def typeAtEnd (s : AppState) (c : Character) : Option AppState :=
  step s (.insert s.text.length c)

/-- The text is `w` in lines of `n` characters: it is cut into blocks of `n`, its completed lines
have `n` characters, and without its newlines it is `w`. -/
structure BrokenIntoLines (n : ℕ) (w text : List Character) : Prop where
  isCut : IsCut newline n w text
  length_completedLines : ∀ line ∈ completedLines newline text, line.length = n
  filter_ne : text.filter (fun c => c ≠ newline) = w

theorem brokenIntoLines_iff_isCut {n : ℕ} {w text : List Character} (hw : newline ∉ w) :
    BrokenIntoLines n w text ↔ IsCut newline n w text :=
  ⟨BrokenIntoLines.isCut, fun h => ⟨h, h.completedLines hw, h.filter_ne hw⟩⟩

/-! ### Where the newlines are -/

theorem typeAtEnd_eq (s : AppState) (c : Character) :
    typeAtEnd s c = some { s with text := textViewDidChange (s.text ++ [c]) } := by
  rw [typeAtEnd, step, if_pos (Nat.le_refl _), List.insertIdx_length_self]

/-- The positions of the typed characters after which a newline is inserted. -/
def breaksAfter (i : ℕ) : Bool := 0 < i && i % 24 == 0

theorem breaksAfter_iff {i : ℕ} : breaksAfter i = true ↔ 0 < i ∧ i % 24 = 0 := by
  rw [breaksAfter, Bool.and_eq_true, decide_eq_true_iff, beq_iff_eq]

/-- **The newlines in a typed message.** -/
theorem exists_run_typeAtEnd (w : List Character) :
    ∃ s, run typeAtEnd {} w = some s ∧ s.text = separateAfter newline breaksAfter w ∧
      s.text.length = w.length + (w.length - 1) / 24 := by
  induction w using List.reverseRecOn with
  | nil => exact ⟨{}, rfl, rfl, rfl⟩
  | append_singleton w c ih =>
    obtain ⟨s, hrun, htext, hlen⟩ := ih
    have hstep : run typeAtEnd {} (w ++ [c]) =
        some { s with text := textViewDidChange (s.text ++ [c]) } := by
      rw [run_append, hrun, Option.bind_some, run_cons, typeAtEnd_eq, Option.bind_some, run_nil]
    have hlen' : (s.text ++ [c]).length = w.length + (w.length - 1) / 24 + 1 := by
      rw [List.length_append, hlen, List.length_singleton]
    have hbreak : (s.text ++ [c]).length % 25 = 0 ↔ breaksAfter w.length = true := by
      rw [hlen', breaksAfter_iff]
      omega
    refine ⟨_, hstep, ?_, ?_⟩
    · rw [textViewDidChange, separateAfter_append_singleton, ← htext, List.append_assoc]
      by_cases hmark : breaksAfter w.length = true
      · rw [if_pos (hbreak.mpr hmark), if_pos hmark, List.singleton_append]
      · rw [if_neg (hbreak.not.mpr hmark), if_neg hmark]
    · have hlast : (w ++ [c]).length = w.length + 1 := by
        rw [List.length_append, List.length_singleton]
      rw [length_textViewDidChange, hlast]
      by_cases hmark : breaksAfter w.length = true
      · obtain ⟨hpos, hmod⟩ := breaksAfter_iff.mp hmark
        rw [if_pos (hbreak.mpr hmark), hlen']
        omega
      · have hdiv : w.length / 24 = (w.length - 1) / 24 := by
          rw [breaksAfter_iff] at hmark
          omega
        rw [if_neg (hbreak.not.mpr hmark), hlen', Nat.add_sub_cancel, hdiv, Nat.add_right_comm]

/-- **The lines of a typed message** have 25 characters, then 24 each. -/
theorem exists_isCut_24 {w : List Character} (hw : 25 ≤ w.length) :
    ∃ s text, run typeAtEnd {} w = some s ∧ IsCut newline 24 (w.drop 25) text ∧
      s.text = w.take 25 ++ newline :: text := by
  obtain ⟨s, hrun, htext, -⟩ := exists_run_typeAtEnd w
  refine ⟨s, _, hrun, (isCut_iff (by omega)).mpr rfl, ?_⟩
  obtain ⟨line, c, hline⟩ : ∃ line c, w.take 25 = line ++ [c] := by
    have hne : w.take 25 ≠ [] := fun h => by simp_all
    exact (List.eq_nil_or_concat' _).resolve_left hne
  have hlen : line.length = 24 := by
    have := congrArg List.length hline
    rw [List.length_take, List.length_append, List.length_singleton] at this
    omega
  have hshift : (fun i => breaksAfter ((line ++ [c]).length + i)) = endsBlock 24 := by
    funext i
    rw [Bool.eq_iff_iff, breaksAfter_iff, endsBlock, beq_iff_eq, List.length_append, hlen,
      List.length_singleton]
    omega
  have hfirst : separateAfter newline breaksAfter (line ++ [c]) = line ++ [c, newline] := by
    rw [separateAfter_append_singleton, hlen, if_pos (by decide), separateAfter_eq_self]
    intro i hi
    rw [Bool.eq_false_iff, Ne, breaksAfter_iff]
    omega
  calc s.text
      = separateAfter newline breaksAfter (line ++ [c] ++ w.drop 25) := by
        rw [← hline, List.take_append_drop, htext]
    _ = line ++ [c, newline] ++ separateAfter newline (endsBlock 24) (w.drop 25) := by
        rw [separateAfter_append, hfirst, hshift]
    _ = w.take 25 ++ newline :: separateAfter newline (endsBlock 24) (w.drop 25) := by
        rw [hline, List.append_assoc, List.append_assoc]
        rfl

/-! ### Lines of 25 characters -/

/-- The code inserts its newlines after every 25th character only among the first 48. -/
private theorem breaksAfter_eq_endsBlock_iff (n : ℕ) :
    (∀ i < n, breaksAfter i = endsBlock 25 i) ↔ n < 49 := by
  constructor
  · intro h
    by_contra hn
    exact absurd (h 48 (by omega)) (by decide)
  · intro hn i hi
    rw [Bool.eq_iff_iff, breaksAfter_iff, endsBlock, beq_iff_eq]
    omega

/-- **A typed message is broken into lines of 25 characters exactly when it is short.** Whatever is
typed at the end of the empty text, without newlines, the text is broken into lines of 25 characters
if and only if fewer than 49 are typed. -/
theorem brokenIntoLines_iff_length_lt {w : List Character} (hw : newline ∉ w) :
    ∃ s, run typeAtEnd {} w = some s ∧ (BrokenIntoLines 25 w s.text ↔ w.length < 49) := by
  obtain ⟨s, hrun, htext, -⟩ := exists_run_typeAtEnd w
  refine ⟨s, hrun, ?_⟩
  rw [brokenIntoLines_iff_isCut hw, isCut_iff (by omega), htext, separateAfter_inj hw,
    breaksAfter_eq_endsBlock_iff]

/-- Thirty characters are typed. -/
theorem brokenIntoLines_iff_length_lt_thirty :
    let w := List.replicate 30 { scalar := 'a' : Character }
    ∃ s, run typeAtEnd {} w = some s ∧ (BrokenIntoLines 25 w s.text ↔ w.length < 49) :=
  brokenIntoLines_iff_length_lt (by decide)

/-- **A second line.** When 49 characters are typed, the second line is ended after 24. -/
theorem not_brokenIntoLines_second_line :
    ¬∀ w, newline ∉ w → ∃ s, run typeAtEnd {} w = some s ∧ BrokenIntoLines 25 w s.text := by
  intro h
  obtain ⟨s, hrun, hbroken⟩ := h (List.replicate 49 { scalar := 'a' }) (by decide)
  obtain ⟨s', hrun', htext, -⟩ := exists_run_typeAtEnd (List.replicate 49 { scalar := 'a' })
  obtain rfl := Option.some.inj (hrun.symm.trans hrun')
  have hline : List.replicate 24 { scalar := 'a' } ∈ completedLines newline s.text := by
    rw [htext]
    decide
  exact absurd (hbroken.length_completedLines _ hline) (by decide)

end GuruPractice.SendMessage
