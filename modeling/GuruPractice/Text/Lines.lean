import Mathlib.Data.List.Basic

/-!
# Lines of a text

A text is a list of symbols, one of which, the separator `sep`, ends a line. A text without
separators is broken into lines by inserting them.

* `ofLines sep lines last` is the text with the completed lines `lines` and the unfinished line
  `last`.
* `IsCut sep n w text` says that `text` is `w` cut into consecutive blocks of `n` symbols, with a
  separator after each complete block.
* `separateAfter sep mark w` is `w` with a separator after each symbol whose position is marked.

Cutting into blocks is marking the positions that end a block (`isCut_iff`), and a text without
separators tells from the result which of its positions were marked (`separateAfter_inj`).

## Main definitions

* `Text.ofLines`, `Text.completedLines`, `Text.IsCut`, `Text.separateAfter`.

## Main results

* `Text.IsCut.completedLines`, `Text.IsCut.filter_ne`.
* `Text.separateAfter_inj`, `Text.isCut_iff`.
-/

namespace GuruPractice.Text

variable {α : Type*} (sep : α)

/-! ### Completed lines -/

/-- The text with the given completed lines and unfinished line. -/
def ofLines (lines : List (List α)) (last : List α) : List α :=
  lines.flatMap (fun line => line ++ [sep]) ++ last

theorem ofLines_cons (line : List α) (lines : List (List α)) (last : List α) :
    ofLines sep (line :: lines) last = line ++ sep :: ofLines sep lines last := by
  rw [ofLines, List.flatMap_cons, List.append_assoc, List.append_assoc, List.singleton_append]
  rfl

variable [DecidableEq α]

/-- The lines of a text that are ended by a separator. -/
def completedLines (text : List α) : List (List α) := (text.splitOn sep).dropLast

variable {sep}

theorem completedLines_ofLines {lines : List (List α)} {last : List α}
    (hlines : ∀ line ∈ lines, sep ∉ line) (hlast : sep ∉ last) :
    completedLines sep (ofLines sep lines last) = lines := by
  have hsplit : (ofLines sep lines last).splitOn sep = lines ++ [last] := by
    induction lines with
    | nil => exact List.splitOn_eq_singleton hlast
    | cons line lines ih =>
      obtain ⟨hline, hlines⟩ := List.forall_mem_cons.mp hlines
      rw [ofLines_cons, List.splitOn_append_cons_self_of_not_mem hline, ih hlines,
        List.cons_append]
  rw [completedLines, hsplit, List.dropLast_concat]

private theorem filter_ne_eq_self {w : List α} (hw : sep ∉ w) :
    w.filter (fun c => c ≠ sep) = w := by
  refine List.filter_eq_self.mpr fun c hc => ?_
  simpa using ne_of_mem_of_not_mem hc hw

/-- Without its separators, a text is the concatenation of its lines. -/
theorem filter_ne_ofLines {lines : List (List α)} {last : List α}
    (hlines : ∀ line ∈ lines, sep ∉ line) (hlast : sep ∉ last) :
    (ofLines sep lines last).filter (fun c => c ≠ sep) = lines.flatten ++ last := by
  induction lines with
  | nil => exact filter_ne_eq_self hlast
  | cons line lines ih =>
    obtain ⟨hline, hlines⟩ := List.forall_mem_cons.mp hlines
    rw [ofLines_cons, List.filter_append, filter_ne_eq_self hline,
      List.filter_cons_of_neg (by simp), ih hlines, List.flatten_cons, List.append_assoc]

/-! ### Blocks of equal length -/

variable {n : ℕ} {w text : List α}

variable (sep n w text) in
/-- The text is `w` cut into consecutive blocks of `n` symbols, with a separator after each complete
block. -/
def IsCut : Prop :=
  ∃ blocks rest, w = List.flatten blocks ++ rest ∧ (∀ block ∈ blocks, block.length = n) ∧
    rest.length < n ∧ text = ofLines sep blocks rest

namespace IsCut

/-- Every completed line of a text cut into blocks has the length of a block. -/
theorem completedLines (h : IsCut sep n w text) (hw : sep ∉ w) :
    ∀ line ∈ completedLines sep text, line.length = n := by
  obtain ⟨blocks, rest, rfl, hblocks, -, rfl⟩ := h
  rw [List.mem_append, not_or, List.mem_flatten, not_exists] at hw
  rw [completedLines_ofLines (fun block hb hsep => hw.1 block ⟨hb, hsep⟩) hw.2]
  exact hblocks

/-- Removing the separators of a text cut into blocks gives back the text that was cut. -/
theorem filter_ne (h : IsCut sep n w text) (hw : sep ∉ w) :
    text.filter (fun c => c ≠ sep) = w := by
  obtain ⟨blocks, rest, rfl, -, -, rfl⟩ := h
  rw [List.mem_append, not_or, List.mem_flatten, not_exists] at hw
  exact filter_ne_ofLines (fun block hb hsep => hw.1 block ⟨hb, hsep⟩) hw.2

end IsCut

/-! ### Marked positions -/

variable (sep) in
/-- The text `w` with a separator after each symbol whose position is marked. -/
def separateAfter : (ℕ → Bool) → List α → List α
  | _, [] => []
  | mark, c :: w =>
    (if mark 0 then [c, sep] else [c]) ++ separateAfter (fun i => mark (i + 1)) w

section Marks

omit [DecidableEq α]

variable {mark mark' : ℕ → Bool}

variable (sep mark) in
theorem separateAfter_append (u v : List α) :
    separateAfter sep mark (u ++ v) =
      separateAfter sep mark u ++ separateAfter sep (fun i => mark (u.length + i)) v := by
  induction u generalizing mark with
  | nil => simp [separateAfter]
  | cons c u ih =>
    have hshift : (fun i => mark (u.length + i + 1)) = fun i => mark ((c :: u).length + i) := by
      funext i
      rw [List.length_cons, Nat.add_right_comm]
    rw [List.cons_append, separateAfter, separateAfter, ih, hshift, List.append_assoc]

variable (sep mark) in
theorem separateAfter_append_singleton (w : List α) (c : α) :
    separateAfter sep mark (w ++ [c]) =
      separateAfter sep mark w ++ if mark w.length then [c, sep] else [c] := by
  rw [separateAfter_append, separateAfter, separateAfter, List.append_nil, Nat.add_zero]

/-- Without marks nothing is inserted. -/
theorem separateAfter_eq_self (h : ∀ i < w.length, mark i = false) :
    separateAfter sep mark w = w := by
  induction w generalizing mark with
  | nil => rfl
  | cons c w ih =>
    have htail : ∀ i < w.length, mark (i + 1) = false := fun i hi => h _ (Nat.succ_lt_succ hi)
    rw [separateAfter, h 0 (Nat.zero_lt_succ _), if_neg Bool.false_ne_true, ih htail,
      List.singleton_append]

/-- A separator is never inserted at the front. -/
private theorem separateAfter_ne_cons_sep (hw : sep ∉ w) (text : List α) :
    separateAfter sep mark w ≠ sep :: text := by
  cases w with
  | nil => simp [separateAfter]
  | cons c w =>
    rw [List.mem_cons, not_or] at hw
    rw [separateAfter]
    cases mark 0 <;> simp [Ne.symm hw.1]

/-- **Marks can be read off**, where there are symbols. -/
theorem separateAfter_inj (hw : sep ∉ w) :
    separateAfter sep mark w = separateAfter sep mark' w ↔ ∀ i < w.length, mark i = mark' i := by
  induction w generalizing mark mark' with
  | nil => simp [separateAfter]
  | cons c w ih =>
    rw [List.mem_cons, not_or] at hw
    obtain ⟨-, hw⟩ := hw
    have hhead : separateAfter sep mark (c :: w) = separateAfter sep mark' (c :: w) ↔
        mark 0 = mark' 0 ∧ separateAfter sep (fun i => mark (i + 1)) w =
          separateAfter sep (fun i => mark' (i + 1)) w := by
      rw [separateAfter, separateAfter]
      cases mark 0 <;> cases mark' 0
      · simp
      · simpa using separateAfter_ne_cons_sep hw _
      · simpa using (separateAfter_ne_cons_sep hw _).symm
      · simp
    rw [hhead, ih hw]
    constructor
    · rintro ⟨hzero, hsucc⟩ i hi
      cases i with
      | zero => exact hzero
      | succ i => exact hsucc i (Nat.lt_of_succ_lt_succ hi)
    · exact fun h => ⟨h 0 (Nat.zero_lt_succ _), fun i hi => h (i + 1) (Nat.succ_lt_succ hi)⟩

/-! ### Blocks end at the multiples of their length -/

/-- The position is the last one of a block of `n` symbols. -/
def endsBlock (n i : ℕ) : Bool := (i + 1) % n == 0

theorem endsBlock_of_lt {i : ℕ} (h : i + 1 < n) : endsBlock n i = false := by
  simp [endsBlock, Nat.mod_eq_of_lt h]

theorem endsBlock_add_left (n i : ℕ) : endsBlock n (n + i) = endsBlock n i := by
  rw [endsBlock, endsBlock, Nat.add_assoc, Nat.add_mod_left]

private theorem separateAfter_block (hw : w.length = n) (hn : 0 < n) :
    separateAfter sep (endsBlock n) w = w ++ [sep] := by
  obtain rfl | ⟨w, c, rfl⟩ := List.eq_nil_or_concat' w
  · exact absurd hw (Nat.ne_of_lt hn)
  · rw [List.length_append, List.length_singleton] at hw
    have hend : endsBlock n w.length = true := by simp [endsBlock, hw]
    rw [separateAfter_append_singleton, hend, if_pos rfl,
      separateAfter_eq_self fun i hi => endsBlock_of_lt (by omega), List.append_assoc,
      List.singleton_append]

private theorem ofLines_eq_separateAfter (hn : 0 < n) {blocks : List (List α)} {rest : List α}
    (hblocks : ∀ block ∈ blocks, block.length = n) (hrest : rest.length < n) :
    ofLines sep blocks rest = separateAfter sep (endsBlock n) (blocks.flatten ++ rest) := by
  induction blocks with
  | nil =>
    rw [List.flatten_nil, List.nil_append,
      separateAfter_eq_self fun i hi => endsBlock_of_lt (by omega)]
    rfl
  | cons block blocks ih =>
    obtain ⟨hblock, hblocks⟩ := List.forall_mem_cons.mp hblocks
    have hshift : (fun i => endsBlock n (block.length + i)) = endsBlock n := by
      funext i
      rw [hblock, endsBlock_add_left]
    rw [List.flatten_cons, List.append_assoc, separateAfter_append, hshift, ← ih hblocks,
      separateAfter_block hblock hn, ofLines_cons, List.append_assoc, List.singleton_append]

variable (sep w) in
/-- Every text can be cut. -/
theorem exists_isCut (hn : 0 < n) : ∃ text, IsCut sep n w text := by
  induction hlen : w.length using Nat.strongRecOn generalizing w with
  | ind len ih =>
    by_cases hlt : w.length < n
    · exact ⟨_, [], w, rfl, by simp, hlt, rfl⟩
    · have hdrop : (w.drop n).length < len := by
        rw [List.length_drop]
        omega
      obtain ⟨-, blocks, rest, heq, hblocks, hrest, -⟩ := ih _ hdrop (w.drop n) rfl
      refine ⟨_, w.take n :: blocks, rest, ?_, List.forall_mem_cons.mpr ⟨?_, hblocks⟩, hrest, rfl⟩
      · rw [List.flatten_cons, List.append_assoc, ← heq, List.take_append_drop]
      · rw [List.length_take]
        omega

/-- **Cutting into blocks** is marking the positions that end one. -/
theorem isCut_iff (hn : 0 < n) :
    IsCut sep n w text ↔ text = separateAfter sep (endsBlock n) w := by
  have hcut : ∀ {text}, IsCut sep n w text → text = separateAfter sep (endsBlock n) w := by
    rintro text ⟨blocks, rest, rfl, hblocks, hrest, rfl⟩
    exact ofLines_eq_separateAfter hn hblocks hrest
  refine ⟨hcut, ?_⟩
  rintro rfl
  obtain ⟨text, htext⟩ := exists_isCut sep w hn
  exact hcut htext ▸ htext

end Marks

end GuruPractice.Text
