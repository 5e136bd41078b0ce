import GuruPractice.Transition.Run

/-!
# The message of sendMessage

The user edits the text of `textView`, one character at a time, and sends it as a document of the
collection `post`. After each edit the delegate appends a newline if the number of characters is a
multiple of 25; its own change of the text does not call it again.

A text is a list of characters, and a character is a cluster of Unicode scalars.

## Main definitions

* `SendMessage.Character`, `SendMessage.AppState`.
* `SendMessage.textViewDidChange`, `SendMessage.sendMsg`.
* `SendMessage.Event`, `SendMessage.step`.

## Main results

* `SendMessage.text_eq_nil_or_length_mod`: no edit leaves a multiple of 25 characters.
-/

namespace GuruPractice.SendMessage

open Transition

/-! ### State -/

/-- A character of a text. -/
structure Character where
  scalar : Char
  /-- The scalars that extend the cluster. -/
  extenders : List Char := []
  deriving DecidableEq

def newline : Character where
  scalar := '\n'

/-- The state of the view controller, with the database behind it. -/
structure AppState where
  /-- `textView.text`. -/
  text : List Character := []
  /-- The field `content` of the documents of the collection `post`. -/
  post : List (List Character) := []

/-! ### The handlers -/

/-- The text after the delegate has been told of a change. -/
def textViewDidChange (text : List Character) : List Character :=
  if text.length % 25 = 0 then text ++ [newline] else text

/-- A new document in `post`, if it is written. The copy of the content in which newlines are
replaced is not used. -/
def sendFirestore (s : AppState) (content : List Character) (written : Bool) : AppState :=
  if written then { s with post := s.post ++ [content] }
  else s -- "Error writing document"

/-- The Send button. -/
def sendMsg (s : AppState) (written : Bool) : AppState := sendFirestore s s.text written

/-- What the user does. -/
inductive Event
  /-- Type a character at a position of the text. -/
  | insert (position : ℕ) (c : Character)
  /-- Delete the character at a position of the text. -/
  | delete (position : ℕ)
  | sendMsg (written : Bool)
  deriving DecidableEq

/-- One event; `none` when the text has no such position. -/
def step (s : AppState) : Event → Option AppState
  | .insert position c =>
    if position ≤ s.text.length then
      some { s with text := textViewDidChange (s.text.insertIdx position c) }
    else none
  | .delete position =>
    if position < s.text.length then
      some { s with text := textViewDidChange (s.text.eraseIdx position) }
    else none
  | .sendMsg written => some (SendMessage.sendMsg s written)

/-! ### One event -/

theorem length_textViewDidChange (text : List Character) :
    (textViewDidChange text).length =
      if text.length % 25 = 0 then text.length + 1 else text.length := by
  rw [textViewDidChange]
  split_ifs <;> simp

/-- The number of characters is not a multiple of 25 when the delegate returns. -/
theorem length_textViewDidChange_mod (text : List Character) :
    (textViewDidChange text).length % 25 ≠ 0 := by
  rw [length_textViewDidChange]
  split_ifs with h <;> omega

/-- The text is not empty when the delegate returns. -/
theorem textViewDidChange_ne_nil (text : List Character) : textViewDidChange text ≠ [] := by
  intro hnil
  exact length_textViewDidChange_mod text (by rw [hnil, List.length_nil])

@[simp] theorem text_sendMsg (s : AppState) (written : Bool) :
    (SendMessage.sendMsg s written).text = s.text := by
  cases written <;> rfl

theorem step_insert {s s' : AppState} {position : ℕ} {c : Character} :
    step s (.insert position c) = some s' ↔ position ≤ s.text.length ∧
      { s with text := textViewDidChange (s.text.insertIdx position c) } = s' := by
  rw [step, Option.ite_none_right_eq_some, Option.some.injEq]

theorem step_delete {s s' : AppState} {position : ℕ} :
    step s (.delete position) = some s' ↔ position < s.text.length ∧
      { s with text := textViewDidChange (s.text.eraseIdx position) } = s' := by
  rw [step, Option.ite_none_right_eq_some, Option.some.injEq]

/-- The length of the text after a deletion. -/
theorem length_of_step_delete {s s' : AppState} {position : ℕ}
    (h : step s (.delete position) = some s') :
    s'.text.length =
      if s.text.length % 25 = 1 then s.text.length else s.text.length - 1 := by
  obtain ⟨hlt, rfl⟩ := step_delete.mp h
  rw [length_textViewDidChange, List.length_eraseIdx_of_lt hlt]
  split_ifs <;> omega

/-- An event leaves the text as it is, or the delegate has had the last word on it. -/
theorem text_of_step {s s' : AppState} {e : Event} (h : step s e = some s') :
    s'.text = s.text ∨ ∃ text, s'.text = textViewDidChange text := by
  cases e with
  | insert position c =>
    obtain ⟨-, rfl⟩ := step_insert.mp h
    exact Or.inr ⟨_, rfl⟩
  | delete position =>
    obtain ⟨-, rfl⟩ := step_delete.mp h
    exact Or.inr ⟨_, rfl⟩
  | sendMsg written =>
    obtain rfl := Option.some.inj h
    exact Or.inl (text_sendMsg s written)

/-! ### Whole runs -/

/-- **No edit leaves a multiple of 25 characters**; only the empty text of the start has one. -/
theorem text_eq_nil_or_length_mod {es : List Event} {s : AppState} (h : run step {} es = some s) :
    s.text = [] ∨ s.text.length % 25 ≠ 0 := by
  refine run_induction (I := fun s : AppState => s.text = [] ∨ s.text.length % 25 ≠ 0)
    (fun s e s' hs hstep => ?_) (Or.inl rfl) h
  rcases text_of_step hstep with htext | ⟨text, htext⟩
  · rwa [htext]
  · rw [htext]
    exact Or.inr (length_textViewDidChange_mod text)

end GuruPractice.SendMessage
