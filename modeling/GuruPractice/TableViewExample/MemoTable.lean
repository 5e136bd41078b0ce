import GuruPractice.Storage.ListMove
import GuruPractice.Storage.ListView
import GuruPractice.Transition.Block

/-!
# The memo table of TableViewExample

The app keeps a list of memos three times: in `datasource`, in the array stored under the key
`MemoData` of the user defaults, and in the rows of the table. Each of its handlers is a
`Transition.Block` of statements, so that the process may be killed between any two of them; the
next launch restores the list from the user defaults.

User defaults keep the last value that `setValue` has set. The elements of a stored array need not
be strings; `array(forKey:) as? [String]` then fails.

## Main definitions

* `TableViewExample.AppState`, `TableViewExample.viewDidLoad`.
* `TableViewExample.addMemo`, `TableViewExample.moveRowAt`, `TableViewExample.editHandler`,
  `TableViewExample.deleteHandler`, `TableViewExample.saveData`: the handlers, statement by
  statement.
* `TableViewExample.Event`, `TableViewExample.step`.
* `TableViewExample.Action.apply`: what the handlers are for, as operations on lists.

## Main results

* `TableViewExample.exists_exec_block`: what a completed handler does.
-/

namespace GuruPractice.TableViewExample

open Storage Transition

/-! ### State -/

/-- An element of an array in the user defaults. -/
inductive Element
  | string (s : String)
  /-- A value that is not a string. -/
  | other
  deriving DecidableEq

/-- The cast of an element to `String`. -/
def Element.asString? : Element → Option String
  | string s => some s
  | other => none

/-- The state of the process, with the user defaults behind it. -/
structure AppState where
  /-- The array under the key `MemoData`, if there is one. -/
  memoData : Option (List Element)
  datasource : List String
  /-- The text in the field for a new memo. -/
  memoText : String
  /-- The texts `memoLabel`, `numLabel` of the cells since they were last loaded. -/
  rows : List (String × String)

/-! ### The table -/

def numberOfRowsInSection (s : AppState) : ℕ := s.datasource.length

/-- The texts of the cell of a row; `none` when the row is out of range. -/
def cellForRowAt (s : AppState) (row : ℕ) : Option (String × String) := do
  let memo ← s.datasource[row]?
  some (memo, toString (row + 1))

/-- The rows that show a list. -/
def numbered (memos : List String) : List (String × String) :=
  memos.mapIdx fun row memo => (memo, toString (row + 1))

/-- Load all cells again. -/
def reloadData : Stmt AppState := fun s =>
  ((List.range (numberOfRowsInSection s)).mapM (cellForRowAt s)).map fun rows =>
    { s with rows := rows }

/-- Load the cell of one row again. The table raises an exception if the number of rows is not what
it was. -/
def reloadRows (row : ℕ) : Stmt AppState := fun s =>
  if s.rows.length = numberOfRowsInSection s then
    (cellForRowAt s row).map fun cell => { s with rows := s.rows.set row cell }
  else none

/-! ### The user defaults -/

/-- Set the value of `MemoData`. -/
def setValue : Stmt AppState := fun s =>
  some { s with memoData := some (s.datasource.map Element.string) }

/-- Wait for pending updates, of which there are none. -/
def synchronize : Stmt AppState := fun s => some s

def saveData : List (Stmt AppState) := [setValue, synchronize]

/-- The list that a launch restores. -/
def restored (memoData : Option (List Element)) : List String :=
  ((memoData.bind fun value => value.mapM Element.asString?).getD [])

/-- A new process, in which the view has loaded and its table appears. -/
def viewDidLoad (memoData : Option (List Element)) : AppState where
  memoData := memoData
  datasource := restored memoData
  memoText := ""
  rows := numbered (restored memoData)

/-! ### The handlers -/

/-- `datasource.remove(at:)`. -/
def remove (row : ℕ) : Stmt AppState := fun s =>
  if row < s.datasource.length then some { s with datasource := s.datasource.eraseIdx row }
  else none

/-- `datasource.insert(_:at:)`. -/
def insert (data : String) (row : ℕ) : Stmt AppState := fun s =>
  if row ≤ s.datasource.length then
    some { s with datasource := s.datasource.insertIdx row data }
  else none

/-- `datasource.append(_:)`. -/
def append (memo : String) : Stmt AppState := fun s =>
  some { s with datasource := s.datasource ++ [memo] }

/-- `datasource[row] = text`. -/
def assign (row : ℕ) (text : String) : Stmt AppState := fun s =>
  if row < s.datasource.length then some { s with datasource := s.datasource.set row text }
  else none

/-- The text in the field for a new memo becomes `text`. -/
def setMemoText (text : String) : Stmt AppState := fun s => some { s with memoText := text }

/-- The Add button, with the given text in the field. An empty text is refused. -/
def addMemo (memo : String) : List (Stmt AppState) :=
  if memo ≠ "" then [append memo, setMemoText ""] ++ saveData ++ [reloadData] else []

/-- A row has been dragged. -/
def moveRowAt (s : AppState) (fromRow toRow : ℕ) : List (Stmt AppState) :=
  match s.datasource[fromRow]? with
  | some data => [remove fromRow, insert data toRow] ++ saveData ++ [reloadData]
  | none => [fun _ => none] -- `datasource[fromRow]` is out of range

/-- The alert of Edit shows the memo of the row. -/
def presentEditAlert (row : ℕ) : Stmt AppState := fun s =>
  if row < s.datasource.length then some s else none

/-- The Modify button of the alert, with the given text in its field. Any text is accepted. -/
def editHandler (row : ℕ) (text : String) : List (Stmt AppState) :=
  [assign row text, reloadRows row] ++ saveData

/-- The Del button of a row. -/
def deleteHandler (row : ℕ) : List (Stmt AppState) := [remove row, reloadData] ++ saveData

/-- What the user does. -/
inductive Action
  /-- Type a text and press Add. -/
  | add (text : String)
  /-- Press Edit, type a text and press Modify. -/
  | edit (row : ℕ) (text : String)
  /-- Press Edit and then Cancel. -/
  | cancelEdit (row : ℕ)
  | move (fromRow toRow : ℕ)
  | delete (row : ℕ)

/-- The statements that an action executes. -/
def block (s : AppState) : Action → List (Stmt AppState)
  | .add text => setMemoText text :: addMemo text
  | .edit row text => presentEditAlert row :: editHandler row text
  | .cancelEdit row => [presentEditAlert row]
  | .move fromRow toRow => moveRowAt s fromRow toRow
  | .delete row => deleteHandler row

/-- The rows of an action are rows of the table as it is displayed. -/
def Action.OnTable (s : AppState) : Action → Prop
  | .add _ => True
  | .edit row _ | .cancelEdit row | .delete row => row < s.rows.length
  | .move fromRow toRow => fromRow < s.rows.length ∧ toRow < s.rows.length

/-- What happens to the process. -/
inductive Event
  | completed (a : Action)
  /-- The process is killed after `k` statements of an action, and launched again. -/
  | killed (a : Action) (k : ℕ)
  | relaunch

/-- One event; `none` when a statement traps. -/
def step (s : AppState) : Event → Option AppState
  | .completed a => Block.exec (block s a) s
  | .killed a k => some (viewDidLoad (Block.killedAfter k (block s a) s).memoData)
  | .relaunch => some (viewDidLoad s.memoData)

/-- The rows of an event are rows of the table as it is displayed. -/
def Event.OnTable (s : AppState) : Event → Prop
  | .completed a | .killed a _ => a.OnTable s
  | .relaunch => True

/-! ### Memo lists -/

/-- The operation on lists that an action is for. -/
def Action.apply (memos : List String) : Action → List String
  | .add text => if text ≠ "" then memos ++ [text] else memos
  | .edit row text => memos.set row text
  | .cancelEdit _ => memos
  | .move fromRow toRow =>
    match memos[fromRow]? with
    | some data => (memos.eraseIdx fromRow).insertIdx toRow data
    | none => memos
  | .delete row => memos.eraseIdx row

@[simp] theorem length_numbered (memos : List String) : (numbered memos).length = memos.length :=
  List.length_mapIdx

/-- An array of strings is restored as it was set. -/
@[simp] theorem restored_map_string (memos : List String) :
    restored (some (memos.map Element.string)) = memos := by
  have hcast : (memos.map Element.string).mapM Element.asString? = some memos := by
    rw [List.mapM_map]
    exact List.mapM_pure.trans (congrArg some memos.map_id)
  rw [restored, Option.bind_some, hcast, Option.getD_some]

theorem cellForRowAt_eq (s : AppState) (row : ℕ) :
    cellForRowAt s row = (numbered s.datasource)[row]? := by
  rw [numbered, List.getElem?_mapIdx, cellForRowAt]
  cases s.datasource[row]? <;> rfl

/-- Reloading shows the list. -/
theorem reloadData_eq (s : AppState) :
    reloadData s = some { s with rows := numbered s.datasource } := by
  have hmap : (List.range (numberOfRowsInSection s)).mapM (cellForRowAt s) =
      some (numbered s.datasource) := by
    rw [numberOfRowsInSection, ← length_numbered, funext (cellForRowAt_eq s)]
    exact mapM_range_getElem? _
  rw [reloadData, hmap, Option.map_some]

/-- Reloading one row of a table that shows the list but for the text of that row. -/
theorem reloadRows_eq {s : AppState} {row : ℕ} {memos : List String} {text : String}
    (hrow : row < memos.length) (hdata : s.datasource = memos.set row text)
    (hrows : s.rows = numbered memos) :
    reloadRows row s = some { s with rows := numbered s.datasource } := by
  have hlen : s.rows.length = numberOfRowsInSection s := by
    rw [numberOfRowsInSection, hrows, hdata, length_numbered, List.length_set]
  have hcell : cellForRowAt s row = some (text, toString (row + 1)) := by
    rw [cellForRowAt, hdata, List.getElem?_set_self hrow]
    rfl
  have hset : s.rows.set row (text, toString (row + 1)) = numbered s.datasource := by
    rw [hrows, hdata, numbered, numbered]
    refine List.ext_getElem? fun r => ?_
    by_cases hr : row = r
    · subst hr
      simp [hrow]
    · simp [List.getElem?_set_ne hr]
  rw [reloadRows, if_pos hlen, hcell, Option.map_some, hset]

/-! ### Statements that leave the memos alone -/

/-- The memos in memory and those in the user defaults. -/
def AppState.memos (s : AppState) : List String × Option (List Element) :=
  (s.datasource, s.memoData)

theorem keeps_reloadData : Stmt.Keeps AppState.memos reloadData :=
  Stmt.keeps_map fun _ _ => rfl

theorem keeps_reloadRows (row : ℕ) : Stmt.Keeps AppState.memos (reloadRows row) := by
  refine Stmt.Keeps.ite ?_ _
  exact Stmt.keeps_map fun _ _ => rfl

theorem keeps_synchronize : Stmt.Keeps AppState.memos synchronize :=
  Stmt.keeps_some fun _ => rfl

theorem keeps_setMemoText (text : String) : Stmt.Keeps AppState.memos (setMemoText text) :=
  Stmt.keeps_some fun _ => rfl

theorem keeps_presentEditAlert (row : ℕ) : Stmt.Keeps AppState.memos (presentEditAlert row) := by
  refine Stmt.Keeps.ite ?_ _
  exact Stmt.keeps_some fun _ => rfl

/-! ### Completed handlers -/

/-- A move of rows that are in range. -/
theorem exec_moveRowAt (s : AppState) {fromRow toRow : ℕ} (hfrom : fromRow < s.datasource.length)
    (hto : toRow < s.datasource.length) :
    Block.exec (moveRowAt s fromRow toRow) s = some
      { s with
        datasource := moveIdx s.datasource fromRow toRow
        memoData := some ((moveIdx s.datasource fromRow toRow).map Element.string)
        rows := numbered (moveIdx s.datasource fromRow toRow) } := by
  simp [moveRowAt, remove, insert, moveIdx_eq, hfrom, le_length_eraseIdx hfrom hto, saveData,
    setValue, synchronize, reloadData_eq]

/-- The operation on lists that a move is for. -/
theorem apply_move (memos : List String) (fromRow toRow : ℕ) :
    (Action.move fromRow toRow).apply memos = moveIdx memos fromRow toRow := by
  rw [Action.apply, moveIdx]
  cases memos[fromRow]? <;> rfl

/-- **A completed handler.** On a table that shows the list, an action on its rows does not trap,
does to the list what it is for, shows the result, and stores it unless there is nothing to
store. -/
theorem exists_exec_block {s : AppState} {a : Action} (hrows : s.rows = numbered s.datasource)
    (ha : a.OnTable s) :
    ∃ s', Block.exec (block s a) s = some s' ∧ s'.datasource = a.apply s.datasource ∧
      s'.rows = numbered s'.datasource ∧
      (s'.memoData = some (s'.datasource.map Element.string) ∨
        s'.memoData = s.memoData ∧ s'.datasource = s.datasource) := by
  have hlen : s.rows.length = s.datasource.length := by rw [hrows, length_numbered]
  cases a with
  | add text =>
    by_cases htext : text = ""
    · refine ⟨{ s with memoText := text }, ?_, ?_, hrows, Or.inr ⟨rfl, rfl⟩⟩
      · simp [block, setMemoText, addMemo, htext]
      · simp [Action.apply, htext]
    · refine ⟨{ s with
        datasource := s.datasource ++ [text]
        memoData := some ((s.datasource ++ [text]).map Element.string)
        memoText := ""
        rows := numbered (s.datasource ++ [text]) }, ?_, ?_, rfl, Or.inl rfl⟩
      · simp [block, setMemoText, addMemo, htext, append, saveData, setValue, synchronize,
          reloadData_eq]
      · simp [Action.apply, htext]
  | edit row text =>
    have hrow : row < s.datasource.length := hlen ▸ ha
    refine ⟨{ s with
      datasource := s.datasource.set row text
      memoData := some ((s.datasource.set row text).map Element.string)
      rows := numbered (s.datasource.set row text) }, ?_, rfl, rfl, Or.inl rfl⟩
    simp [block, presentEditAlert, editHandler, assign, hrow, saveData, setValue, synchronize,
      reloadRows_eq (s := { s with datasource := s.datasource.set row text }) hrow rfl hrows]
  | cancelEdit row =>
    have hrow : row < s.datasource.length := hlen ▸ ha
    refine ⟨s, ?_, rfl, hrows, Or.inr ⟨rfl, rfl⟩⟩
    simp [block, presentEditAlert, hrow]
  | move fromRow toRow =>
    obtain ⟨hfrom, hto⟩ : fromRow < s.datasource.length ∧ toRow < s.datasource.length := hlen ▸ ha
    refine ⟨_, exec_moveRowAt s hfrom hto, ?_, rfl, Or.inl rfl⟩
    rw [apply_move]
  | delete row =>
    have hrow : row < s.datasource.length := hlen ▸ ha
    refine ⟨{ s with
      datasource := s.datasource.eraseIdx row
      memoData := some ((s.datasource.eraseIdx row).map Element.string)
      rows := numbered (s.datasource.eraseIdx row) }, ?_, rfl, rfl, Or.inl rfl⟩
    simp [block, deleteHandler, remove, hrow, saveData, setValue, synchronize, reloadData_eq]

end GuruPractice.TableViewExample
