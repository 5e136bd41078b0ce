import Mathlib.Data.List.Sort
import GuruPractice.Storage.AutoincrementTable
import GuruPractice.Storage.ListView
import GuruPractice.Transition.Block

/-!
# The screen of LottoDraw

LottoDraw draws five lotto tickets, shows them in a table, and keeps them in the table `lotto` of an
SQLite database. Every press of a button, and `initDB` at each launch, is a `Transition.Block`: its
database statements take effect one by one, and the process may be killed between them or abort.

SQLite answers each statement with success or failure (`Reply`); a statement that fails has no
effect. Opening a path without a file creates an empty database file. A statement on `lotto` also
fails when there is no such table.

## Main definitions

* `LottoDraw.Database`, `LottoDraw.AppState`.
* `LottoDraw.initDB`, `LottoDraw.doLoad`, `LottoDraw.doDraw`, `LottoDraw.doSave`.
* `LottoDraw.Event`, `LottoDraw.step`.

## Main results

* `LottoDraw.reloadData_eq`: reloading shows the tickets.
* `LottoDraw.exec_doLoad_of_select`, `LottoDraw.exec_doLoad_of_not`: what a load does.
-/

namespace GuruPractice.LottoDraw

open Storage Transition

/-! ### The database -/

/-- The columns of the table `lotto`, besides its key. -/
inductive Column
  | num1 | num2 | num3 | num4 | num5 | num6
  deriving DecidableEq

/-- The columns, as the query of `doSave` and the statements of `doLoad` list them. -/
def columns : List Column := [.num1, .num2, .num3, .num4, .num5, .num6]

/-- A record of `lotto`, without its key. -/
abbrev LottoRow := List (Column × ℤ)

/-- The value of a column; a missing value reads as `0`. -/
def LottoRow.value (row : LottoRow) (column : Column) : ℤ := (row.lookup column).getD 0

/-- The numbers in `num1` to `num6`. -/
def LottoRow.numbers (row : LottoRow) : List ℤ := columns.map row.value

/-- `FMResultSet.int(forColumn:)`. -/
def LottoRow.int (row : LottoRow) (column : Column) : Int32 := Int32.ofInt (row.value column)

/-- The content of a database file. -/
structure Database where
  /-- The table `lotto`, if it exists. -/
  lotto : Option (AutoincrementTable LottoRow) := none

/-- The answers to the database statements of one handler. -/
structure Reply where
  opened : Bool := true
  created : Bool := true
  selected : Bool := true
  deleted : Bool := true
  /-- The answer to each insert, by position. -/
  inserted : ℕ → Bool := fun _ => true

/-- Every database statement succeeds. -/
structure Reply.Succeeds (r : Reply) : Prop where
  opened : r.opened = true
  created : r.created = true
  selected : r.selected = true
  deleted : r.deleted = true
  inserted : ∀ i, r.inserted i = true

theorem Reply.succeeds_default : Reply.Succeeds {} := ⟨rfl, rfl, rfl, rfl, fun _ => rfl⟩

/-! ### State -/

/-- The state of the process, with the file system behind it. -/
structure AppState where
  /-- The file at `databasePath`. -/
  file : Option Database
  lottoNumbers : List (List ℤ)
  /-- The texts `label01` to `label06` of the cells since the last `reloadData`. -/
  rows : List (List String)

namespace AppState

/-- The table `lotto`. -/
def lotto (s : AppState) : Option (AutoincrementTable LottoRow) := s.file.bind Database.lotto

/-- The tickets in the table `lotto`, in the order of their ids. -/
def savedTickets (s : AppState) : List (List ℤ) :=
  s.lotto.elim [] fun lotto => lotto.select.map LottoRow.numbers

variable {s : AppState} {lotto : AutoincrementTable LottoRow}

/-- A file with the table `lotto` holds nothing else. -/
theorem file_eq (h : s.lotto = some lotto) : s.file = some { lotto := some lotto } := by
  obtain ⟨⟨lotto'⟩, hfile, hlotto⟩ := Option.bind_eq_some_iff.mp h
  rw [hfile, show lotto' = some lotto from hlotto]

theorem savedTickets_eq (h : s.lotto = some lotto) :
    s.savedTickets = lotto.select.map LottoRow.numbers := by
  rw [savedTickets, h, Option.elim_some]

end AppState

/-- A new process. -/
def processStart (file : Option Database) : AppState where
  file := file
  lottoNumbers := []
  rows := []

/-! ### The table view -/

/-- `numbers[0]` to `numbers[5]`; `none` when an index is out of range. -/
def sixNumbers (numbers : List ℤ) : Option (List ℤ) := (List.range 6).mapM fun i => numbers[i]?

/-- The texts of the labels for the numbers of a ticket. -/
def labels (numbers : List ℤ) : List String := numbers.map toString

def numberOfRowsInSection (s : AppState) : ℕ := s.lottoNumbers.length

/-- The texts of the cell of a row; `none` when an index is out of range. -/
def cellForRowAt (s : AppState) (row : ℕ) : Option (List String) := do
  let numbers ← s.lottoNumbers[row]?
  let numbers ← sixNumbers numbers
  some (labels numbers)

/-- Load all cells again. -/
def reloadData : Stmt AppState := fun s =>
  ((List.range (numberOfRowsInSection s)).mapM (cellForRowAt s)).map fun rows =>
    { s with rows := rows }

/-! ### Database statements -/

/-- `db.open()` succeeds. -/
def openFile : Stmt AppState := fun s => some { s with file := some (s.file.getD {}) }

/-- `create table if not exists lotto`. -/
def createTable (created : Bool) : Stmt AppState := fun s =>
  some (if created then
    { s with file := s.file.map fun db => { db with lotto := some (db.lotto.getD .empty) } }
  else s) -- "DB 생성 실패"

/-- `try! db.executeUpdate("delete from lotto")`, which aborts the app when the delete fails. -/
def deleteFromLotto (deleted : Bool) : Stmt AppState := fun s => do
  let db ← s.file
  let lotto ← db.lotto
  if deleted then some { s with file := some { db with lotto := some lotto.deleteAll } } else none

/-- `insert into lotto(num1, …, num6) values (\(numbers[0]), …, \(numbers[5]))`. -/
def insertIntoLotto (numbers : List ℤ) (inserted : Bool) : Stmt AppState := fun s => do
  let values ← sixNumbers numbers
  some (if inserted then
    { s with file := s.file.map fun db =>
        { db with lotto := db.lotto.map fun lotto => lotto.insert (columns.zip values) } }
  else s) -- "DB 저장 실패"

/-- The result of `select * from lotto`; `none` when the query fails. -/
def selectFromLotto (s : AppState) (selected : Bool) : Option (List LottoRow) :=
  if selected then s.lotto.map AutoincrementTable.select else none

/-! ### The handlers -/

/-- `initDB`: only if there is no file, it is created, and the table in it. -/
def initDB (s : AppState) (r : Reply) : List (Stmt AppState) :=
  if s.file.isNone then
    if r.opened then [openFile, createTable r.created] else []
  else [] -- "DB파일 있음"

/-- `lottoNumbers.append(_:)`. -/
def append (columnArray : List ℤ) : Stmt AppState := fun s =>
  some { s with lottoNumbers := s.lottoNumbers ++ [columnArray] }

/-- `lottoNumbers = Array<Array<Int>>()`. -/
def clear : Stmt AppState := fun s => some { s with lottoNumbers := [] }

/-- The numbers that `doLoad` reads from a record. -/
def columnArray (row : LottoRow) : List ℤ := columns.map fun column => (row.int column).toInt

/-- The Load button. -/
def doLoad (s : AppState) (r : Reply) : List (Stmt AppState) :=
  clear ::
    if r.opened then
      openFile ::
        match selectFromLotto s r.selected with
        | some result => result.map (fun row => append (columnArray row)) ++ [reloadData]
        | none => [] -- "결과 없음"
    else [] -- "DB Connection Error"

/-- The Save button. -/
def doSave (s : AppState) (r : Reply) : List (Stmt AppState) :=
  if r.opened then
    openFile :: deleteFromLotto r.deleted ::
      s.lottoNumbers.zipIdx.map fun ticket => insertIntoLotto ticket.1 (r.inserted ticket.2)
  else [] -- "DB Connection Error"

/-! ### The draw -/

/-- The source behind `Int.random`: the value of each call, for the range `0..<count`. -/
structure RandomSource where
  value : ℕ → ℕ → ℕ
  value_lt : ∀ call count, 0 < count → value call count < count

/-- `Int.random(in: 0..<count)`, which traps on an empty range. -/
def RandomSource.random (source : RandomSource) (call count : ℕ) : Option ℕ :=
  if 0 < count then some (source.value call count) else none

/-- The source whose every value is the least one. -/
def RandomSource.least : RandomSource where
  value _ _ := 0
  value_lt _ _ h := h

/-- `Array(1...45)`. -/
def originalNumbers : List ℤ := (List.range 45).map fun i : ℕ => (i : ℤ) + 1

/-- The inner loop of `doDraw`: draw `n` of the numbers that are left. -/
def drawNumbers (source : RandomSource) : ℕ → ℕ → List ℤ → List ℤ → Option (List ℤ)
  | 0, _, _, columnArray => some columnArray
  | n + 1, call, originalNumbers, columnArray => do
    let index ← source.random call originalNumbers.length
    let number ← originalNumbers[index]?
    drawNumbers source n (call + 1) (originalNumbers.eraseIdx index) (columnArray ++ [number])

/-- The outer loop of `doDraw`: draw `n` tickets. -/
def drawTickets (source : RandomSource) : ℕ → ℕ → List (List ℤ) → Option (List (List ℤ))
  | 0, _, lottoNumbers => some lottoNumbers
  | n + 1, call, lottoNumbers => do
    let columnArray ← drawNumbers source 6 call originalNumbers []
    drawTickets source n (call + 6) (lottoNumbers ++ [columnArray.insertionSort (· ≤ ·)])

/-- The Draw button. -/
def doDraw (source : RandomSource) : List (Stmt AppState) :=
  [clear,
    fun s => (drawTickets source 5 0 s.lottoNumbers).map fun lottoNumbers =>
      { s with lottoNumbers := lottoNumbers },
    reloadData]

/-! ### The life of the app -/

/-- A button is pressed, or the process ends and the app is launched again. -/
inductive Event
  | doDraw (source : RandomSource)
  | doLoad (r : Reply)
  | doSave (r : Reply)
  | relaunch (r : Reply)

namespace Event

/-- The state in which the handler of an event begins. -/
def entry (s : AppState) : Event → AppState
  | relaunch _ => processStart s.file
  | _ => s

/-- The statements of the handler of an event. -/
def block (s : AppState) : Event → List (Stmt AppState)
  | doDraw source => LottoDraw.doDraw source
  | doLoad r => LottoDraw.doLoad s r
  | doSave r => LottoDraw.doSave s r
  | relaunch r => initDB s r

/-- The answers to the database statements of an event. -/
def reply? : Event → Option Reply
  | doDraw _ => none
  | doLoad r | doSave r | relaunch r => some r

/-- Every database statement of the event succeeds. -/
def Succeeds (e : Event) : Prop := ∀ r ∈ e.reply?, r.Succeeds

@[simp] theorem succeeds_doDraw (source : RandomSource) : (doDraw source).Succeeds := by
  simp [Succeeds, reply?]

@[simp] theorem succeeds_doLoad {r : Reply} : (doLoad r).Succeeds ↔ r.Succeeds := by
  simp [Succeeds, reply?]

@[simp] theorem succeeds_doSave {r : Reply} : (doSave r).Succeeds ↔ r.Succeeds := by
  simp [Succeeds, reply?]

@[simp] theorem succeeds_relaunch {r : Reply} : (relaunch r).Succeeds ↔ r.Succeeds := by
  simp [Succeeds, reply?]

end Event

/-- One event; `none` when its handler aborts the app. -/
def step (s : AppState) (e : Event) : Option AppState :=
  Block.exec (e.block (e.entry s)) (e.entry s)

/-! ### Tickets -/

/-- Six numbers between 1 and 45. -/
structure IsTicket (numbers : List ℤ) : Prop where
  length_eq : numbers.length = 6
  mem_range : ∀ n ∈ numbers, 1 ≤ n ∧ n ≤ 45

theorem sixNumbers_eq {numbers : List ℤ} (h : numbers.length = 6) :
    sixNumbers numbers = some numbers := by
  rw [sixNumbers, ← h]
  exact mapM_range_getElem? numbers

/-- Reloading shows the tickets. -/
theorem reloadData_eq {s : AppState} (h : ∀ numbers ∈ s.lottoNumbers, numbers.length = 6) :
    reloadData s = some { s with rows := s.lottoNumbers.map labels } := by
  have hcell : ∀ row, cellForRowAt s row = (s.lottoNumbers.map labels)[row]? := by
    intro row
    rw [cellForRowAt, List.getElem?_map]
    cases hrow : s.lottoNumbers[row]? with
    | none => rfl
    | some numbers =>
      change (sixNumbers numbers).bind _ = _
      rw [sixNumbers_eq (h numbers (List.mem_of_getElem? hrow))]
      rfl
  have hmap : (List.range (numberOfRowsInSection s)).mapM (cellForRowAt s) =
      some (s.lottoNumbers.map labels) := by
    have hlen : numberOfRowsInSection s = (s.lottoNumbers.map labels).length :=
      (List.length_map _).symm
    rw [hlen, funext hcell]
    exact mapM_range_getElem? _
  rw [reloadData, hmap, Option.map_some]

/-- The numbers written by `doSave` are those in the record. -/
theorem numbers_zip {numbers : List ℤ} (h : numbers.length = 6) :
    LottoRow.numbers (columns.zip numbers) = numbers := by
  have hlookup : columns.map (fun c => (columns.zip numbers).lookup c) = numbers.map some :=
    map_lookup_zip (by decide) h
  have hmap := congrArg (List.map fun o : Option ℤ => o.getD 0) hlookup
  rwa [List.map_map, List.map_map, show (fun o : Option ℤ => o.getD 0) ∘ some = id from rfl,
    List.map_id] at hmap

/-- `doLoad` reads the numbers of a record, as 32-bit integers. -/
theorem columnArray_eq (row : LottoRow) :
    columnArray row = row.numbers.map fun n => (Int32.ofInt n).toInt := by
  rw [LottoRow.numbers, List.map_map]
  rfl

theorem length_columnArray (row : LottoRow) : (columnArray row).length = 6 := rfl

/-- The numbers of a ticket are read as they are. -/
theorem columnArray_of_isTicket {row : LottoRow} (h : IsTicket row.numbers) :
    columnArray row = row.numbers := by
  rw [columnArray_eq]
  refine (List.map_congr_left fun n hn => ?_).trans (List.map_id _)
  obtain ⟨hone, h45⟩ := h.mem_range n hn
  exact Int32.toInt_ofInt_of_le (by omega) (by omega)

/-! ### What the handlers do -/

private theorem exec_append (result : List LottoRow) (s : AppState) :
    Block.exec (result.map fun row => append (columnArray row)) s =
      some { s with lottoNumbers := s.lottoNumbers ++ result.map columnArray } := by
  induction result generalizing s with
  | nil => rw [List.map_nil, List.map_nil, List.append_nil, Block.exec_nil]
  | cons row result ih =>
    rw [List.map_cons, Block.exec_cons, append, Option.bind_some, ih]
    rw [List.map_cons, List.append_assoc, List.singleton_append]

/-- A load whose statements succeed takes and shows what is stored. -/
theorem exec_doLoad_of_select {s : AppState} {r : Reply} (hopen : r.opened = true)
    {result : List LottoRow} (hselect : selectFromLotto s r.selected = some result) :
    Block.exec (doLoad s r) s = some
      { s with
        file := some (s.file.getD {})
        lottoNumbers := result.map columnArray
        rows := (result.map columnArray).map labels } := by
  have hreload := reloadData_eq (s := { s with
    file := some (s.file.getD {})
    lottoNumbers := result.map columnArray }) (by
      intro numbers h
      obtain ⟨row, -, rfl⟩ := List.mem_map.mp h
      exact length_columnArray row)
  simp only [doLoad, hopen, if_true, hselect, clear, openFile, Block.exec_cons, Option.bind_some,
    Block.exec_append, exec_append, List.nil_append, hreload, Block.exec_nil]

/-- A load in which the open or the query fails empties `lottoNumbers` and shows nothing new. -/
theorem exec_doLoad_of_not {s : AppState} {r : Reply}
    (h : ¬(r.opened = true ∧ (selectFromLotto s r.selected).isSome)) :
    Block.exec (doLoad s r) s = some
      { s with
        file := if r.opened then some (s.file.getD {}) else s.file
        lottoNumbers := [] } := by
  cases hopen : r.opened with
  | false => simp [doLoad, hopen, clear]
  | true =>
    have hselect : selectFromLotto s r.selected = none := by simpa [hopen] using h
    simp [doLoad, hopen, hselect, clear, openFile]

/-- A load whose statements succeed changes no file. -/
theorem exec_doLoad_of_succeeds {s : AppState} {lotto : AutoincrementTable LottoRow} {r : Reply}
    (hlotto : s.lotto = some lotto) (hr : r.Succeeds) :
    Block.exec (doLoad s r) s = some
      { s with
        lottoNumbers := lotto.select.map columnArray
        rows := (lotto.select.map columnArray).map labels } := by
  have hselect : selectFromLotto s r.selected = some lotto.select := by
    rw [selectFromLotto, hr.selected, if_pos rfl, hlotto, Option.map_some]
  have hfile : some (s.file.getD {}) = s.file := by
    rw [AppState.file_eq hlotto, Option.getD_some]
  rw [exec_doLoad_of_select hr.opened hselect, hfile]

/-- A launch that finds the table only starts a new process. -/
theorem step_relaunch_of_lotto {s : AppState} {lotto : AutoincrementTable LottoRow}
    (hlotto : s.lotto = some lotto) (r : Reply) :
    step s (.relaunch r) = some (processStart s.file) := by
  simp [step, Event.block, Event.entry, initDB, processStart, AppState.file_eq hlotto]

/-! ### The statements of the handlers -/

theorem mem_initDB {s : AppState} {r : Reply} {st : Stmt AppState} (h : st ∈ initDB s r) :
    st = openFile ∨ st = createTable r.created := by
  by_cases hfile : s.file.isNone <;> by_cases hopen : r.opened <;>
    simp_all [initDB]

theorem mem_doLoad {s : AppState} {r : Reply} {st : Stmt AppState} (h : st ∈ doLoad s r) :
    st = clear ∨ st = openFile ∨ st = reloadData ∨ ∃ columnArray, st = append columnArray := by
  rcases List.mem_cons.mp h with rfl | h
  · exact Or.inl rfl
  by_cases hopen : r.opened
  · rw [if_pos hopen] at h
    rcases List.mem_cons.mp h with rfl | h
    · exact Or.inr (Or.inl rfl)
    cases hselect : selectFromLotto s r.selected with
    | none => simp [hselect] at h
    | some result =>
      simp only [hselect, List.mem_append, List.mem_map, List.mem_singleton] at h
      rcases h with ⟨row, -, rfl⟩ | rfl
      · exact Or.inr (Or.inr (Or.inr ⟨_, rfl⟩))
      · exact Or.inr (Or.inr (Or.inl rfl))
  · rw [if_neg hopen] at h
    exact absurd h List.not_mem_nil

theorem mem_doSave {s : AppState} {r : Reply} {st : Stmt AppState} (h : st ∈ doSave s r) :
    st = openFile ∨ st = deleteFromLotto r.deleted ∨
      ∃ numbers inserted, st = insertIntoLotto numbers inserted := by
  rw [doSave] at h
  by_cases hopen : r.opened
  · rw [if_pos hopen, List.mem_cons, List.mem_cons, List.mem_map] at h
    rcases h with rfl | rfl | ⟨ticket, -, rfl⟩
    · exact Or.inl rfl
    · exact Or.inr (Or.inl rfl)
    · exact Or.inr (Or.inr ⟨_, _, rfl⟩)
  · rw [if_neg hopen] at h
    exact absurd h List.not_mem_nil

end GuruPractice.LottoDraw
