import GuruPractice.LottoDraw.DrawTickets
import GuruPractice.LottoDraw.SaveTickets

/-!
# What is shown and what is held

`doLoad` empties `lottoNumbers` before it tries to open the database, but reloads the table only
after a query that succeeds. A failing load therefore leaves the old rows on screen over an empty
list: the table may then ask for a row that does not exist, and a save deletes the stored tickets
and writes none. This happens exactly when a load fails while there are tickets on screen.

## Main definitions

* `LottoDraw.ScreenIsRight` — the screen shows what is held, and what follows from it.
* `LottoDraw.LoadsOrEmpty` — the condition on a single event.

## Main results

* `LottoDraw.screenIsRight_iff_loadsOrEmpty`.
-/

namespace GuruPractice.LottoDraw

open Storage Transition

/-- The rows are the tickets of `lottoNumbers`. Hence a cell can be loaded for every row, and a save
whose statements succeed writes the tickets on screen. -/
structure ScreenIsRight (s : AppState) : Prop where
  rows_eq : s.rows = s.lottoNumbers.map labels
  cell : ∀ row < s.rows.length, (cellForRowAt s row).isSome
  save : ∀ r : Reply, r.Succeeds → ∀ s', step s (.doSave r) = some s' →
    s'.savedTickets.map labels = s.rows

/-- A load succeeds, or finds no tickets in memory. -/
def LoadsOrEmpty (s : AppState) : Event → Prop
  | .doLoad r =>
    (r.opened = true ∧ r.selected = true ∧ s.lotto.isSome) ∨ s.lottoNumbers = []
  | _ => True

/-- The rows are the tickets of `lottoNumbers`, each of six numbers. -/
structure ShowsHeld (s : AppState) : Prop where
  rows_eq : s.rows = s.lottoNumbers.map labels
  six : ∀ numbers ∈ s.lottoNumbers, numbers.length = 6

theorem showsHeld_processStart (file : Option Database) : ShowsHeld (processStart file) :=
  ⟨rfl, fun _ h => absurd h List.not_mem_nil⟩

/-! ### Database statements leave the screen alone -/

/-- What is in memory: the tickets and the rows. -/
def AppState.memory (s : AppState) : List (List ℤ) × List (List String) := (s.lottoNumbers, s.rows)

private theorem keeps_openFile : Stmt.Keeps AppState.memory openFile :=
  Stmt.keeps_some fun _ => rfl

private theorem keeps_createTable (created : Bool) :
    Stmt.Keeps AppState.memory (createTable created) :=
  Stmt.keeps_some fun s => by cases created <;> rfl

private theorem keeps_deleteFromLotto (deleted : Bool) :
    Stmt.Keeps AppState.memory (deleteFromLotto deleted) := by
  intro s s' h
  simp only [deleteFromLotto, Option.bind_eq_bind, Option.bind_eq_some_iff] at h
  obtain ⟨db, -, lotto, -, h⟩ := h
  by_cases hdel : deleted
  · rw [if_pos hdel] at h
    rw [← Option.some.inj h]
    rfl
  · rw [if_neg hdel] at h
    exact absurd h (by simp)

private theorem keeps_insertIntoLotto (numbers : List ℤ) (inserted : Bool) :
    Stmt.Keeps AppState.memory (insertIntoLotto numbers inserted) := by
  intro s s' h
  obtain ⟨values, -, h⟩ := Option.bind_eq_some_iff.mp h
  rw [← Option.some.inj h]
  cases inserted <;> rfl

theorem keeps_doSave (s : AppState) (r : Reply) :
    ∀ st ∈ doSave s r, Stmt.Keeps AppState.memory st := by
  intro st hst
  rcases mem_doSave hst with rfl | rfl | ⟨numbers, inserted, rfl⟩
  · exact keeps_openFile
  · exact keeps_deleteFromLotto _
  · exact keeps_insertIntoLotto _ _

theorem keeps_initDB (s : AppState) (r : Reply) :
    ∀ st ∈ initDB s r, Stmt.Keeps AppState.memory st := by
  intro st hst
  rcases mem_initDB hst with rfl | rfl
  · exact keeps_openFile
  · exact keeps_createTable _

theorem ShowsHeld.of_memory_eq {s s' : AppState} (hs : ShowsHeld s) (h : s'.memory = s.memory) :
    ShowsHeld s' := by
  obtain ⟨hnumbers, hrows⟩ := Prod.mk.inj h
  refine ⟨?_, ?_⟩
  · rw [hrows, hnumbers, hs.rows_eq]
  · rw [hnumbers]
    exact hs.six

/-! ### One event -/

namespace ShowsHeld

variable {s s' : AppState} (hs : ShowsHeld s)

include hs

theorem isSome_cellForRowAt {row : ℕ} (hrow : row < s.rows.length) :
    (cellForRowAt s row).isSome := by
  rw [hs.rows_eq, List.length_map] at hrow
  have hget : s.lottoNumbers[row]? = some s.lottoNumbers[row] := List.getElem?_eq_getElem hrow
  simp [cellForRowAt, hget, sixNumbers_eq (hs.six _ (List.getElem_mem hrow))]

/-- A save writes what is shown. -/
theorem savedTickets_doSave {r : Reply} (hr : r.Succeeds) (h : step s (.doSave r) = some s') :
    s'.savedTickets.map labels = s.rows := by
  have hexec : Block.exec (doSave s r) s = some s' := h
  cases hlotto : s.lotto with
  | none =>
    rw [exec_doSave_of_lotto_eq_none hlotto hr.opened] at hexec
    exact absurd hexec (by simp)
  | some lotto =>
    rw [exec_doSave_of_succeeds hlotto hs.six hr] at hexec
    rw [← Option.some.inj hexec, savedTickets_insertAll s lotto hs.six, hs.rows_eq]

theorem screenIsRight : ScreenIsRight s where
  rows_eq := hs.rows_eq
  cell _ hrow := hs.isSome_cellForRowAt hrow
  save _ hr _ h := hs.savedTickets_doSave hr h

/-- The rows stay the tickets in memory, unless a load fails while there are some. -/
theorem of_step {e : Event} (he : LoadsOrEmpty s e) (h : step s e = some s') : ShowsHeld s' := by
  cases e with
  | doDraw source =>
    obtain ⟨tickets, hexec, htickets, -⟩ := exec_doDraw source s
    obtain rfl := Option.some.inj (hexec.symm.trans h)
    exact ⟨rfl, fun numbers hnumbers => (htickets numbers hnumbers).1.length_eq⟩
  | doLoad r =>
    by_cases hload : r.opened = true ∧ (selectFromLotto s r.selected).isSome
    · obtain ⟨result, hresult⟩ := Option.isSome_iff_exists.mp hload.2
      obtain rfl := Option.some.inj ((exec_doLoad_of_select hload.1 hresult).symm.trans h)
      refine ⟨rfl, fun numbers hnumbers => ?_⟩
      obtain ⟨row, -, rfl⟩ := List.mem_map.mp hnumbers
      exact length_columnArray row
    · obtain rfl := Option.some.inj ((exec_doLoad_of_not hload).symm.trans h)
      have hempty : s.lottoNumbers = [] := by
        refine he.resolve_left fun hall => hload ⟨hall.1, ?_⟩
        rw [selectFromLotto, hall.2.1, if_pos rfl, Option.isSome_map]
        exact hall.2.2
      exact ⟨by rw [hs.rows_eq, hempty], fun _ h => absurd h List.not_mem_nil⟩
  | doSave r => exact hs.of_memory_eq (Block.exec_keeps (keeps_doSave s r) h)
  | relaunch r =>
    exact (showsHeld_processStart s.file).of_memory_eq (Block.exec_keeps (keeps_initDB _ r) h)

/-- A load that fails while there are tickets on screen leaves them there. -/
theorem not_screenIsRight {e : Event} (he : ¬LoadsOrEmpty s e) (h : step s e = some s') :
    ¬ScreenIsRight s' := by
  cases e with
  | doLoad r =>
    obtain ⟨hfail, hne⟩ := not_or.mp he
    have hload : ¬(r.opened = true ∧ (selectFromLotto s r.selected).isSome) := by
      rintro ⟨hopen, hselect⟩
      by_cases hsel : r.selected
      · rw [selectFromLotto, if_pos hsel, Option.isSome_map] at hselect
        exact hfail ⟨hopen, hsel, hselect⟩
      · rw [selectFromLotto, if_neg hsel] at hselect
        exact absurd hselect (by simp)
    obtain rfl := Option.some.inj ((exec_doLoad_of_not hload).symm.trans h)
    intro hright
    have hrows : s.rows = [] := hright.rows_eq
    rw [hs.rows_eq] at hrows
    exact hne (List.map_eq_nil_iff.mp hrows)
  | _ => exact absurd trivial he

end ShowsHeld

/-! ### Whole runs -/

/-- **What is shown is what is held exactly when no load fails over tickets.** In a run in which the
app does not abort, after every press the rows of the table are `lottoNumbers`, a cell can be loaded
for every row, and a save writes the tickets on screen, if and only if every load succeeds or finds
no tickets in memory. -/
theorem screenIsRight_iff_loadsOrEmpty (file : Option Database) {es : List Event}
    (hrun : (run step (processStart file) es).isSome) :
    (∀ bs, bs <+: es → ∀ s, run step (processStart file) bs = some s → ScreenIsRight s) ↔
      AllSteps step LoadsOrEmpty (processStart file) es := by
  obtain ⟨t, ht⟩ := Option.isSome_iff_exists.mp hrun
  exact forall_prefix_iff_allSteps (I := ShowsHeld) (A := fun _ => True)
    (fun s hs => hs.screenIsRight) (fun s e s' hs _ he h => hs.of_step he h)
    (fun s e s' hs _ he h => hs.not_screenIsRight he h) (fun _ _ => trivial)
    (showsHeld_processStart file) ht

/-- A draw, a save and a load: the criterion applies. -/
theorem screenIsRight_iff_loadsOrEmpty_draw :
    (∀ bs, bs <+: [.doDraw .least, .doSave {}, .doLoad {}] →
        ∀ s, run step (processStart (some { lotto := some .empty })) bs = some s →
          ScreenIsRight s) ↔
      AllSteps step LoadsOrEmpty (processStart (some { lotto := some .empty }))
        [.doDraw .least, .doSave {}, .doLoad {}] :=
  screenIsRight_iff_loadsOrEmpty _ (by decide)

/-- After a draw and a load that cannot open the database, the table shows tickets that are not
held. -/
theorem not_screenIsRight_failed_load :
    ¬∀ s, run step (processStart (some { lotto := some .empty }))
      [.doDraw .least, .doLoad { opened := false }] = some s → ScreenIsRight s := by
  intro h
  have hlen := congrArg List.length (h _ rfl).rows_eq
  exact absurd hlen (by decide)

end GuruPractice.LottoDraw
