import GuruPractice.LottoDraw.ShownTickets

/-!
# Interrupted first launches

`initDB` takes a database file for a sign that the table `lotto` exists, and creates the table only
together with the file. A launch that is interrupted between the two, or whose create statement
fails, leaves a file without the table for good, and so does a button that opens the database while
there is no file; then the delete of every later save aborts the app. This file says exactly which
histories the app recovers from.

## Main definitions

* `LottoDraw.Device`, `LottoDraw.Occurrence`, `LottoDraw.occur` — launches and presses in which
  statements fail, abort the app, or are cut short by a kill.
* `LottoDraw.Recovers` — a launch without failures works.
* `LottoDraw.CreatesTableWithFile` — the condition on a single occurrence.

## Main results

* `LottoDraw.Ready.isSome_run` — with the table, a launch without failures works.
* `LottoDraw.recovers_iff_createsTableWithFile`.
-/

namespace GuruPractice.LottoDraw

open Storage Transition

/-! ### Histories of a device -/

/-- The state of the last process, which may have ended, and of the file system. -/
structure Device where
  state : AppState
  running : Bool

/-- A device on which the app has never been launched. -/
def Device.fresh : Device where
  state := processStart none
  running := false

/-- An event, in which the process may be killed after a number of statements. -/
structure Occurrence where
  event : Event
  killed : Option ℕ := none

namespace Occurrence

/-- The statements that are executed, unless one of them aborts the app. -/
def block (o : Occurrence) (s : AppState) : List (Stmt AppState) :=
  o.killed.elim (o.event.block s) (o.event.block s).take

/-- The process is not killed before it has executed `n` statements. -/
def Survives (o : Occurrence) (n : ℕ) : Prop := ∀ k ∈ o.killed, n ≤ k

/-- The event is a launch of the app. -/
def isLaunch (o : Occurrence) : Bool :=
  match o.event with
  | .relaunch _ => true
  | _ => false

/-- The database is opened. -/
def OpensFile (o : Occurrence) : Prop :=
  match o.event with
  | .doDraw _ => False
  | .doLoad r => r.opened = true ∧ o.Survives 2
  | .doSave r => r.opened = true ∧ o.Survives 1
  | .relaunch r => r.opened = true ∧ o.Survives 1

/-- The create statement of `initDB` is executed and succeeds. -/
def CreatesTable (o : Occurrence) : Prop :=
  match o.event with
  | .relaunch r => r.created = true ∧ o.Survives 2
  | _ => False

end Occurrence

/-- What an occurrence does; `none` when a button is pressed while the app is not running. -/
def occur (d : Device) (o : Occurrence) : Option Device :=
  if d.running || o.isLaunch then
    let s := o.event.entry d.state
    some
      { state := Block.reached (o.block s) s
        running := o.killed.isNone && (Block.exec (o.block s) s).isSome }
  else none

/-- In a launch in which every database statement succeeds, the table exists after `initDB`, and no
handler aborts the app. -/
def Recovers (d : Device) : Prop :=
  ∀ r : Reply, r.Succeeds → ∃ s, step d.state (.relaunch r) = some s ∧ s.lotto.isSome ∧
    ∀ es : List Event, (∀ e ∈ es, e.Succeeds) → (run step s es).isSome

/-- If there is no database file, then the database is opened only if the table is created as
well. -/
def CreatesTableWithFile (d : Device) (o : Occurrence) : Prop :=
  d.state.file = none → o.OpensFile → o.CreatesTable

/-! ### A launch without failures -/

/-- The table exists, and the screen shows what is held. -/
structure Ready (s : AppState) : Prop extends ShowsHeld s where
  isSome_lotto : s.lotto.isSome

/-- With the table, an event whose database statements succeed does not abort the app. -/
theorem Ready.exists_step {s : AppState} {e : Event} (hs : Ready s) (he : e.Succeeds) :
    ∃ s', step s e = some s' ∧ Ready s' := by
  obtain ⟨lotto, hlotto⟩ := Option.isSome_iff_exists.mp hs.isSome_lotto
  have hexists : ∃ s', step s e = some s' ∧ s'.lotto.isSome ∧ LoadsOrEmpty s e := by
    cases e with
    | doDraw source =>
      obtain ⟨tickets, hexec, -⟩ := exec_doDraw source s
      exact ⟨_, hexec, hs.isSome_lotto, trivial⟩
    | doLoad r =>
      have hr : r.Succeeds := Event.succeeds_doLoad.mp he
      exact ⟨_, exec_doLoad_of_succeeds hlotto hr, hs.isSome_lotto,
        Or.inl ⟨hr.opened, hr.selected, hs.isSome_lotto⟩⟩
    | doSave r =>
      have hr : r.Succeeds := Event.succeeds_doSave.mp he
      exact ⟨_, exec_doSave_of_succeeds hlotto hs.six hr, rfl, trivial⟩
    | relaunch r => exact ⟨_, step_relaunch_of_lotto hlotto r, hs.isSome_lotto, trivial⟩
  obtain ⟨s', hstep, hlotto', hload⟩ := hexists
  exact ⟨s', hstep, ⟨hs.toShowsHeld.of_step hload hstep, hlotto'⟩⟩

theorem Ready.isSome_run {s : AppState} (hs : Ready s) {es : List Event}
    (hes : ∀ e ∈ es, e.Succeeds) : (run step s es).isSome := by
  induction es generalizing s with
  | nil => rfl
  | cons e es ih =>
    obtain ⟨he, hes⟩ := List.forall_mem_cons.mp hes
    obtain ⟨s₁, hstep, hs₁⟩ := hs.exists_step he
    rw [run_cons, hstep, Option.bind_some]
    exact ih hs₁ hes

/-! ### The file and the table -/

/-- If there is a database file, then the table is in it. -/
def FileHasTable (s : AppState) : Prop := s.file = none ∨ s.lotto.isSome

/-- With the table, a launch without failures works. -/
theorem recovers_of_fileHasTable {d : Device} (hd : FileHasTable d.state) : Recovers d := by
  intro r hr
  have hlaunch : ∃ s, step d.state (.relaunch r) = some s ∧ Ready s := by
    rcases hd with hfile | hlotto
    · refine ⟨processStart (some { lotto := some .empty }), ?_, showsHeld_processStart _, rfl⟩
      simp [step, Event.entry, Event.block, initDB, processStart, hfile, hr.opened, hr.created,
        openFile, createTable]
    · obtain ⟨lotto, hlotto'⟩ := Option.isSome_iff_exists.mp hlotto
      exact ⟨_, step_relaunch_of_lotto hlotto' r, showsHeld_processStart _, hlotto⟩
  obtain ⟨s, hstep, hs⟩ := hlaunch
  exact ⟨s, hstep, hs.isSome_lotto, fun es hes => hs.isSome_run hes⟩

/-- A file without the table stays without it. -/
theorem not_recovers_of_not_fileHasTable {d : Device} (hd : ¬FileHasTable d.state) :
    ¬Recovers d := by
  intro hrec
  obtain ⟨hfile, hlotto⟩ := not_or.mp hd
  obtain ⟨s, hstep, hs, -⟩ := hrec {} Reply.succeeds_default
  have hlaunch : step d.state (.relaunch {}) = some (processStart d.state.file) := by
    simp [step, Event.entry, Event.block, initDB, processStart, hfile]
  obtain rfl := Option.some.inj (hlaunch.symm.trans hstep)
  exact hlotto hs

/-! ### Statements keep the table -/

/-- The statement does not remove the table. -/
def KeepsTable (st : Stmt AppState) : Prop :=
  ∀ s s', s.lotto.isSome → st s = some s' → s'.lotto.isSome

private theorem keepsTable_of_keeps {st : Stmt AppState} (h : Stmt.Keeps AppState.file st) :
    KeepsTable st := by
  intro s s' hs hst
  rwa [AppState.lotto, h s s' hst]

/-- A statement does not remove the table if it does not, given that the table exists. -/
private theorem keepsTable_of_withLotto {st : Stmt AppState}
    (h : ∀ (s : AppState) lotto s', st (s.withLotto lotto) = some s' → s'.lotto.isSome) :
    KeepsTable st := by
  intro s s' hs hst
  obtain ⟨lotto, hlotto⟩ := Option.isSome_iff_exists.mp hs
  rw [← AppState.withLotto_eq_self hlotto] at hst
  exact h s lotto s' hst

private theorem keepsTable_openFile : KeepsTable openFile :=
  keepsTable_of_withLotto fun s lotto s' h => by
    rw [← Option.some.inj h]
    rfl

private theorem keepsTable_createTable (created : Bool) : KeepsTable (createTable created) :=
  keepsTable_of_withLotto fun s lotto s' h => by
    rw [← Option.some.inj h]
    cases created <;> rfl

private theorem keepsTable_deleteFromLotto (deleted : Bool) :
    KeepsTable (deleteFromLotto deleted) :=
  keepsTable_of_withLotto fun s lotto s' h => by
    rw [deleteFromLotto_withLotto] at h
    by_cases hdel : deleted
    · rw [if_pos hdel] at h
      rw [← Option.some.inj h]
      rfl
    · rw [if_neg hdel] at h
      exact absurd h (by simp)

private theorem keepsTable_insertIntoLotto (numbers : List ℤ) (inserted : Bool) :
    KeepsTable (insertIntoLotto numbers inserted) :=
  keepsTable_of_withLotto fun s lotto s' h => by
    obtain ⟨values, -, h⟩ := Option.bind_eq_some_iff.mp h
    rw [← Option.some.inj h]
    cases inserted <;> rfl

private theorem keeps_file_clear : Stmt.Keeps AppState.file clear :=
  Stmt.keeps_some fun _ => rfl

private theorem keeps_file_append (columnArray : List ℤ) :
    Stmt.Keeps AppState.file (append columnArray) :=
  Stmt.keeps_some fun _ => rfl

private theorem keeps_file_reloadData : Stmt.Keeps AppState.file reloadData :=
  Stmt.keeps_map fun _ _ => rfl

theorem keeps_file_doDraw (source : RandomSource) :
    ∀ st ∈ doDraw source, Stmt.Keeps AppState.file st := by
  intro st hst
  simp only [doDraw, List.mem_cons, List.not_mem_nil, or_false] at hst
  rcases hst with rfl | rfl | rfl
  · exact keeps_file_clear
  · exact Stmt.keeps_map fun _ _ => rfl
  · exact keeps_file_reloadData

theorem keepsTable_block {s : AppState} {e : Event} : ∀ st ∈ e.block s, KeepsTable st := by
  intro st hst
  cases e with
  | doDraw source => exact keepsTable_of_keeps (keeps_file_doDraw source st hst)
  | doLoad r =>
    rcases mem_doLoad hst with rfl | rfl | rfl | ⟨columnArray, rfl⟩
    · exact keepsTable_of_keeps keeps_file_clear
    · exact keepsTable_openFile
    · exact keepsTable_of_keeps keeps_file_reloadData
    · exact keepsTable_of_keeps (keeps_file_append _)
  | doSave r =>
    rcases mem_doSave hst with rfl | rfl | ⟨numbers, inserted, rfl⟩
    · exact keepsTable_openFile
    · exact keepsTable_deleteFromLotto _
    · exact keepsTable_insertIntoLotto _ _
  | relaunch r =>
    rcases mem_initDB hst with rfl | rfl
    · exact keepsTable_openFile
    · exact keepsTable_createTable _

/-! ### Handlers without a file -/

section MissingFile

variable {s : AppState} (hs : s.file = none) (r : Reply) (k : ℕ)

include hs

private theorem openFile_of_file_eq_none : openFile s = some { s with file := some {} } := by
  rw [openFile, hs, Option.getD_none]

omit hs in
private theorem not_fileHasTable_empty (s : AppState) :
    ¬FileHasTable { s with file := some {} } := by
  simp [FileHasTable, AppState.lotto]

/-- A load leaves a file without the table if it opens the database. -/
theorem fileHasTable_doLoad_iff :
    FileHasTable (Block.killedAfter k (doLoad s r) s) ↔ ¬(r.opened = true ∧ 2 ≤ k) := by
  have hselect : selectFromLotto s r.selected = none := by
    simp [selectFromLotto, AppState.lotto, hs]
  have hclear : ({ s with lottoNumbers := [] } : AppState).file = none := hs
  by_cases hopen : r.opened
  · have hblock : doLoad s r = [clear, openFile] := by simp [doLoad, hopen, hselect]
    rw [hblock]
    rcases k with _ | _ | k
    · exact iff_of_true (Or.inl hs) (by omega)
    · exact iff_of_true (Or.inl hs) (by omega)
    · refine iff_of_false ?_ (fun h => h ⟨hopen, by omega⟩)
      rw [Block.killedAfter_succ_cons, clear, Option.elim_some, Block.killedAfter_succ_cons,
        openFile_of_file_eq_none hclear, Option.elim_some, Block.killedAfter_nil]
      exact not_fileHasTable_empty _
  · have hblock : doLoad s r = [clear] := by simp [doLoad, hopen]
    refine iff_of_true (Or.inl ?_) (fun h => hopen h.1)
    rw [hblock]
    exact (Block.killedAfter_keeps (by simp [keeps_file_clear]) s k).trans hs

/-- A save leaves a file without the table if it opens the database. -/
theorem fileHasTable_doSave_iff :
    FileHasTable (Block.killedAfter k (doSave s r) s) ↔ ¬(r.opened = true ∧ 1 ≤ k) := by
  by_cases hopen : r.opened
  · rw [doSave, if_pos hopen]
    rcases k with _ | k
    · exact iff_of_true (Or.inl hs) (by omega)
    · refine iff_of_false ?_ (fun h => h ⟨hopen, by omega⟩)
      -- the delete, if it is executed, aborts: either way the file stays empty
      rw [Block.killedAfter_succ_cons, openFile_of_file_eq_none hs, Option.elim_some]
      rcases k with _ | k
      · exact not_fileHasTable_empty s
      · exact not_fileHasTable_empty s
  · rw [doSave, if_neg hopen, Block.killedAfter_nil]
    exact iff_of_true (Or.inl hs) (fun h => hopen h.1)

/-- `initDB` leaves a file without the table if it is stopped in between, or the create statement
fails. -/
theorem fileHasTable_initDB_iff :
    FileHasTable (Block.killedAfter k (initDB s r) s) ↔
      (r.opened = true ∧ 1 ≤ k → r.created = true ∧ 2 ≤ k) := by
  by_cases hopen : r.opened
  · have hblock : initDB s r = [openFile, createTable r.created] := by simp [initDB, hs, hopen]
    rw [hblock]
    rcases k with _ | _ | k
    · exact iff_of_true (Or.inl hs) (by omega)
    · refine iff_of_false ?_ (fun h => absurd (h ⟨hopen, le_rfl⟩).2 (by omega))
      rw [Block.killedAfter_succ_cons, openFile_of_file_eq_none hs]
      exact not_fileHasTable_empty s
    · rw [Block.killedAfter_succ_cons, openFile_of_file_eq_none hs, Option.elim_some,
        Block.killedAfter_succ_cons, createTable, Option.elim_some, Block.killedAfter_nil]
      by_cases hcreated : r.created
      · rw [if_pos hcreated]
        exact iff_of_true (Or.inr rfl) (fun _ => ⟨hcreated, by omega⟩)
      · rw [if_neg hcreated]
        exact iff_of_false (not_fileHasTable_empty _) (fun h => hcreated (h ⟨hopen, by omega⟩).1)
  · have hblock : initDB s r = [] := by simp [initDB, hopen]
    rw [hblock, Block.killedAfter_nil]
    exact iff_of_true (Or.inl hs) (fun h => absurd h.1 hopen)

end MissingFile

/-! ### One occurrence -/

namespace Occurrence

/-- The state in which the process of an occurrence ends or waits for the next one. -/
def after (o : Occurrence) (s : AppState) : AppState :=
  Block.reached (o.block (o.event.entry s)) (o.event.entry s)

theorem mem_block {o : Occurrence} {s : AppState} {st : Stmt AppState} (h : st ∈ o.block s) :
    st ∈ o.event.block s := by
  cases hk : o.killed with
  | none => simpa [block, hk] using h
  | some k =>
    rw [block, hk] at h
    exact List.mem_of_mem_take h

theorem file_entry (e : Event) (s : AppState) : (e.entry s).file = s.file := by
  cases e <;> rfl

/-- No occurrence removes the table. -/
theorem isSome_lotto_after {s : AppState} (hs : s.lotto.isSome) (o : Occurrence) :
    (o.after s).lotto.isSome := by
  refine Block.reached_induction (I := fun s => s.lotto.isSome = true)
    (fun st hst s s' hs h => keepsTable_block st (mem_block hst) s s' hs h) ?_
  rwa [AppState.lotto, file_entry]

/-- An occurrence ends after some number of statements, which decides what it survives. -/
theorem exists_killedAfter (o : Occurrence) (s : AppState) (m : ℕ) :
    ∃ k, o.after s = Block.killedAfter k (o.event.block (o.event.entry s)) (o.event.entry s) ∧
      ∀ n ≤ m, o.Survives n ↔ n ≤ k := by
  cases hk : o.killed with
  | none =>
    refine ⟨(o.event.block (o.event.entry s)).length + m, ?_, fun n hn => ?_⟩
    · rw [after, block, hk, Option.elim_none,
        Block.killedAfter_of_length_le (Nat.le_add_right _ _)]
    · exact iff_of_true (by simp [Survives, hk]) (by omega)
  | some k =>
    refine ⟨k, ?_, fun n _ => by simp [Survives, hk]⟩
    rw [after, block, hk, Option.elim_some, Block.killedAfter]

/-- What becomes of a missing file. -/
theorem fileHasTable_after_iff {s : AppState} (hs : s.file = none) (o : Occurrence) :
    FileHasTable (o.after s) ↔ (o.OpensFile → o.CreatesTable) := by
  obtain ⟨k, hafter, hsurvives⟩ := o.exists_killedAfter s 2
  have hone := hsurvives 1 (by omega)
  have htwo := hsurvives 2 le_rfl
  rw [hafter]
  obtain ⟨e, killed⟩ := o
  cases e with
  | doDraw source =>
    refine iff_of_true (Or.inl ?_) (fun h => h.elim)
    exact (Block.killedAfter_keeps (keeps_file_doDraw source) s k).trans hs
  | doLoad r =>
    refine (fileHasTable_doLoad_iff hs r k).trans ?_
    exact not_congr (and_congr_right fun _ => htwo.symm)
  | doSave r =>
    refine (fileHasTable_doSave_iff hs r k).trans ?_
    exact not_congr (and_congr_right fun _ => hone.symm)
  | relaunch r =>
    refine (fileHasTable_initDB_iff (s := processStart s.file) hs r k).trans ?_
    exact imp_congr (and_congr_right fun _ => hone.symm) (and_congr_right fun _ => htwo.symm)

end Occurrence

/-! ### Whole histories -/

theorem occur_eq_some {d d' : Device} {o : Occurrence} (h : occur d o = some d') :
    d'.state = o.after d.state := by
  rw [occur] at h
  by_cases hrun : d.running || o.isLaunch
  · rw [if_pos hrun] at h
    rw [← Option.some.inj h]
    rfl
  · rw [if_neg hrun] at h
    exact absurd h (by simp)

/-- A file without the table comes about exactly when the condition is violated. -/
theorem fileHasTable_occur_iff {d d' : Device} {o : Occurrence} (hd : FileHasTable d.state)
    (h : occur d o = some d') : FileHasTable d'.state ↔ CreatesTableWithFile d o := by
  rw [occur_eq_some h]
  cases hfile : d.state.file with
  | none =>
    rw [o.fileHasTable_after_iff hfile, CreatesTableWithFile, hfile]
    exact ⟨fun h _ => h, fun h => h rfl⟩
  | some db =>
    have hlotto : d.state.lotto.isSome := hd.resolve_left (by simp [hfile])
    refine iff_of_true (Or.inr (o.isSome_lotto_after hlotto)) fun hnone => ?_
    exact absurd (hfile.symm.trans hnone) (by simp)

/-- **The app recovers exactly when every file is created with its table.** In a history of launches
and presses from a device on which the app has never been launched, in which any statement may fail
and the process may be killed anywhere, at every point a launch without failures finds or creates
the table and none of its handlers aborts, if and only if the database is never opened while there
is no file, unless the table is created as well. -/
theorem recovers_iff_createsTableWithFile {os : List Occurrence}
    (hrun : (run occur .fresh os).isSome) :
    (∀ bs, bs <+: os → ∀ d, run occur .fresh bs = some d → Recovers d) ↔
      AllSteps occur CreatesTableWithFile .fresh os := by
  obtain ⟨t, ht⟩ := Option.isSome_iff_exists.mp hrun
  refine forall_prefix_iff_allSteps (I := fun d => FileHasTable d.state) (A := fun _ => True)
    (fun d hd => recovers_of_fileHasTable hd)
    (fun d o d' hd _ ho h => (fileHasTable_occur_iff hd h).mpr ho) (fun d o d' hd _ ho h => ?_)
    (fun _ _ => trivial) (Or.inl rfl) ht
  exact not_recovers_of_not_fileHasTable fun hd' => ho ((fileHasTable_occur_iff hd h).mp hd')

/-- A first launch, a draw, and a save that is killed after the delete: the criterion applies. -/
theorem recovers_iff_createsTableWithFile_killed_save :
    (∀ bs, bs <+: [⟨.relaunch {}, none⟩, ⟨.doDraw .least, none⟩, ⟨.doSave {}, some 2⟩] →
        ∀ d, run occur .fresh bs = some d → Recovers d) ↔
      AllSteps occur CreatesTableWithFile .fresh
        [⟨.relaunch {}, none⟩, ⟨.doDraw .least, none⟩, ⟨.doSave {}, some 2⟩] :=
  recovers_iff_createsTableWithFile (by decide)

/-- After a first launch that is killed between the open and the create statement, a launch without
failures has no table. -/
theorem not_recovers_killed_launch :
    ¬∀ d, run occur .fresh [⟨.relaunch {}, some 1⟩] = some d → Recovers d := by
  intro h
  refine not_recovers_of_not_fileHasTable ?_ (h _ rfl)
  rintro (hfile | hlotto)
  · exact absurd hfile (Option.some_ne_none _)
  · exact absurd hlotto (by decide)

end GuruPractice.LottoDraw
