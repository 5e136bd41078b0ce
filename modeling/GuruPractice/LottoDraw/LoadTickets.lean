import GuruPractice.LottoDraw.DrawTickets
import GuruPractice.LottoDraw.SaveTickets

/-!
# A load undoes a save

As long as every database statement succeeds, the tickets in memory and those in the table `lotto`
are tickets: six numbers between 1 and 45. A save then writes what is in memory, a load reads what
is in the table, and nothing else changes the table; so a load takes back what the last save
wrote, in the same launch or in a later one.

## Main definitions

* `LottoDraw.HoldsTickets` — the invariant.

## Main results

* `LottoDraw.HoldsTickets.exists_step` — what one event does.
* `LottoDraw.doLoad_undoes_doSave`.
-/

namespace GuruPractice.LottoDraw

open Storage Transition

/-- The table `lotto` exists, and tickets are in it and in memory. -/
structure HoldsTickets (s : AppState) : Prop where
  exists_lotto : ∃ lotto, s.lotto = some lotto
  saved : ∀ numbers ∈ s.savedTickets, IsTicket numbers
  held : ∀ numbers ∈ s.lottoNumbers, IsTicket numbers

/-- The event is a press of the Save button. -/
def Event.isSave : Event → Bool
  | doSave _ => true
  | _ => false

namespace HoldsTickets

variable {s : AppState} (hs : HoldsTickets s)

include hs

/-- A load reads the tickets of the table. -/
theorem exec_doLoad {r : Reply} (hr : r.Succeeds) :
    Block.exec (doLoad s r) s = some
      { s with lottoNumbers := s.savedTickets, rows := s.savedTickets.map labels } := by
  obtain ⟨lotto, hlotto⟩ := hs.exists_lotto
  have hread : lotto.select.map columnArray = s.savedTickets := by
    rw [AppState.savedTickets_eq hlotto]
    refine List.map_congr_left fun row hrow => columnArray_of_isTicket (hs.saved _ ?_)
    rw [AppState.savedTickets_eq hlotto]
    exact List.mem_map_of_mem hrow
  rw [exec_doLoad_of_succeeds hlotto hr, hread]

/-- A save writes the tickets in memory. -/
theorem exec_doSave {r : Reply} (hr : r.Succeeds) :
    ∃ lotto', Block.exec (doSave s r) s = some (s.withLotto lotto') ∧
      (s.withLotto lotto').savedTickets = s.lottoNumbers := by
  obtain ⟨lotto, hlotto⟩ := hs.exists_lotto
  have hsix : ∀ numbers ∈ s.lottoNumbers, numbers.length = 6 :=
    fun numbers h => (hs.held numbers h).length_eq
  exact ⟨_, exec_doSave_of_succeeds hlotto hsix hr, savedTickets_insertAll s lotto hsix⟩

/-- **One event.** If its database statements succeed, an event does not trap and keeps the
invariant; only a save changes the table, to what is in memory; and a load changes what is in
memory to what is in the table. -/
theorem exists_step {e : Event} (he : e.Succeeds) :
    ∃ s', step s e = some s' ∧ HoldsTickets s' ∧
      s'.savedTickets = (if e.isSave then s.lottoNumbers else s.savedTickets) ∧
      ∀ r, e = .doLoad r → s'.lottoNumbers = s.savedTickets := by
  cases e with
  | doDraw source =>
    obtain ⟨tickets, hexec, htickets, -⟩ := exec_doDraw source s
    refine ⟨_, hexec, ⟨hs.exists_lotto, hs.saved, ?_⟩, rfl, fun r h => by simp at h⟩
    exact fun numbers h => (htickets numbers h).1
  | doLoad r =>
    have hr : r.Succeeds := Event.succeeds_doLoad.mp he
    exact ⟨_, hs.exec_doLoad hr, ⟨hs.exists_lotto, hs.saved, hs.saved⟩, rfl, fun _ _ => rfl⟩
  | doSave r =>
    have hr : r.Succeeds := Event.succeeds_doSave.mp he
    obtain ⟨lotto', hexec, hsaved⟩ := hs.exec_doSave hr
    refine ⟨_, hexec, ⟨⟨lotto', rfl⟩, ?_, hs.held⟩, hsaved, fun r h => by simp at h⟩
    rw [hsaved]
    exact hs.held
  | relaunch r =>
    obtain ⟨lotto, hlotto⟩ := hs.exists_lotto
    refine ⟨_, step_relaunch_of_lotto hlotto r, ⟨⟨lotto, hlotto⟩, hs.saved, ?_⟩, rfl,
      fun r h => by simp at h⟩
    exact fun numbers h => absurd h List.not_mem_nil

/-- Events without a save leave the table as it is. -/
theorem exists_run {es : List Event} (hes : ∀ e ∈ es, e.Succeeds) :
    ∃ s', run step s es = some s' ∧ HoldsTickets s' ∧
      ((∀ e ∈ es, e.isSave = false) → s'.savedTickets = s.savedTickets) := by
  induction es generalizing s with
  | nil => exact ⟨s, rfl, hs, fun _ => rfl⟩
  | cons e es ih =>
    obtain ⟨he, hes⟩ := List.forall_mem_cons.mp hes
    obtain ⟨s₁, hstep, hs₁, hsaved₁, -⟩ := hs.exists_step he
    obtain ⟨s', hrun, hs', hsaved⟩ := ih hs₁ hes
    refine ⟨s', (run_cons_eq_some step).mpr ⟨s₁, hstep, hrun⟩, hs', fun hnot => ?_⟩
    obtain ⟨hne, hnot⟩ := List.forall_mem_cons.mp hnot
    rw [hsaved hnot, hsaved₁, hne, if_neg Bool.false_ne_true]

end HoldsTickets

/-- An empty table holds tickets. -/
theorem holdsTickets_processStart {lotto : AutoincrementTable LottoRow}
    (hempty : lotto.select = []) : HoldsTickets (processStart (some { lotto := some lotto })) where
  exists_lotto := ⟨lotto, rfl⟩
  saved numbers h := by
    rw [AppState.savedTickets_eq rfl, hempty] at h
    exact absurd h List.not_mem_nil
  held numbers h := absurd h List.not_mem_nil

/-- **A load undoes a save.** From an empty table, no run in which every database statement succeeds
traps; and after any such run, a save, any events without a save, relaunches among them, and a load,
`lottoNumbers` is what it was at the save. -/
theorem doLoad_undoes_doSave {lotto : AutoincrementTable LottoRow} (hempty : lotto.select = [])
    {as bs : List Event} {r r' : Reply} (has : ∀ e ∈ as, e.Succeeds) (hr : r.Succeeds)
    (hbs : ∀ e ∈ bs, e.Succeeds ∧ e.isSave = false) (hr' : r'.Succeeds) :
    ∃ s t, run step (processStart (some { lotto := some lotto })) as = some s ∧
      run step s (.doSave r :: (bs ++ [.doLoad r'])) = some t ∧
      t.lottoNumbers = s.lottoNumbers := by
  obtain ⟨s, hrun, hs, -⟩ := (holdsTickets_processStart hempty).exists_run has
  obtain ⟨s₁, hsave, hs₁, hsaved₁, -⟩ := hs.exists_step (Event.succeeds_doSave.mpr hr)
  obtain ⟨s₂, hrun₂, hs₂, hsaved₂⟩ := hs₁.exists_run fun e he => (hbs e he).1
  obtain ⟨t, hload, -, -, hloaded⟩ := hs₂.exists_step (Event.succeeds_doLoad.mpr hr')
  refine ⟨s, t, hrun, ?_, ?_⟩
  · refine (run_cons_eq_some step).mpr ⟨s₁, hsave, (run_append_eq_some step).mpr ⟨s₂, hrun₂, ?_⟩⟩
    exact (run_cons_eq_some step).mpr ⟨t, hload, rfl⟩
  · rw [hloaded r' rfl, hsaved₂ fun e he => (hbs e he).2, hsaved₁]
    rfl

/-- Tickets are drawn and saved, and loaded after a relaunch. -/
theorem doLoad_undoes_doSave_relaunch :
    ∃ s t, run step (processStart (some { lotto := some .empty })) [.doDraw .least] = some s ∧
      run step s (.doSave {} :: ([.relaunch {}] ++ [.doLoad {}])) = some t ∧
      t.lottoNumbers = s.lottoNumbers :=
  doLoad_undoes_doSave rfl (by simp) Reply.succeeds_default
    (by simp [Event.isSave, Reply.succeeds_default])
    Reply.succeeds_default

end GuruPractice.LottoDraw
