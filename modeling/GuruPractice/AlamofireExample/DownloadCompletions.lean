import Mathlib.Algebra.Order.BigOperators.Group.List
import Mathlib.Algebra.Order.Ring.Nat
import GuruPractice.AlamofireExample.DownloadLedger
import GuruPractice.AlamofireExample.DownloadQueue

/-!
# Every download is completed once

A downloader that is left alone, with servers answering in any order, comes to rest after a bounded
number of steps. No request is queued then, and every download has had its one call of the
completion handler, whatever was cancelled, purged or downloaded again on the way.

## Main definitions

* `AlamofireExample.ImageDownloader.AtRest`, `AlamofireExample.ImageDownloader.stepsLeft`.

## Main results

* `AlamofireExample.count_completions_of_atRest`.
* `AlamofireExample.length_le_of_isInternal`.
-/

namespace GuruPractice.AlamofireExample

open Storage Transition

variable {URL Image : Type} [DecidableEq URL] {c : Configuration} {d : ImageDownloader URL Image}
  {es : List (Event URL Image)}

/-! ### At rest -/

/-- Neither the downloader nor the session nor a server can take a step. -/
def ImageDownloader.AtRest (c : Configuration) (d : ImageDownloader URL Image) : Prop :=
  ∀ e, e.IsInternal → step c d e = none

theorem ImageDownloader.AtRest.phase_eq (hrest : d.AtRest c) {r : DataRequest URL Image}
    (hr : r ∈ d.requests) : r.phase = .done ∨ r.phase = .waiting ∧ r.started = false := by
  obtain ⟨request, hrequest⟩ := List.mem_iff_getElem?.mp hr
  have hnone {e : Event URL Image} {d' : ImageDownloader URL Image} (he : e.IsInternal)
      (hstep : step c d e = some d') : False := by simp [hrest e he] at hstep
  cases hphase : r.phase with
  | waiting =>
    have hfinish : ¬r.CanFinish := fun hfinish =>
      hnone (e := .respond request none) trivial
        (step_respond.mpr ⟨r, hrequest, hphase, hfinish, fun _ => rfl, rfl⟩)
    simp only [DataRequest.CanFinish, not_or, not_and, Bool.not_eq_true] at hfinish
    have htask : r.hasTask = true := by
      by_contra htask
      exact hnone (e := .createTask request) trivial (step_createTask.mpr
        ⟨r, hrequest, hphase, by simpa using htask, hfinish.2.1, hfinish.2.2, rfl⟩)
    refine Or.inr ⟨rfl, ?_⟩
    by_contra hstarted
    simp [htask] at hfinish
    exact hstarted hfinish.1
  | removingHandler result =>
    exact (hnone (e := .removeResponseHandler request) trivial
      (step_removeResponseHandler.mpr ⟨r, result, hrequest, hphase, rfl⟩)).elim
  | completing result operations =>
    cases operations with
    | nil =>
      exact (hnone (e := .decrementActiveRequestCount request) trivial
        (step_decrementActiveRequestCount.mpr ⟨r, result, hrequest, hphase, rfl⟩)).elim
    | cons n operations =>
      exact (hnone (e := .completeOperation request) trivial
        (step_completeOperation.mpr ⟨r, result, n, operations, hrequest, hphase, rfl⟩)).elim
  | startingNext =>
    exact (hnone (e := .startNextRequest request) trivial
      (step_startNextRequest.mpr ⟨r, hrequest, hphase, rfl⟩)).elim
  | done => exact Or.inl rfl

theorem ImageDownloader.atRest_of_phase_eq_done (hdone : ∀ r ∈ d.requests, r.phase = .done) :
    d.AtRest c := by
  intro e he
  by_contra hstep
  obtain ⟨d', hstep⟩ := Option.ne_none_iff_exists'.mp hstep
  have hfalse {request : ℕ} {r : DataRequest URL Image} (hr : d.requests[request]? = some r)
      (hphase : r.phase ≠ .done) : False :=
    hphase (hdone r (List.mem_of_getElem? hr))
  cases e with
  | download url => exact he
  | cancelRequest receiptID => exact he
  | purge url => exact he
  | createTask request =>
    obtain ⟨r, hr, hphase, -⟩ := step_createTask.mp hstep
    exact hfalse hr (by simp [hphase])
  | didFailToCreateURLRequest request =>
    obtain ⟨r, hr, hphase, -⟩ := step_didFailToCreateURLRequest.mp hstep
    exact hfalse hr (by simp [hphase])
  | respond request result =>
    obtain ⟨r, hr, hphase, -⟩ := step_respond.mp hstep
    exact hfalse hr (by simp [hphase])
  | removeResponseHandler request =>
    obtain ⟨r, result, hr, hphase, -⟩ := step_removeResponseHandler.mp hstep
    exact hfalse hr (by simp [hphase])
  | completeOperation request =>
    obtain ⟨r, result, n, operations, hr, hphase, -⟩ := step_completeOperation.mp hstep
    exact hfalse hr (by simp [hphase])
  | decrementActiveRequestCount request =>
    obtain ⟨r, result, hr, hphase, -⟩ := step_decrementActiveRequestCount.mp hstep
    exact hfalse hr (by simp [hphase])
  | startNextRequest request =>
    obtain ⟨r, hr, hphase, -⟩ := step_startNextRequest.mp hstep
    exact hfalse hr (by simp [hphase])

/-- The queue does not starve: at rest, the started requests have all given their places back. -/
theorem ImageDownloader.Consistent.queuedRequests_eq_nil (h : d.Consistent c)
    (hmax : 0 < c.maximumActiveDownloads) (hrest : d.AtRest c) : d.queuedRequests = [] := by
  by_contra hne
  have hbusy := h.busy hne
  have hnext : d.requests.countP (·.phase.isStartingNext) = 0 := by
    refine List.countP_eq_zero.mpr fun r hr => ?_
    rcases hrest.phase_eq hr with hphase | ⟨hphase, -⟩ <;>
      simp [hphase, ResponsePhase.isStartingNext]
  have hle : d.requests.countP (·.started) ≤ d.requests.countP (·.phase.released) := by
    refine List.countP_mono_left fun r hr hstarted => ?_
    rcases hrest.phase_eq hr with hphase | ⟨-, hnot⟩
    · simp [hphase, ResponsePhase.released]
    · exact absurd hstarted (by simp [hnot])
  have hcount := h.activeRequestCount_eq
  omega

theorem ImageDownloader.Consistent.phase_eq_done (h : d.Consistent c)
    (hmax : 0 < c.maximumActiveDownloads) (hrest : d.AtRest c) {r : DataRequest URL Image}
    (hr : r ∈ d.requests) : r.phase = .done := by
  refine (hrest.phase_eq hr).resolve_right fun ⟨_, hstarted⟩ => ?_
  obtain ⟨request, hrequest⟩ := List.mem_iff_getElem?.mp hr
  have hmem := (h.mem_queue_iff request).mpr (by simp [hrequest, hstarted])
  simp [h.queuedRequests_eq_nil hmax hrest] at hmem

theorem ImageDownloader.Consistent.responseHandlers_eq_none (h : d.Consistent c)
    (hmax : 0 < c.maximumActiveDownloads) (hrest : d.AtRest c) (url : URL) :
    d.responseHandlers url = none := by
  cases hurl : d.responseHandlers url with
  | none => rfl
  | some handler =>
    obtain ⟨r, hr, -, hawaited⟩ := h.handler_awaited url handler hurl
    have hphase := h.phase_eq_done hmax hrest (List.mem_of_getElem? hr)
    simp [DataRequest.Awaited, hphase] at hawaited

theorem ImageDownloader.Consistent.pending_eq_nil (h : d.Consistent c)
    (hmax : 0 < c.maximumActiveDownloads) (hrest : d.AtRest c) (key : URL ⊕ ℕ) :
    d.ledger.pending key = [] := by
  cases key with
  | inl url => rw [pending_handler (h.responseHandlers_eq_none hmax hrest url)]; rfl
  | inr request =>
    cases hr : d.requests[request]? with
    | none => simp [ImageDownloader.ledger, responseOperations, hr]
    | some r =>
      rw [pending_response hr, h.phase_eq_done hmax hrest (List.mem_of_getElem? hr)]
      rfl

/-- **Every completion handler is called exactly once.** When the downloader has come to rest, no
request is queued and every download has had its one call, whatever was cancelled, purged or
replaced on the way. -/
theorem count_completions_of_atRest (hmax : 0 < c.maximumActiveDownloads)
    (h : run (step c) ImageDownloader.initial es = some d) (hrest : d.AtRest c) :
    d.queuedRequests = [] ∧
      ∀ n, (d.completions.map Prod.fst).count n = if n < d.receipts.length then 1 else 0 := by
  have hconsistent := consistent_run h
  exact ⟨hconsistent.queuedRequests_eq_nil hmax hrest,
    (balanced_run h).count_settled (hconsistent.pending_eq_nil hmax hrest)⟩

/-- Two cells wait for one picture; in the queue, the picture of a third is cancelled, and that of a
fourth cannot be requested. -/
def sharedAndCancelled : List (Event ℕ ℕ) :=
  [.download 0, .download 0, .download 1, .download 2, .createTask 0, .cancelRequest 2,
    .respond 1 none, .decrementActiveRequestCount 1, .startNextRequest 1,
    .didFailToCreateURLRequest 2, .respond 2 none, .removeResponseHandler 2, .completeOperation 2,
    .decrementActiveRequestCount 2, .startNextRequest 2, .respond 0 (some 7),
    .removeResponseHandler 0, .completeOperation 0, .completeOperation 0,
    .decrementActiveRequestCount 0, .startNextRequest 0]

theorem count_completions_sharedAndCancelled :
    ∃ d, run (step ⟨.fifo, 1⟩) ImageDownloader.initial sharedAndCancelled = some d ∧
      d.queuedRequests = [] ∧ ∀ n, (d.completions.map Prod.fst).count n = if n < 4 then 1 else 0 :=
  ⟨_, rfl, @count_completions_of_atRest _ _ _ ⟨.fifo, 1⟩ _ sharedAndCancelled (by decide) rfl
    (ImageDownloader.atRest_of_phase_eq_done (List.forall_mem_cons.mpr ⟨rfl,
      List.forall_mem_cons.mpr ⟨rfl, List.forall_mem_cons.mpr ⟨rfl, List.forall_mem_nil _⟩⟩⟩))⟩

/-! ### Coming to rest -/

/-- The steps the requests can still cause, completion handlers not counted. -/
def ImageDownloader.stepsLeft (d : ImageDownloader URL Image) : ℕ :=
  (d.requests.map fun r => r.phase.stepsLeft + if r.hasTask || r.setupFailed then 0 else 1).sum

omit [DecidableEq URL] in
theorem ImageDownloader.stepsLeft_le (d : ImageDownloader URL Image) :
    d.stepsLeft ≤ 5 * d.requests.length := by
  rw [stepsLeft, Nat.mul_comm]
  refine (List.sum_le_card_nsmul _ 5 fun n hn => ?_).trans (by simp)
  obtain ⟨r, -, rfl⟩ := List.mem_map.mp hn
  have hphase : r.phase.stepsLeft ≤ 4 := by
    cases hr : r.phase <;> simp [ResponsePhase.stepsLeft]
  split_ifs <;> omega

omit [DecidableEq URL] in
theorem ImageDownloader.stepsLeft_setPhase {request : ℕ} {r : DataRequest URL Image}
    (hr : d.requests[request]? = some r) (phase : ResponsePhase Image) :
    (d.setPhase request phase).stepsLeft + r.phase.stepsLeft =
      d.stepsLeft + phase.stepsLeft := by
  have hsum := sum_map_modify (f := fun r : DataRequest URL Image => { r with phase })
    (g := fun r => r.phase.stepsLeft + if r.hasTask || r.setupFailed then 0 else 1) hr
  dsimp only at hsum
  simp only [stepsLeft, setPhase]
  omega

omit [DecidableEq URL] in
/-- The phase of a request goes on while other parts of the state may change. -/
theorem ImageDownloader.stepsLeft_setPhase_lt {d₁ : ImageDownloader URL Image} {request : ℕ}
    {r : DataRequest URL Image} (hrequests : d₁.requests = d.requests)
    (hr : d.requests[request]? = some r) {phase : ResponsePhase Image}
    (hlt : phase.stepsLeft < r.phase.stepsLeft) :
    (d₁.setPhase request phase).stepsLeft < d.stepsLeft := by
  have hsteps := stepsLeft_setPhase (d := d₁) (hrequests ▸ hr) phase
  have heq : d₁.stepsLeft = d.stepsLeft := by rw [stepsLeft, stepsLeft, hrequests]
  omega

omit [DecidableEq URL] in
theorem ImageDownloader.stepsLeft_startNextRequestIfNecessary :
    (d.startNextRequestIfNecessary c).stepsLeft = d.stepsLeft := by
  rw [startNextRequestIfNecessary]
  split_ifs
  · cases d.queuedRequests with
    | nil => rfl
    | cons request queue =>
      simp only [stepsLeft, start]
      exact congrArg List.sum (map_modify_eq fun _ => rfl)
  · rfl

/-- An internal step uses up a step that was left, or calls a completion handler. -/
theorem stepsLeft_step {d' : ImageDownloader URL Image} {e : Event URL Image} (he : e.IsInternal)
    (hstep : step c d e = some d') :
    d'.requests.length = d.requests.length ∧ d'.receipts = d.receipts ∧
      d'.stepsLeft + d.completions.length < d.stepsLeft + d'.completions.length := by
  cases e with
  | download url => exact he.elim
  | cancelRequest receiptID => exact he.elim
  | purge url => exact he.elim
  | createTask request =>
    obtain ⟨r, hr, hphase, htask, -, hfailed, rfl⟩ := step_createTask.mp hstep
    refine ⟨List.length_modify .., rfl, Nat.add_lt_add_right ?_ _⟩
    have hsum := sum_map_modify (f := fun r : DataRequest URL Image => { r with hasTask := true })
      (g := fun r => r.phase.stepsLeft + if r.hasTask || r.setupFailed then 0 else 1) hr
    simp only [htask, hfailed, Bool.or_false, Bool.false_eq_true, if_false, if_true] at hsum
    simp only [ImageDownloader.stepsLeft]
    omega
  | didFailToCreateURLRequest request =>
    obtain ⟨r, hr, hphase, htask, hfailed, rfl⟩ := step_didFailToCreateURLRequest.mp hstep
    refine ⟨List.length_modify .., rfl, Nat.add_lt_add_right ?_ _⟩
    have hsum := sum_map_modify
      (f := fun r : DataRequest URL Image => { r with setupFailed := true })
      (g := fun r => r.phase.stepsLeft + if r.hasTask || r.setupFailed then 0 else 1) hr
    simp only [htask, hfailed, Bool.or_false, Bool.or_true, Bool.false_eq_true, if_false,
      if_true] at hsum
    simp only [ImageDownloader.stepsLeft]
    omega
  | respond request result =>
    obtain ⟨r, hr, hphase, -, -, rfl⟩ := step_respond.mp hstep
    rw [ImageDownloader.respond]
    split_ifs <;> refine ⟨List.length_modify .., rfl, Nat.add_lt_add_right ?_ _⟩ <;>
      exact ImageDownloader.stepsLeft_setPhase_lt rfl hr (by simp [hphase, ResponsePhase.stepsLeft])
  | removeResponseHandler request =>
    obtain ⟨r, result, hr, hphase, rfl⟩ := step_removeResponseHandler.mp hstep
    rw [ImageDownloader.removeResponseHandler]
    cases d.responseHandlers r.url <;>
      refine ⟨List.length_modify .., rfl, Nat.add_lt_add_right ?_ _⟩ <;>
      exact ImageDownloader.stepsLeft_setPhase_lt rfl hr
        (by simp [hphase, ResponsePhase.stepsLeft])
  | completeOperation request =>
    obtain ⟨r, result, receiptID, operations, hr, hphase, rfl⟩ := step_completeOperation.mp hstep
    refine ⟨List.length_modify .., rfl, ?_⟩
    have hsteps := ImageDownloader.stepsLeft_setPhase hr (.completing result operations)
    rw [hphase] at hsteps
    have hsame : (d.completeOperation request r.url result receiptID operations).stepsLeft =
        d.stepsLeft := Nat.add_right_cancel hsteps
    have hlength : (d.completeOperation request r.url result receiptID
        operations).completions.length = d.completions.length + 1 := List.length_append
    omega
  | decrementActiveRequestCount request =>
    obtain ⟨r, result, hr, hphase, rfl⟩ := step_decrementActiveRequestCount.mp hstep
    refine ⟨List.length_modify .., rfl, Nat.add_lt_add_right ?_ _⟩
    exact ImageDownloader.stepsLeft_setPhase_lt rfl hr
      (by simp [hphase, ResponsePhase.stepsLeft])
  | startNextRequest request =>
    obtain ⟨r, hr, hphase, rfl⟩ := step_startNextRequest.mp hstep
    obtain ⟨r', hr', hphase'⟩ := getElem?_startNextRequestIfNecessary (c := c) hr
    obtain ⟨hlength, hreceipts, hcompletions⟩ := startNextRequestIfNecessary_frame (c := c) (d := d)
    refine ⟨(List.length_modify ..).trans hlength, hreceipts, ?_⟩
    have hlt : (ResponsePhase.done : ResponsePhase Image).stepsLeft < r'.phase.stepsLeft := by
      simp [hphase', hphase, ResponsePhase.stepsLeft]
    have hsteps := ImageDownloader.stepsLeft_setPhase_lt rfl hr' hlt
    rw [ImageDownloader.stepsLeft_startNextRequestIfNecessary] at hsteps
    exact hcompletions ▸ Nat.add_lt_add_right hsteps _

theorem length_add_stepsLeft_le {d' : ImageDownloader URL Image} {es' : List (Event URL Image)}
    (hes : ∀ e ∈ es', e.IsInternal) (h : run (step c) d es' = some d') :
    d'.requests.length = d.requests.length ∧ d'.receipts = d.receipts ∧
      es'.length + d.completions.length ≤ d.stepsLeft + d'.completions.length := by
  induction es' generalizing d with
  | nil =>
    obtain rfl := Option.some.inj h
    exact ⟨rfl, rfl, by simp⟩
  | cons e es' ih =>
    obtain ⟨d₁, hstep, hrun⟩ := (run_cons_eq_some _).mp h
    obtain ⟨he, hes⟩ := List.forall_mem_cons.mp hes
    obtain ⟨hrequests, hreceipts, hlt⟩ := stepsLeft_step he hstep
    obtain ⟨hrequests', hreceipts', hle⟩ := ih hes hrun
    refine ⟨hrequests'.trans hrequests, hreceipts'.trans hreceipts, ?_⟩
    rw [List.length_cons]
    omega

/-- **The downloader comes to rest.** Left alone, it takes at most five steps for each request, and
one for each download. -/
theorem length_le_of_isInternal {d' : ImageDownloader URL Image} {es' : List (Event URL Image)}
    (h : run (step c) ImageDownloader.initial es = some d) (hes : ∀ e ∈ es', e.IsInternal)
    (h' : run (step c) d es' = some d') :
    es'.length ≤ 5 * d.requests.length + d.receipts.length := by
  obtain ⟨-, hreceipts, hle⟩ := length_add_stepsLeft_le hes h'
  have hbalanced : d'.ledger.Balanced := run_induction (I := fun d => d.ledger.Balanced)
    (fun _ _ _ hs hstep => hs.entry (entry_step hstep)) (balanced_run h) h'
  have hcompletions : d'.completions.length ≤ d.receipts.length := by
    have hlength := hbalanced.length_settled_le
    rwa [ImageDownloader.ledger, List.length_map, hreceipts] at hlength
  have hsteps := d.stepsLeft_le
  omega

theorem length_le_of_isInternal_two_downloads :
    ([.createTask 0, .respond 0 (some 7), .removeResponseHandler 0, .completeOperation 0,
      .completeOperation 0] : List (Event ℕ ℕ)).length ≤ 5 * 1 + 2 := by
  refine @length_le_of_isInternal ℕ ℕ _ ⟨.fifo, 1⟩ _ [.download 0, .download 0] _ _ rfl
    (fun e he => ?_) rfl
  simp only [List.mem_cons, List.not_mem_nil, or_false] at he
  rcases he with rfl | rfl | rfl | rfl | rfl <;> trivial

end GuruPractice.AlamofireExample
