import Mathlib.Data.Sum.Basic
import GuruPractice.AlamofireExample.ImageDownloader
import GuruPractice.Storage.ListModify
import GuruPractice.Transition.Ledger

/-!
# Who waits for a download

Every download is owed one call of its completion handler. Until then it waits with the response
handler of its URL or, when that has been removed, with the response of a request that goes through
the completion handlers. This file keeps a ledger of the downloads, and shows that every step of the
downloader is an entry of it.

## Main definitions

* `AlamofireExample.ImageDownloader.ledger`.

## Main results

* `AlamofireExample.entry_step`, `AlamofireExample.balanced_run`.
* `AlamofireExample.count_completions_le_one`.
-/

namespace GuruPractice.AlamofireExample

open Storage Transition

variable {URL Image : Type}

/-! ### Who waits for a completion -/

/-- The operations of the handlers, by URL. -/
def handlerOperations (responseHandlers : URL → Option ResponseHandler) (url : URL) : List ℕ :=
  ((responseHandlers url).map ResponseHandler.operations).getD []

/-- The operations that are being completed, by request. -/
def responseOperations (requests : List (DataRequest URL Image)) (request : ℕ) : List ℕ :=
  (requests[request]?.map fun r => r.phase.operations).getD []

/-- The downloads, each of which is owed one call of its completion handler. A download is pending
with the handler of its URL or with the response of a request. -/
def ImageDownloader.ledger (d : ImageDownloader URL Image) : Ledger (URL ⊕ ℕ) where
  issued := d.receipts.length
  pending := Sum.elim (handlerOperations d.responseHandlers) (responseOperations d.requests)
  settled := d.completions.map Prod.fst

section LedgerEntries

theorem handlerOperations_update [DecidableEq URL]
    (responseHandlers : URL → Option ResponseHandler) (url : URL)
    (handler : Option ResponseHandler) :
    handlerOperations (Function.update responseHandlers url handler) =
      Function.update (handlerOperations responseHandlers) url
        ((handler.map ResponseHandler.operations).getD []) := by
  funext url'
  by_cases hurl : url' = url
  · subst hurl
    simp [handlerOperations]
  · simp [handlerOperations, hurl]

theorem responseOperations_modify {requests : List (DataRequest URL Image)} {request : ℕ}
    {f : DataRequest URL Image → DataRequest URL Image} (hf : ∀ r, (f r).phase = r.phase) :
    responseOperations (requests.modify request f) = responseOperations requests := by
  funext request'
  rw [responseOperations, responseOperations, List.getElem?_modify]
  cases requests[request']? with
  | none => rfl
  | some r => by_cases hr : request = request' <;> simp [hr, hf]

theorem responseOperations_setPhase {requests : List (DataRequest URL Image)} {request : ℕ}
    {r : DataRequest URL Image} (hr : requests[request]? = some r) (phase : ResponsePhase Image) :
    responseOperations (requests.modify request fun r => { r with phase }) =
      Function.update (responseOperations requests) request phase.operations := by
  funext request'
  rw [responseOperations, List.getElem?_modify]
  by_cases heq : request' = request
  · subst heq
    simp [hr]
  · simp [responseOperations, heq, Ne.symm heq]

theorem responseOperations_append {requests : List (DataRequest URL Image)}
    {r : DataRequest URL Image} (hr : r.phase = .waiting) :
    responseOperations (requests ++ [r]) = responseOperations requests := by
  funext request
  rw [responseOperations, responseOperations, List.getElem?_append]
  split_ifs with hlt
  · rfl
  · rw [List.getElem?_eq_none (Nat.le_of_not_lt hlt)]
    cases request - requests.length with
    | zero => simp [hr, ResponsePhase.operations]
    | succ n => simp

variable {c : Configuration} {d : ImageDownloader URL Image}

@[simp] theorem ledger_start (request : ℕ) : (d.start request).ledger = d.ledger := by
  simp [ImageDownloader.ledger, ImageDownloader.start, responseOperations_modify]

@[simp] theorem ledger_enqueue (request : ℕ) : (d.enqueue c request).ledger = d.ledger := by
  cases hp : c.downloadPrioritization <;> simp [ImageDownloader.enqueue, hp, ImageDownloader.ledger]

@[simp] theorem ledger_startNextRequestIfNecessary :
    (d.startNextRequestIfNecessary c).ledger = d.ledger := by
  rw [ImageDownloader.startNextRequestIfNecessary]
  split_ifs
  · cases hq : d.queuedRequests with
    | nil => rfl
    | cons request queue => exact ledger_start (d := { d with queuedRequests := queue }) request
  · rfl

theorem ledger_setPhase [DecidableEq URL] {request : ℕ} {r : DataRequest URL Image}
    (hr : d.requests[request]? = some r) (phase : ResponsePhase Image) :
    (d.setPhase request phase).ledger =
      { d.ledger with
        pending := Function.update d.ledger.pending (.inr request) phase.operations } := by
  simp [ImageDownloader.ledger, ImageDownloader.setPhase, responseOperations_setPhase hr,
    -Sum.elim_update_right]

variable [DecidableEq URL]

theorem pending_updateHandler (url : URL) (handler : Option ResponseHandler) :
    Sum.elim (handlerOperations (Function.update d.responseHandlers url handler))
        (responseOperations d.requests) =
      Function.update d.ledger.pending (.inl url)
        ((handler.map ResponseHandler.operations).getD []) := by
  rw [handlerOperations_update]
  exact Sum.update_elim_inl.symm

omit [DecidableEq URL] in
theorem pending_handler {url : URL} {handler : Option ResponseHandler}
    (hurl : d.responseHandlers url = handler) :
    d.ledger.pending (.inl url) = (handler.map ResponseHandler.operations).getD [] := by
  simp [ImageDownloader.ledger, handlerOperations, hurl]

omit [DecidableEq URL] in
theorem pending_response {request : ℕ} {r : DataRequest URL Image}
    (hr : d.requests[request]? = some r) :
    d.ledger.pending (.inr request) = r.phase.operations := by
  simp [ImageDownloader.ledger, responseOperations, hr]

theorem entry_makeRequest {url : URL} (hurl : d.responseHandlers url = none) :
    d.ledger.Entry (d.makeRequest url).ledger := by
  refine (Ledger.Entry.issue (Sum.inl url)).congr List.length_append ?_ rfl
  rw [Ledger.issue, pending_handler hurl]
  simp only [ImageDownloader.ledger, ImageDownloader.makeRequest, responseOperations_append]
  exact pending_updateHandler url _

theorem entry_download (url : URL) : d.ledger.Entry (d.download c url).ledger := by
  rw [ImageDownloader.download]
  cases hurl : d.responseHandlers url with
  | some handler =>
    refine (Ledger.Entry.issue (Sum.inl url)).congr List.length_append ?_ rfl
    rw [Ledger.issue, pending_handler hurl]
    exact pending_updateHandler url _
  | none =>
    cases hcache : d.imageCache url with
    | some image => exact Ledger.Entry.issueSettled.congr List.length_append rfl List.map_append
    | none =>
      simp only
      split_ifs <;> simpa using entry_makeRequest hurl

theorem pending_cancelRequest {receiptID request : ℕ} {url : URL} {handler : ResponseHandler}
    (hurl : d.responseHandlers url = some handler) :
    (d.cancelRequest receiptID request url).ledger.pending =
      Function.update d.ledger.pending (.inl url) (handler.operations.erase receiptID) := by
  simp only [ImageDownloader.cancelRequest, hurl]
  split_ifs with hempty
  · rw [hempty]
    simp only [ImageDownloader.ledger, responseOperations_modify, implies_true]
    exact pending_updateHandler url none
  · exact pending_updateHandler url _

theorem settled_cancelRequest {receiptID request : ℕ} {url : URL} {handler : ResponseHandler}
    (hurl : d.responseHandlers url = some handler) :
    (d.cancelRequest receiptID request url).ledger.settled =
      d.ledger.settled ++ if receiptID ∈ handler.operations then [receiptID] else [] := by
  simp only [ImageDownloader.cancelRequest, hurl]
  split_ifs <;> simp_all [ImageDownloader.ledger, ImageDownloader.removeOperation]

theorem entry_cancelRequest (receiptID request : ℕ) (url : URL) :
    d.ledger.Entry (d.cancelRequest receiptID request url).ledger := by
  cases hurl : d.responseHandlers url with
  | none =>
    rw [ImageDownloader.cancelRequest, hurl]
    exact .none
  | some handler =>
    have hpending := pending_handler hurl
    have hissued : (d.cancelRequest receiptID request url).ledger.issued = d.ledger.issued := by
      simp only [ImageDownloader.cancelRequest, hurl]
      split_ifs <;> rfl
    by_cases hmem : receiptID ∈ handler.operations
    · refine (Ledger.Entry.settle (k := Sum.inl url) (n := receiptID) ?_).congr hissued ?_ ?_
      · rw [hpending]
        exact hmem
      · rw [Ledger.settle, hpending, pending_cancelRequest hurl]
        rfl
      · rw [settled_cancelRequest hurl, if_pos hmem]
        rfl
    · refine Ledger.Entry.none.congr hissued ?_ ?_
      · rw [pending_cancelRequest hurl, List.erase_of_not_mem hmem]
        exact Function.update_eq_self_iff.mpr hpending.symm
      · rw [settled_cancelRequest hurl, if_neg hmem, List.append_nil]

/-- Setting a phase moves nothing when the operations of the response stay the same. -/
theorem entry_setPhase {request : ℕ} {r : DataRequest URL Image}
    (hr : d.requests[request]? = some r) {phase : ResponsePhase Image}
    (hphase : phase.operations = r.phase.operations) :
    d.ledger.Entry (d.setPhase request phase).ledger := by
  rw [ledger_setPhase hr, hphase, ← pending_response hr, Function.update_eq_self]
  exact .none

theorem entry_removeResponseHandler {request : ℕ} {r : DataRequest URL Image}
    {result : Option Image} (hr : d.requests[request]? = some r)
    (hphase : r.phase = .removingHandler result) (url : URL) :
    d.ledger.Entry (d.removeResponseHandler request url result).ledger := by
  rw [ImageDownloader.removeResponseHandler]
  cases hurl : d.responseHandlers url with
  | none => exact entry_setPhase hr (by rw [hphase]; rfl)
  | some handler =>
    have hne : (Sum.inl url : URL ⊕ ℕ) ≠ Sum.inr request := Sum.inl_ne_inr
    refine (Ledger.Entry.transfer hne).congr rfl ?_ rfl
    have hpending : d.ledger.pending (.inr request) = [] := by
      rw [pending_response hr, hphase]
      rfl
    simp only [ledger_setPhase (d := { d with
      responseHandlers := Function.update d.responseHandlers url none }) hr]
    rw [Ledger.transfer, hpending, pending_handler hurl]
    exact congrArg (Function.update · _ _) (pending_updateHandler url none)

theorem entry_completeOperation {request : ℕ} {r : DataRequest URL Image}
    {result : Option Image} {receiptID : ℕ} {operations : List ℕ}
    (hr : d.requests[request]? = some r)
    (hphase : r.phase = .completing result (receiptID :: operations)) (url : URL) :
    d.ledger.Entry (d.completeOperation request url result receiptID operations).ledger := by
  have hpending : d.ledger.pending (.inr request) = receiptID :: operations := by
    rw [pending_response hr, hphase]
    rfl
  refine (Ledger.Entry.settle (k := Sum.inr request) (n := receiptID)
    (hpending ▸ List.mem_cons_self)).congr rfl ?_ List.map_append
  rw [Ledger.settle, hpending, List.erase_cons_head]
  change (d.setPhase request (.completing result operations)).ledger.pending = _
  rw [ledger_setPhase hr]
  rfl

/-- **Every step is an entry of the ledger.** -/
theorem entry_step {d' : ImageDownloader URL Image} {e : Event URL Image}
    (h : step c d e = some d') : d.ledger.Entry d'.ledger := by
  cases e with
  | download url => exact Option.some.inj h ▸ entry_download url
  | cancelRequest receiptID =>
    obtain ⟨request, r, -, -, rfl⟩ := step_cancelRequest.mp h
    exact entry_cancelRequest receiptID request r.url
  | purge url => exact Option.some.inj h ▸ .none
  | createTask request =>
    obtain ⟨r, -, -, -, -, -, rfl⟩ := step_createTask.mp h
    refine Ledger.Entry.none.congr rfl ?_ rfl
    simp [ImageDownloader.ledger, responseOperations_modify]
  | didFailToCreateURLRequest request =>
    obtain ⟨r, -, -, -, -, rfl⟩ := step_didFailToCreateURLRequest.mp h
    refine Ledger.Entry.none.congr rfl ?_ rfl
    simp [ImageDownloader.ledger, responseOperations_modify]
  | respond request result =>
    obtain ⟨r, hr, hphase, -, -, rfl⟩ := step_respond.mp h
    rw [ImageDownloader.respond]
    split_ifs <;> exact entry_setPhase hr (by rw [hphase]; rfl)
  | removeResponseHandler request =>
    obtain ⟨r, result, hr, hphase, rfl⟩ := step_removeResponseHandler.mp h
    exact entry_removeResponseHandler hr hphase r.url
  | completeOperation request =>
    obtain ⟨r, result, receiptID, operations, hr, hphase, rfl⟩ := step_completeOperation.mp h
    exact entry_completeOperation hr hphase r.url
  | decrementActiveRequestCount request =>
    obtain ⟨r, result, hr, hphase, rfl⟩ := step_decrementActiveRequestCount.mp h
    exact entry_setPhase (d := { d with activeRequestCount := _ }) hr (by rw [hphase]; rfl)
  | startNextRequest request =>
    obtain ⟨r, hr, hphase, rfl⟩ := step_startNextRequest.mp h
    obtain ⟨r', hr', hphase'⟩ := getElem?_startNextRequestIfNecessary hr
    rw [← ledger_startNextRequestIfNecessary (c := c)]
    exact entry_setPhase hr' (by rw [hphase', hphase]; rfl)

end LedgerEntries

/-! ### Runs -/

variable [DecidableEq URL] {c : Configuration} {d : ImageDownloader URL Image}
  {es : List (Event URL Image)}

theorem balanced_run (h : run (step c) ImageDownloader.initial es = some d) :
    d.ledger.Balanced := by
  refine run_induction (I := fun d => d.ledger.Balanced) ?_ ?_ h
  · exact fun _ _ _ hs hstep => hs.entry (entry_step hstep)
  · have hledger : (ImageDownloader.initial : ImageDownloader URL Image).ledger =
        ⟨0, fun _ => [], []⟩ := by
      refine Ledger.ext rfl (funext fun key => ?_) rfl
      cases key <;> rfl
    exact hledger ▸ Ledger.balanced_empty

/-- **No completion handler is called twice**, whatever the interleaving. -/
theorem count_completions_le_one (h : run (step c) ImageDownloader.initial es = some d) (n : ℕ) :
    (d.completions.map Prod.fst).count n ≤ 1 :=
  List.nodup_iff_count_le_one.mp (balanced_run h).nodup_settled n

end GuruPractice.AlamofireExample
