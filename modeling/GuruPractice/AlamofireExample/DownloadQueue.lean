import Mathlib.Algebra.Order.Group.Int
import GuruPractice.AlamofireExample.ImageDownloader
import GuruPractice.Storage.ListModify

/-!
# The queue of requests

At most `maximumActiveDownloads` requests are to be in progress; the others are queued, and a
response that gives its place back starts the next one. A request that is cancelled while it is
queued, or whose `URLRequest` cannot be created, is finished by Alamofire at once, so it gives back
a place it never took, and the count of active requests runs behind until the request is dequeued.
Meanwhile more requests than the limit can be in progress, by as many as there are such requests in
the queue.

## Main definitions

* `AlamofireExample.ImageDownloader.Counted`, `AlamofireExample.ImageDownloader.Consistent`.

## Main results

* `AlamofireExample.ImageDownloader.Consistent.step`, `AlamofireExample.consistent_run`.
* `AlamofireExample.countP_downloading_le`.
-/

namespace GuruPractice.AlamofireExample

open Storage Transition

variable {URL Image : Type}

/-! ### Started, queued and active requests -/

/-- The handler of the URL is still of use for the request. -/
def DataRequest.Awaited (r : DataRequest URL Image) : Prop :=
  r.phase = .waiting ∧ r.cancelled = false ∨ ∃ result, r.phase = .removingHandler result

/-- The requests, their queue and the number of active requests fit together. -/
structure ImageDownloader.Counted (c : Configuration) (d : ImageDownloader URL Image) : Prop where
  activeRequestCount_eq : d.activeRequestCount =
    (d.requests.countP (·.started) : ℤ) - d.requests.countP (·.phase.released)
  activeRequestCount_le : d.activeRequestCount ≤ max 0 c.maximumActiveDownloads
  /-- The queue holds the requests that have not been started. -/
  mem_queue_iff : ∀ request, request ∈ d.queuedRequests ↔
    d.requests[request]?.map (·.started) = some false
  nodup_queue : d.queuedRequests.Nodup
  canFinish : ∀ r ∈ d.requests, r.phase ≠ .waiting → r.CanFinish
  handler_awaited : ∀ url handler, d.responseHandlers url = some handler →
    ∃ r, d.requests[handler.request]? = some r ∧ r.url = url ∧ r.Awaited

/-- When requests are queued, all places are taken, or responses are about to fill them. -/
structure ImageDownloader.Consistent (c : Configuration) (d : ImageDownloader URL Image) : Prop
    extends d.Counted c where
  busy : d.queuedRequests ≠ [] → c.maximumActiveDownloads ≤
    d.activeRequestCount + d.requests.countP (·.phase.isStartingNext)

theorem countP_start {d : ImageDownloader URL Image} {request : ℕ}
    {p : DataRequest URL Image → Bool} (hp : ∀ r, p { r with started := true } = p r) :
    (d.start request).requests.countP p = d.requests.countP p :=
  countP_modify_eq hp

namespace ImageDownloader.Counted

variable {c : Configuration} {d d' : ImageDownloader URL Image} {request : ℕ}
  {r : DataRequest URL Image}

/-- The request at the front of the queue is started while a place is free. -/
theorem start_head (h : d.Counted c) {queue : List ℕ} (hq : d.queuedRequests = request :: queue)
    (hlt : d.isActiveRequestCountBelowMaximumLimit c) :
    ({ d with queuedRequests := queue }.start request).Counted c := by
  have hnodup := h.nodup_queue
  rw [hq, List.nodup_cons] at hnodup
  obtain ⟨r, hr, hstarted⟩ : ∃ r, d.requests[request]? = some r ∧ r.started = false :=
    Option.map_eq_some_iff.mp ((h.mem_queue_iff request).mp (hq ▸ List.mem_cons_self))
  refine ⟨?_, ?_, fun j => ?_, hnodup.2, fun r' hr' hphase => ?_, fun url handler hurl => ?_⟩
  · have hcount := h.activeRequestCount_eq
    simp only [ImageDownloader.start, countP_modify hr, hstarted,
      countP_modify_eq (p := fun r : DataRequest URL Image => r.phase.released)
        (f := fun r => { r with started := true }) fun _ => rfl]
    simp only [Bool.false_eq_true, if_false, if_true]
    omega
  · have hlt' : d.activeRequestCount < c.maximumActiveDownloads := of_decide_eq_true hlt
    simp only [ImageDownloader.start]
    omega
  · have hmem := h.mem_queue_iff j
    rw [hq, List.mem_cons] at hmem
    simp only [ImageDownloader.start, List.getElem?_modify]
    by_cases hj : request = j
    · subst hj
      simp [hnodup.1, hr]
    · simp [hj, ← hmem, Ne.symm hj]
  · rcases mem_modify hr' with hr' | ⟨r₀, hr₀, rfl⟩
    · exact h.canFinish r' hr' hphase
    · rcases h.canFinish r₀ (List.mem_of_getElem? hr₀) hphase with ⟨-, htask⟩ | hended
      · exact Or.inl ⟨rfl, htask⟩
      · exact Or.inr hended
  · obtain ⟨r', hr', hurl', hawaited⟩ := h.handler_awaited url handler hurl
    simp only [ImageDownloader.start, List.getElem?_modify, hr']
    by_cases heq : request = handler.request
    · exact ⟨{ r' with started := true }, by simp [heq], hurl', hawaited⟩
    · exact ⟨r', by simp [heq], hurl', hawaited⟩

/-- A request that has been made is queued, in whatever place. -/
theorem makeRequest [DecidableEq URL] (h : d.Counted c) {url : URL} {queue : List ℕ}
    (hqueue : queue.Perm (d.requests.length :: d.queuedRequests)) :
    ({ d.makeRequest url with queuedRequests := queue }).Counted c := by
  have hfresh : d.requests.length ∉ d.queuedRequests := by
    simp [h.mem_queue_iff]
  refine ⟨?_, h.activeRequestCount_le, fun j => ?_, ?_, fun r hr hphase => ?_,
    fun url' handler hurl => ?_⟩
  · simpa [ImageDownloader.makeRequest, ResponsePhase.released] using h.activeRequestCount_eq
  · rw [hqueue.mem_iff, List.mem_cons, h.mem_queue_iff]
    rcases Nat.lt_trichotomy j d.requests.length with hj | rfl | hj
    · simp [ImageDownloader.makeRequest, List.getElem?_append_left hj, hj.ne]
    · simp [ImageDownloader.makeRequest]
    · have hlen : (d.makeRequest url).requests.length ≤ j := by
        simpa [ImageDownloader.makeRequest] using Nat.succ_le_of_lt hj
      simp [List.getElem?_eq_none hlen, List.getElem?_eq_none hj.le, hj.ne']
  · exact hqueue.nodup_iff.mpr (List.nodup_cons.mpr ⟨hfresh, h.nodup_queue⟩)
  · rcases List.mem_append.mp hr with hr | hr
    · exact h.canFinish r hr hphase
    · obtain rfl := List.mem_singleton.mp hr
      exact absurd rfl hphase
  · simp only [ImageDownloader.makeRequest] at hurl ⊢
    by_cases heq : url' = url
    · subst heq
      obtain rfl : _ = handler := by simpa using hurl
      exact ⟨_, List.getElem?_concat_length, rfl, Or.inl ⟨rfl, rfl⟩⟩
    · obtain ⟨r, hr, hr'⟩ := h.handler_awaited url' handler (by simpa [heq] using hurl)
      have hlt := (List.getElem?_eq_some_iff.mp hr).1
      exact ⟨r, (List.getElem?_append_left hlt).trans hr, hr'⟩

/-- One request changes, keeps whether it is started, and the handlers left are still of use. -/
theorem modify (h : d.Counted c) {f : DataRequest URL Image → DataRequest URL Image}
    (hr : d.requests[request]? = some r)
    (hrequests : d'.requests = d.requests.modify request f)
    (hqueue : d'.queuedRequests = d.queuedRequests)
    (hcount : d'.activeRequestCount + (if (f r).phase.released then 1 else 0) =
      d.activeRequestCount + (if r.phase.released then 1 else 0))
    (hle : d'.activeRequestCount ≤ d.activeRequestCount)
    (hstarted : ∀ r, (f r).started = r.started) (hurl : (f r).url = r.url)
    (hfinish : (f r).phase ≠ .waiting → (f r).CanFinish)
    (hhandlers : ∀ url handler, d'.responseHandlers url = some handler →
      d.responseHandlers url = some handler ∧ (handler.request = request → url = r.url →
        (f r).Awaited)) : d'.Counted c := by
  refine ⟨?_, hle.trans h.activeRequestCount_le, fun j => ?_, hqueue ▸ h.nodup_queue,
    fun r' hr' hphase => ?_, fun url handler hurl' => ?_⟩
  · have hcount' := h.activeRequestCount_eq
    rw [hrequests, countP_modify hr, countP_modify hr, hstarted]
    omega
  · rw [hqueue, hrequests, h.mem_queue_iff, map_getElem?_modify hstarted]
  · rcases mem_modify (hrequests ▸ hr') with hr' | ⟨r₀, hr₀, rfl⟩
    · exact h.canFinish r' hr' hphase
    · obtain rfl := Option.some.inj (hr.symm.trans hr₀)
      exact hfinish hphase
  · obtain ⟨hurl', hawaited⟩ := hhandlers url handler hurl'
    obtain ⟨r', hr', rfl, hawaited'⟩ := h.handler_awaited url handler hurl'
    rw [hrequests, List.getElem?_modify, hr']
    by_cases heq : request = handler.request
    · subst heq
      obtain rfl := Option.some.inj (hr.symm.trans hr')
      exact ⟨f r, by simp, hurl, hawaited rfl rfl⟩
    · exact ⟨r', by simp [heq], rfl, hawaited'⟩

/-- The request of a handler has a use for it. -/
theorem awaited (h : d.Counted c) {url : URL} {handler : ResponseHandler}
    (hr : d.requests[handler.request]? = some r) (hurl : d.responseHandlers url = some handler) :
    r.Awaited := by
  obtain ⟨r', hr', -, hawaited⟩ := h.handler_awaited url handler hurl
  exact Option.some.inj (hr.symm.trans hr') ▸ hawaited

/-- No handler is left for a request whose response has no use for it. -/
theorem request_ne (h : d.Counted c) (hr : d.requests[request]? = some r) (hawaited : ¬r.Awaited)
    {url : URL} {handler : ResponseHandler} (hurl : d.responseHandlers url = some handler) :
    handler.request ≠ request := by
  rintro rfl
  exact hawaited (h.awaited hr hurl)

theorem setPhase_done (h : d.Counted c) (hr : d.requests[request]? = some r)
    (hphase : r.phase = .startingNext) : (d.setPhase request .done).Counted c := by
  have hawaited : ¬r.Awaited := by simp [DataRequest.Awaited, hphase]
  refine h.modify hr rfl rfl (by rw [hphase]; rfl) le_rfl (fun _ => rfl) rfl
    (fun _ => h.canFinish r (List.mem_of_getElem? hr) (by simp [hphase])) ?_
  exact fun url handler hurl => ⟨hurl, fun heq => absurd heq (h.request_ne hr hawaited hurl)⟩

end ImageDownloader.Counted

namespace ImageDownloader.Consistent

variable {c : Configuration} {d d' : ImageDownloader URL Image} {request : ℕ}
  {r : DataRequest URL Image}

theorem initial : (ImageDownloader.initial : ImageDownloader URL Image).Consistent c where
  activeRequestCount_eq := by simp [ImageDownloader.initial]
  activeRequestCount_le := le_max_left 0 _
  mem_queue_iff := by simp [ImageDownloader.initial]
  nodup_queue := List.nodup_nil
  canFinish := by simp [ImageDownloader.initial]
  handler_awaited := by simp [ImageDownloader.initial]
  busy h := absurd rfl h

/-- A request changes whose place is not given back by it, or is given back and filled next. -/
theorem modify (h : d.Consistent c) {f : DataRequest URL Image → DataRequest URL Image}
    (hr : d.requests[request]? = some r)
    (hrequests : d'.requests = d.requests.modify request f)
    (hqueue : d'.queuedRequests = d.queuedRequests)
    (hcount : d'.activeRequestCount + (if (f r).phase.released then 1 else 0) =
      d.activeRequestCount + (if r.phase.released then 1 else 0))
    (hnext : d'.activeRequestCount + (if (f r).phase.isStartingNext then 1 else 0) =
      d.activeRequestCount + (if r.phase.isStartingNext then 1 else 0))
    (hle : d'.activeRequestCount ≤ d.activeRequestCount)
    (hstarted : ∀ r, (f r).started = r.started) (hurl : (f r).url = r.url)
    (hfinish : (f r).phase ≠ .waiting → (f r).CanFinish)
    (hhandlers : ∀ url handler, d'.responseHandlers url = some handler →
      d.responseHandlers url = some handler ∧ (handler.request = request → url = r.url →
        (f r).Awaited)) : d'.Consistent c := by
  refine ⟨h.toCounted.modify hr hrequests hqueue hcount hle hstarted hurl hfinish hhandlers, ?_⟩
  intro hne
  have hbusy := h.busy (hqueue ▸ hne)
  rw [hrequests, countP_modify hr]
  omega

theorem download [DecidableEq URL] (h : d.Consistent c) (url : URL) :
    (d.download c url).Consistent c := by
  rw [ImageDownloader.download]
  cases hurl : d.responseHandlers url with
  | some handler =>
    refine ⟨⟨h.activeRequestCount_eq, h.activeRequestCount_le, h.mem_queue_iff, h.nodup_queue,
      h.canFinish, fun url' handler' hurl' => ?_⟩, h.busy⟩
    by_cases heq : url' = url
    · subst heq
      obtain rfl : _ = handler' := by simpa using hurl'
      exact h.handler_awaited url' handler hurl
    · exact h.handler_awaited url' handler' (by simpa [heq] using hurl')
  | none =>
    cases hcache : d.imageCache url with
    | some image =>
      exact ⟨⟨h.activeRequestCount_eq, h.activeRequestCount_le, h.mem_queue_iff, h.nodup_queue,
        h.canFinish, h.handler_awaited⟩, h.busy⟩
    | none =>
      simp only
      split_ifs with hlt
      · have hmade := @h.toCounted.makeRequest _ _ _ _ _ url _ (List.Perm.refl _)
        refine ⟨hmade.start_head rfl hlt, fun hne => ?_⟩
        have hbusy := h.busy hne
        rw [countP_start fun _ => rfl, ImageDownloader.makeRequest, List.countP_append]
        simp only [ImageDownloader.start]
        omega
      · have hfull : c.maximumActiveDownloads ≤ d.activeRequestCount :=
          not_lt.mp fun hlt' => hlt (decide_eq_true hlt')
        have hbusy : c.maximumActiveDownloads ≤ d.activeRequestCount +
            ((d.makeRequest url).requests.countP (·.phase.isStartingNext) : ℤ) :=
          hfull.trans (Int.le_add_of_nonneg_right (Int.natCast_nonneg _))
        rw [enqueue]
        cases c.downloadPrioritization with
        | fifo =>
          exact ⟨h.toCounted.makeRequest (List.perm_append_singleton _ _), fun _ => hbusy⟩
        | lifo => exact ⟨h.toCounted.makeRequest (List.Perm.refl _), fun _ => hbusy⟩

theorem cancelRequest [DecidableEq URL] (h : d.Consistent c) (hr : d.requests[request]? = some r)
    (receiptID : ℕ) : (d.cancelRequest receiptID request r.url).Consistent c := by
  rw [ImageDownloader.cancelRequest]
  cases hurl : d.responseHandlers r.url with
  | none => exact h
  | some handler =>
    simp only
    split_ifs with hempty
    · refine h.modify hr rfl rfl rfl rfl le_rfl (fun _ => rfl) rfl (fun _ => Or.inr (Or.inl rfl)) ?_
      intro url handler' hurl'
      by_cases heq : url = r.url
      · simp [heq] at hurl'
      · exact ⟨by simpa [heq] using hurl', fun _ hurl => absurd hurl heq⟩
    · refine ⟨⟨h.activeRequestCount_eq, h.activeRequestCount_le, h.mem_queue_iff, h.nodup_queue,
        h.canFinish, fun url handler' hurl' => ?_⟩, h.busy⟩
      by_cases heq : url = r.url
      · subst heq
        obtain rfl : _ = handler' := by simpa [removeOperation] using hurl'
        exact h.handler_awaited r.url handler hurl
      · exact h.handler_awaited url handler' (by simpa [removeOperation, heq] using hurl')

theorem startNextRequest (h : d.Consistent c) (hr : d.requests[request]? = some r)
    (hphase : r.phase = .startingNext) :
    ((d.startNextRequestIfNecessary c).setPhase request .done).Consistent c := by
  rw [startNextRequestIfNecessary]
  split_ifs with hlt
  · cases hq : d.queuedRequests with
    | nil => exact ⟨h.toCounted.setPhase_done hr hphase, fun hne => absurd hq hne⟩
    | cons request' queue =>
      obtain ⟨r', hr', hphase'⟩ := getElem?_startNextRequestIfNecessary (c := c) hr
      rw [startNextRequestIfNecessary, if_pos hlt, hq] at hr'
      rw [hphase] at hphase'
      refine ⟨(h.toCounted.start_head hq hlt).setPhase_done hr' hphase', fun _ => ?_⟩
      -- the request takes the place the response was about to fill
      have hbusy := h.busy (by simp [hq])
      rw [setPhase, countP_modify hr', countP_start fun _ => rfl, hphase',
        if_pos (show ResponsePhase.startingNext.isStartingNext = true from rfl)]
      simp only [start]
      omega
  · have hfull : c.maximumActiveDownloads ≤ d.activeRequestCount :=
      not_lt.mp fun hlt' => hlt (decide_eq_true hlt')
    refine ⟨h.toCounted.setPhase_done hr hphase, fun _ => ?_⟩
    exact hfull.trans (Int.le_add_of_nonneg_right (Int.natCast_nonneg _))

/-- **Every step keeps the bookkeeping.** -/
theorem step [DecidableEq URL] {e : Event URL Image} (h : d.Consistent c)
    (hstep : step c d e = some d') : d'.Consistent c := by
  cases e with
  | download url => exact Option.some.inj hstep ▸ h.download url
  | cancelRequest receiptID =>
    obtain ⟨request, r, -, hr, rfl⟩ := step_cancelRequest.mp hstep
    exact h.cancelRequest hr receiptID
  | purge url =>
    obtain rfl := Option.some.inj hstep
    exact ⟨⟨h.activeRequestCount_eq, h.activeRequestCount_le, h.mem_queue_iff, h.nodup_queue,
      h.canFinish, h.handler_awaited⟩, h.busy⟩
  | createTask request =>
    obtain ⟨r, hr, hphase, -, hcancelled, -, rfl⟩ := step_createTask.mp hstep
    refine h.modify hr rfl rfl rfl rfl le_rfl (fun _ => rfl) rfl (fun hne => absurd hphase hne) ?_
    exact fun url handler hurl => ⟨hurl, fun _ _ => Or.inl ⟨hphase, hcancelled⟩⟩
  | didFailToCreateURLRequest request =>
    obtain ⟨r, hr, hphase, -, -, rfl⟩ := step_didFailToCreateURLRequest.mp hstep
    refine h.modify hr rfl rfl rfl rfl le_rfl (fun _ => rfl) rfl (fun hne => absurd hphase hne)
      fun url handler hurl => ⟨hurl, ?_⟩
    rintro rfl rfl
    have hawaited : r.Awaited := h.awaited hr hurl
    exact hawaited
  | respond request result =>
    obtain ⟨r, hr, hphase, hfinish, -, rfl⟩ := step_respond.mp hstep
    rw [ImageDownloader.respond]
    split_ifs with hown
    · refine h.modify hr rfl rfl (by rw [hphase]; rfl) (by rw [hphase]; rfl) le_rfl
        (fun _ => rfl) rfl (fun _ => hfinish) ?_
      exact fun url handler hurl => ⟨hurl, fun _ _ => Or.inr ⟨result, rfl⟩⟩
    · refine h.modify hr rfl rfl (by rw [hphase]; rfl) (by rw [hphase]; rfl) le_rfl
        (fun _ => rfl) rfl (fun _ => hfinish) ?_
      rintro url handler hurl
      refine ⟨hurl, ?_⟩
      rintro rfl rfl
      exact absurd (by simp [setPhase] at hurl; simp [hurl]) hown
  | removeResponseHandler request =>
    obtain ⟨r, result, hr, hphase, rfl⟩ := step_removeResponseHandler.mp hstep
    have hfinish := h.canFinish r (List.mem_of_getElem? hr) (by simp [hphase])
    rw [ImageDownloader.removeResponseHandler]
    cases hurl : d.responseHandlers r.url with
    | none =>
      refine h.modify hr rfl rfl (by rw [hphase]; rfl) (by rw [hphase]; rfl) le_rfl
        (fun _ => rfl) rfl (fun _ => hfinish) fun url handler hurl' => ⟨hurl', ?_⟩
      rintro - rfl
      exact absurd (hurl.symm.trans hurl') (by simp)
    | some handler =>
      refine h.modify hr rfl rfl (by rw [hphase]; rfl) (by rw [hphase]; rfl) le_rfl
        (fun _ => rfl) rfl (fun _ => hfinish) fun url handler hurl' => ?_
      by_cases heq : url = r.url
      · simp [heq, setPhase] at hurl'
      · exact ⟨by simpa [heq, setPhase] using hurl', fun _ hurl => absurd hurl heq⟩
  | completeOperation request =>
    obtain ⟨r, result, receiptID, operations, hr, hphase, rfl⟩ := step_completeOperation.mp hstep
    have hfinish := h.canFinish r (List.mem_of_getElem? hr) (by simp [hphase])
    refine h.modify hr rfl rfl (by rw [hphase]; rfl) (by rw [hphase]; rfl) le_rfl
      (fun _ => rfl) rfl (fun _ => hfinish) fun url handler hurl => ⟨hurl, fun heq => ?_⟩
    exact absurd heq (h.request_ne hr (by simp [DataRequest.Awaited, hphase]) hurl)
  | decrementActiveRequestCount request =>
    obtain ⟨r, result, hr, hphase, rfl⟩ := step_decrementActiveRequestCount.mp hstep
    have hfinish := h.canFinish r (List.mem_of_getElem? hr) (by simp [hphase])
    refine h.modify hr rfl rfl ?_ ?_ (Int.sub_le_self _ Int.one_nonneg) (fun _ => rfl) rfl
      (fun _ => hfinish) fun url handler hurl => ⟨hurl, fun heq => ?_⟩
    · simp [hphase, setPhase, ResponsePhase.released]
    · simp [hphase, setPhase, ResponsePhase.isStartingNext]
    · exact absurd heq (h.request_ne hr (by simp [DataRequest.Awaited, hphase]) hurl)
  | startNextRequest request =>
    obtain ⟨r, hr, hphase, rfl⟩ := step_startNextRequest.mp hstep
    exact h.startNextRequest hr hphase

end ImageDownloader.Consistent

variable [DecidableEq URL] {c : Configuration} {d : ImageDownloader URL Image}
  {es : List (Event URL Image)}

theorem consistent_run (h : run (step c) ImageDownloader.initial es = some d) : d.Consistent c :=
  run_induction (fun _ _ _ hs => hs.step) ImageDownloader.Consistent.initial h

/-! ### The number of downloads in progress -/

/-- The request has been started, and its response has not given its place back. -/
def DataRequest.downloading (r : DataRequest URL Image) : Bool := r.started && !r.phase.released

/-- The request has been cancelled, or its set-up has failed, before it was started. -/
def DataRequest.endedInQueue (r : DataRequest URL Image) : Bool :=
  (r.cancelled || r.setupFailed) && !r.started

/-- The request has given back a place it has not taken. -/
def DataRequest.releasedEarly (r : DataRequest URL Image) : Bool :=
  r.phase.released && !r.started

omit [DecidableEq URL] in
/-- The count of active requests runs behind by the requests that gave their places back early. -/
theorem ImageDownloader.Consistent.countP_downloading (h : d.Consistent c) :
    (d.requests.countP DataRequest.downloading : ℤ) =
      d.activeRequestCount + d.requests.countP DataRequest.releasedEarly := by
  have hsplit (l : List (DataRequest URL Image)) :
      l.countP DataRequest.downloading + l.countP (·.phase.released) =
        l.countP (·.started) + l.countP DataRequest.releasedEarly := by
    induction l with
    | nil => rfl
    | cons r l ih =>
      simp only [List.countP_cons, DataRequest.downloading, DataRequest.releasedEarly] at ih ⊢
      by_cases hs : r.started <;> by_cases hr : r.phase.released <;> simp [hs, hr] <;> omega
  have hcount := h.activeRequestCount_eq
  have := hsplit d.requests
  omega

/-- **The limit on downloads.** The downloads in progress exceed the limit at most by the number of
queued requests that have been cancelled or whose set-up has failed. -/
theorem countP_downloading_le (h : run (step c) ImageDownloader.initial es = some d) :
    (d.requests.countP DataRequest.downloading : ℤ) ≤
      max 0 c.maximumActiveDownloads + d.requests.countP DataRequest.endedInQueue := by
  have hconsistent := consistent_run h
  have hle : d.requests.countP DataRequest.releasedEarly ≤
      d.requests.countP DataRequest.endedInQueue := by
    refine List.countP_mono_left fun r hr hearly => ?_
    obtain ⟨hreleased, hstarted⟩ := Bool.and_eq_true_iff.mp hearly
    have hphase : r.phase ≠ .waiting := fun heq => by
      simp [heq, ResponsePhase.released] at hreleased
    rcases hconsistent.canFinish r hr hphase with ⟨hstarted', -⟩ | hended
    · simp [hstarted'] at hstarted
    · simpa [DataRequest.endedInQueue, hstarted] using hended
  have hcount := hconsistent.countP_downloading
  have hmax := hconsistent.activeRequestCount_le
  omega

/-- Of four queued requests one is cancelled and one cannot be set up; the others are started beside
the first. -/
def endedWhileQueued : List (Event ℕ ℕ) :=
  [.download 0, .download 1, .download 2, .download 3, .download 4, .cancelRequest 1,
    .respond 1 none, .decrementActiveRequestCount 1, .startNextRequest 1,
    .didFailToCreateURLRequest 2, .respond 2 none, .removeResponseHandler 2, .completeOperation 2,
    .decrementActiveRequestCount 2, .startNextRequest 2]

theorem countP_downloading_endedWhileQueued :
    ∃ d, run (step ⟨.lifo, 1⟩) ImageDownloader.initial endedWhileQueued = some d ∧
      d.requests.countP DataRequest.downloading = 3 ∧
      (d.requests.countP DataRequest.downloading : ℤ) ≤
        max 0 1 + d.requests.countP DataRequest.endedInQueue :=
  ⟨_, rfl, rfl, @countP_downloading_le _ _ _ ⟨.lifo, 1⟩ _ endedWhileQueued rfl⟩

end GuruPractice.AlamofireExample
