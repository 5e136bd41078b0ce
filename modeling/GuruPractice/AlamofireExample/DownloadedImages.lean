import GuruPractice.AlamofireExample.DownloadQueue

/-!
# Where a downloaded image comes from

A completion handler gets an image for its URL from the request that finished, from a request that
removed the handler of another one, or from the image cache. Whichever it is, a server has answered
a request for that URL with the image.

## Main definitions

* `AlamofireExample.ImageDownloader.receiptURL`.
* `AlamofireExample.Answers` — the condition on servers.
* `AlamofireExample.ImageDownloader.Provenance`.

## Main results

* `AlamofireExample.ImageDownloader.receiptURL_step`.
* `AlamofireExample.ImageDownloader.Provenance.step`.
-/

namespace GuruPractice.AlamofireExample

open Storage Transition

variable {URL Image : Type}

/-! ### The URL of a receipt -/

namespace ImageDownloader

/-- The URL of the request of a receipt, `none` when no receipt was handed out. -/
def receiptURL (d : ImageDownloader URL Image) (receiptID : ℕ) : Option URL :=
  (d.receipts[receiptID]?).join.bind fun request => (d.requests[request]?).map (·.url)

variable {d d' : ImageDownloader URL Image} {receiptID request : ℕ} {url : URL}

theorem receiptURL_eq_some :
    d.receiptURL receiptID = some url ↔ ∃ request r,
      d.receipts[receiptID]? = some (some request) ∧ d.requests[request]? = some r ∧
        r.url = url := by
  simp [receiptURL, Option.bind_eq_some_iff, Option.join_eq_some_iff]

/-- Later receipts and requests do not change the URL of a receipt. -/
theorem receiptURL_append {receipts : List (Option ℕ)} {urls : List URL}
    (hreceipts : d'.receipts = d.receipts ++ receipts)
    (hurls : d'.requests.map (·.url) = d.requests.map (·.url) ++ urls)
    (h : d.receiptURL receiptID = some url) : d'.receiptURL receiptID = some url := by
  obtain ⟨request, r, hreceipt, hr, rfl⟩ := receiptURL_eq_some.mp h
  have hurl : (d.requests.map (·.url))[request]? = some r.url := by simp [hr]
  have hreceipt' : d'.receipts[receiptID]? = some (some request) := by
    rw [hreceipts, List.getElem?_append_left (List.getElem?_eq_some_iff.mp hreceipt).1, hreceipt]
  have hurl' : (d'.requests.map (·.url))[request]? = some r.url := by
    rw [hurls, List.getElem?_append_left (List.getElem?_eq_some_iff.mp hurl).1, hurl]
  simpa [receiptURL, hreceipt'] using hurl'

theorem urls_start (request : ℕ) :
    (d.start request).requests.map (·.url) = d.requests.map (·.url) :=
  map_modify_eq fun _ => rfl

theorem urls_setPhase (request : ℕ) (phase : ResponsePhase Image) :
    (d.setPhase request phase).requests.map (·.url) = d.requests.map (·.url) :=
  map_modify_eq fun _ => rfl

theorem startNextRequestIfNecessary_kept {c : Configuration} :
    (d.startNextRequestIfNecessary c).imageCache = d.imageCache ∧
      (d.startNextRequestIfNecessary c).responseHandlers = d.responseHandlers ∧
      ∀ r' ∈ (d.startNextRequestIfNecessary c).requests, ∃ r ∈ d.requests,
        r'.url = r.url ∧ r'.phase = r.phase := by
  rw [startNextRequestIfNecessary]
  split_ifs
  · cases d.queuedRequests with
    | nil => exact ⟨rfl, rfl, fun r hr => ⟨r, hr, rfl, rfl⟩⟩
    | cons request queue =>
      refine ⟨rfl, rfl, fun r' hr' => ?_⟩
      rcases mem_modify hr' with hr' | ⟨r, hr, rfl⟩
      · exact ⟨r', hr', rfl, rfl⟩
      · exact ⟨r, List.mem_of_getElem? hr, rfl, rfl⟩
  · exact ⟨rfl, rfl, fun r hr => ⟨r, hr, rfl, rfl⟩⟩

theorem urls_startNextRequestIfNecessary {c : Configuration} :
    (d.startNextRequestIfNecessary c).requests.map (·.url) = d.requests.map (·.url) := by
  rw [startNextRequestIfNecessary]
  split_ifs
  · cases d.queuedRequests with
    | nil => rfl
    | cons request queue => exact urls_start request
  · rfl

variable [DecidableEq URL] {c : Configuration}

theorem urls_download (url : URL) :
    ∃ receipts urls, (d.download c url).receipts = d.receipts ++ receipts ∧
      (d.download c url).requests.map (·.url) = d.requests.map (·.url) ++ urls := by
  rw [download]
  cases hurl : d.responseHandlers url with
  | some handler => exact ⟨_, [], rfl, (List.append_nil _).symm⟩
  | none =>
    cases hcache : d.imageCache url with
    | some image => exact ⟨_, [], rfl, (List.append_nil _).symm⟩
    | none =>
      refine ⟨[some d.requests.length], [url], ?_, ?_⟩
      · simp only
        split_ifs
        · rfl
        · rw [enqueue]
          cases c.downloadPrioritization <;> rfl
      · simp only
        split_ifs
        · exact (urls_start _).trans List.map_append
        · rw [enqueue]
          cases c.downloadPrioritization <;> exact List.map_append

/-- Receipts are handed out, and requests are made, but none is changed. -/
theorem urls_step {e : Event URL Image} (hstep : step c d e = some d') :
    ∃ receipts urls, d'.receipts = d.receipts ++ receipts ∧
      d'.requests.map (·.url) = d.requests.map (·.url) ++ urls := by
  have hsame {d' : ImageDownloader URL Image} (hreceipts : d'.receipts = d.receipts)
      (hurls : d'.requests.map (·.url) = d.requests.map (·.url)) :
      ∃ receipts urls, d'.receipts = d.receipts ++ receipts ∧
        d'.requests.map (·.url) = d.requests.map (·.url) ++ urls :=
    ⟨[], [], by simp [hreceipts], by simp [hurls]⟩
  cases e with
  | download url => exact Option.some.inj hstep ▸ urls_download url
  | cancelRequest receiptID =>
    obtain ⟨request, r, -, hr, rfl⟩ := step_cancelRequest.mp hstep
    rw [cancelRequest]
    cases hurl : d.responseHandlers r.url with
    | none => exact hsame rfl rfl
    | some handler =>
      simp only
      split_ifs
      · exact hsame rfl (map_modify_eq fun _ => rfl)
      · exact hsame rfl rfl
  | purge url => exact Option.some.inj hstep ▸ hsame rfl rfl
  | createTask request =>
    obtain ⟨r, -, -, -, -, -, rfl⟩ := step_createTask.mp hstep
    exact hsame rfl (map_modify_eq fun _ => rfl)
  | didFailToCreateURLRequest request =>
    obtain ⟨r, -, -, -, -, rfl⟩ := step_didFailToCreateURLRequest.mp hstep
    exact hsame rfl (map_modify_eq fun _ => rfl)
  | respond request result =>
    obtain ⟨r, -, -, -, -, rfl⟩ := step_respond.mp hstep
    rw [respond]
    split_ifs <;> exact hsame rfl (map_modify_eq fun _ => rfl)
  | removeResponseHandler request =>
    obtain ⟨r, result, -, -, rfl⟩ := step_removeResponseHandler.mp hstep
    rw [removeResponseHandler]
    cases d.responseHandlers r.url <;> exact hsame rfl (map_modify_eq fun _ => rfl)
  | completeOperation request =>
    obtain ⟨r, result, n, operations, -, -, rfl⟩ := step_completeOperation.mp hstep
    exact hsame rfl (map_modify_eq fun _ => rfl)
  | decrementActiveRequestCount request =>
    obtain ⟨r, result, -, -, rfl⟩ := step_decrementActiveRequestCount.mp hstep
    exact hsame rfl (map_modify_eq fun _ => rfl)
  | startNextRequest request =>
    obtain ⟨r, -, -, rfl⟩ := step_startNextRequest.mp hstep
    refine hsame startNextRequestIfNecessary_frame.2.1 ?_
    exact (urls_setPhase _ _).trans urls_startNextRequestIfNecessary

theorem receiptURL_step {e : Event URL Image} (hstep : AlamofireExample.step c d e = some d')
    (h : d.receiptURL receiptID = some url) : d'.receiptURL receiptID = some url := by
  obtain ⟨receipts, urls, hreceipts, hurls⟩ := urls_step hstep
  exact receiptURL_append hreceipts hurls h

end ImageDownloader

/-! ### Provenance -/

/-- The result of the request that the response still passes on. -/
def ResponsePhase.result : ResponsePhase Image → Option Image
  | .removingHandler result | .completing result _ => result
  | _ => none

/-- When a server answers a request with an image, the image is one for its URL. -/
def Answers (From : URL → Image → Prop) (d : ImageDownloader URL Image) : Event URL Image → Prop
  | .respond request (some image) => ∀ r, d.requests[request]? = some r → From r.url image
  | _ => True

/-- Images are kept and passed on for the URL they came from. -/
structure ImageDownloader.Provenance (From : URL → Image → Prop) (d : ImageDownloader URL Image) :
    Prop where
  imageCache : ∀ url image, d.imageCache url = some image → From url image
  handler : ∀ url handler, d.responseHandlers url = some handler → ∀ n ∈ handler.operations,
    d.receiptURL n = some url
  result : ∀ r ∈ d.requests, ∀ image, r.phase.result = some image → From r.url image
  operations : ∀ r ∈ d.requests, ∀ n ∈ r.phase.operations, d.receiptURL n = some r.url
  completions : ∀ n image, (n, .success image) ∈ d.completions →
    ∃ url, From url image ∧ (d.receiptURL n = some url ∨ d.receipts[n]? = some none)

namespace ImageDownloader.Provenance

variable {From : URL → Image → Prop} {d d' : ImageDownloader URL Image}

theorem initial : (ImageDownloader.initial : ImageDownloader URL Image).Provenance From := by
  constructor <;> simp [ImageDownloader.initial]

/-- The image of a completion is one for the URL of its receipt. -/
theorem of_receiptURL (h : d.Provenance From) {n : ℕ} {url : URL} {image : Image}
    (hurl : d.receiptURL n = some url) (hmem : (n, .success image) ∈ d.completions) :
    From url image := by
  obtain ⟨url', hfrom, hurl' | hnone⟩ := h.completions n image hmem
  · exact Option.some.inj (hurl'.symm.trans hurl) ▸ hfrom
  · obtain ⟨request, r, hreceipt, -⟩ := receiptURL_eq_some.mp hurl
    exact absurd (hnone.symm.trans hreceipt) nofun

/-- Provenance after a step: nothing but the change of the step has to be looked at. -/
theorem of_step [DecidableEq URL] {c : Configuration} {e : Event URL Image}
    (h : d.Provenance From) (hstep : AlamofireExample.step c d e = some d')
    (hcache : ∀ url image, d'.imageCache url = some image →
      d.imageCache url = some image ∨ From url image)
    (hhandler : ∀ url handler, d'.responseHandlers url = some handler → ∀ n ∈ handler.operations,
      (∃ handler', d.responseHandlers url = some handler' ∧ n ∈ handler'.operations) ∨
        d'.receiptURL n = some url)
    (hrequests : ∀ r' ∈ d'.requests, r'.phase.operations = [] ∧ r'.phase.result = none ∨
      ∃ r ∈ d.requests, r'.url = r.url ∧
        (∀ image, r'.phase.result = some image → r.phase.result = some image ∨ From r.url image) ∧
        ∀ n ∈ r'.phase.operations, n ∈ r.phase.operations ∨ d.receiptURL n = some r.url)
    (hcompletions : ∀ n image, (n, .success image) ∈ d'.completions →
      (n, .success image) ∈ d.completions ∨
        ∃ url, From url image ∧ (d'.receiptURL n = some url ∨ d'.receipts[n]? = some none)) :
    d'.Provenance From := by
  have hurl {n : ℕ} {url : URL} : d.receiptURL n = some url → d'.receiptURL n = some url :=
    receiptURL_step hstep
  refine ⟨fun url image himage => ?_, fun url handler hurl' n hn => ?_,
    fun r' hr' image himage => ?_, fun r' hr' n hn => ?_, fun n image hmem => ?_⟩
  · exact (hcache url image himage).elim (h.imageCache url image) id
  · rcases hhandler url handler hurl' n hn with ⟨handler', hurl'', hn⟩ | hn
    · exact hurl (h.handler url handler' hurl'' n hn)
    · exact hn
  · rcases hrequests r' hr' with ⟨-, hnone⟩ | ⟨r, hr, hurl', hresult, -⟩
    · simp [hnone] at himage
    · exact hurl' ▸ (hresult image himage).elim (h.result r hr image) id
  · rcases hrequests r' hr' with ⟨hnil, -⟩ | ⟨r, hr, hurl', -, hoperations⟩
    · simp [hnil] at hn
    · exact hurl' ▸ hurl ((hoperations n hn).elim (h.operations r hr n) id)
  · rcases hcompletions n image hmem with hmem | hmem
    · obtain ⟨url, hfrom, hreceipt⟩ := h.completions n image hmem
      refine ⟨url, hfrom, hreceipt.imp hurl fun hnone => ?_⟩
      obtain ⟨receipts, urls, hreceipts, -⟩ := urls_step hstep
      rw [hreceipts, List.getElem?_append_left (List.getElem?_eq_some_iff.mp hnone).1, hnone]
    · exact hmem

/-- A step that changes one request and passes no image on. -/
theorem modify [DecidableEq URL] {c : Configuration} {e : Event URL Image} {request : ℕ}
    {f : DataRequest URL Image → DataRequest URL Image}
    (h : d.Provenance From) (hstep : AlamofireExample.step c d e = some d')
    (hrequests : d'.requests = d.requests.modify request f)
    (hcache : ∀ url image, d'.imageCache url = some image →
      d.imageCache url = some image ∨ From url image)
    (hhandler : ∀ url handler, d'.responseHandlers url = some handler →
      ∃ handler', d.responseHandlers url = some handler' ∧
        ∀ n ∈ handler.operations, n ∈ handler'.operations)
    (hf : ∀ r, d.requests[request]? = some r → (f r).url = r.url ∧
      (∀ image, (f r).phase.result = some image →
        r.phase.result = some image ∨ From r.url image) ∧
      ∀ n ∈ (f r).phase.operations, n ∈ r.phase.operations ∨ d.receiptURL n = some r.url)
    (hcompletions : ∀ n image, (n, .success image) ∈ d'.completions →
      (n, .success image) ∈ d.completions ∨
        ∃ url, From url image ∧ d'.receiptURL n = some url) :
    d'.Provenance From := by
  refine h.of_step hstep hcache (fun url handler hurl n hn => ?_) (fun r' hr' => Or.inr ?_)
    fun n image hmem => (hcompletions n image hmem).imp_right
      fun ⟨url, hfrom, hurl⟩ => ⟨url, hfrom, Or.inl hurl⟩
  · obtain ⟨handler', hurl', hsubset⟩ := hhandler url handler hurl
    exact Or.inl ⟨handler', hurl', hsubset n hn⟩
  · rcases mem_modify (hrequests ▸ hr') with hr' | ⟨r, hr, rfl⟩
    · exact ⟨r', hr', rfl, fun _ => Or.inl, fun _ => Or.inl⟩
    · exact ⟨r, List.mem_of_getElem? hr, hf r hr⟩

theorem download_new [DecidableEq URL] {c : Configuration} {url : URL}
    (hurl : d.responseHandlers url = none) (hcache : d.imageCache url = none) :
    (d.download c url).imageCache = d.imageCache ∧
      (d.download c url).completions = d.completions ∧
      (d.download c url).receipts = d.receipts ++ [some d.requests.length] ∧
      (d.download c url).responseHandlers = Function.update d.responseHandlers url
        (some ⟨d.requests.length, [d.receipts.length]⟩) ∧
      (∃ r, (d.download c url).requests[d.requests.length]? = some r ∧ r.url = url) ∧
      ∀ r ∈ (d.download c url).requests, r ∈ d.requests ∨ r.phase = .waiting := by
  have hnew (r : DataRequest URL Image) (hr : r ∈ (d.makeRequest url).requests) :
      r ∈ d.requests ∨ r.phase = .waiting :=
    (List.mem_append.mp hr).imp_right fun hr => by rw [List.mem_singleton.mp hr]
  have hlast : (d.makeRequest url).requests[d.requests.length]? =
      some ⟨url, false, false, false, false, .waiting⟩ := List.getElem?_concat_length
  simp only [ImageDownloader.download, hurl, hcache]
  split_ifs
  · refine ⟨rfl, rfl, rfl, rfl, ⟨⟨url, false, false, true, false, .waiting⟩, ?_, rfl⟩,
      fun r hr => ?_⟩
    · simp [start, hlast]
    · rcases mem_modify hr with hr | ⟨r', hr', rfl⟩
      · exact hnew r hr
      · obtain rfl := Option.some.inj (hlast.symm.trans hr')
        exact Or.inr rfl
  · rw [enqueue]
    cases c.downloadPrioritization <;> exact ⟨rfl, rfl, rfl, rfl, ⟨_, hlast, rfl⟩, hnew⟩

/-- **The receipt of a download.** There is none when the image was in the cache; otherwise it is
for a request of the URL. -/
theorem receipts_download [DecidableEq URL] {c : Configuration} (h : d.Consistent c) (url : URL) :
    d.responseHandlers url = none ∧ (d.imageCache url).isSome ∧
        (d.download c url).receipts = d.receipts ++ [none] ∨
      ∃ request, (d.download c url).receipts = d.receipts ++ [some request] ∧
        (d.download c url).receiptURL d.receipts.length = some url := by
  cases hurl : d.responseHandlers url with
  | some handler =>
    obtain ⟨r, hr, hr', -⟩ := h.handler_awaited url handler hurl
    simp only [ImageDownloader.download, hurl]
    exact Or.inr ⟨handler.request, rfl, receiptURL_eq_some.mpr
      ⟨handler.request, r, List.getElem?_concat_length, hr, hr'⟩⟩
  | none =>
    cases hcache : d.imageCache url with
    | some image =>
      simp only [ImageDownloader.download, hurl, hcache]
      exact Or.inl (by simp)
    | none =>
      obtain ⟨-, -, hreceipts, -, ⟨r, hr, hr'⟩, -⟩ := download_new (c := c) hurl hcache
      refine Or.inr ⟨_, hreceipts, receiptURL_eq_some.mpr ⟨d.requests.length, r, ?_, hr, hr'⟩⟩
      rw [hreceipts]
      exact List.getElem?_concat_length

theorem download [DecidableEq URL] {c : Configuration} (h : d.Provenance From)
    (hconsistent : d.Consistent c) (url : URL) : (d.download c url).Provenance From := by
  have hstep : AlamofireExample.step c d (.download url) = some (d.download c url) := rfl
  cases hurl : d.responseHandlers url with
  | some handler =>
    simp only [ImageDownloader.download, hurl] at hstep ⊢
    refine h.of_step hstep (fun _ _ => Or.inl) (fun url' handler' hurl' n hn => ?_)
      (fun r hr => Or.inr ⟨r, hr, rfl, fun _ => Or.inl, fun _ => Or.inl⟩) fun _ _ => Or.inl
    by_cases heq : url' = url
    · subst heq
      obtain rfl : _ = handler' := by simpa using hurl'
      rcases List.mem_append.mp hn with hn | hn
      · exact Or.inl ⟨handler, hurl, hn⟩
      · -- the new receipt is one for the request of the handler
        obtain rfl := List.mem_singleton.mp hn
        obtain ⟨r, hr, hr', -⟩ := hconsistent.handler_awaited url' handler hurl
        refine Or.inr (receiptURL_eq_some.mpr ⟨handler.request, r, ?_, hr, hr'⟩)
        exact List.getElem?_concat_length
    · exact Or.inl ⟨handler', by simpa [heq] using hurl', hn⟩
  | none =>
    cases hcache : d.imageCache url with
    | some image =>
      simp only [ImageDownloader.download, hurl, hcache] at hstep ⊢
      refine h.of_step hstep (fun _ _ => Or.inl)
        (fun url' handler' hurl' n hn => Or.inl ⟨_, hurl', hn⟩)
        (fun r hr => Or.inr ⟨r, hr, rfl, fun _ => Or.inl, fun _ => Or.inl⟩) fun n image' hmem => ?_
      rcases List.mem_append.mp hmem with hmem | hmem
      · exact Or.inl hmem
      · obtain ⟨rfl, rfl⟩ : n = d.receipts.length ∧ image' = image := by simpa using hmem
        exact Or.inr ⟨url, h.imageCache url image' hcache, Or.inr List.getElem?_concat_length⟩
    | none =>
      obtain ⟨hcache', hcompletions, hreceipts, hhandlers, ⟨r, hr, hr'⟩, hrequests⟩ :=
        download_new (c := c) hurl hcache
      refine h.of_step hstep (fun _ _ himage => Or.inl (hcache' ▸ himage))
        (fun url' handler' hurl' n hn => ?_) (fun r' hr' => ?_)
        fun _ _ hmem => Or.inl (hcompletions ▸ hmem)
      · rw [hhandlers] at hurl'
        by_cases heq : url' = url
        · subst heq
          obtain rfl : _ = handler' := by simpa using hurl'
          obtain rfl := List.mem_singleton.mp hn
          refine Or.inr (receiptURL_eq_some.mpr ⟨d.requests.length, r, ?_, hr, hr'⟩)
          rw [hreceipts]
          exact List.getElem?_concat_length
        · exact Or.inl ⟨handler', by simpa [heq] using hurl', hn⟩
      · rcases hrequests r' hr' with hmem | hphase
        · exact Or.inr ⟨r', hmem, rfl, fun _ => Or.inl, fun _ => Or.inl⟩
        · exact Or.inl (by rw [hphase]; exact ⟨rfl, rfl⟩)

theorem cancelRequest [DecidableEq URL] {c : Configuration} {receiptID request : ℕ}
    {r : DataRequest URL Image} (h : d.Provenance From)
    (hstep : AlamofireExample.step c d (.cancelRequest receiptID) =
      some (d.cancelRequest receiptID request r.url)) :
    (d.cancelRequest receiptID request r.url).Provenance From := by
  rw [ImageDownloader.cancelRequest] at hstep ⊢
  cases hurl : d.responseHandlers r.url with
  | none => exact h
  | some handler =>
    have hcompletions (n : ℕ) (image : Image)
        (hmem : (n, .success image) ∈ (d.removeOperation receiptID r.url handler).completions) :
        (n, .success image) ∈ d.completions := by
      rw [removeOperation] at hmem
      dsimp only at hmem
      split_ifs at hmem with hreceipt
      · simpa using hmem
      · exact hmem
    simp only [hurl] at hstep ⊢
    split_ifs at hstep ⊢ with hempty
    · refine h.modify hstep rfl (fun _ _ => Or.inl) (fun url handler' hurl' => ?_)
        (fun r _ => ⟨rfl, fun _ => Or.inl, fun _ => Or.inl⟩) fun n image hmem =>
          Or.inl (hcompletions n image hmem)
      by_cases heq : url = r.url
      · simp [heq] at hurl'
      · exact ⟨handler', by simpa [heq] using hurl', fun _ => id⟩
    · refine h.of_step hstep (fun _ _ => Or.inl) (fun url handler' hurl' n hn => Or.inl ?_)
        (fun r hr => Or.inr ⟨r, hr, rfl, fun _ => Or.inl, fun _ => Or.inl⟩)
        fun n image hmem => Or.inl (hcompletions n image hmem)
      by_cases heq : url = r.url
      · subst heq
        obtain rfl : _ = handler' := by simpa [removeOperation] using hurl'
        exact ⟨handler, hurl, List.mem_of_mem_erase hn⟩
      · exact ⟨handler', by simpa [removeOperation, heq] using hurl', hn⟩

/-- **Provenance is kept** by every step in which servers answer with images for the URL. -/
theorem step [DecidableEq URL] {c : Configuration} {e : Event URL Image} (h : d.Provenance From)
    (hconsistent : d.Consistent c) (hanswers : Answers From d e)
    (hstep : AlamofireExample.step c d e = some d') : d'.Provenance From := by
  cases e with
  | download url => exact Option.some.inj hstep ▸ h.download hconsistent url
  | cancelRequest receiptID =>
    obtain ⟨request, r, -, -, rfl⟩ := step_cancelRequest.mp hstep
    exact h.cancelRequest hstep
  | purge url =>
    obtain rfl := Option.some.inj hstep
    refine h.of_step hstep (fun url' image himage => Or.inl ?_)
      (fun _ handler hurl n hn => Or.inl ⟨handler, hurl, hn⟩)
      (fun r hr => Or.inr ⟨r, hr, rfl, fun _ => Or.inl, fun _ => Or.inl⟩) fun _ _ => Or.inl
    by_cases heq : url' = url
    · simp [heq] at himage
    · simpa [heq] using himage
  | createTask request =>
    obtain ⟨r, -, -, -, -, -, rfl⟩ := step_createTask.mp hstep
    exact h.modify hstep rfl (fun _ _ => Or.inl)
      (fun _ handler hurl => ⟨handler, hurl, fun _ => id⟩)
      (fun r _ => ⟨rfl, fun _ => Or.inl, fun _ => Or.inl⟩) fun _ _ => Or.inl
  | didFailToCreateURLRequest request =>
    obtain ⟨r, -, -, -, -, rfl⟩ := step_didFailToCreateURLRequest.mp hstep
    exact h.modify hstep rfl (fun _ _ => Or.inl)
      (fun _ handler hurl => ⟨handler, hurl, fun _ => id⟩)
      (fun r _ => ⟨rfl, fun _ => Or.inl, fun _ => Or.inl⟩) fun _ _ => Or.inl
  | respond request result =>
    obtain ⟨r, hr, hphase, -, -, rfl⟩ := step_respond.mp hstep
    have hresult (r : DataRequest URL Image) (hr : d.requests[request]? = some r) (image : Image)
        (himage : result = some image) : From r.url image := by
      subst himage
      exact hanswers r hr
    rw [respond] at hstep ⊢
    split_ifs at hstep ⊢ <;>
      exact h.modify hstep rfl (fun _ _ => Or.inl)
        (fun _ handler hurl => ⟨handler, hurl, fun _ => id⟩)
        (fun r hr => ⟨rfl, fun image himage => Or.inr (hresult r hr image himage),
          fun _ hn => absurd hn List.not_mem_nil⟩)
        fun _ _ => Or.inl
  | removeResponseHandler request =>
    obtain ⟨r, result, hr, hphase, rfl⟩ := step_removeResponseHandler.mp hstep
    have hresult (r' : DataRequest URL Image) (hr' : d.requests[request]? = some r') (image : Image)
        (himage : result = some image) : r'.phase.result = some image := by
      obtain rfl := Option.some.inj (hr.symm.trans hr')
      rw [hphase]
      exact himage
    rw [removeResponseHandler] at hstep ⊢
    cases hurl : d.responseHandlers r.url with
    | none =>
      rw [hurl] at hstep
      exact h.modify hstep rfl (fun _ _ => Or.inl)
        (fun _ handler hurl => ⟨handler, hurl, fun _ => id⟩)
        (fun r' hr' => ⟨rfl, fun image himage => Or.inl (hresult r' hr' image himage),
          fun _ hn => absurd hn List.not_mem_nil⟩)
        fun _ _ => Or.inl
    | some handler =>
      rw [hurl] at hstep
      refine h.modify hstep rfl (fun _ _ => Or.inl) (fun url handler' hurl' => ?_)
        (fun r' hr' => ⟨rfl, fun image himage => Or.inl (hresult r' hr' image himage),
          fun n hn => Or.inr ?_⟩) fun _ _ => Or.inl
      · by_cases heq : url = r.url
        · simp [heq, setPhase] at hurl'
        · exact ⟨handler', by simpa [heq, setPhase] using hurl', fun _ => id⟩
      · obtain rfl := Option.some.inj (hr.symm.trans hr')
        exact h.handler r.url handler hurl n hn
  | completeOperation request =>
    obtain ⟨r, result, n, operations, hr, hphase, rfl⟩ := step_completeOperation.mp hstep
    have hmem := List.mem_of_getElem? hr
    have hurl : d.receiptURL n = some r.url :=
      h.operations r hmem n (by rw [hphase]; exact List.mem_cons_self)
    have hfrom (image : Image) (himage : result = some image) : From r.url image :=
      h.result r hmem image (by rw [hphase]; exact himage)
    refine h.modify hstep rfl (fun url image himage => ?_)
      (fun _ handler hurl => ⟨handler, hurl, fun _ => id⟩) (fun r' hr' => ⟨rfl, ?_, ?_⟩)
      fun n' image hmem' => ?_
    · cases result with
      | none => exact Or.inl himage
      | some image' =>
        by_cases heq : url = r.url
        · subst heq
          obtain rfl : image' = image := by simpa [completeOperation, setPhase] using himage
          exact Or.inr (hfrom image' rfl)
        · exact Or.inl (by simpa [completeOperation, setPhase, heq] using himage)
    · obtain rfl := Option.some.inj (hr.symm.trans hr')
      exact fun image himage => Or.inr (hfrom image himage)
    · obtain rfl := Option.some.inj (hr.symm.trans hr')
      exact fun n' hn' => Or.inl (by rw [hphase]; exact List.mem_cons_of_mem n hn')
    · rcases List.mem_append.mp hmem' with hmem' | hmem'
      · exact Or.inl hmem'
      · obtain ⟨rfl, hresult⟩ : n' = n ∧ .success image = ImageResult.ofResponse result := by
          simpa using hmem'
        cases result with
        | none => simp [ImageResult.ofResponse] at hresult
        | some image' =>
          obtain rfl : image = image' := by simpa [ImageResult.ofResponse] using hresult
          exact Or.inr ⟨r.url, hfrom image rfl, receiptURL_step hstep hurl⟩
  | decrementActiveRequestCount request =>
    obtain ⟨r, result, hr, hphase, rfl⟩ := step_decrementActiveRequestCount.mp hstep
    exact h.modify hstep rfl (fun _ _ => Or.inl)
      (fun _ handler hurl => ⟨handler, hurl, fun _ => id⟩)
      (fun r _ => ⟨rfl, fun _ himage => absurd himage.symm (Option.some_ne_none _),
        fun _ hn => absurd hn List.not_mem_nil⟩) fun _ _ => Or.inl
  | startNextRequest request =>
    obtain ⟨r, hr, hphase, rfl⟩ := step_startNextRequest.mp hstep
    obtain ⟨-, -, hcompletions⟩ := startNextRequestIfNecessary_frame (c := c) (d := d)
    obtain ⟨hcache, hhandlers, hrequests⟩ := startNextRequestIfNecessary_kept (c := c) (d := d)
    refine h.of_step hstep (fun _ _ himage => Or.inl (hcache ▸ himage))
      (fun _ handler hurl n hn => Or.inl ⟨handler, hhandlers ▸ hurl, hn⟩) (fun r' hr' => ?_)
      fun _ _ hmem => Or.inl (hcompletions ▸ hmem)
    rcases mem_modify hr' with hr' | ⟨r, -, rfl⟩
    · obtain ⟨r, hr, hurl, hphase⟩ := hrequests r' hr'
      exact Or.inr ⟨r, hr, hurl, fun _ => hphase ▸ Or.inl, fun _ => hphase ▸ Or.inl⟩
    · exact Or.inl ⟨rfl, rfl⟩

end ImageDownloader.Provenance

end GuruPractice.AlamofireExample
