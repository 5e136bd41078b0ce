import Mathlib.Data.Int.Notation
import Mathlib.Data.Option.Basic
import GuruPractice.Transition.Run

/-!
# The image downloader

The cells of the person list load their pictures through `ImageDownloader`. Downloads of one URL
share a request; at most `maximumActiveDownloads` requests are started, the others wait in
`queuedRequests`. The methods of the downloader run one at a time on its synchronization queue, but
the completion of a request is a sequence of such blocks on the concurrent response queue: it
fetches the response handler of its URL and compares the ids, then removes whatever handler the URL
has by then, then calls the completion handlers one by one, then gives its place back, and then
starts the next request. The blocks of different requests, new downloads, cancellations and purges
of the image cache interleave in any order.

## Main definitions

* `AlamofireExample.ImageDownloader` and its methods.
* `AlamofireExample.Event`, `AlamofireExample.step`.
-/

namespace GuruPractice.AlamofireExample

variable {URL Image : Type}

/-! ### The data -/

/-- The order in which queued requests are started. -/
inductive DownloadPrioritization
  | fifo
  | lifo

/-- The options a downloader is made with. -/
structure Configuration where
  downloadPrioritization : DownloadPrioritization
  maximumActiveDownloads : ℤ

/-- The result a completion handler is called with. -/
inductive ImageResult (Image : Type)
  | success (image : Image)
  | failure
  | requestCancelled

/-- The result of a request, as the completion handlers get it. -/
def ImageResult.ofResponse : Option Image → ImageResult Image
  | some image => .success image
  | none => .failure

/-- The downloads that wait for a request. Every request has one handler, so the index of the
request stands for `handlerID`; downloads are named by the number of their `receiptID`. -/
structure ResponseHandler where
  request : ℕ
  operations : List ℕ

/-- How far the completion of a request has come. -/
inductive ResponsePhase (Image : Type)
  | waiting
  /-- The handler of the URL was that of the request, and is removed next. -/
  | removingHandler (result : Option Image)
  /-- The completion handlers of the operations are still to be called. -/
  | completing (result : Option Image) (operations : List ℕ)
  | startingNext
  | done

/-- The place of the request among the active ones has been given back. -/
def ResponsePhase.released : ResponsePhase Image → Bool
  | .startingNext | .done => true
  | _ => false

/-- The operations whose completion handlers the response still has to call. -/
def ResponsePhase.operations : ResponsePhase Image → List ℕ
  | .completing _ operations => operations
  | _ => []

/-- The number of steps a response still takes, completion handlers not counted. -/
def ResponsePhase.stepsLeft : ResponsePhase Image → ℕ
  | .waiting => 4
  | .removingHandler _ => 3
  | .completing _ _ => 2
  | .startingNext => 1
  | .done => 0

def ResponsePhase.isStartingNext : ResponsePhase Image → Bool
  | .startingNext => true
  | _ => false

/-- A request of the session. -/
structure DataRequest (URL Image : Type) where
  url : URL
  /-- The session has created the task of the request. -/
  hasTask : Bool
  /-- The `URLRequest` could not be created, validated or adapted, so there will be no task. -/
  setupFailed : Bool
  /-- The downloader has called `start`. -/
  started : Bool
  /-- The downloader has called `cancel`. -/
  cancelled : Bool
  phase : ResponsePhase Image

/-- The state of a downloader. The requests are numbered in the order they are made. -/
structure ImageDownloader (URL Image : Type) where
  imageCache : URL → Option Image
  activeRequestCount : ℤ
  queuedRequests : List ℕ
  responseHandlers : URL → Option ResponseHandler
  requests : List (DataRequest URL Image)
  /-- The request of the receipt of each download, `nil` when the image was cached. -/
  receipts : List (Option ℕ)
  /-- The calls of completion handlers put on the main queue, in order. -/
  completions : List (ℕ × ImageResult Image)

namespace ImageDownloader

/-- A new downloader. -/
def initial : ImageDownloader URL Image where
  imageCache _ := none
  activeRequestCount := 0
  queuedRequests := []
  responseHandlers _ := none
  requests := []
  receipts := []
  completions := []

/-! ### The methods -/

section Methods

variable (c : Configuration) (d : ImageDownloader URL Image)

def isActiveRequestCountBelowMaximumLimit : Bool :=
  d.activeRequestCount < c.maximumActiveDownloads

def start (request : ℕ) : ImageDownloader URL Image :=
  { d with
    requests := d.requests.modify request fun r => { r with started := true }
    activeRequestCount := d.activeRequestCount + 1 }

def enqueue (request : ℕ) : ImageDownloader URL Image :=
  match c.downloadPrioritization with
  | .fifo => { d with queuedRequests := d.queuedRequests ++ [request] }
  | .lifo => { d with queuedRequests := request :: d.queuedRequests }

def startNextRequestIfNecessary : ImageDownloader URL Image :=
  if d.isActiveRequestCountBelowMaximumLimit c then
    match d.queuedRequests with
    | [] => d
    | request :: queuedRequests => { d with queuedRequests }.start request
  else d

def setPhase (request : ℕ) (phase : ResponsePhase Image) : ImageDownloader URL Image :=
  { d with requests := d.requests.modify request fun r => { r with phase } }

variable [DecidableEq URL]

/-- The request for a URL that has no handler and no cached image. -/
def makeRequest (url : URL) : ImageDownloader URL Image :=
  { d with
    requests := d.requests ++ [⟨url, false, false, false, false, .waiting⟩]
    responseHandlers :=
      Function.update d.responseHandlers url (some ⟨d.requests.length, [d.receipts.length]⟩)
    receipts := d.receipts ++ [some d.requests.length] }

/-- A download of a URL, under the next receipt id. -/
def download (url : URL) : ImageDownloader URL Image :=
  match d.responseHandlers url with
  | some handler =>
    { d with
      responseHandlers := Function.update d.responseHandlers url
        (some { handler with operations := handler.operations ++ [d.receipts.length] })
      receipts := d.receipts ++ [some handler.request] }
  | none =>
    match d.imageCache url with
    | some image =>
      { d with
        receipts := d.receipts ++ [none]
        completions := d.completions ++ [(d.receipts.length, .success image)] }
    | none =>
      if (d.makeRequest url).isActiveRequestCountBelowMaximumLimit c then
        (d.makeRequest url).start d.requests.length
      else (d.makeRequest url).enqueue c d.requests.length

/-- The operation of a receipt leaves the handler of its URL. -/
def removeOperation (receiptID : ℕ) (url : URL) (handler : ResponseHandler) :
    ImageDownloader URL Image :=
  { d with
    responseHandlers := Function.update d.responseHandlers url
      (some { handler with operations := handler.operations.erase receiptID })
    completions :=
      if receiptID ∈ handler.operations then d.completions ++ [(receiptID, .requestCancelled)]
      else d.completions }

def cancelRequest (receiptID request : ℕ) (url : URL) : ImageDownloader URL Image :=
  match d.responseHandlers url with
  | none => d
  | some handler =>
    if handler.operations.erase receiptID = [] then
      { d.removeOperation receiptID url handler with
        requests := d.requests.modify request fun r => { r with cancelled := true }
        responseHandlers := Function.update d.responseHandlers url none }
    else d.removeOperation receiptID url handler

/-- The response handler of a request is called, and fetches the handler of its URL. -/
def respond (request : ℕ) (url : URL) (result : Option Image) : ImageDownloader URL Image :=
  if (d.responseHandlers url).any (·.request = request) then
    d.setPhase request (.removingHandler result)
  else d.setPhase request (.completing result [])

def removeResponseHandler (request : ℕ) (url : URL) (result : Option Image) :
    ImageDownloader URL Image :=
  match d.responseHandlers url with
  | none => d.setPhase request (.completing result [])
  | some handler =>
    { d with responseHandlers := Function.update d.responseHandlers url none }.setPhase request
      (.completing result handler.operations)

/-- The image is added to the cache, and the completion handler is called on the main queue. -/
def completeOperation (request : ℕ) (url : URL) (result : Option Image) (receiptID : ℕ)
    (operations : List ℕ) : ImageDownloader URL Image :=
  { d with
    imageCache := match result with
      | some image => Function.update d.imageCache url (some image)
      | none => d.imageCache
    completions := d.completions ++ [(receiptID, ImageResult.ofResponse result)] }.setPhase request
      (.completing result operations)

end Methods

end ImageDownloader

/-! ### The transition function -/

/-- What happens to a downloader. -/
inductive Event (URL Image : Type)
  | download (url : URL)
  | cancelRequest (receiptID : ℕ)
  /-- The image cache drops the image of a URL. -/
  | purge (url : URL)
  | createTask (request : ℕ)
  | didFailToCreateURLRequest (request : ℕ)
  | respond (request : ℕ) (result : Option Image)
  | removeResponseHandler (request : ℕ)
  | completeOperation (request : ℕ)
  | decrementActiveRequestCount (request : ℕ)
  | startNextRequest (request : ℕ)

/-- The downloader, the session or a server takes the step, and not the app. -/
def Event.IsInternal : Event URL Image → Prop
  | .download _ | .cancelRequest _ | .purge _ => False
  | _ => True

/-- Alamofire finishes a request when its task has been resumed and completes, when it is cancelled,
or when its set-up has failed. The last two need no `start`. -/
def DataRequest.CanFinish (r : DataRequest URL Image) : Prop :=
  r.started ∧ r.hasTask ∨ r.cancelled ∨ r.setupFailed

instance (r : DataRequest URL Image) : Decidable r.CanFinish :=
  inferInstanceAs (Decidable (_ ∨ _ ∨ _))

open ImageDownloader in
/-- One step of the downloader. -/
def step [DecidableEq URL] (c : Configuration) (d : ImageDownloader URL Image) :
    Event URL Image → Option (ImageDownloader URL Image)
  | .download url => some (d.download c url)
  | .cancelRequest receiptID => do
    let request ← (d.receipts[receiptID]?).join
    let r ← d.requests[request]?
    return d.cancelRequest receiptID request r.url
  | .purge url => some { d with imageCache := Function.update d.imageCache url none }
  | .createTask request => do
    let r ← d.requests[request]?
    match r.phase with
    | .waiting =>
      -- `Session` makes no task for a request that has been cancelled before
      guard (!r.hasTask && !r.cancelled && !r.setupFailed)
      return { d with requests := d.requests.modify request fun r => { r with hasTask := true } }
    | _ => none
  | .didFailToCreateURLRequest request => do
    let r ← d.requests[request]?
    match r.phase with
    | .waiting =>
      guard (!r.hasTask && !r.setupFailed)
      return { d with
        requests := d.requests.modify request fun r => { r with setupFailed := true } }
    | _ => none
  | .respond request result => do
    let r ← d.requests[request]?
    match r.phase with
    | .waiting =>
      -- a request without a task has no data, and its response is the error of the set-up
      guard (r.CanFinish ∧ (r.setupFailed → result.isNone))
      return d.respond request r.url result
    | _ => none
  | .removeResponseHandler request => do
    let r ← d.requests[request]?
    match r.phase with
    | .removingHandler result => return d.removeResponseHandler request r.url result
    | _ => none
  | .completeOperation request => do
    let r ← d.requests[request]?
    match r.phase with
    | .completing result (receiptID :: operations) =>
      return d.completeOperation request r.url result receiptID operations
    | _ => none
  | .decrementActiveRequestCount request => do
    let r ← d.requests[request]?
    match r.phase with
    | .completing _ [] =>
      return { d with activeRequestCount := d.activeRequestCount - 1 }.setPhase request
        .startingNext
    | _ => none
  | .startNextRequest request => do
    let r ← d.requests[request]?
    match r.phase with
    | .startingNext => return (d.startNextRequestIfNecessary c).setPhase request .done
    | _ => none

section StepSpecs

variable [DecidableEq URL] {c : Configuration} {d d' : ImageDownloader URL Image}

theorem step_cancelRequest {receiptID : ℕ} :
    step c d (.cancelRequest receiptID) = some d' ↔
      ∃ request r, d.receipts[receiptID]? = some (some request) ∧ d.requests[request]? = some r ∧
        d.cancelRequest receiptID request r.url = d' := by
  simp [step, Option.bind_eq_some_iff, Option.join_eq_some_iff]

theorem step_createTask {request : ℕ} :
    step c d (.createTask request) = some d' ↔
      ∃ r, d.requests[request]? = some r ∧ r.phase = .waiting ∧ r.hasTask = false ∧
        r.cancelled = false ∧ r.setupFailed = false ∧
        { d with requests := d.requests.modify request fun r => { r with hasTask := true } } =
          d' := by
  simp only [step, Option.bind_eq_bind, Option.bind_eq_some_iff]
  refine exists_congr fun r => and_congr_right fun _ => ?_
  cases hphase : r.phase <;> simp [Option.bind_eq_some_iff, and_assoc]

theorem step_didFailToCreateURLRequest {request : ℕ} :
    step c d (.didFailToCreateURLRequest request) = some d' ↔
      ∃ r, d.requests[request]? = some r ∧ r.phase = .waiting ∧ r.hasTask = false ∧
        r.setupFailed = false ∧
        { d with requests := d.requests.modify request fun r => { r with setupFailed := true } } =
          d' := by
  simp only [step, Option.bind_eq_bind, Option.bind_eq_some_iff]
  refine exists_congr fun r => and_congr_right fun _ => ?_
  cases hphase : r.phase <;> simp [Option.bind_eq_some_iff, and_assoc]

theorem step_respond {request : ℕ} {result : Option Image} :
    step c d (.respond request result) = some d' ↔
      ∃ r, d.requests[request]? = some r ∧ r.phase = .waiting ∧ r.CanFinish ∧
        (r.setupFailed → result.isNone) ∧ d.respond request r.url result = d' := by
  simp only [step, Option.bind_eq_bind, Option.bind_eq_some_iff]
  refine exists_congr fun r => and_congr_right fun _ => ?_
  cases hphase : r.phase <;> simp [Option.bind_eq_some_iff, and_assoc]

theorem step_removeResponseHandler {request : ℕ} :
    step c d (.removeResponseHandler request) = some d' ↔
      ∃ r result, d.requests[request]? = some r ∧ r.phase = .removingHandler result ∧
        d.removeResponseHandler request r.url result = d' := by
  simp only [step, Option.bind_eq_bind, Option.bind_eq_some_iff, exists_and_left]
  refine exists_congr fun r => and_congr_right fun _ => ?_
  cases hphase : r.phase <;> simp

theorem step_completeOperation {request : ℕ} :
    step c d (.completeOperation request) = some d' ↔
      ∃ r result receiptID operations, d.requests[request]? = some r ∧
        r.phase = .completing result (receiptID :: operations) ∧
        d.completeOperation request r.url result receiptID operations = d' := by
  simp only [step, Option.bind_eq_bind, Option.bind_eq_some_iff, exists_and_left]
  refine exists_congr fun r => and_congr_right fun _ => ?_
  cases hphase : r.phase with
  | completing result operations => cases operations <;> simp
  | _ => simp

theorem step_decrementActiveRequestCount {request : ℕ} :
    step c d (.decrementActiveRequestCount request) = some d' ↔
      ∃ r result, d.requests[request]? = some r ∧ r.phase = .completing result [] ∧
        ImageDownloader.setPhase { d with activeRequestCount := d.activeRequestCount - 1 } request
          .startingNext = d' := by
  simp only [step, Option.bind_eq_bind, Option.bind_eq_some_iff, exists_and_left]
  refine exists_congr fun r => and_congr_right fun _ => ?_
  cases hphase : r.phase with
  | completing result operations => cases operations <;> simp
  | _ => simp

theorem step_startNextRequest {request : ℕ} :
    step c d (.startNextRequest request) = some d' ↔
      ∃ r, d.requests[request]? = some r ∧ r.phase = .startingNext ∧
        (d.startNextRequestIfNecessary c).setPhase request .done = d' := by
  simp only [step, Option.bind_eq_bind, Option.bind_eq_some_iff]
  refine exists_congr fun r => and_congr_right fun _ => ?_
  cases hphase : r.phase <;> simp

end StepSpecs

section StartNext

variable {c : Configuration} {d : ImageDownloader URL Image}

/-- Starting a request leaves the phases alone. -/
theorem getElem?_startNextRequestIfNecessary {request : ℕ} {r : DataRequest URL Image}
    (hr : d.requests[request]? = some r) :
    ∃ r', (d.startNextRequestIfNecessary c).requests[request]? = some r' ∧ r'.phase = r.phase := by
  rw [ImageDownloader.startNextRequestIfNecessary]
  split_ifs
  · cases hq : d.queuedRequests with
    | nil => exact ⟨r, hr, rfl⟩
    | cons request' queue =>
      simp only [ImageDownloader.start, List.getElem?_modify, hr]
      by_cases heq : request' = request <;> simp [heq]
  · exact ⟨r, hr, rfl⟩

theorem startNextRequestIfNecessary_frame :
    (d.startNextRequestIfNecessary c).requests.length = d.requests.length ∧
      (d.startNextRequestIfNecessary c).receipts = d.receipts ∧
      (d.startNextRequestIfNecessary c).completions = d.completions := by
  rw [ImageDownloader.startNextRequestIfNecessary]
  split_ifs
  · cases d.queuedRequests with
    | nil => exact ⟨rfl, rfl, rfl⟩
    | cons request queue => exact ⟨List.length_modify .., rfl, rfl⟩
  · exact ⟨rfl, rfl, rfl⟩

end StartNext

end GuruPractice.AlamofireExample
