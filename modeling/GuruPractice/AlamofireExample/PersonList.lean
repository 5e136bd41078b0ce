import GuruPractice.AlamofireExample.DownloadCompletions
import GuruPractice.AlamofireExample.DownloadedImages

/-!
# The list of persons

The collection view asks for a cell for every row that comes on the screen, and hands out cells that
have been used for other rows before. `cellForItemAt` sets the picture of the person with
`af.setImage(withURL:)` and then the labels. A picture that arrives late must not end up in a cell
that has been given to another person meanwhile: the completion handler of a download only sets the
picture when its receipt is still the active one of the image view.

The main thread takes `setImage` in three steps, between which the response queue may go on: the
request of the cell is cancelled, the image cache is looked up, and the picture is downloaded. The
completion handlers run on the main thread too, one by one.

## Main definitions

* `AlamofireExample.PersonList`, `AlamofireExample.PersonList.step`.
* `AlamofireExample.PersonList.Attributed`, `AlamofireExample.PersonList.Undisturbed`.

## Main results

* `AlamofireExample.PersonList.image_step` — a picture is one of the person of the cell.
* `AlamofireExample.PersonList.image_of_atRest` — in the end every cell has its picture.
-/

namespace GuruPractice.AlamofireExample

open Transition

variable {URL Image Cell : Type}

/-! ### The data -/

structure PersonInfo (URL : Type) where
  id : Option String
  title : String
  firstName : String
  lastName : String
  picture : URL

structure ImageView (Image : Type) where
  image : Option Image
  /-- The receipt id of `activeRequestReceipt`. -/
  activeRequestReceipt : Option ℕ

structure PersonCell (URL Image : Type) where
  profileImage : ImageView Image
  /-- The person whose id and names are on the labels. -/
  person : Option (PersonInfo URL)

/-- Where the main thread is in `cellForItemAt`. -/
inductive MainThread (URL Cell : Type)
  | idle
  | lookingUp (cell : Cell) (person : PersonInfo URL)
  | downloading (cell : Cell) (person : PersonInfo URL)

structure PersonList (URL Image Cell : Type) where
  person_data : List (PersonInfo URL)
  cells : Cell → PersonCell URL Image
  mainThread : MainThread URL Cell
  downloader : ImageDownloader URL Image
  /-- The cell of the image view that the completion handler of each download sets. -/
  imageViews : List Cell
  /-- The number of completion handlers that have run on the main queue. -/
  completed : ℕ

namespace PersonList

def initial : PersonList URL Image Cell where
  person_data := []
  cells _ := ⟨⟨none, none⟩, none⟩
  mainThread := .idle
  downloader := .initial
  imageViews := []
  completed := 0

/-! ### The transition function -/

/-- The request of the active receipt of a cell. -/
def activeRequest (s : PersonList URL Image Cell) (cell : Cell) :
    Option (DataRequest URL Image) := do
  let receiptID ← (s.cells cell).profileImage.activeRequestReceipt
  let request ← (s.downloader.receipts[receiptID]?).join
  s.downloader.requests[request]?

variable [DecidableEq URL] [DecidableEq Cell]

/-- The task of the active request has been created for the URL. -/
def isURLRequestURLEqualToActiveRequestURL (s : PersonList URL Image Cell) (cell : Cell)
    (url : URL) : Bool :=
  (s.activeRequest cell).any fun r => r.hasTask && decide (r.url = url)

def setCell (s : PersonList URL Image Cell) (cell : Cell) (personCell : PersonCell URL Image) :
    PersonList URL Image Cell :=
  { s with cells := Function.update s.cells cell personCell }

/-- `cellForItemAt` up to the cancellation of the request the cell waits for. When that request is
for the same URL, `setImage` returns at once. -/
def cellForItemAt (c : Configuration) (s : PersonList URL Image Cell) (cell : Cell)
    (person : PersonInfo URL) : Option (PersonList URL Image Cell) :=
  if s.isURLRequestURLEqualToActiveRequestURL cell person.picture then
    some (s.setCell cell { s.cells cell with person })
  else
    match (s.cells cell).profileImage.activeRequestReceipt with
    | none => some { s with mainThread := .lookingUp cell person }
    | some receiptID => do
      let downloader ← AlamofireExample.step c s.downloader (.cancelRequest receiptID)
      return { s.setCell cell { s.cells cell with profileImage :=
          { (s.cells cell).profileImage with activeRequestReceipt := none } } with
        mainThread := .lookingUp cell person, downloader }

/-- The image of the cache is set, or has to be downloaded. -/
def lookUpCache (s : PersonList URL Image Cell) (cell : Cell) (person : PersonInfo URL) :
    PersonList URL Image Cell :=
  match s.downloader.imageCache person.picture with
  | some image =>
    { s.setCell cell ⟨{ (s.cells cell).profileImage with image := some image }, some person⟩ with
      mainThread := .idle }
  | none => { s with mainThread := .downloading cell person }

/-- The picture is downloaded. There is no receipt when the image is in the cache by now. -/
def download (c : Configuration) (s : PersonList URL Image Cell) (cell : Cell)
    (person : PersonInfo URL) : PersonList URL Image Cell :=
  let downloader := s.downloader.download c person.picture
  let activeRequestReceipt :=
    if (downloader.receipts[s.downloader.receipts.length]?).join.isSome then
      some s.downloader.receipts.length
    else none
  { s.setCell cell ⟨{ (s.cells cell).profileImage with activeRequestReceipt }, some person⟩ with
    mainThread := .idle
    downloader
    imageViews := s.imageViews ++ [cell] }

/-- The completion handler that `setImage` passes to the downloader. -/
def completion (s : PersonList URL Image Cell) (cell : Cell) (receiptID : ℕ)
    (result : ImageResult Image) : PersonList URL Image Cell :=
  if (s.cells cell).profileImage.activeRequestReceipt = some receiptID ∧
      (s.activeRequest cell).any (·.hasTask) then
    s.setCell cell { s.cells cell with profileImage :=
      { image := match result with
          | .success image => some image
          | _ => (s.cells cell).profileImage.image
        activeRequestReceipt := none } }
  else s

inductive Event (URL Image Cell : Type)
  /-- The response with the persons has been decoded. -/
  | getData (person_data : List (PersonInfo URL))
  | cellForItemAt (cell : Cell) (row : ℕ)
  | lookUpCache
  | download
  | runCompletion
  /-- The downloader, the session, a server or the image cache takes a step. -/
  | background (e : AlamofireExample.Event URL Image)

/-- One step of the screen. -/
def step (c : Configuration) (s : PersonList URL Image Cell) :
    Event URL Image Cell → Option (PersonList URL Image Cell)
  | .getData person_data =>
    match s.mainThread with
    | .idle => some { s with person_data }
    | _ => none
  | .cellForItemAt cell row =>
    match s.mainThread, s.person_data[row]? with
    | .idle, some person => s.cellForItemAt c cell person
    | _, _ => none
  | .lookUpCache =>
    match s.mainThread with
    | .lookingUp cell person => some (s.lookUpCache cell person)
    | _ => none
  | .download =>
    match s.mainThread with
    | .downloading cell person => some (s.download c cell person)
    | _ => none
  | .runCompletion =>
    match s.mainThread, s.downloader.completions[s.completed]? with
    | .idle, some (receiptID, result) => do
      let cell ← s.imageViews[receiptID]?
      return { s.completion cell receiptID result with completed := s.completed + 1 }
    | _, _ => none
  | .background e =>
    match e with
    | .download _ | .cancelRequest _ => none
    | e => do
      let downloader ← AlamofireExample.step c s.downloader e
      return { s with downloader }

section StepSpecs

variable {c : Configuration} {s s' : PersonList URL Image Cell}

theorem step_getData {person_data : List (PersonInfo URL)} :
    step c s (.getData person_data) = some s' ↔
      s.mainThread = .idle ∧ { s with person_data } = s' := by
  cases hmain : s.mainThread <;> simp [step, hmain]

theorem step_cellForItemAt {cell : Cell} {row : ℕ} :
    step c s (.cellForItemAt cell row) = some s' ↔
      ∃ person, s.mainThread = .idle ∧ s.person_data[row]? = some person ∧
        s.cellForItemAt c cell person = some s' := by
  cases hmain : s.mainThread <;> cases hrow : s.person_data[row]? <;> simp [step, hmain, hrow]

theorem step_lookUpCache :
    step c s .lookUpCache = some s' ↔
      ∃ cell person, s.mainThread = .lookingUp cell person ∧ s.lookUpCache cell person = s' := by
  cases hmain : s.mainThread <;> simp [step, hmain]

theorem step_download :
    step c s .download = some s' ↔
      ∃ cell person, s.mainThread = .downloading cell person ∧ s.download c cell person = s' := by
  cases hmain : s.mainThread <;> simp [step, hmain]

theorem step_runCompletion :
    step c s .runCompletion = some s' ↔
      ∃ receiptID result cell, s.mainThread = .idle ∧
        s.downloader.completions[s.completed]? = some (receiptID, result) ∧
        s.imageViews[receiptID]? = some cell ∧
        { s.completion cell receiptID result with completed := s.completed + 1 } = s' := by
  cases hmain : s.mainThread <;> rcases hnext : s.downloader.completions[s.completed]? with
    _ | ⟨receiptID, result⟩ <;> simp [step, hmain, hnext, Option.bind_eq_some_iff]

theorem step_background {e : AlamofireExample.Event URL Image} :
    step c s (.background e) = some s' → (∀ url, e ≠ .download url) ∧ ∃ downloader,
      AlamofireExample.step c s.downloader e = some downloader ∧ { s with downloader } = s' := by
  cases e <;> simp [step, Option.bind_eq_some_iff]

theorem cellForItemAt_eq_some {cell : Cell} {person : PersonInfo URL} :
    s.cellForItemAt c cell person = some s' →
      s.isURLRequestURLEqualToActiveRequestURL cell person.picture = true ∧
        s.setCell cell { s.cells cell with person } = s' ∨
      (s.cells cell).profileImage.activeRequestReceipt = none ∧
        { s with mainThread := .lookingUp cell person } = s' ∨
      ∃ receiptID downloader, (s.cells cell).profileImage.activeRequestReceipt = some receiptID ∧
        AlamofireExample.step c s.downloader (.cancelRequest receiptID) = some downloader ∧
        { s.setCell cell { s.cells cell with profileImage :=
          { (s.cells cell).profileImage with activeRequestReceipt := none } } with
          mainThread := .lookingUp cell person, downloader } = s' := by
  intro h
  rw [cellForItemAt] at h
  split_ifs at h with hsame
  · exact Or.inl ⟨hsame, Option.some.inj h⟩
  · cases hactive : (s.cells cell).profileImage.activeRequestReceipt with
    | none =>
      rw [hactive] at h
      exact Or.inr (Or.inl ⟨rfl, Option.some.inj h⟩)
    | some receiptID =>
      rw [hactive] at h
      obtain ⟨downloader, hstep, hs'⟩ := Option.bind_eq_some_iff.mp h
      exact Or.inr (Or.inr ⟨receiptID, downloader, rfl, hstep, Option.some.inj hs'⟩)

end StepSpecs

omit [DecidableEq Cell] in
/-- Only a download hands out a receipt. -/
theorem receipts_step {c : Configuration} {d d' : ImageDownloader URL Image}
    {e : AlamofireExample.Event URL Image} (hne : ∀ url, e ≠ .download url)
    (hstep : AlamofireExample.step c d e = some d') : d'.receipts = d.receipts := by
  cases e with
  | download url => exact absurd rfl (hne url)
  | cancelRequest receiptID =>
    obtain ⟨request, r, -, -, rfl⟩ := step_cancelRequest.mp hstep
    rw [ImageDownloader.cancelRequest]
    split
    · rfl
    · split_ifs <;> rfl
  | purge url => exact Option.some.inj hstep ▸ rfl
  | _ => exact (stepsLeft_step (by trivial) hstep).2.1

/-! ### Whose picture a cell waits for -/

/-- Servers answer requests with images for their URL. -/
def Answers (From : URL → Image → Prop) (s : PersonList URL Image Cell) :
    Event URL Image Cell → Prop
  | .background e => AlamofireExample.Answers From s.downloader e
  | _ => True

/-- An active receipt is for the picture of the person of the cell. -/
structure Attributed (c : Configuration) (From : URL → Image → Prop)
    (s : PersonList URL Image Cell) : Prop where
  consistent : s.downloader.Consistent c
  balanced : s.downloader.ledger.Balanced
  provenance : s.downloader.Provenance From
  length_imageViews : s.imageViews.length = s.downloader.receipts.length
  active : ∀ cell receiptID, (s.cells cell).profileImage.activeRequestReceipt = some receiptID →
    s.imageViews[receiptID]? = some cell ∧ ∃ person, (s.cells cell).person = some person ∧
      s.downloader.receiptURL receiptID = some person.picture
  notActive : ∀ cell person,
    s.mainThread = .lookingUp cell person ∨ s.mainThread = .downloading cell person →
      (s.cells cell).profileImage.activeRequestReceipt = none

namespace Attributed

variable {c : Configuration} {From : URL → Image → Prop} {s s' : PersonList URL Image Cell}

omit [DecidableEq Cell] in
theorem initial : (PersonList.initial : PersonList URL Image Cell).Attributed c From where
  consistent := .initial
  balanced := @balanced_run _ _ _ c _ [] rfl
  provenance := .initial
  length_imageViews := rfl
  active := by simp [PersonList.initial]
  notActive := by simp [PersonList.initial]

omit [DecidableEq Cell] in
/-- The downloader takes a step, and hands out no receipt. -/
theorem downloader_step (h : s.Attributed c From) {e : AlamofireExample.Event URL Image}
    {downloader : ImageDownloader URL Image}
    (hanswers : AlamofireExample.Answers From s.downloader e)
    (hstep : AlamofireExample.step c s.downloader e = some downloader)
    (hreceipts : downloader.receipts = s.downloader.receipts) :
    ({ s with downloader }).Attributed c From where
  consistent := h.consistent.step hstep
  balanced := h.balanced.entry (entry_step hstep)
  provenance := h.provenance.step h.consistent hanswers hstep
  length_imageViews := hreceipts ▸ h.length_imageViews
  active cell receiptID hactive := by
    obtain ⟨hview, person, hperson, hurl⟩ := h.active cell receiptID hactive
    exact ⟨hview, person, hperson, ImageDownloader.receiptURL_step hstep hurl⟩
  notActive := h.notActive

omit [DecidableEq URL] in
/-- One cell changes, and the downloader may take a step for it. -/
theorem replaceCell (h : s.Attributed c From) {cell : Cell} {personCell : PersonCell URL Image}
    (hconsistent : s'.downloader.Consistent c) (hbalanced : s'.downloader.ledger.Balanced)
    (hprovenance : s'.downloader.Provenance From)
    (hlength : s'.imageViews.length = s'.downloader.receipts.length)
    (hviews : ∀ (n : ℕ) (cell : Cell), s.imageViews[n]? = some cell →
      s'.imageViews[n]? = some cell)
    (hurls : ∀ n url, s.downloader.receiptURL n = some url → s'.downloader.receiptURL n = some url)
    (hcells : s'.cells = Function.update s.cells cell personCell)
    (hactive : ∀ receiptID, personCell.profileImage.activeRequestReceipt = some receiptID →
      s'.imageViews[receiptID]? = some cell ∧ ∃ person, personCell.person = some person ∧
        s'.downloader.receiptURL receiptID = some person.picture)
    (hnotActive : ∀ cell' person,
      s'.mainThread = .lookingUp cell' person ∨ s'.mainThread = .downloading cell' person →
        cell' = cell ∧ personCell.profileImage.activeRequestReceipt = none) :
    s'.Attributed c From := by
  refine ⟨hconsistent, hbalanced, hprovenance, hlength, fun cell' receiptID hactive' => ?_,
    fun cell' person hmain => ?_⟩
  · rw [hcells] at hactive' ⊢
    by_cases heq : cell' = cell
    · subst heq
      rw [Function.update_self] at hactive' ⊢
      exact hactive receiptID hactive'
    · rw [Function.update_of_ne heq] at hactive' ⊢
      obtain ⟨hview, person, hperson, hurl⟩ := h.active cell' receiptID hactive'
      exact ⟨hviews _ _ hview, person, hperson, hurls _ _ hurl⟩
  · obtain ⟨rfl, hnone⟩ := hnotActive cell' person hmain
    rw [hcells, Function.update_self]
    exact hnone

omit [DecidableEq URL] [DecidableEq Cell] in
theorem receiptURL_of_activeRequest {cell : Cell} {receiptID : ℕ} {r : DataRequest URL Image}
    (hactive : (s.cells cell).profileImage.activeRequestReceipt = some receiptID)
    (hr : s.activeRequest cell = some r) : s.downloader.receiptURL receiptID = some r.url := by
  simp only [activeRequest, hactive, Option.bind_eq_bind, Option.bind_some,
    Option.bind_eq_some_iff] at hr
  obtain ⟨request, hreceipt, hr⟩ := hr
  simp [ImageDownloader.receiptURL, hreceipt, hr]

theorem cellForItemAt (h : s.Attributed c From) {cell : Cell} {person : PersonInfo URL}
    (hidle : s.mainThread = .idle) (hs' : s.cellForItemAt c cell person = some s') :
    s'.Attributed c From := by
  rcases cellForItemAt_eq_some hs' with
    ⟨hsame, rfl⟩ | ⟨hnone, rfl⟩ | ⟨receiptID, downloader, hactive, hstep, rfl⟩
  · refine h.replaceCell h.consistent h.balanced h.provenance h.length_imageViews
      (fun _ _ => id) (fun _ _ => id) rfl (fun receiptID hactive => ?_) (by simp [setCell, hidle])
    refine ⟨(h.active cell receiptID hactive).1, person, rfl, ?_⟩
    obtain ⟨r, hr, hurl⟩ := (Option.any_eq_true _ _).mp hsame
    exact (receiptURL_of_activeRequest hactive hr).trans
      (congrArg some (of_decide_eq_true (Bool.and_eq_true_iff.mp hurl).2))
  · refine ⟨h.consistent, h.balanced, h.provenance, h.length_imageViews, h.active, ?_⟩
    rintro cell' person' (heq | heq)
    · obtain ⟨rfl, rfl⟩ := MainThread.lookingUp.inj heq
      exact hnone
    · exact absurd heq nofun
  · refine h.replaceCell (h.consistent.step hstep) (h.balanced.entry (entry_step hstep))
      (h.provenance.step h.consistent (e := .cancelRequest receiptID) trivial hstep)
      (h.length_imageViews.trans (congrArg List.length (receipts_step nofun hstep)).symm)
      (fun _ _ => id) (fun _ _ => ImageDownloader.receiptURL_step hstep) rfl nofun ?_
    rintro cell' person' (heq | heq)
    · exact ⟨(MainThread.lookingUp.inj heq).1.symm, rfl⟩
    · exact absurd heq nofun

omit [DecidableEq URL] in
theorem lookUpCache (h : s.Attributed c From) {cell : Cell} {person : PersonInfo URL}
    (hmain : s.mainThread = .lookingUp cell person) :
    (s.lookUpCache cell person).Attributed c From := by
  have hnone := h.notActive cell person (Or.inl hmain)
  rw [PersonList.lookUpCache]
  cases hcache : s.downloader.imageCache person.picture with
  | some image =>
    refine h.replaceCell h.consistent h.balanced h.provenance h.length_imageViews
      (fun _ _ => id) (fun _ _ => id) rfl ?_ (by simp)
    simp [hnone]
  | none =>
    refine ⟨h.consistent, h.balanced, h.provenance, h.length_imageViews, h.active, ?_⟩
    rintro cell' person' (heq | heq)
    · exact absurd heq nofun
    · obtain ⟨rfl, rfl⟩ := MainThread.downloading.inj heq
      exact hnone

theorem download (h : s.Attributed c From) {cell : Cell} {person : PersonInfo URL} :
    (s.download c cell person).Attributed c From := by
  have hstep : AlamofireExample.step c s.downloader (.download person.picture) =
      some (s.downloader.download c person.picture) := rfl
  have hlength : (s.downloader.download c person.picture).receipts.length =
      s.downloader.receipts.length + 1 := by
    rcases ImageDownloader.Provenance.receipts_download h.consistent person.picture with
      ⟨-, -, hreceipts⟩ | ⟨request, hreceipts, -⟩ <;> simp [hreceipts]
  refine h.replaceCell (h.consistent.step hstep) (h.balanced.entry (entry_step hstep))
    (h.provenance.download h.consistent person.picture) ?_ (fun n cell' hview => ?_)
    (fun _ _ => ImageDownloader.receiptURL_step hstep) rfl (fun receiptID hactive => ?_)
    (by simp [PersonList.download])
  · simp [PersonList.download, hlength, h.length_imageViews]
  · exact (List.getElem?_append_left (List.getElem?_eq_some_iff.mp hview).1).trans hview
  · rcases ImageDownloader.Provenance.receipts_download h.consistent person.picture with
      ⟨-, -, hreceipts⟩ | ⟨request, hreceipts, hurl⟩
    · simp [hreceipts] at hactive
    · obtain rfl : s.downloader.receipts.length = receiptID := by simpa [hreceipts] using hactive
      refine ⟨?_, person, rfl, hurl⟩
      simp [PersonList.download, ← h.length_imageViews]

omit [DecidableEq URL] in
theorem completion (h : s.Attributed c From) (hidle : s.mainThread = .idle) (cell : Cell)
    (receiptID : ℕ) (result : ImageResult Image) (completed : ℕ) :
    ({ s.completion cell receiptID result with completed }).Attributed c From := by
  unfold PersonList.completion
  split_ifs
  · exact h.replaceCell h.consistent h.balanced h.provenance h.length_imageViews
      (fun _ _ => id) (fun _ _ => id) rfl nofun (by simp [setCell, hidle])
  · exact ⟨h.consistent, h.balanced, h.provenance, h.length_imageViews, h.active, h.notActive⟩

/-- **Receipts stay with the picture of the person of the cell.** -/
theorem step (h : s.Attributed c From) {e : Event URL Image Cell} (hanswers : s.Answers From e)
    (hstep : step c s e = some s') : s'.Attributed c From := by
  cases e with
  | getData person_data =>
    obtain ⟨-, rfl⟩ := step_getData.mp hstep
    exact ⟨h.consistent, h.balanced, h.provenance, h.length_imageViews, h.active, h.notActive⟩
  | cellForItemAt cell row =>
    obtain ⟨person, hidle, -, hs'⟩ := step_cellForItemAt.mp hstep
    exact h.cellForItemAt hidle hs'
  | lookUpCache =>
    obtain ⟨cell, person, hmain, rfl⟩ := step_lookUpCache.mp hstep
    exact h.lookUpCache hmain
  | download =>
    obtain ⟨cell, person, -, rfl⟩ := step_download.mp hstep
    exact h.download
  | runCompletion =>
    obtain ⟨receiptID, result, cell, hidle, -, -, rfl⟩ := step_runCompletion.mp hstep
    exact h.completion hidle cell receiptID result _
  | background e =>
    obtain ⟨hne, downloader, hstep', rfl⟩ := step_background hstep
    exact h.downloader_step hanswers hstep' (receipts_step hne hstep')

end Attributed

/-! ### Pictures -/

variable {c : Configuration} {From : URL → Image → Prop} {es : List (Event URL Image Cell)}
  {s s' : PersonList URL Image Cell}

theorem attributed_run (hanswers : AllSteps (step c) (Answers From) initial es)
    (h : run (step c) initial es = some s) : s.Attributed c From :=
  run_induction_of_allSteps (fun _ _ _ hs => hs.step) .initial hanswers h

omit [DecidableEq URL] in
/-- A completion handler only sets the picture of a cell that waits for its URL. -/
theorem image_completion (h : s.Attributed c From) {cell cell' : Cell} {receiptID : ℕ}
    {result : ImageResult Image} (hmem : (receiptID, result) ∈ s.downloader.completions) :
    ((s.completion cell receiptID result).cells cell').profileImage.image =
        (s.cells cell').profileImage.image ∨
      ∃ person image, ((s.completion cell receiptID result).cells cell').person = some person ∧
        ((s.completion cell receiptID result).cells cell').profileImage.image = some image ∧
        From person.picture image := by
  unfold completion
  split_ifs with hactive
  · by_cases heq : cell' = cell
    · subst heq
      obtain ⟨-, person, hperson, hurl⟩ := h.active cell' receiptID hactive.1
      simp only [setCell, Function.update_self]
      cases result with
      | success image =>
        exact Or.inr ⟨person, image, hperson, rfl, h.provenance.of_receiptURL hurl hmem⟩
      | failure => exact Or.inl rfl
      | requestCancelled => exact Or.inl rfl
    · exact Or.inl (by simp [setCell, heq])
  · exact Or.inl rfl

/-- **A picture is one of the person of the cell.** Whenever the picture of a cell changes, the new
one has been downloaded from the URL of the person whose names the cell shows. -/
theorem image_step {e : Event URL Image Cell}
    (hanswers : AllSteps (step c) (Answers From) initial es)
    (h : run (step c) initial es = some s) (hstep : step c s e = some s') (cell : Cell) :
    (s'.cells cell).profileImage.image = (s.cells cell).profileImage.image ∨
      ∃ person image, (s'.cells cell).person = some person ∧
        (s'.cells cell).profileImage.image = some image ∧ From person.picture image := by
  have hattributed := attributed_run hanswers h
  cases e with
  | getData person_data =>
    obtain ⟨-, rfl⟩ := step_getData.mp hstep
    exact Or.inl rfl
  | cellForItemAt cell' row =>
    obtain ⟨person, -, -, hs'⟩ := step_cellForItemAt.mp hstep
    by_cases heq : cell = cell'
    · subst heq
      rcases cellForItemAt_eq_some hs' with ⟨-, rfl⟩ | ⟨-, rfl⟩ | ⟨-, -, -, -, rfl⟩ <;>
        exact Or.inl (by simp [setCell])
    · rcases cellForItemAt_eq_some hs' with ⟨-, rfl⟩ | ⟨-, rfl⟩ | ⟨-, -, -, -, rfl⟩ <;>
        exact Or.inl (by simp [setCell, heq])
  | lookUpCache =>
    obtain ⟨cell', person, -, rfl⟩ := step_lookUpCache.mp hstep
    rw [lookUpCache]
    cases hcache : s.downloader.imageCache person.picture with
    | none => exact Or.inl rfl
    | some image =>
      by_cases heq : cell = cell'
      · subst heq
        refine Or.inr ⟨person, image, by simp [setCell], by simp [setCell], ?_⟩
        exact hattributed.provenance.imageCache person.picture image hcache
      · exact Or.inl (by simp [setCell, heq])
  | download =>
    obtain ⟨cell', person, -, rfl⟩ := step_download.mp hstep
    by_cases heq : cell = cell'
    · subst heq
      exact Or.inl (by simp [download, setCell])
    · exact Or.inl (by simp [download, setCell, heq])
  | runCompletion =>
    obtain ⟨receiptID, result, cell', -, hnext, -, rfl⟩ := step_runCompletion.mp hstep
    exact image_completion hattributed (List.mem_of_getElem? hnext)
  | background e =>
    obtain ⟨-, downloader, -, rfl⟩ := step_background hstep
    exact Or.inl rfl

/-! ### Pictures in the end -/

/-- Nothing goes wrong in a step: an image that the lookup has not found does not come into the
cache before the download, and a completion handler that a cell waits for gets an image after the
task of the request has been created. -/
def Undisturbed (s : PersonList URL Image Cell) : Event URL Image Cell → Prop
  | .download => ∀ cell person, s.mainThread = .downloading cell person →
      s.downloader.responseHandlers person.picture = none →
        s.downloader.imageCache person.picture = none
  | .runCompletion => ∀ receiptID result cell,
      s.downloader.completions[s.completed]? = some (receiptID, result) →
      s.imageViews[receiptID]? = some cell →
      (s.cells cell).profileImage.activeRequestReceipt = some receiptID →
        (∃ image, result = .success image) ∧ (s.activeRequest cell).any (·.hasTask)
  | _ => True

/-- A cell has its picture, or waits for a completion handler that has not run. -/
structure Expecting (From : URL → Image → Prop) (s : PersonList URL Image Cell) : Prop where
  image : ∀ cell person, (s.cells cell).person = some person →
    (∀ person', s.mainThread ≠ .lookingUp cell person' ∧
      s.mainThread ≠ .downloading cell person') →
    (s.cells cell).profileImage.activeRequestReceipt.isSome ∨
      ∃ image, (s.cells cell).profileImage.image = some image ∧ From person.picture image
  completed_le : s.completed ≤ s.downloader.completions.length
  notMem : ∀ cell receiptID, (s.cells cell).profileImage.activeRequestReceipt = some receiptID →
    receiptID ∉ s.downloader.ledger.settled.take s.completed

namespace Expecting

omit [DecidableEq URL] [DecidableEq Cell] in
theorem initial : (PersonList.initial : PersonList URL Image Cell).Expecting From where
  image := by simp [PersonList.initial]
  completed_le := Nat.zero_le _
  notMem := by simp [PersonList.initial]

omit [DecidableEq Cell] in
theorem take_settled {d d' : ImageDownloader URL Image} {completed : ℕ}
    (hle : completed ≤ d.completions.length) (hentry : d.ledger.Entry d'.ledger) :
    completed ≤ d'.completions.length ∧
      d'.ledger.settled.take completed = d.ledger.settled.take completed := by
  obtain ⟨more, hmore⟩ := hentry.settled_prefix
  have hle' : completed ≤ d.ledger.settled.length := by simpa [ImageDownloader.ledger] using hle
  have hlength : d'.completions.length = d'.ledger.settled.length := by
    simp [ImageDownloader.ledger]
  rw [hlength, ← hmore, List.take_append_of_le_length hle', List.length_append]
  exact ⟨Nat.le_add_right_of_le hle', rfl⟩

omit [DecidableEq URL] in
/-- One cell changes, the one the main thread is at. -/
theorem replaceCell (h : s.Expecting From) {cell' : Cell} {personCell : PersonCell URL Image}
    (hcells : s'.cells = Function.update s.cells cell' personCell)
    (hmain : ∀ cell person,
      s.mainThread = .lookingUp cell person ∨ s.mainThread = .downloading cell person →
        cell = cell')
    (himage : ∀ person, personCell.person = some person →
      (∀ person', s'.mainThread ≠ .lookingUp cell' person' ∧
        s'.mainThread ≠ .downloading cell' person') →
      personCell.profileImage.activeRequestReceipt.isSome ∨
        ∃ image, personCell.profileImage.image = some image ∧ From person.picture image)
    (hle : s'.completed ≤ s'.downloader.completions.length)
    (hactive : ∀ receiptID, personCell.profileImage.activeRequestReceipt = some receiptID →
      receiptID ∉ s'.downloader.ledger.settled.take s'.completed)
    (htake : ∀ cell receiptID, cell ≠ cell' →
      (s.cells cell).profileImage.activeRequestReceipt = some receiptID →
        receiptID ∉ s'.downloader.ledger.settled.take s'.completed) : s'.Expecting From := by
  refine ⟨fun cell person hperson hnot => ?_, hle, fun cell receiptID hactive' => ?_⟩
  · rw [hcells] at hperson ⊢
    by_cases heq : cell = cell'
    · subst heq
      rw [Function.update_self] at hperson ⊢
      exact himage person hperson hnot
    · rw [Function.update_of_ne heq] at hperson ⊢
      refine h.image cell person hperson fun person' => ⟨fun hat => ?_, fun hat => ?_⟩
      · exact heq (hmain cell person' (Or.inl hat))
      · exact heq (hmain cell person' (Or.inr hat))
  · rw [hcells] at hactive'
    by_cases heq : cell = cell'
    · subst heq
      rw [Function.update_self] at hactive'
      exact hactive receiptID hactive'
    · rw [Function.update_of_ne heq] at hactive'
      exact htake cell receiptID heq hactive'

theorem cellForItemAt (h : s.Expecting From) {cell : Cell} {person : PersonInfo URL}
    (hidle : s.mainThread = .idle) (hs' : s.cellForItemAt c cell person = some s') :
    s'.Expecting From := by
  have hmain (cell' : Cell) (person : PersonInfo URL)
      (hat : s.mainThread = .lookingUp cell' person ∨ s.mainThread = .downloading cell' person) :
      cell' = cell := by simp [hidle] at hat
  rcases cellForItemAt_eq_some hs' with
    ⟨hsame, rfl⟩ | ⟨hnone, rfl⟩ | ⟨receiptID, downloader, hactive, hstep, rfl⟩
  · refine h.replaceCell rfl hmain (fun person' _ _ => Or.inl ?_) h.completed_le
      (fun receiptID => h.notMem cell receiptID) fun cell receiptID _ => h.notMem cell receiptID
    cases hactive : (s.cells cell).profileImage.activeRequestReceipt with
    | some receiptID => rfl
    | none => simp [isURLRequestURLEqualToActiveRequestURL, activeRequest, hactive] at hsame
  · refine h.replaceCell (Function.update_eq_self cell s.cells).symm hmain
      (fun person' _ hnot => absurd rfl (hnot person).1) h.completed_le
      (fun receiptID => h.notMem cell receiptID) fun cell receiptID _ => h.notMem cell receiptID
  · obtain ⟨hle, htake⟩ := take_settled h.completed_le (entry_step hstep)
    refine h.replaceCell rfl hmain (fun person' _ hnot => absurd rfl (hnot person).1) hle nofun
      fun cell receiptID _ hactive => ?_
    exact htake ▸ h.notMem cell receiptID hactive

omit [DecidableEq URL] in
theorem lookUpCache (h : s.Expecting From) (hattributed : s.Attributed c From) {cell : Cell}
    {person : PersonInfo URL} (hat : s.mainThread = .lookingUp cell person) :
    (s.lookUpCache cell person).Expecting From := by
  have hmain (cell' : Cell) (person' : PersonInfo URL)
      (hat' : s.mainThread = .lookingUp cell' person' ∨ s.mainThread = .downloading cell' person') :
      cell' = cell := by
    simp only [hat, reduceCtorEq, MainThread.lookingUp.injEq, or_false] at hat'
    exact hat'.1.symm
  rw [PersonList.lookUpCache]
  cases hcache : s.downloader.imageCache person.picture with
  | some image =>
    refine h.replaceCell rfl hmain (fun person' hperson _ => Or.inr ⟨image, rfl, ?_⟩)
      h.completed_le (fun receiptID => h.notMem cell receiptID)
      fun cell receiptID _ => h.notMem cell receiptID
    obtain rfl := Option.some.inj hperson
    exact hattributed.provenance.imageCache person.picture image hcache
  | none =>
    exact h.replaceCell (Function.update_eq_self cell s.cells).symm hmain
      (fun person' _ hnot => absurd rfl (hnot person).2) h.completed_le
      (fun receiptID => h.notMem cell receiptID) fun cell receiptID _ => h.notMem cell receiptID

theorem download (h : s.Expecting From) (hattributed : s.Attributed c From) {cell : Cell}
    {person : PersonInfo URL} (hat : s.mainThread = .downloading cell person)
    (hundisturbed : s.Undisturbed .download) : (s.download c cell person).Expecting From := by
  have hstep : AlamofireExample.step c s.downloader (.download person.picture) =
      some (s.downloader.download c person.picture) := rfl
  have hmain (cell' : Cell) (person' : PersonInfo URL)
      (hat' : s.mainThread = .lookingUp cell' person' ∨ s.mainThread = .downloading cell' person') :
      cell' = cell := by
    simp only [hat, reduceCtorEq, MainThread.downloading.injEq, false_or] at hat'
    exact hat'.1.symm
  obtain ⟨hle, htake⟩ := take_settled h.completed_le (entry_step hstep)
  rcases ImageDownloader.Provenance.receipts_download hattributed.consistent person.picture with
    ⟨hurl, hcache, -⟩ | ⟨request, hreceipts, -⟩
  · simp [hundisturbed cell person hat hurl] at hcache
  · refine h.replaceCell rfl hmain (fun person' _ _ => Or.inl (by simp [hreceipts])) hle
      (fun receiptID hactive hmem => ?_) fun cell receiptID _ hactive =>
        htake ▸ h.notMem cell receiptID hactive
    -- the new receipt cannot have been completed
    obtain rfl : s.downloader.receipts.length = receiptID := by simpa [hreceipts] using hactive
    have hmem' : s.downloader.receipts.length ∈ s.downloader.ledger.settled :=
      List.mem_of_mem_take (htake ▸ hmem)
    exact hattributed.balanced.issued_notMem_settled hmem'

omit [DecidableEq URL] in
theorem runCompletion (h : s.Expecting From) (hattributed : s.Attributed c From)
    (hundisturbed : s.Undisturbed .runCompletion) {cell : Cell} {receiptID : ℕ}
    {result : ImageResult Image} (hidle : s.mainThread = .idle)
    (hnext : s.downloader.completions[s.completed]? = some (receiptID, result))
    (hview : s.imageViews[receiptID]? = some cell) :
    ({ s.completion cell receiptID result with completed := s.completed + 1 }).Expecting From := by
  have hmain (cell' : Cell) (person : PersonInfo URL)
      (hat : s.mainThread = .lookingUp cell' person ∨ s.mainThread = .downloading cell' person) :
      cell' = cell := by simp [hidle] at hat
  have hle : s.completed + 1 ≤ s.downloader.completions.length :=
    (List.getElem?_eq_some_iff.mp hnext).1
  have htake (cell' : Cell) (receiptID' : ℕ)
      (hactive : (s.cells cell').profileImage.activeRequestReceipt = some receiptID')
      (hne : receiptID' ≠ receiptID) :
      receiptID' ∉ s.downloader.ledger.settled.take (s.completed + 1) := by
    have hlast : s.downloader.ledger.settled[s.completed]? = some receiptID := by
      simp [ImageDownloader.ledger, hnext]
    rw [List.take_add_one, hlast]
    simp [h.notMem cell' receiptID' hactive, hne]
  have hview' (cell' : Cell)
      (hactive : (s.cells cell').profileImage.activeRequestReceipt = some receiptID) :
      cell' = cell :=
    Option.some.inj ((hattributed.active cell' receiptID hactive).1.symm.trans hview)
  unfold completion
  split_ifs with hactive
  · obtain ⟨⟨image, rfl⟩, -⟩ := hundisturbed receiptID result cell hnext hview hactive.1
    refine h.replaceCell rfl hmain (fun person hperson _ => Or.inr ⟨image, rfl, ?_⟩) hle
      (fun _ hnone => absurd hnone.symm (Option.some_ne_none _))
      fun cell' receiptID' hne hactive' => htake cell' receiptID' hactive' ?_
    · obtain ⟨-, person', hperson', hurl⟩ := hattributed.active cell receiptID hactive.1
      obtain rfl := Option.some.inj (hperson.symm.trans hperson')
      exact hattributed.provenance.of_receiptURL hurl (List.mem_of_getElem? hnext)
    · rintro rfl
      exact hne (hview' cell' hactive')
  · refine ⟨h.image, hle, fun cell' receiptID' hactive' => htake cell' receiptID' hactive' ?_⟩
    rintro rfl
    obtain rfl := hview' cell' hactive'
    exact hactive ⟨hactive', (hundisturbed receiptID' result cell' hnext hview hactive').2⟩

theorem step {e : Event URL Image Cell} (h : s.Expecting From) (hattributed : s.Attributed c From)
    (hundisturbed : s.Undisturbed e) (hstep : step c s e = some s') : s'.Expecting From := by
  cases e with
  | getData person_data =>
    obtain ⟨-, rfl⟩ := step_getData.mp hstep
    exact ⟨h.image, h.completed_le, h.notMem⟩
  | cellForItemAt cell' row =>
    obtain ⟨person, hidle, -, hs'⟩ := step_cellForItemAt.mp hstep
    exact h.cellForItemAt hidle hs'
  | lookUpCache =>
    obtain ⟨cell', person, hat, rfl⟩ := step_lookUpCache.mp hstep
    exact h.lookUpCache hattributed hat
  | download =>
    obtain ⟨cell', person, hat, rfl⟩ := step_download.mp hstep
    exact h.download hattributed hat hundisturbed
  | runCompletion =>
    obtain ⟨receiptID, result, cell', hidle, hnext, hview, rfl⟩ := step_runCompletion.mp hstep
    exact h.runCompletion hattributed hundisturbed hidle hnext hview
  | background e =>
    obtain ⟨-, downloader, hstep', rfl⟩ := step_background hstep
    obtain ⟨hle, htake⟩ := take_settled h.completed_le (entry_step hstep')
    exact ⟨h.image, hle, fun cell receiptID hactive => htake ▸ h.notMem cell receiptID hactive⟩

end Expecting

/-- **In the end every cell has its picture.** When nothing has gone wrong, the downloader has come
to rest and all completion handlers have run, every cell shows the picture of the person whose
names it shows. -/
theorem image_of_atRest (hmax : 0 < c.maximumActiveDownloads)
    (hanswers : AllSteps (step c) (fun s e => s.Answers From e ∧ s.Undisturbed e) initial es)
    (h : run (step c) initial es = some s) (hrest : s.downloader.AtRest c)
    (hidle : s.mainThread = .idle) (hcompleted : s.completed = s.downloader.completions.length)
    {cell : Cell} {person : PersonInfo URL} (hperson : (s.cells cell).person = some person) :
    ∃ image, (s.cells cell).profileImage.image = some image ∧ From person.picture image := by
  obtain ⟨hattributed, hexpecting⟩ : s.Attributed c From ∧ s.Expecting From :=
    run_induction_of_allSteps (I := fun s => s.Attributed c From ∧ s.Expecting From)
      (fun _ _ _ hs he hstep => ⟨hs.1.step he.1 hstep, hs.2.step hs.1 he.2 hstep⟩)
      ⟨.initial, .initial⟩ hanswers h
  refine (hexpecting.image cell person hperson (by simp [hidle])).resolve_left fun hsome => ?_
  obtain ⟨receiptID, hactive⟩ := Option.isSome_iff_exists.mp hsome
  have hnot := hexpecting.notMem cell receiptID hactive
  rw [List.take_of_length_le (by simp [ImageDownloader.ledger, hcompleted])] at hnot
  have hcount := hattributed.balanced.count_settled
    (hattributed.consistent.pending_eq_nil hmax hrest) receiptID
  obtain ⟨-, person', -, hurl⟩ := hattributed.active cell receiptID hactive
  obtain ⟨request, r, hreceipt, -⟩ := ImageDownloader.receiptURL_eq_some.mp hurl
  have hlt : receiptID < s.downloader.ledger.issued := (List.getElem?_eq_some_iff.mp hreceipt).1
  rw [List.count_eq_zero_of_not_mem hnot, if_pos hlt] at hcount
  exact absurd hcount Nat.zero_ne_one

section Witness

/-- The picture of the first person is downloaded for a cell. -/
def firstPicture : List (Event ℕ ℕ ℕ) :=
  [.getData [⟨some "60d0fe4f5311236168a109ca", "ms", "Sara", "Andersen", 0⟩], .cellForItemAt 3 0,
    .lookUpCache, .download, .background (.createTask 0), .background (.respond 0 (some 10)),
    .background (.removeResponseHandler 0), .background (.completeOperation 0),
    .background (.decrementActiveRequestCount 0), .background (.startNextRequest 0)]

theorem allSteps_firstPicture : AllSteps (step ⟨.fifo, 4⟩)
    (fun s e => Answers (fun url image => image = url + 10) s e ∧ s.Undisturbed e) initial
    firstPicture := by
  refine (allSteps_cons_iff rfl).mpr ⟨⟨trivial, trivial⟩, ?_⟩
  refine (allSteps_cons_iff rfl).mpr ⟨⟨trivial, trivial⟩, ?_⟩
  refine (allSteps_cons_iff rfl).mpr ⟨⟨trivial, trivial⟩, ?_⟩
  refine (allSteps_cons_iff rfl).mpr ⟨⟨trivial, fun _ _ _ _ => rfl⟩, ?_⟩
  refine (allSteps_cons_iff rfl).mpr ⟨⟨trivial, trivial⟩, ?_⟩
  refine (allSteps_cons_iff rfl).mpr ⟨⟨fun r hr => ?_, trivial⟩, ?_⟩
  · obtain rfl := Option.some.inj hr
    rfl
  refine (allSteps_cons_iff rfl).mpr ⟨⟨trivial, trivial⟩, ?_⟩
  refine (allSteps_cons_iff rfl).mpr ⟨⟨trivial, trivial⟩, ?_⟩
  refine (allSteps_cons_iff rfl).mpr ⟨⟨trivial, trivial⟩, ?_⟩
  exact (allSteps_cons_iff rfl).mpr ⟨⟨trivial, trivial⟩, trivial⟩

theorem image_step_firstPicture :
    ∃ s s' : PersonList ℕ ℕ ℕ, run (step ⟨.fifo, 4⟩) initial firstPicture = some s ∧
      step ⟨.fifo, 4⟩ s .runCompletion = some s' ∧
      ((s'.cells 3).profileImage.image = (s.cells 3).profileImage.image ∨
        ∃ person image, (s'.cells 3).person = some person ∧
          (s'.cells 3).profileImage.image = some image ∧ image = person.picture + 10) := by
  refine ⟨_, _, rfl, rfl, ?_⟩
  exact @image_step _ _ _ _ _ ⟨.fifo, 4⟩ (fun url image => image = url + 10) firstPicture _ _
    .runCompletion
    (AllSteps.mono_of_invariant (I := fun _ => True) (fun _ _ _ _ _ _ => trivial)
      (fun _ _ _ h => h.1) trivial allSteps_firstPicture) rfl rfl 3

theorem run_firstPicture : ∃ s s' : PersonList ℕ ℕ ℕ,
    run (step ⟨.fifo, 4⟩) initial firstPicture = some s ∧
      s.downloader.completions[s.completed]? = some (0, .success 10) ∧
      s.imageViews[0]? = some 3 ∧ (s.activeRequest 3).any (·.hasTask) ∧
      step ⟨.fifo, 4⟩ s .runCompletion = some s' ∧
      s'.downloader.requests.map (·.phase) = [.done] ∧ s'.mainThread = .idle ∧
      s'.completed = s'.downloader.completions.length ∧
      (s'.cells 3).person.map (·.picture) = some 0 :=
  ⟨_, _, rfl, rfl, rfl, rfl, rfl, rfl, rfl, rfl, rfl⟩

theorem image_of_atRest_firstPicture :
    ∃ s : PersonList ℕ ℕ ℕ,
      run (step ⟨.fifo, 4⟩) initial (firstPicture ++ [.runCompletion]) = some s ∧
        ∃ image, (s.cells 3).profileImage.image = some image ∧ image = 0 + 10 := by
  obtain ⟨s, s', hrun, hnext, hview, htask, hstep, hphase, hidle, hcompleted, hperson⟩ :=
    run_firstPicture
  obtain ⟨person, hperson, hurl⟩ := Option.map_eq_some_iff.mp hperson
  have hrun' : run (step ⟨.fifo, 4⟩) initial (firstPicture ++ [.runCompletion]) = some s' := by
    rw [run_append, hrun, Option.bind_some, run_cons, hstep, Option.bind_some, run_nil]
  have hrest : s'.downloader.AtRest ⟨.fifo, 4⟩ :=
    ImageDownloader.atRest_of_phase_eq_done fun r hr => by
      simpa [hphase] using List.mem_map_of_mem (f := (·.phase)) hr
  refine ⟨s', hrun', hurl ▸ image_of_atRest (by decide)
    ((allSteps_append_iff hrun).mpr ⟨allSteps_firstPicture, ?_⟩) hrun' hrest hidle
    hcompleted hperson⟩
  refine (allSteps_cons_iff hstep).mpr ⟨⟨trivial, fun receiptID result cell hnext' hview' _ => ?_⟩,
    trivial⟩
  obtain ⟨rfl, rfl⟩ := Prod.mk.inj (Option.some.inj (hnext.symm.trans hnext'))
  obtain rfl := Option.some.inj (hview.symm.trans hview')
  exact ⟨⟨10, rfl⟩, htask⟩

end Witness

end PersonList

end GuruPractice.AlamofireExample
