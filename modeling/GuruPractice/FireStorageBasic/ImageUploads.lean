import Mathlib.Data.List.Induction
import GuruPractice.FireStorageBasic.StoragePath

/-!
# Image uploads

The picker callback sets `file_name` and the image on screen under different conditions: a pick
without an image changes neither, but a pick with an image and without a URL replaces the image and
keeps the name of an earlier pick. An upload reads both. This file says exactly when every upload is
stored under the name of the pick that supplied its image.

The type of images, the parts of a URL and the encoding of an image are those of the frameworks
(`Platform`); a file name has no slash.

## Main definitions

* `FireStorageBasic.AppState`, `FireStorageBasic.Event`, `FireStorageBasic.step`,
  `FireStorageBasic.uploadImage`.
* `FireStorageBasic.shownPick` — the pick whose image is on screen.
* `FireStorageBasic.NamesFollowImages`, `FireStorageBasic.EveryUploadHasURL`.

## Main results

* `FireStorageBasic.stateAfter_eq` — what is on screen comes from one pick.
* `FireStorageBasic.namesFollowImages_iff_everyUploadHasURL`.
-/

namespace GuruPractice.FireStorageBasic

variable {URL Image Data : Type}

/-! ### The screen -/

/-- What the frameworks provide. -/
structure Platform (URL Image Data : Type) where
  lastPathComponent : URL → PathComponent
  deletingPathExtension : PathComponent → PathComponent
  pngData : Image → Option Data

/-- The file name of a URL, without its extension. -/
def Platform.fileName (P : Platform URL Image Data) (url : URL) : PathComponent :=
  P.deletingPathExtension (P.lastPathComponent url)

/-- What a pick delivers. -/
structure PickInfo (URL Image : Type) where
  originalImage : Option Image
  imageURL : Option URL

/-- The state of the view controller. -/
structure AppState (Image : Type) where
  file_name : Option PathComponent := none
  /-- `ImageView.image`. -/
  image : Option Image := none

/-- `imagePickerController(_:didFinishPickingMediaWithInfo:)`. -/
def didFinishPickingMedia (P : Platform URL Image Data) (s : AppState Image)
    (info : PickInfo URL Image) : AppState Image :=
  match info.originalImage with
  | none => s
  | some selectedImage =>
    let s := match info.imageURL with
      | some url => { s with file_name := some (P.fileName url) }
      | none => s
    { s with image := some selectedImage }

/-- The path and the data that `uploadImage` writes; `none` when there is no image on screen, or it
has no PNG data. -/
def uploadImage (P : Platform URL Image Data) (s : AppState Image) : Option (List Char × Data) := do
  let image ← s.image
  let data ← P.pngData image
  some (imagePath s.file_name, data)

/-- What happens on the screen. -/
inductive Event (URL Image : Type)
  | pick (info : PickInfo URL Image)
  | upload

/-- One event. -/
def step (P : Platform URL Image Data) (s : AppState Image) : Event URL Image → AppState Image
  | .pick info => didFinishPickingMedia P s info
  | .upload => s

/-- The state after a list of events. -/
def stateAfter (P : Platform URL Image Data) (es : List (Event URL Image)) : AppState Image :=
  es.foldl (step P) {}

/-- In the run `es`, an upload that comes after the events `bs` writes `data` to `path`. -/
def Writes (P : Platform URL Image Data) (es bs : List (Event URL Image)) (path : List Char)
    (data : Data) : Prop :=
  bs ++ [.upload] <+: es ∧ uploadImage P (stateAfter P bs) = some (path, data)

/-! ### Where the image comes from -/

/-- The pick whose image is on screen: the last one that delivered an image. -/
def shownPick (es : List (Event URL Image)) : Option (PickInfo URL Image) :=
  es.foldl (fun shown e =>
    match e with
    | .pick info => if info.originalImage.isSome then some info else shown
    | .upload => shown) none

/-- Every upload is stored under the file name of the pick that supplied the image on screen, and
two uploads are stored under the same path only if the picks that supplied their images delivered
URLs with the same file name. -/
structure NamesFollowImages (P : Platform URL Image Data) (es : List (Event URL Image)) : Prop where
  path_eq : ∀ bs path data, Writes P es bs path data →
    ∃ info url, shownPick bs = some info ∧ info.imageURL = some url ∧
      path = imagePath (some (P.fileName url))
  same_name : ∀ bs bs' path data data', Writes P es bs path data → Writes P es bs' path data' →
    ∃ info url info' url', shownPick bs = some info ∧ info.imageURL = some url ∧
      shownPick bs' = some info' ∧ info'.imageURL = some url' ∧ P.fileName url = P.fileName url'

/-- Whenever an image with PNG data is uploaded, the pick that supplied it delivered a URL. -/
def EveryUploadHasURL (P : Platform URL Image Data) (es : List (Event URL Image)) : Prop :=
  ∀ bs, bs ++ [.upload] <+: es → ∀ info, shownPick bs = some info →
    (info.originalImage.bind P.pngData).isSome → info.imageURL.isSome

variable (P : Platform URL Image Data)

theorem stateAfter_append (es : List (Event URL Image)) (e : Event URL Image) :
    stateAfter P (es ++ [e]) = step P (stateAfter P es) e := by
  rw [stateAfter, List.foldl_append]
  rfl

theorem shownPick_append_pick (es : List (Event URL Image)) (info : PickInfo URL Image) :
    shownPick (es ++ [.pick info]) =
      if info.originalImage.isSome then some info else shownPick es := by
  rw [shownPick, List.foldl_append]
  rfl

theorem shownPick_append_upload (es : List (Event URL Image)) :
    shownPick (es ++ [.upload]) = shownPick es := by
  rw [shownPick, List.foldl_append]
  rfl

/-- **What is on screen comes from one pick.** The image is that of the shown pick, and so is the
file name, if that pick delivered a URL. -/
theorem stateAfter_eq (es : List (Event URL Image)) :
    (stateAfter P es).image = (shownPick es).bind PickInfo.originalImage ∧
      ∀ info url, shownPick es = some info → info.imageURL = some url →
        (stateAfter P es).file_name = some (P.fileName url) := by
  induction es using List.reverseRecOn with
  | nil => exact ⟨rfl, fun info url h => absurd h (by simp [shownPick])⟩
  | append_singleton es e ih =>
    rw [stateAfter_append]
    cases e with
    | upload =>
      rw [shownPick_append_upload]
      exact ih
    | pick info =>
      rw [shownPick_append_pick]
      by_cases himage : info.originalImage.isSome
      · obtain ⟨image, hsome⟩ := Option.isSome_iff_exists.mp himage
        rw [if_pos himage]
        refine ⟨by simp [step, didFinishPickingMedia, hsome], fun info' url hinfo hurl => ?_⟩
        obtain rfl := Option.some.inj hinfo
        simp [step, didFinishPickingMedia, hsome, hurl]
      · have hnone : info.originalImage = none := by simpa using himage
        rw [if_neg himage]
        simpa [step, didFinishPickingMedia, hnone] using ih

/-- What an upload writes. -/
theorem uploadImage_eq_some {s : AppState Image} {path : List Char} {data : Data} :
    uploadImage P s = some (path, data) ↔
      s.image.bind P.pngData = some data ∧ path = imagePath s.file_name := by
  cases himage : s.image with
  | none => simp [uploadImage, himage]
  | some image =>
    cases hdata : P.pngData image <;> simp [uploadImage, himage, hdata, eq_comm, and_comm]

/-- An upload writes the image of the shown pick. -/
theorem exists_shownPick_of_writes {es bs : List (Event URL Image)} {path : List Char} {data : Data}
    (h : Writes P es bs path data) :
    ∃ info, shownPick bs = some info ∧ info.originalImage.bind P.pngData = some data := by
  obtain ⟨hdata, -⟩ := (uploadImage_eq_some P).mp h.2
  rw [(stateAfter_eq P bs).1] at hdata
  cases hshown : shownPick bs with
  | none => simp [hshown] at hdata
  | some info => exact ⟨info, rfl, by simpa [hshown] using hdata⟩

/-- If the picks of all uploaded images delivered URLs, the paths are made of their file names. -/
theorem EveryUploadHasURL.path_eq {es bs : List (Event URL Image)} {path : List Char} {data : Data}
    (hes : EveryUploadHasURL P es) (h : Writes P es bs path data) :
    ∃ info url, shownPick bs = some info ∧ info.imageURL = some url ∧
      path = imagePath (some (P.fileName url)) := by
  obtain ⟨info, hshown, hdata⟩ := exists_shownPick_of_writes P h
  have hsome : info.imageURL.isSome := hes bs h.1 info hshown (by rw [hdata]; rfl)
  obtain ⟨url, hurl⟩ := Option.isSome_iff_exists.mp hsome
  refine ⟨info, url, hshown, hurl, ?_⟩
  rw [((uploadImage_eq_some P).mp h.2).2, (stateAfter_eq P bs).2 info url hshown hurl]

/-- **Names follow images exactly when every uploaded image came with a URL.** In every run of picks
and uploads, every upload is stored under the file name of the pick that supplied its image, and
uploads share a path only if the file names of those picks are equal, if and only if every upload
that writes does so while the image on screen is of a pick that delivered a URL. -/
theorem namesFollowImages_iff_everyUploadHasURL (es : List (Event URL Image)) :
    NamesFollowImages P es ↔ EveryUploadHasURL P es := by
  constructor
  · intro hnames bs hbs info hshown hdata
    obtain ⟨data, hdata⟩ := Option.isSome_iff_exists.mp hdata
    have hwrites : Writes P es bs (imagePath (stateAfter P bs).file_name) data := by
      refine ⟨hbs, (uploadImage_eq_some P).mpr ⟨?_, rfl⟩⟩
      rw [(stateAfter_eq P bs).1, hshown, Option.bind_some, hdata]
    obtain ⟨info', url, hshown', hurl, -⟩ := hnames.path_eq _ _ _ hwrites
    obtain rfl := Option.some.inj (hshown.symm.trans hshown')
    rw [hurl, Option.isSome_some]
  · intro hes
    refine ⟨fun bs path data h => hes.path_eq P h, fun bs bs' path data data' h h' => ?_⟩
    obtain ⟨info, url, hshown, hurl, hpath⟩ := hes.path_eq P h
    obtain ⟨info', url', hshown', hurl', hpath'⟩ := hes.path_eq P h'
    refine ⟨info, url, info', url', hshown, hurl, hshown', hurl', ?_⟩
    exact Option.some.inj (imagePath_injective (hpath.symm.trans hpath'))

/-! ### A name that is kept too long -/

/-- URLs that are file names, and images that are their own data. -/
def examplePlatform : Platform PathComponent ℕ ℕ where
  lastPathComponent := id
  deletingPathExtension name :=
    { chars := name.chars.takeWhile (· ≠ '.')
      slash_notMem h := name.slash_notMem ((List.takeWhile_sublist _).mem h) }
  pngData := some

/-- The picture `a.png` is picked and uploaded, then an image without a URL, which is stored over
it. -/
theorem not_namesFollowImages_without_url :
    ¬NamesFollowImages examplePlatform
      [.pick ⟨some 1, some ⟨['a', '.', 'p', 'n', 'g'], by decide⟩⟩, .upload,
        .pick ⟨some 2, none⟩, .upload] := by
  intro h
  obtain ⟨-, -, info, url, -, -, hshown, hurl, -⟩ := h.same_name
    [.pick ⟨some 1, some ⟨['a', '.', 'p', 'n', 'g'], by decide⟩⟩]
    [.pick ⟨some 1, some ⟨['a', '.', 'p', 'n', 'g'], by decide⟩⟩, .upload, .pick ⟨some 2, none⟩]
    (imagePath (some ⟨['a'], by decide⟩)) 1 2 ⟨⟨_, rfl⟩, rfl⟩ ⟨⟨_, rfl⟩, rfl⟩
  obtain rfl := Option.some.inj hshown
  exact absurd hurl (by simp)

end GuruPractice.FireStorageBasic
