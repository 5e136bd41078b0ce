import Mathlib.Algebra.Order.BigOperators.Group.List
import Mathlib.Algebra.Order.Ring.Nat
import GuruPractice.Transition.Run

/-!
# The image cache

`AutoPurgingImageCache` keeps images in memory and counts their bytes. Adding an image runs two
blocks on the queue of the cache: the image is inserted, and then, when the memory capacity is
exceeded, the images that have not been accessed for the longest time are purged until the usage has
come down to the preferred one. Other blocks can run in between. The counters are `UInt64`, and
arithmetic that leaves their range traps.

## Main definitions

* `AlamofireExample.AutoPurgingImageCache` and its methods, `AlamofireExample.CacheEvent`.
* `AlamofireExample.AutoPurgingImageCache.Valid`.

## Main results

* `AlamofireExample.AutoPurgingImageCache.purge_leastRecentlyAccessed` — what a purge drops.
* `AlamofireExample.CacheQueue.sound_run`, `AlamofireExample.CacheQueue.isSome_cacheStep`.
-/

namespace GuruPractice.AlamofireExample

open Transition

variable {Image : Type}

/-! ### The cache -/

structure CachedImage (Image : Type) where
  image : Image
  identifier : String
  totalBytes : ℕ
  lastAccessDate : ℤ
deriving DecidableEq

/-- The limits a cache is made with. -/
structure CacheLimits where
  memoryCapacity : ℕ
  preferredMemoryUsageAfterPurge : ℕ
  preferred_le_capacity : preferredMemoryUsageAfterPurge ≤ memoryCapacity

structure AutoPurgingImageCache (Image : Type) where
  /-- The values of the dictionary. -/
  cachedImages : List (CachedImage Image)
  currentMemoryUsage : ℕ

/-- The sum of two `UInt64`. -/
def addBytes (m n : ℕ) : Option ℕ := if m + n < 2 ^ 64 then some (m + n) else none

/-- The difference of two `UInt64`. -/
def subBytes (m n : ℕ) : Option ℕ := if n ≤ m then some (m - n) else none

namespace AutoPurgingImageCache

def initial : AutoPurgingImageCache Image := ⟨[], 0⟩

variable (s : AutoPurgingImageCache Image)

def lookup (identifier : String) : Option (CachedImage Image) :=
  s.cachedImages.find? fun cachedImage => cachedImage.identifier = identifier

/-- The dictionary without an identifier. -/
def removeValue (cachedImages : List (CachedImage Image)) (identifier : String) :
    List (CachedImage Image) :=
  cachedImages.filter fun cachedImage => cachedImage.identifier ≠ identifier

/-- The memory usage less the bytes of the image of an identifier, if there is one. -/
def usageWithout (identifier : String) : Option ℕ :=
  match s.lookup identifier with
  | some previousCachedImage => subBytes s.currentMemoryUsage previousCachedImage.totalBytes
  | none => some s.currentMemoryUsage

/-- The first block of `add`. -/
def insert (cachedImage : CachedImage Image) : Option (AutoPurgingImageCache Image) := do
  let usage ← s.usageWithout cachedImage.identifier
  let usage ← addBytes usage cachedImage.totalBytes
  return ⟨cachedImage :: removeValue s.cachedImages cachedImage.identifier, usage⟩

/-- The loop over the sorted images, with the dictionary and the bytes purged so far. -/
def purgeLoop (bytesToPurge : ℕ) : List (CachedImage Image) → List (CachedImage Image) → ℕ →
    Option (List (CachedImage Image) × ℕ)
  | [], cachedImages, bytesPurged => some (cachedImages, bytesPurged)
  | cachedImage :: sortedImages, cachedImages, bytesPurged => do
    let cachedImages := removeValue cachedImages cachedImage.identifier
    let bytesPurged ← addBytes bytesPurged cachedImage.totalBytes
    if bytesToPurge ≤ bytesPurged then return (cachedImages, bytesPurged)
    else purgeLoop bytesToPurge sortedImages cachedImages bytesPurged

/-- The images in the order of their last access. -/
def sortedImages (images : List (CachedImage Image)) : List (CachedImage Image) :=
  images.mergeSort fun i j => i.lastAccessDate ≤ j.lastAccessDate

theorem sortedImages_perm (images : List (CachedImage Image)) :
    (sortedImages images).Perm images :=
  List.mergeSort_perm _ _

/-- The second block of `add`; `images` are the values in the order the dictionary gives them. -/
def purge (c : CacheLimits) (images : List (CachedImage Image)) :
    Option (AutoPurgingImageCache Image) :=
  if c.memoryCapacity < s.currentMemoryUsage then do
    let bytesToPurge ← subBytes s.currentMemoryUsage c.preferredMemoryUsageAfterPurge
    let (cachedImages, bytesPurged) ←
      purgeLoop bytesToPurge (sortedImages images) s.cachedImages 0
    let usage ← subBytes s.currentMemoryUsage bytesPurged
    return ⟨cachedImages, usage⟩
  else some s

def removeImage (identifier : String) : Option (AutoPurgingImageCache Image) := do
  let usage ← s.usageWithout identifier
  return ⟨removeValue s.cachedImages identifier, usage⟩

/-- The loop of `removeImages(matching:)` over the keys of the dictionary; `hasPrefix` says which
keys start with the identifier of the request. -/
def removeImages (hasPrefix : String → Bool) :
    List String → AutoPurgingImageCache Image → Option (AutoPurgingImageCache Image)
  | [], s => some s
  | key :: keys, s =>
    if hasPrefix key then (s.removeImage key).bind (removeImages hasPrefix keys)
    else removeImages hasPrefix keys s

def removeAllImages : AutoPurgingImageCache Image := if s.cachedImages = [] then s else ⟨[], 0⟩

/-- The image of an identifier, which is accessed now. -/
def image (identifier : String) (now : ℤ) : Option Image × AutoPurgingImageCache Image :=
  ((s.lookup identifier).map CachedImage.image,
    { s with cachedImages := s.cachedImages.map fun cachedImage =>
        if cachedImage.identifier = identifier then { cachedImage with lastAccessDate := now }
        else cachedImage })

/-! ### Bytes -/

/-- The bytes of a list of images. -/
def bytes (images : List (CachedImage Image)) : ℕ := (images.map CachedImage.totalBytes).sum

@[simp] theorem bytes_nil : bytes ([] : List (CachedImage Image)) = 0 := rfl

@[simp] theorem bytes_cons (i : CachedImage Image) (images : List (CachedImage Image)) :
    bytes (i :: images) = i.totalBytes + bytes images := List.sum_cons

theorem bytes_append (images images' : List (CachedImage Image)) :
    bytes (images ++ images') = bytes images + bytes images' := by
  simp [bytes]

theorem bytes_perm {images images' : List (CachedImage Image)} (h : images.Perm images') :
    bytes images = bytes images' :=
  (h.map _).sum_eq

theorem bytes_take_add_drop (k : ℕ) (images : List (CachedImage Image)) :
    bytes (images.take k) + bytes (images.drop k) = bytes images := by
  rw [← bytes_append, List.take_append_drop]

/-- The dictionary has one image for an identifier, and the usage is that of its images. -/
structure Valid (s : AutoPurgingImageCache Image) : Prop where
  nodup : (s.cachedImages.map CachedImage.identifier).Nodup
  usage_eq : s.currentMemoryUsage = bytes s.cachedImages
  usage_lt : s.currentMemoryUsage < 2 ^ 64

theorem Valid.initial : (AutoPurgingImageCache.initial : AutoPurgingImageCache Image).Valid :=
  ⟨List.nodup_nil, rfl, Nat.two_pow_pos 64⟩

theorem removeValue_of_notMem {images : List (CachedImage Image)} {identifier : String}
    (h : identifier ∉ images.map CachedImage.identifier) :
    removeValue images identifier = images := by
  refine List.filter_eq_self.mpr fun i hi => ?_
  have hne : i.identifier ≠ identifier := fun heq => h (heq ▸ List.mem_map_of_mem hi)
  simpa using hne

@[simp] theorem removeValue_cons_self (i : CachedImage Image) (images : List (CachedImage Image)) :
    removeValue (i :: images) i.identifier = removeValue images i.identifier := by
  simp [removeValue]

theorem removeValue_cons_of_ne {i : CachedImage Image} {images : List (CachedImage Image)}
    {identifier : String} (h : i.identifier ≠ identifier) :
    removeValue (i :: images) identifier = i :: removeValue images identifier := by
  simp [removeValue, h]

theorem lookup_eq_none {s : AutoPurgingImageCache Image} {identifier : String} :
    s.lookup identifier = none ↔ identifier ∉ s.cachedImages.map CachedImage.identifier := by
  simp [lookup, List.find?_eq_none]

theorem bytes_removeValue {images : List (CachedImage Image)} {i : CachedImage Image}
    (hnodup : (images.map CachedImage.identifier).Nodup) (hi : i ∈ images) :
    bytes (removeValue images i.identifier) + i.totalBytes = bytes images := by
  induction images with
  | nil => simp at hi
  | cons j images ih =>
    rw [List.map_cons, List.nodup_cons] at hnodup
    rcases List.mem_cons.mp hi with rfl | hi
    · rw [removeValue_cons_self, removeValue_of_notMem hnodup.1, bytes_cons, Nat.add_comm]
    · have hne : j.identifier ≠ i.identifier := fun heq =>
        hnodup.1 (heq ▸ List.mem_map_of_mem hi)
      rw [removeValue_cons_of_ne hne, bytes_cons, bytes_cons, Nat.add_assoc, ih hnodup.2 hi]

/-! ### The purge -/

/-- The loop stops at the first image with which enough bytes are purged. -/
theorem purgeLoop_eq_some {bytesToPurge : ℕ} {images cachedImages : List (CachedImage Image)}
    {bytesPurged : ℕ} (hfit : bytesPurged + bytes images < 2 ^ 64)
    (hpurged : bytesPurged < bytesToPurge) :
    ∃ k ≤ images.length, purgeLoop bytesToPurge images cachedImages bytesPurged =
        some (((images.take k).map CachedImage.identifier).foldl removeValue cachedImages,
          bytesPurged + bytes (images.take k)) ∧
      (bytesToPurge ≤ bytesPurged + bytes (images.take k) ∨ k = images.length) ∧
      ∀ j < k, bytesPurged + bytes (images.take j) < bytesToPurge := by
  induction images generalizing cachedImages bytesPurged with
  | nil => exact ⟨0, le_rfl, rfl, Or.inr rfl, nofun⟩
  | cons i images ih =>
    rw [bytes_cons, ← Nat.add_assoc] at hfit
    have hadd : addBytes bytesPurged i.totalBytes = some (bytesPurged + i.totalBytes) :=
      if_pos (by omega)
    simp only [purgeLoop, hadd, Option.bind_eq_bind, Option.bind_some]
    by_cases hle : bytesToPurge ≤ bytesPurged + i.totalBytes
    · refine ⟨1, by simp, ?_, Or.inl (by simpa using hle), fun j hj => ?_⟩
      · simp [hle]
      · obtain rfl : j = 0 := by omega
        simpa using hpurged
    · obtain ⟨k, hk, hloop, hstop, hbefore⟩ :=
        @ih (removeValue cachedImages i.identifier) _ hfit (by omega)
      refine ⟨k + 1, by simpa using hk, ?_, ?_, fun j hj => ?_⟩
      · simp [hle, hloop, Nat.add_assoc]
      · simpa [Nat.add_assoc] using hstop
      · cases j with
        | zero => simpa using hpurged
        | succ j => simpa [Nat.add_assoc] using hbefore j (by omega)

theorem foldl_removeValue (cachedImages : List (CachedImage Image)) (identifiers : List String) :
    identifiers.foldl removeValue cachedImages =
      cachedImages.filter fun i => i.identifier ∉ identifiers := by
  induction identifiers generalizing cachedImages with
  | nil => simp
  | cons identifier identifiers ih =>
    rw [List.foldl_cons, ih, removeValue, List.filter_filter]
    refine List.filter_congr fun i _ => ?_
    simp [Bool.and_comm]

/-- Removing the first images of an arrangement of the dictionary leaves the others. -/
theorem foldl_removeValue_take_perm {cachedImages images : List (CachedImage Image)}
    (hnodup : (cachedImages.map CachedImage.identifier).Nodup)
    (hperm : images.Perm cachedImages) (k : ℕ) :
    (((images.take k).map CachedImage.identifier).foldl removeValue cachedImages).Perm
      (images.drop k) := by
  have hnodup' : (images.map CachedImage.identifier).Nodup :=
    (hperm.map _).nodup_iff.mpr hnodup
  rw [← List.take_append_drop k images, List.map_append, List.nodup_append] at hnodup'
  obtain ⟨-, -, hdisjoint⟩ := hnodup'
  set identifiers := (images.take k).map CachedImage.identifier with hidentifiers
  have hkeep : (images.drop k).filter (fun i => i.identifier ∉ identifiers) = images.drop k := by
    refine List.filter_eq_self.mpr fun i hi => decide_eq_true fun hmem => ?_
    exact hdisjoint _ hmem _ (List.mem_map_of_mem hi) rfl
  have hgone : (images.take k).filter (fun i => i.identifier ∉ identifiers) = [] := by
    refine List.filter_eq_nil_iff.mpr fun i hi => ?_
    have hmem : i.identifier ∈ identifiers := List.mem_map_of_mem hi
    simp [hmem]
  rw [foldl_removeValue]
  calc
    cachedImages.filter (fun i => i.identifier ∉ identifiers)
    _ |>.Perm (images.filter fun i => i.identifier ∉ identifiers) := hperm.symm.filter _
    _ = (images.take k ++ images.drop k).filter (fun i => i.identifier ∉ identifiers) := by
      rw [List.take_append_drop]
    _ = images.drop k := by rw [List.filter_append, hgone, hkeep, List.nil_append]

/-- **What a purge keeps.** A purge never traps. Nothing happens while the capacity is not exceeded;
otherwise the usage comes down to the preferred one, the images that go have not been accessed after
those that stay, and the purge stops as soon as it can. -/
theorem purge_eq_some {s : AutoPurgingImageCache Image} {c : CacheLimits}
    {images : List (CachedImage Image)} (h : s.Valid) (hperm : images.Perm s.cachedImages)
    (hover : c.memoryCapacity < s.currentMemoryUsage) :
    ∃ k s', s.purge c images = some s' ∧ s'.Valid ∧
      s'.cachedImages.Perm ((sortedImages images).drop k) ∧
      s'.currentMemoryUsage ≤ c.preferredMemoryUsageAfterPurge ∧
      ∀ j < k, c.preferredMemoryUsageAfterPurge < bytes ((sortedImages images).drop j) := by
  have hsorted : (sortedImages images).Perm s.cachedImages :=
    (sortedImages_perm images).trans hperm
  have hbytes : bytes (sortedImages images) = s.currentMemoryUsage :=
    (bytes_perm hsorted).trans h.usage_eq.symm
  have hle := c.preferred_le_capacity
  have hlt := h.usage_lt
  have hsub : subBytes s.currentMemoryUsage c.preferredMemoryUsageAfterPurge =
      some (s.currentMemoryUsage - c.preferredMemoryUsageAfterPurge) := if_pos (by omega)
  have hfit : 0 + bytes (sortedImages images) < 2 ^ 64 := by omega
  have hpositive : 0 < s.currentMemoryUsage - c.preferredMemoryUsageAfterPurge := by omega
  obtain ⟨k, hk, hloop, hstop, hbefore⟩ :=
    @purgeLoop_eq_some _ _ _ s.cachedImages _ hfit hpositive
  have hsplit (j : ℕ) := bytes_take_add_drop j (sortedImages images)
  have hsub' : subBytes s.currentMemoryUsage (0 + bytes ((sortedImages images).take k)) =
      some (bytes ((sortedImages images).drop k)) := by
    have := hsplit k
    rw [subBytes, if_pos (by omega)]
    exact congrArg some (by omega)
  have hkept := foldl_removeValue_take_perm h.nodup hsorted k
  refine ⟨k, ⟨_, bytes ((sortedImages images).drop k)⟩, ?_, ⟨?_, (bytes_perm hkept).symm, ?_⟩,
    hkept, ?_, fun j hj => ?_⟩
  · simp only [purge, if_pos hover, hsub, hloop, Option.bind_eq_bind, Option.bind_some, hsub']
    rfl
  · have hnodup := (hsorted.map CachedImage.identifier).nodup_iff.mpr h.nodup
    exact (hkept.map _).nodup_iff.mpr (hnodup.sublist ((List.drop_sublist k _).map _))
  · have hk := hsplit k
    dsimp only
    omega
  · rcases hstop with hstop | rfl
    · have hk := hsplit k
      dsimp only
      omega
    · simp [List.drop_length]
  · have hj' := hsplit j
    have hj'' := hbefore j hj
    omega

theorem sortedImages_pairwise (images : List (CachedImage Image)) :
    (sortedImages images).Pairwise fun i j => i.lastAccessDate ≤ j.lastAccessDate := by
  refine (List.pairwise_mergeSort ?_ ?_ images).imp fun hle => of_decide_eq_true hle
  · exact fun i j l hij hjl => decide_eq_true
      ((of_decide_eq_true hij).trans (of_decide_eq_true hjl))
  · intro i j
    simpa using Int.le_total i.lastAccessDate j.lastAccessDate

/-- **The least recently accessed images go, and no more than needed.** A purge that exceeds the
capacity splits the images into those that go, in the order of their last access, and those that
stay, which have not been accessed before. The usage is that of the images that stay, and comes down
to the preferred one; dropping fewer images in this order would have left it too high. -/
theorem purge_leastRecentlyAccessed {s : AutoPurgingImageCache Image} {c : CacheLimits}
    {images : List (CachedImage Image)} (h : s.Valid) (hperm : images.Perm s.cachedImages)
    (hover : c.memoryCapacity < s.currentMemoryUsage) :
    ∃ gone s', s.purge c images = some s' ∧ s.cachedImages.Perm (gone ++ s'.cachedImages) ∧
      (gone.Pairwise fun i j => i.lastAccessDate ≤ j.lastAccessDate) ∧
      (∀ i ∈ gone, ∀ kept ∈ s'.cachedImages, i.lastAccessDate ≤ kept.lastAccessDate) ∧
      s'.currentMemoryUsage = bytes s'.cachedImages ∧
      s'.currentMemoryUsage ≤ c.preferredMemoryUsageAfterPurge ∧
      ∀ j < gone.length,
        c.preferredMemoryUsageAfterPurge < bytes (gone.drop j ++ s'.cachedImages) := by
  obtain ⟨k, s', hpurge, hvalid, hkept, husage, hbefore⟩ := purge_eq_some h hperm hover
  have hsorted : (sortedImages images).Perm s.cachedImages :=
    (sortedImages_perm images).trans hperm
  have hdates := sortedImages_pairwise images
  rw [← List.take_append_drop k (sortedImages images), List.pairwise_append] at hdates
  refine ⟨(sortedImages images).take k, s', hpurge, ?_, hdates.1, fun i hi kept hmem => ?_,
    hvalid.usage_eq, husage, fun j hj => ?_⟩
  · calc
      s.cachedImages
      _ |>.Perm (sortedImages images) := hsorted.symm
      _ = (sortedImages images).take k ++ (sortedImages images).drop k :=
        (List.take_append_drop k _).symm
      _ |>.Perm ((sortedImages images).take k ++ s'.cachedImages) := hkept.symm.append_left _
  · exact hdates.2.2 i hi kept (hkept.subset hmem)
  · -- dropping only the first `j` of them leaves what the loop saw before it went on
    have hjk : j < k := hj.trans_le (List.length_take_le k _)
    have hrest : ((sortedImages images).take k).drop j ++ (sortedImages images).drop k =
        (sortedImages images).drop j := by
      rw [List.drop_take, ← Nat.add_sub_of_le hjk.le, ← List.drop_drop, Nat.add_sub_cancel_left]
      exact List.take_append_drop _ _
    rw [bytes_perm (hkept.append_left _), hrest]
    exact hbefore j hjk

end AutoPurgingImageCache

/-! ### Runs -/

/-- The cache, with the number of second blocks of `add` that have not run yet. -/
structure CacheQueue (Image : Type) where
  cache : AutoPurgingImageCache Image
  pendingPurges : ℕ

/-- The blocks on the queue of the cache. -/
inductive CacheEvent (Image : Type)
  | insert (cachedImage : CachedImage Image)
  | purge (images : List (CachedImage Image))
  | removeImage (identifier : String)
  | removeImages (hasPrefix : String → Bool) (keys : List String)
  | removeAllImages
  | image (identifier : String) (now : ℤ)

/-- One block runs. -/
def cacheStep [DecidableEq Image] (c : CacheLimits) (s : CacheQueue Image) :
    CacheEvent Image → Option (CacheQueue Image)
  | .insert cachedImage => (s.cache.insert cachedImage).map (⟨·, s.pendingPurges + 1⟩)
  | .purge images =>
    if 0 < s.pendingPurges ∧ images.Perm s.cache.cachedImages then
      (s.cache.purge c images).map (⟨·, s.pendingPurges - 1⟩)
    else none
  | .removeImage identifier => (s.cache.removeImage identifier).map (⟨·, s.pendingPurges⟩)
  | .removeImages hasPrefix keys =>
    if keys.Perm (s.cache.cachedImages.map CachedImage.identifier) then
      (s.cache.removeImages hasPrefix keys).map (⟨·, s.pendingPurges⟩)
    else none
  | .removeAllImages => some { s with cache := s.cache.removeAllImages }
  | .image identifier now => some { s with cache := (s.cache.image identifier now).2 }

/-- The image that has last been added under each identifier. -/
def lastAdded : List (CacheEvent Image) → String → Option Image
  | [], _ => none
  | .insert cachedImage :: es, identifier =>
    (lastAdded es identifier).or
      (if cachedImage.identifier = identifier then some cachedImage.image else none)
  | _ :: es, identifier => lastAdded es identifier

/-- What holds of the cache after the events `es`. -/
structure CacheQueue.Sound (c : CacheLimits) (es : List (CacheEvent Image))
    (s : CacheQueue Image) : Prop where
  valid : s.cache.Valid
  usage_le : s.pendingPurges = 0 → s.cache.currentMemoryUsage ≤ c.memoryCapacity
  image_eq : ∀ i ∈ s.cache.cachedImages, lastAdded es i.identifier = some i.image

theorem lastAdded_append_singleton (es : List (CacheEvent Image)) (e : CacheEvent Image)
    (identifier : String) :
    lastAdded (es ++ [e]) identifier = (lastAdded [e] identifier).or (lastAdded es identifier) := by
  induction es with
  | nil => simp [lastAdded]
  | cons e' es ih =>
    cases e' with
    | insert cachedImage =>
      simp only [List.cons_append, lastAdded, ih, Option.or_assoc]
    | _ => simpa [lastAdded] using ih

namespace AutoPurgingImageCache

variable {s s' : AutoPurgingImageCache Image}

theorem lookup_eq_some {identifier : String} {i : CachedImage Image}
    (h : s.lookup identifier = some i) : i ∈ s.cachedImages ∧ i.identifier = identifier :=
  ⟨List.mem_of_find?_eq_some h, by simpa using List.find?_some h⟩

theorem mem_removeValue {images : List (CachedImage Image)} {identifier : String}
    {i : CachedImage Image} :
    i ∈ removeValue images identifier ↔ i ∈ images ∧ i.identifier ≠ identifier := by
  simp [removeValue]

theorem removeValue_sublist (images : List (CachedImage Image)) (identifier : String) :
    (removeValue images identifier).Sublist images :=
  List.filter_sublist

/-- Without the image of an identifier, the usage is that of the other images. -/
theorem usageWithout_eq (h : s.Valid) (identifier : String) :
    s.usageWithout identifier = some (bytes (removeValue s.cachedImages identifier)) := by
  rw [usageWithout]
  cases hlookup : s.lookup identifier with
  | none => simp [h.usage_eq, removeValue_of_notMem (lookup_eq_none.mp hlookup)]
  | some previous =>
    obtain ⟨hmem, rfl⟩ := lookup_eq_some hlookup
    have hbytes := bytes_removeValue h.nodup hmem
    simp only [subBytes, h.usage_eq]
    rw [if_pos (by omega)]
    exact congrArg some (by omega)

theorem bytes_sublist {images images' : List (CachedImage Image)} (h : images.Sublist images') :
    bytes images ≤ bytes images' := by
  induction h with
  | slnil => exact le_rfl
  | cons i _ ih => exact ih.trans (by simp)
  | cons_cons i _ ih => simpa using ih

theorem Valid.of_sublist (h : s.Valid) {images : List (CachedImage Image)}
    (hsub : images.Sublist s.cachedImages) : (⟨images, bytes images⟩ :
      AutoPurgingImageCache Image).Valid :=
  ⟨h.nodup.sublist (hsub.map _), rfl,
    (bytes_sublist hsub).trans_lt (h.usage_eq ▸ h.usage_lt)⟩

theorem Valid.insert (h : s.Valid) {i : CachedImage Image} (hs' : s.insert i = some s') :
    s'.Valid ∧ s'.cachedImages = i :: removeValue s.cachedImages i.identifier := by
  simp only [AutoPurgingImageCache.insert, usageWithout_eq h, Option.bind_eq_bind,
    Option.bind_some, addBytes] at hs'
  split_ifs at hs' with hlt
  · obtain rfl := Option.some.inj hs'
    refine ⟨⟨List.nodup_cons.mpr ⟨fun hmem => ?_, ?_⟩, Nat.add_comm _ _, hlt⟩, rfl⟩
    · obtain ⟨j, hj, hidentifier⟩ := List.mem_map.mp hmem
      exact (mem_removeValue.mp hj).2 hidentifier
    · exact h.nodup.sublist ((removeValue_sublist _ _).map _)
  · exact absurd hs' nofun

/-- An image is added unless the usage leaves the range of `UInt64`. -/
theorem isSome_insert_iff (h : s.Valid) (i : CachedImage Image) :
    (s.insert i).isSome ↔
      bytes (removeValue s.cachedImages i.identifier) + i.totalBytes < 2 ^ 64 := by
  simp only [AutoPurgingImageCache.insert, usageWithout_eq h, Option.bind_eq_bind,
    Option.bind_some, addBytes]
  split_ifs with hlt
  · exact iff_of_true rfl hlt
  · exact iff_of_false nofun hlt

theorem Valid.removeImage (h : s.Valid) (identifier : String) :
    s.removeImage identifier = some ⟨removeValue s.cachedImages identifier,
      bytes (removeValue s.cachedImages identifier)⟩ := by
  rw [AutoPurgingImageCache.removeImage, usageWithout_eq h]
  rfl

theorem Valid.removeImages (h : s.Valid) (hasPrefix : String → Bool) (keys : List String) :
    ∃ s', removeImages hasPrefix keys s = some s' ∧ s'.Valid ∧
      s'.cachedImages.Sublist s.cachedImages := by
  induction keys generalizing s with
  | nil => exact ⟨s, rfl, h, .refl _⟩
  | cons key keys ih =>
    rw [AutoPurgingImageCache.removeImages]
    split_ifs
    · have hsub := removeValue_sublist s.cachedImages key
      obtain ⟨s', hs', hvalid, hsub'⟩ := ih (h.of_sublist hsub)
      exact ⟨s', by rw [h.removeImage, Option.bind_some, hs'], hvalid, hsub'.trans hsub⟩
    · exact ih h

theorem Valid.purge (h : s.Valid) {c : CacheLimits} {images : List (CachedImage Image)}
    (hperm : images.Perm s.cachedImages) :
    ∃ s', s.purge c images = some s' ∧ s'.Valid ∧ s'.cachedImages ⊆ s.cachedImages ∧
      s'.currentMemoryUsage ≤ c.memoryCapacity := by
  by_cases hover : c.memoryCapacity < s.currentMemoryUsage
  · obtain ⟨k, s', hpurge, hvalid, hkept, husage, -⟩ := purge_eq_some h hperm hover
    have hsorted := (sortedImages_perm images).trans hperm
    exact ⟨s', hpurge, hvalid,
      fun i hi => hsorted.subset (List.mem_of_mem_drop (hkept.subset hi)),
      husage.trans c.preferred_le_capacity⟩
  · exact ⟨s, if_neg hover, h, List.Subset.refl _, not_lt.mp hover⟩

theorem Valid.image (h : s.Valid) (identifier : String) (now : ℤ) :
    (s.image identifier now).2.Valid := by
  have hidentifier : (s.image identifier now).2.cachedImages.map CachedImage.identifier =
      s.cachedImages.map CachedImage.identifier := by
    simp only [AutoPurgingImageCache.image, List.map_map]
    refine List.map_congr_left fun i _ => ?_
    by_cases heq : i.identifier = identifier <;> simp [heq]
  have hbytes : bytes (s.image identifier now).2.cachedImages = bytes s.cachedImages := by
    simp only [AutoPurgingImageCache.image, bytes, List.map_map]
    refine congrArg List.sum (List.map_congr_left fun i _ => ?_)
    by_cases heq : i.identifier = identifier <;> simp [heq]
  exact ⟨hidentifier ▸ h.nodup, h.usage_eq.trans hbytes.symm, h.usage_lt⟩

end AutoPurgingImageCache

namespace CacheQueue

variable [DecidableEq Image] {c : CacheLimits} {es : List (CacheEvent Image)}
  {s s' : CacheQueue Image}

omit [DecidableEq Image] in
theorem lastAdded_of_not_insert {e : CacheEvent Image} (he : ∀ i, e ≠ .insert i)
    (identifier : String) : lastAdded (es ++ [e]) identifier = lastAdded es identifier := by
  rw [lastAdded_append_singleton]
  cases e with
  | insert i => exact absurd rfl (he i)
  | _ => simp [lastAdded]

omit [DecidableEq Image] in
/-- A block that adds nothing and keeps or drops images. -/
theorem Sound.of_subset (h : s.Sound c es) {e : CacheEvent Image} (he : ∀ i, e ≠ .insert i)
    (hvalid : s'.cache.Valid)
    (hle : s'.pendingPurges = 0 → s'.cache.currentMemoryUsage ≤ c.memoryCapacity)
    (hsubset : ∀ i ∈ s'.cache.cachedImages, ∃ j ∈ s.cache.cachedImages,
      j.identifier = i.identifier ∧ j.image = i.image) : s'.Sound c (es ++ [e]) := by
  refine ⟨hvalid, hle, fun i hi => ?_⟩
  obtain ⟨j, hj, hidentifier, himage⟩ := hsubset i hi
  rw [lastAdded_of_not_insert he, ← hidentifier, ← himage]
  exact h.image_eq j hj

theorem Sound.step (h : s.Sound c es) {e : CacheEvent Image} (hstep : cacheStep c s e = some s') :
    s'.Sound c (es ++ [e]) := by
  cases e with
  | insert i =>
    obtain ⟨cache, hcache, rfl⟩ := Option.map_eq_some_iff.mp hstep
    obtain ⟨hvalid, himages⟩ := h.valid.insert hcache
    refine ⟨hvalid, nofun, fun j hj => ?_⟩
    rw [himages, List.mem_cons, AutoPurgingImageCache.mem_removeValue] at hj
    rw [lastAdded_append_singleton]
    rcases hj with rfl | ⟨hj, hne⟩
    · simp [lastAdded]
    · simpa [lastAdded, hne.symm] using h.image_eq j hj
  | purge images =>
    simp only [cacheStep] at hstep
    split_ifs at hstep with hguard
    obtain ⟨cache, hcache, rfl⟩ := Option.map_eq_some_iff.mp hstep
    obtain ⟨cache', hpurge, hvalid, hsubset, hle⟩ := h.valid.purge (c := c) hguard.2
    obtain rfl := Option.some.inj (hpurge.symm.trans hcache)
    exact h.of_subset nofun hvalid (fun _ => hle) fun i hi => ⟨i, hsubset hi, rfl, rfl⟩
  | removeImage identifier =>
    simp only [cacheStep, h.valid.removeImage, Option.map_some] at hstep
    obtain rfl := Option.some.inj hstep
    have hsub := AutoPurgingImageCache.removeValue_sublist s.cache.cachedImages identifier
    refine h.of_subset nofun (h.valid.of_sublist hsub) (fun hpending => ?_)
      fun i hi => ⟨i, hsub.subset hi, rfl, rfl⟩
    refine (AutoPurgingImageCache.bytes_sublist hsub).trans ?_
    exact h.valid.usage_eq ▸ h.usage_le hpending
  | removeImages hasPrefix keys =>
    simp only [cacheStep] at hstep
    split_ifs at hstep
    obtain ⟨cache, hcache, rfl⟩ := Option.map_eq_some_iff.mp hstep
    obtain ⟨cache', hremove, hvalid, hsub⟩ := h.valid.removeImages hasPrefix keys
    obtain rfl := Option.some.inj (hremove.symm.trans hcache)
    refine h.of_subset nofun hvalid (fun hpending => ?_) fun i hi => ⟨i, hsub.subset hi, rfl, rfl⟩
    rw [hvalid.usage_eq]
    refine (AutoPurgingImageCache.bytes_sublist hsub).trans ?_
    exact h.valid.usage_eq ▸ h.usage_le hpending
  | removeAllImages =>
    obtain rfl := Option.some.inj hstep
    rw [AutoPurgingImageCache.removeAllImages]
    split_ifs
    · exact h.of_subset nofun h.valid h.usage_le fun i hi => ⟨i, hi, rfl, rfl⟩
    · exact h.of_subset nofun .initial (fun _ => Nat.zero_le _) nofun
  | image identifier now =>
    obtain rfl := Option.some.inj hstep
    refine h.of_subset nofun (h.valid.image identifier now) h.usage_le fun i hi => ?_
    obtain ⟨j, hj, rfl⟩ := List.mem_map.mp hi
    exact ⟨j, hj, by split_ifs <;> rfl, by split_ifs <;> rfl⟩

/-- **The cache over its runs.** Whatever blocks have run, the usage is that of the cached images,
it is within the capacity unless a purge is outstanding, and every cached image is the one that has
last been added under its identifier. -/
theorem sound_run (h : run (cacheStep c) ⟨.initial, 0⟩ es = some s) : s.Sound c es := by
  have hinitial : (⟨.initial, 0⟩ : CacheQueue Image).Sound c [] :=
    ⟨.initial, fun _ => Nat.zero_le _, nofun⟩
  have hrun (es es' : List (CacheEvent Image)) (s s' : CacheQueue Image) (hs : s.Sound c es)
      (h : run (cacheStep c) s es' = some s') : s'.Sound c (es ++ es') := by
    induction es' generalizing es s with
    | nil => simpa using Option.some.inj h ▸ hs
    | cons e es' ih =>
      obtain ⟨s₁, hstep, hrun⟩ := (run_cons_eq_some _).mp h
      simpa using ih (es ++ [e]) s₁ (hs.step hstep) hrun
  exact hrun [] es _ s hinitial h

/-- **No block traps** but the insertion of an image with which the usage leaves `UInt64`. -/
theorem isSome_cacheStep (h : run (cacheStep c) ⟨.initial, 0⟩ es = some s) :
    (∀ images : List (CachedImage Image), 0 < s.pendingPurges →
      images.Perm s.cache.cachedImages → (cacheStep c s (.purge images)).isSome) ∧
    (∀ identifier, (cacheStep c s (.removeImage identifier)).isSome) ∧
    (∀ hasPrefix keys, keys.Perm (s.cache.cachedImages.map CachedImage.identifier) →
      (cacheStep c s (.removeImages hasPrefix keys)).isSome) ∧
    ∀ i, (cacheStep c s (.insert i)).isSome ↔
      AutoPurgingImageCache.bytes (AutoPurgingImageCache.removeValue s.cache.cachedImages
        i.identifier) + i.totalBytes < 2 ^ 64 := by
  have hvalid := (sound_run h).valid
  refine ⟨fun images hpending hperm => ?_, fun identifier => ?_, fun hasPrefix keys hperm => ?_,
    fun i => ?_⟩
  · obtain ⟨cache, hpurge, -⟩ := hvalid.purge (c := c) hperm
    simp [cacheStep, hpending, hperm, hpurge]
  · simp [cacheStep, hvalid.removeImage]
  · obtain ⟨cache, hremove, -⟩ := hvalid.removeImages hasPrefix keys
    simp [cacheStep, hperm, hremove]
  · simp [cacheStep, AutoPurgingImageCache.isSome_insert_iff hvalid]

/-- Three images of forty bytes are added to a cache of a hundred bytes. -/
def threeImages : List (CacheEvent ℕ) :=
  [.insert ⟨1, "a", 40, 10⟩, .purge [⟨1, "a", 40, 10⟩], .insert ⟨2, "b", 40, 20⟩,
    .insert ⟨3, "c", 40, 30⟩]

theorem sound_run_threeImages : ∃ s, run (cacheStep ⟨100, 60, by decide⟩) ⟨.initial, 0⟩
    threeImages = some s ∧ s.Sound ⟨100, 60, by decide⟩ threeImages :=
  ⟨_, rfl, sound_run rfl⟩

end CacheQueue

namespace AutoPurgingImageCache

/-- Three images of forty bytes in a cache of a hundred bytes, before the purge. -/
def overCapacity : AutoPurgingImageCache ℕ :=
  ⟨[⟨3, "c", 40, 30⟩, ⟨2, "b", 40, 20⟩, ⟨1, "a", 40, 10⟩], 120⟩

theorem purge_leastRecentlyAccessed_threeImages :
    ∃ gone s', overCapacity.purge ⟨100, 60, by decide⟩ overCapacity.cachedImages.reverse = some s' ∧
      overCapacity.cachedImages.Perm (gone ++ s'.cachedImages) ∧
      (gone.Pairwise fun i j => i.lastAccessDate ≤ j.lastAccessDate) ∧
      (∀ i ∈ gone, ∀ kept ∈ s'.cachedImages, i.lastAccessDate ≤ kept.lastAccessDate) ∧
      s'.currentMemoryUsage = bytes s'.cachedImages ∧ s'.currentMemoryUsage ≤ 60 ∧
      ∀ j < gone.length, 60 < bytes (gone.drop j ++ s'.cachedImages) :=
  purge_leastRecentlyAccessed (c := ⟨100, 60, by decide⟩) ⟨by decide, rfl, by decide⟩
    (List.reverse_perm _) (by decide)

end AutoPurgingImageCache

end GuruPractice.AlamofireExample
