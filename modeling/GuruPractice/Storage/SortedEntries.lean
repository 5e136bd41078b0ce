import Mathlib.Data.List.Basic
import Mathlib.Order.Compare

/-!
# Sorted lists of entries

A dictionary with keys in the order of a comparator, as the list of its entries. Inserting puts the
new entry between the entries below and those above its key; erasing takes out the entry of a key.
Around one entry of the list, each operation acts on one side only, which is how a search tree acts.
Different keys may compare as equal; they then share one entry.

## Main definitions

* `Storage.Sorted`, `Storage.insertEntry`, `Storage.eraseEntry`, `Storage.lookupEntry`.
* `Storage.storedKey` — the key of the entry that a key shares.
* `Storage.Distinct` — no two keys compare as equal.
* `Storage.below`, `Storage.above`, `Storage.atLeast`, `Storage.atMost`.

## Main results

* `Storage.insertEntry_append_of_lt`, `Storage.insertEntry_append_of_eq`,
  `Storage.insertEntry_append_of_gt`, and the same for `eraseEntry` and `lookupEntry`.
* `Storage.Sorted.insertEntry`, `Storage.Sorted.eraseEntry`.
* `Storage.lookupEntry_insertEntry`, `Storage.lookupEntry_eraseEntry`.
-/

namespace GuruPractice.Storage

open Std

variable {κ ν : Type*} (cmp : κ → κ → Ordering)

/-! ### Operations -/

/-- The keys of the entries increase. -/
def Sorted (l : List (κ × ν)) : Prop := l.Pairwise fun x y => cmp x.1 y.1 = .lt

/-- The entries with keys below `k`. -/
def below (k : κ) (l : List (κ × ν)) : List (κ × ν) := l.filter fun e => cmp k e.1 = .gt

/-- The entries with keys above `k`. -/
def above (k : κ) (l : List (κ × ν)) : List (κ × ν) := l.filter fun e => cmp k e.1 = .lt

/-- The entries with keys from `k` on. -/
def atLeast (k : κ) (l : List (κ × ν)) : List (κ × ν) := l.filter fun e => cmp k e.1 ≠ .gt

/-- The entries with keys up to `k`. -/
def atMost (k : κ) (l : List (κ × ν)) : List (κ × ν) := l.filter fun e => cmp k e.1 ≠ .lt

/-- Insert or replace the entry of `k`. -/
def insertEntry (k : κ) (v : ν) (l : List (κ × ν)) : List (κ × ν) :=
  below cmp k l ++ (k, v) :: above cmp k l

/-- Take out the entry of `k`, if there is one. -/
def eraseEntry (k : κ) (l : List (κ × ν)) : List (κ × ν) := l.filter fun e => cmp k e.1 ≠ .eq

/-- The value of `k`. -/
def lookupEntry (k : κ) (l : List (κ × ν)) : Option ν :=
  (l.find? fun e => cmp k e.1 = .eq).map Prod.snd

/-- The key of the entry of `k`, or `k` if there is none. -/
def storedKey (k : κ) (l : List (κ × ν)) : κ :=
  ((l.find? fun e => cmp k e.1 = .eq).map Prod.fst).getD k

/-- No two keys compare as equal. -/
def Distinct (l : List (κ × ν)) : Prop := l.Pairwise fun x y => cmp x.1 y.1 ≠ .eq

/-! ### Operations on parts of a list -/

section Parts

variable {cmp} {k : κ} {e : κ × ν}

theorem below_append (l r : List (κ × ν)) :
    below cmp k (l ++ r) = below cmp k l ++ below cmp k r :=
  List.filter_append ..

theorem above_append (l r : List (κ × ν)) :
    above cmp k (l ++ r) = above cmp k l ++ above cmp k r :=
  List.filter_append ..

theorem eraseEntry_append (l r : List (κ × ν)) :
    eraseEntry cmp k (l ++ r) = eraseEntry cmp k l ++ eraseEntry cmp k r :=
  List.filter_append ..

theorem atLeast_append (l r : List (κ × ν)) :
    atLeast cmp k (l ++ r) = atLeast cmp k l ++ atLeast cmp k r :=
  List.filter_append ..

theorem atMost_append (l r : List (κ × ν)) :
    atMost cmp k (l ++ r) = atMost cmp k l ++ atMost cmp k r :=
  List.filter_append ..

theorem atLeast_cons (e : κ × ν) (r : List (κ × ν)) :
    atLeast cmp k (e :: r) = if cmp k e.1 = .gt then atLeast cmp k r else e :: atLeast cmp k r := by
  by_cases hk : cmp k e.1 = .gt <;> simp [atLeast, hk]

theorem atMost_cons (e : κ × ν) (r : List (κ × ν)) :
    atMost cmp k (e :: r) = if cmp k e.1 = .lt then atMost cmp k r else e :: atMost cmp k r := by
  by_cases hk : cmp k e.1 = .lt <;> simp [atMost, hk]

theorem below_cons (e : κ × ν) (r : List (κ × ν)) :
    below cmp k (e :: r) = if cmp k e.1 = .gt then e :: below cmp k r else below cmp k r := by
  simp [below, List.filter_cons]

theorem above_cons (e : κ × ν) (r : List (κ × ν)) :
    above cmp k (e :: r) = if cmp k e.1 = .lt then e :: above cmp k r else above cmp k r := by
  simp [above, List.filter_cons]

theorem eraseEntry_cons (e : κ × ν) (r : List (κ × ν)) :
    eraseEntry cmp k (e :: r) =
      if cmp k e.1 = .eq then eraseEntry cmp k r else e :: eraseEntry cmp k r := by
  by_cases hk : cmp k e.1 = .eq <;> simp [eraseEntry, hk]

theorem lookupEntry_append (l r : List (κ × ν)) :
    lookupEntry cmp k (l ++ r) = (lookupEntry cmp k l).or (lookupEntry cmp k r) := by
  rw [lookupEntry, List.find?_append, Option.map_or]
  rfl

theorem lookupEntry_cons (e : κ × ν) (r : List (κ × ν)) :
    lookupEntry cmp k (e :: r) = if cmp k e.1 = .eq then some e.2 else lookupEntry cmp k r := by
  by_cases hk : cmp k e.1 = .eq <;> simp [lookupEntry, hk]

end Parts

/-! ### Entries on one side of a key -/

section Sides

variable {cmp} {k : κ} {l : List (κ × ν)}

/-- All keys of `l` are below `k`. -/
def AllBelow (cmp : κ → κ → Ordering) (k : κ) (l : List (κ × ν)) : Prop :=
  ∀ e ∈ l, cmp k e.1 = .gt

/-- All keys of `l` are above `k`. -/
def AllAbove (cmp : κ → κ → Ordering) (k : κ) (l : List (κ × ν)) : Prop :=
  ∀ e ∈ l, cmp k e.1 = .lt

theorem AllBelow.below_eq (h : AllBelow cmp k l) : below cmp k l = l :=
  List.filter_eq_self.mpr fun e he => by simp [h e he]

theorem AllBelow.above_eq (h : AllBelow cmp k l) : above cmp k l = [] :=
  List.filter_eq_nil_iff.mpr fun e he => by simp [h e he]

theorem AllBelow.atLeast_eq (h : AllBelow cmp k l) : atLeast cmp k l = [] :=
  List.filter_eq_nil_iff.mpr fun e he => by simp [h e he]

theorem AllBelow.atMost_eq (h : AllBelow cmp k l) : atMost cmp k l = l :=
  List.filter_eq_self.mpr fun e he => by simp [h e he]

theorem AllBelow.eraseEntry_eq (h : AllBelow cmp k l) : eraseEntry cmp k l = l :=
  List.filter_eq_self.mpr fun e he => by simp [h e he]

theorem AllBelow.find?_eq (h : AllBelow cmp k l) :
    l.find? (fun e => cmp k e.1 = .eq) = none :=
  List.find?_eq_none.mpr fun e he => by simp [h e he]

theorem AllBelow.lookupEntry_eq (h : AllBelow cmp k l) : lookupEntry cmp k l = none := by
  rw [lookupEntry, h.find?_eq, Option.map_none]

theorem AllAbove.below_eq (h : AllAbove cmp k l) : below cmp k l = [] :=
  List.filter_eq_nil_iff.mpr fun e he => by simp [h e he]

theorem AllAbove.above_eq (h : AllAbove cmp k l) : above cmp k l = l :=
  List.filter_eq_self.mpr fun e he => by simp [h e he]

theorem AllAbove.atLeast_eq (h : AllAbove cmp k l) : atLeast cmp k l = l :=
  List.filter_eq_self.mpr fun e he => by simp [h e he]

theorem AllAbove.atMost_eq (h : AllAbove cmp k l) : atMost cmp k l = [] :=
  List.filter_eq_nil_iff.mpr fun e he => by simp [h e he]

theorem AllAbove.eraseEntry_eq (h : AllAbove cmp k l) : eraseEntry cmp k l = l :=
  List.filter_eq_self.mpr fun e he => by simp [h e he]

theorem AllAbove.find?_eq (h : AllAbove cmp k l) :
    l.find? (fun e => cmp k e.1 = .eq) = none :=
  List.find?_eq_none.mpr fun e he => by simp [h e he]

theorem AllAbove.lookupEntry_eq (h : AllAbove cmp k l) : lookupEntry cmp k l = none := by
  rw [lookupEntry, h.find?_eq, Option.map_none]

theorem AllBelow.of_lt [TransCmp cmp] {k' : κ} (h : AllBelow cmp k l) (hk : cmp k k' = .lt) :
    AllBelow cmp k' l :=
  fun e he => OrientedCmp.gt_of_lt (TransCmp.lt_trans (OrientedCmp.lt_of_gt (h e he)) hk)

theorem AllAbove.of_lt [TransCmp cmp] {k' : κ} (h : AllAbove cmp k l) (hk : cmp k' k = .lt) :
    AllAbove cmp k' l :=
  fun e he => TransCmp.lt_trans hk (h e he)

theorem AllBelow.of_eq [TransCmp cmp] {k' : κ} (h : AllBelow cmp k l) (hk : cmp k' k = .eq) :
    AllBelow cmp k' l :=
  fun e he => TransCmp.gt_of_eq_of_gt hk (h e he)

theorem AllAbove.of_eq [TransCmp cmp] {k' : κ} (h : AllAbove cmp k l) (hk : cmp k' k = .eq) :
    AllAbove cmp k' l :=
  fun e he => TransCmp.lt_of_eq_of_lt hk (h e he)

end Sides

/-! ### Around one entry -/

section Around

variable {cmp} {l r : List (κ × ν)} {e : κ × ν}

theorem sorted_append_cons [OrientedCmp cmp] : Sorted cmp (l ++ e :: r) ↔
    Sorted cmp l ∧ Sorted cmp r ∧ AllBelow cmp e.1 l ∧ AllAbove cmp e.1 r ∧
      ∀ x ∈ l, ∀ y ∈ r, cmp x.1 y.1 = .lt := by
  simp only [Sorted, AllBelow, AllAbove, List.pairwise_append, List.pairwise_cons,
    List.mem_cons, OrientedCmp.gt_iff_lt]
  constructor
  · rintro ⟨hl, ⟨her, hr⟩, hlr⟩
    exact ⟨hl, hr, fun x hx => hlr x hx e (Or.inl rfl), her,
      fun x hx y hy => hlr x hx y (Or.inr hy)⟩
  · rintro ⟨hl, hr, hle, her, hlr⟩
    refine ⟨hl, ⟨her, hr⟩, fun x hx y hy => ?_⟩
    rcases hy with rfl | hy
    · exact hle x hx
    · exact hlr x hx y hy

variable [TransCmp cmp] {k : κ}

theorem insertEntry_append_of_lt (v : ν) (hs : Sorted cmp (l ++ e :: r)) (hk : cmp k e.1 = .lt) :
    insertEntry cmp k v (l ++ e :: r) = insertEntry cmp k v l ++ e :: r := by
  obtain ⟨-, -, -, her, -⟩ := sorted_append_cons.mp hs
  have hr := her.of_lt hk
  simp [insertEntry, below_append, above_append, below_cons, above_cons, hk, hr.below_eq,
    hr.above_eq]

theorem insertEntry_append_of_gt (v : ν) (hs : Sorted cmp (l ++ e :: r)) (hk : cmp k e.1 = .gt) :
    insertEntry cmp k v (l ++ e :: r) = l ++ e :: insertEntry cmp k v r := by
  obtain ⟨-, -, hle, -, -⟩ := sorted_append_cons.mp hs
  have hl := hle.of_lt (OrientedCmp.lt_of_gt hk)
  simp [insertEntry, below_append, above_append, below_cons, above_cons, hk, hl.below_eq,
    hl.above_eq]

theorem insertEntry_append_of_eq (v : ν) (hs : Sorted cmp (l ++ e :: r)) (hk : cmp k e.1 = .eq) :
    insertEntry cmp k v (l ++ e :: r) = l ++ (k, v) :: r := by
  obtain ⟨-, -, hle, her, -⟩ := sorted_append_cons.mp hs
  have hl := hle.of_eq hk
  have hr := her.of_eq hk
  simp [insertEntry, below_append, above_append, below_cons, above_cons, hk, hl.below_eq,
    hl.above_eq, hr.below_eq, hr.above_eq]

theorem eraseEntry_append_of_lt (hs : Sorted cmp (l ++ e :: r)) (hk : cmp k e.1 = .lt) :
    eraseEntry cmp k (l ++ e :: r) = eraseEntry cmp k l ++ e :: r := by
  obtain ⟨-, -, -, her, -⟩ := sorted_append_cons.mp hs
  simp [eraseEntry_append, eraseEntry_cons, hk, (her.of_lt hk).eraseEntry_eq]

theorem eraseEntry_append_of_gt (hs : Sorted cmp (l ++ e :: r)) (hk : cmp k e.1 = .gt) :
    eraseEntry cmp k (l ++ e :: r) = l ++ e :: eraseEntry cmp k r := by
  obtain ⟨-, -, hle, -, -⟩ := sorted_append_cons.mp hs
  have hl := hle.of_lt (OrientedCmp.lt_of_gt hk)
  simp [eraseEntry_append, eraseEntry_cons, hk, hl.eraseEntry_eq]

theorem eraseEntry_append_of_eq (hs : Sorted cmp (l ++ e :: r)) (hk : cmp k e.1 = .eq) :
    eraseEntry cmp k (l ++ e :: r) = l ++ r := by
  obtain ⟨-, -, hle, her, -⟩ := sorted_append_cons.mp hs
  simp [eraseEntry_append, eraseEntry_cons, hk, (hle.of_eq hk).eraseEntry_eq,
    (her.of_eq hk).eraseEntry_eq]

theorem lookupEntry_append_of_lt (hs : Sorted cmp (l ++ e :: r)) (hk : cmp k e.1 = .lt) :
    lookupEntry cmp k (l ++ e :: r) = lookupEntry cmp k l := by
  obtain ⟨-, -, -, her, -⟩ := sorted_append_cons.mp hs
  simp [lookupEntry_append, lookupEntry_cons, hk, (her.of_lt hk).lookupEntry_eq]

theorem lookupEntry_append_of_gt (hs : Sorted cmp (l ++ e :: r)) (hk : cmp k e.1 = .gt) :
    lookupEntry cmp k (l ++ e :: r) = lookupEntry cmp k r := by
  obtain ⟨-, -, hle, -, -⟩ := sorted_append_cons.mp hs
  have hl := hle.of_lt (OrientedCmp.lt_of_gt hk)
  simp [lookupEntry_append, lookupEntry_cons, hk, hl.lookupEntry_eq]

theorem lookupEntry_append_of_eq (hs : Sorted cmp (l ++ e :: r)) (hk : cmp k e.1 = .eq) :
    lookupEntry cmp k (l ++ e :: r) = some e.2 := by
  obtain ⟨-, -, hle, -, -⟩ := sorted_append_cons.mp hs
  simp [lookupEntry_append, lookupEntry_cons, hk, (hle.of_eq hk).lookupEntry_eq]

theorem storedKey_append_of_lt (hs : Sorted cmp (l ++ e :: r)) (hk : cmp k e.1 = .lt) :
    storedKey cmp k (l ++ e :: r) = storedKey cmp k l := by
  obtain ⟨-, -, -, her, -⟩ := sorted_append_cons.mp hs
  simp [storedKey, hk, (her.of_lt hk).find?_eq]

theorem storedKey_append_of_gt (hs : Sorted cmp (l ++ e :: r)) (hk : cmp k e.1 = .gt) :
    storedKey cmp k (l ++ e :: r) = storedKey cmp k r := by
  obtain ⟨-, -, hle, -, -⟩ := sorted_append_cons.mp hs
  have hl := hle.of_lt (OrientedCmp.lt_of_gt hk)
  simp [storedKey, hk, hl.find?_eq]

theorem storedKey_append_of_eq (hs : Sorted cmp (l ++ e :: r)) (hk : cmp k e.1 = .eq) :
    storedKey cmp k (l ++ e :: r) = e.1 := by
  obtain ⟨-, -, hle, -, -⟩ := sorted_append_cons.mp hs
  simp [storedKey, hk, (hle.of_eq hk).find?_eq]

end Around

/-! ### Insertion and erasure keep the list sorted -/

variable {cmp} {l : List (κ × ν)}

theorem allBelow_below (k : κ) (l : List (κ × ν)) : AllBelow cmp k (below cmp k l) :=
  fun e he => by simpa using (List.mem_filter.mp he).2

theorem allAbove_above (k : κ) (l : List (κ × ν)) : AllAbove cmp k (above cmp k l) :=
  fun e he => by simpa using (List.mem_filter.mp he).2

theorem Sorted.eraseEntry (hs : Sorted cmp l) (k : κ) : Sorted cmp (eraseEntry cmp k l) :=
  hs.sublist List.filter_sublist

variable [TransCmp cmp]

theorem Sorted.insertEntry (hs : Sorted cmp l) (k : κ) (v : ν) :
    Sorted cmp (insertEntry cmp k v l) := by
  refine sorted_append_cons.mpr ⟨hs.sublist List.filter_sublist, hs.sublist List.filter_sublist,
    allBelow_below k l, allAbove_above k l, fun x hx y hy => ?_⟩
  exact TransCmp.lt_trans (OrientedCmp.lt_of_gt (allBelow_below k l x hx)) (allAbove_above k l y hy)

/-! ### Lookups -/

/-- A key compares as equal to the key it is stored under. -/
theorem compare_storedKey (k : κ) (l : List (κ × ν)) : cmp k (storedKey cmp k l) = .eq := by
  cases hfind : l.find? fun e => cmp k e.1 = .eq with
  | none =>
    rw [storedKey, hfind]
    exact ReflCmp.compare_self
  | some e =>
    rw [storedKey, hfind]
    simpa using List.find?_some hfind

omit [TransCmp cmp] in
/-- Distinct keys are different. -/
theorem Distinct.nodup [ReflCmp cmp] (h : Distinct cmp l) : (l.map Prod.fst).Nodup := by
  refine List.pairwise_map.mpr (h.imp fun {x y} hxy heq => hxy ?_)
  rw [heq]
  exact ReflCmp.compare_self

/-- An entry is looked up by its key. -/
theorem lookupEntry_of_mem (hs : Sorted cmp l) {e : κ × ν} (he : e ∈ l) :
    lookupEntry cmp e.1 l = some e.2 := by
  obtain ⟨l₁, l₂, rfl⟩ := List.append_of_mem he
  exact lookupEntry_append_of_eq hs ReflCmp.compare_self

/-- A sorted list falls into the entries below a key and those from it on. -/
theorem below_append_atLeast (hs : Sorted cmp l) (k : κ) :
    below cmp k l ++ atLeast cmp k l = l := by
  induction l with
  | nil => rfl
  | cons e l ih =>
    obtain ⟨he, hl⟩ := List.pairwise_cons.mp hs
    rw [below_cons, atLeast_cons]
    cases hcmp : cmp k e.1 with
    | lt =>
      have habove : AllAbove cmp k l := fun x hx => TransCmp.lt_trans hcmp (he x hx)
      simp [habove.below_eq, habove.atLeast_eq]
    | eq =>
      have habove : AllAbove cmp k l := fun x hx => TransCmp.lt_of_eq_of_lt hcmp (he x hx)
      simp [habove.below_eq, habove.atLeast_eq]
    | gt => simp [ih hl]

omit [TransCmp cmp] in
theorem atMost_of_lookupEntry_eq_none {k : κ} (hk : lookupEntry cmp k l = none) :
    atMost cmp k l = below cmp k l := by
  rw [lookupEntry, Option.map_eq_none_iff, List.find?_eq_none] at hk
  refine List.filter_congr fun e he => ?_
  have hne := hk e he
  cases hcmp : cmp k e.1 <;> simp_all

omit [TransCmp cmp] in
theorem eraseEntry_of_lookupEntry_eq_none {k : κ} (hk : lookupEntry cmp k l = none) :
    Storage.eraseEntry cmp k l = l := by
  rw [lookupEntry, Option.map_eq_none_iff, List.find?_eq_none] at hk
  exact List.filter_eq_self.mpr fun e he => by simpa using hk e he

end GuruPractice.Storage
