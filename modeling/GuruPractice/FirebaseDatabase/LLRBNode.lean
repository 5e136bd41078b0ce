import Mathlib.Order.Nat
import GuruPractice.Storage.SortedEntries

/-!
# Left-leaning red-black trees

`FTreeSortedDictionary` keeps the children of a database node in a persistent left-leaning red-black
tree. Its nodes are copied with some of their properties replaced (`copyWith`), where `nil` keeps a
property and the empty node stays as it is; `nil` is not red, and neither is the empty node.

This file is the tree, and what its operations do to the entries: rotations and color flips are only
made where they lose nothing, and insertion is insertion into the sorted list of entries.

## Main definitions

* `FirebaseDatabase.FLLRBNode`, `FirebaseDatabase.FLLRBNode.copyWith`.
* `FirebaseDatabase.FLLRBNode.rotateLeft`, `FirebaseDatabase.FLLRBNode.rotateRight`,
  `FirebaseDatabase.FLLRBNode.colorFlip`, `FirebaseDatabase.FLLRBNode.fixUp`,
  `FirebaseDatabase.FLLRBNode.moveRedLeft`, `FirebaseDatabase.FLLRBNode.moveRedRight`.
* `FirebaseDatabase.FLLRBNode.insertKey`, `FirebaseDatabase.FLLRBNode.removeMin`,
  `FirebaseDatabase.FLLRBNode.remove`, `FirebaseDatabase.FLLRBNode.get`.
* `FirebaseDatabase.FLLRBNode.entries` — what the traversal in order meets.

## Main results

* `FirebaseDatabase.FLLRBNode.entries_fixUp`, `FirebaseDatabase.FLLRBNode.entries_insertKey`,
  `FirebaseDatabase.FLLRBNode.get_eq_lookupEntry`.
-/

namespace GuruPractice.FirebaseDatabase

open Storage Std

variable {κ ν : Type}

/-! ### The tree -/

/-- A color is red or not. -/
abbrev FLLRBColor := Bool

def RED : FLLRBColor := true

def BLACK : FLLRBColor := false

/-- `FLLRBEmptyNode` and `FLLRBValueNode`. -/
inductive FLLRBNode (κ ν : Type)
  | empty
  | node (key : κ) (value : ν) (color : FLLRBColor) (left right : FLLRBNode κ ν)
  deriving DecidableEq

namespace FLLRBNode

/-- A copy with some properties replaced; `none` keeps a property. -/
def copyWith (n : FLLRBNode κ ν) (aKey : Option κ) (aValue : Option ν) (aColor : Option FLLRBColor)
    (aLeft aRight : Option (FLLRBNode κ ν)) : FLLRBNode κ ν :=
  match n with
  | empty => empty
  | node key value color left right =>
    node (aKey.getD key) (aValue.getD value) (aColor.getD color) (aLeft.getD left)
      (aRight.getD right)

def left : FLLRBNode κ ν → FLLRBNode κ ν
  | empty => empty
  | node _ _ _ left _ => left

def right : FLLRBNode κ ν → FLLRBNode κ ν
  | empty => empty
  | node _ _ _ _ right => right

def isEmpty : FLLRBNode κ ν → Bool
  | empty => true
  | node .. => false

def color : FLLRBNode κ ν → FLLRBColor
  | empty => BLACK
  | node _ _ color _ _ => color

def isRed (n : FLLRBNode κ ν) : Bool := n.color

/-- An `int`, which overflows. -/
def count : FLLRBNode κ ν → Int32
  | empty => 0
  | node _ _ _ left right => left.count + 1 + right.count

/-- The number of nodes, which bounds the recursions. -/
def size : FLLRBNode κ ν → ℕ
  | empty => 0
  | node _ _ _ left right => left.size + 1 + right.size

/-- The first key and value in order. -/
def min : FLLRBNode κ ν → Option (κ × ν)
  | empty => none
  | node key value _ empty _ => some (key, value)
  | node _ _ _ left _ => left.min

/-- The keys and values that `inorderTraversal` meets. -/
def entries : FLLRBNode κ ν → List (κ × ν)
  | empty => []
  | node key value _ left right => left.entries ++ (key, value) :: right.entries

/-! ### Balancing -/

def rotateLeft (n : FLLRBNode κ ν) : FLLRBNode κ ν :=
  let nl := n.copyWith none none (some RED) none (some n.right.left)
  n.right.copyWith none none (some n.color) (some nl) none

def rotateRight (n : FLLRBNode κ ν) : FLLRBNode κ ν :=
  let nr := n.copyWith none none (some RED) (some n.left.right) none
  n.left.copyWith none none (some n.color) none (some nr)

def colorFlip (n : FLLRBNode κ ν) : FLLRBNode κ ν :=
  let nleft := n.left.copyWith none none (some !n.left.color) none none
  let nright := n.right.copyWith none none (some !n.right.color) none none
  n.copyWith none none (some !n.color) (some nleft) (some nright)

def fixUp (n : FLLRBNode κ ν) : FLLRBNode κ ν :=
  let n := if n.right.isRed && !n.left.isRed then n.rotateLeft else n
  let n := if n.left.isRed && n.left.left.isRed then n.rotateRight else n
  if n.left.isRed && n.right.isRed then n.colorFlip else n

def moveRedLeft (n : FLLRBNode κ ν) : FLLRBNode κ ν :=
  let n := n.colorFlip
  if n.right.left.isRed then
    (n.copyWith none none none none (some n.right.rotateRight)).rotateLeft.colorFlip
  else n

def moveRedRight (n : FLLRBNode κ ν) : FLLRBNode κ ν :=
  let n := n.colorFlip
  if n.left.left.isRed then n.rotateRight.colorFlip else n

section Simp

variable {k : κ} {v : ν} {c : FLLRBColor} {l r : FLLRBNode κ ν}

@[simp] theorem copyWith_empty (k' : Option κ) (v' : Option ν) (c' : Option FLLRBColor)
    (l' r' : Option (FLLRBNode κ ν)) : (empty : FLLRBNode κ ν).copyWith k' v' c' l' r' = empty :=
  rfl

@[simp] theorem copyWith_node (k' : Option κ) (v' : Option ν) (c' : Option FLLRBColor)
    (l' r' : Option (FLLRBNode κ ν)) :
    (node k v c l r).copyWith k' v' c' l' r' =
      node (k'.getD k) (v'.getD v) (c'.getD c) (l'.getD l) (r'.getD r) := rfl

@[simp] theorem left_empty : (empty : FLLRBNode κ ν).left = empty := rfl

@[simp] theorem left_node : (node k v c l r).left = l := rfl

@[simp] theorem right_empty : (empty : FLLRBNode κ ν).right = empty := rfl

@[simp] theorem right_node : (node k v c l r).right = r := rfl

@[simp] theorem color_node : (node k v c l r).color = c := rfl

@[simp] theorem isRed_empty : (empty : FLLRBNode κ ν).isRed = false := rfl

@[simp] theorem isRed_node : (node k v c l r).isRed = c := rfl

@[simp] theorem isEmpty_empty : (empty : FLLRBNode κ ν).isEmpty = true := rfl

@[simp] theorem isEmpty_node : (node k v c l r).isEmpty = false := rfl

@[simp] theorem size_empty : (empty : FLLRBNode κ ν).size = 0 := rfl

@[simp] theorem size_node : (node k v c l r).size = l.size + 1 + r.size := rfl

@[simp] theorem entries_empty : (empty : FLLRBNode κ ν).entries = [] := rfl

@[simp] theorem entries_node :
    (node k v c l r).entries = l.entries ++ (k, v) :: r.entries := rfl

/-- A red node is not empty. -/
theorem exists_node_of_isRed {n : FLLRBNode κ ν} (h : n.isRed = true) :
    ∃ k v l r, n = node k v RED l r := by
  cases n with
  | empty => exact absurd h (by simp)
  | node k v c l r => exact ⟨k, v, l, r, by rw [show c = RED from h]⟩

theorem isEmpty_of_isRed {n : FLLRBNode κ ν} (h : n.isRed = true) : n.isEmpty = false := by
  cases n with
  | empty => exact absurd h (by simp)
  | node => rfl

theorem isEmpty_of_isRed_left {n : FLLRBNode κ ν} (h : n.left.isRed = true) :
    n.isEmpty = false := by
  cases n with
  | empty => exact absurd h (by simp)
  | node => rfl

theorem exists_node_of_isEmpty_eq_false {n : FLLRBNode κ ν} (h : n.isEmpty = false) :
    ∃ k v c l r, n = node k v c l r := by
  cases n with
  | empty => exact absurd h (by simp)
  | node k v c l r => exact ⟨k, v, c, l, r, rfl⟩

end Simp

/-! ### Balancing never adds a node -/

@[simp] theorem left_copyWith_color (n : FLLRBNode κ ν) (c : Option FLLRBColor) :
    (n.copyWith none none c none none).left = n.left := by
  cases n <;> rfl

@[simp] theorem size_copyWith_color (n : FLLRBNode κ ν) (c : Option FLLRBColor) :
    (n.copyWith none none c none none).size = n.size := by
  cases n <;> rfl

theorem size_rotateLeft_le (n : FLLRBNode κ ν) : n.rotateLeft.size ≤ n.size := by
  cases n with
  | empty => simp [rotateLeft]
  | node k v c l r =>
    cases r with
    | empty => simp [rotateLeft]
    | node => simp [rotateLeft]; omega

theorem size_rotateRight_le (n : FLLRBNode κ ν) : n.rotateRight.size ≤ n.size := by
  cases n with
  | empty => simp [rotateRight]
  | node k v c l r =>
    cases l with
    | empty => simp [rotateRight]
    | node => simp [rotateRight]; omega

@[simp] theorem size_colorFlip (n : FLLRBNode κ ν) : n.colorFlip.size = n.size := by
  cases n with
  | empty => rfl
  | node k v c l r => simp [colorFlip]

theorem size_left_lt {m n : FLLRBNode κ ν} (hm : m.size ≤ n.size) (hn : n.isEmpty = false) :
    m.left.size < n.size := by
  obtain ⟨k, v, c, l, r, rfl⟩ := exists_node_of_isEmpty_eq_false hn
  rw [size_node] at hm ⊢
  cases m with
  | empty => rw [left_empty, size_empty]; omega
  | node => rw [size_node] at hm; rw [left_node]; omega

theorem size_right_lt {m n : FLLRBNode κ ν} (hm : m.size ≤ n.size) (hn : n.isEmpty = false) :
    m.right.size < n.size := by
  obtain ⟨k, v, c, l, r, rfl⟩ := exists_node_of_isEmpty_eq_false hn
  rw [size_node] at hm ⊢
  cases m with
  | empty => rw [right_empty, size_empty]; omega
  | node => rw [size_node] at hm; rw [right_node]; omega

theorem size_moveRedLeft_le (n : FLLRBNode κ ν) : n.moveRedLeft.size ≤ n.size := by
  rw [moveRedLeft]
  split
  · rw [size_colorFlip, ← size_colorFlip n]
    refine (size_rotateLeft_le _).trans ?_
    cases hn : n.colorFlip with
    | empty => simp
    | node k v c l r =>
      have hr := size_rotateRight_le r
      simp
      omega
  · exact (size_colorFlip n).le

theorem size_moveRedRight_le (n : FLLRBNode κ ν) : n.moveRedRight.size ≤ n.size := by
  rw [moveRedRight]
  split
  · rw [size_colorFlip, ← size_colorFlip n]
    exact size_rotateRight_le _
  · exact (size_colorFlip n).le

theorem size_ite_le {m n : FLLRBNode κ ν} (b : Bool) (h : m.size ≤ n.size) :
    (if b then m else n).size ≤ n.size := by
  cases b
  · exact le_rfl
  · exact h

theorem size_fixUp_le (n : FLLRBNode κ ν) : n.fixUp.size ≤ n.size := by
  rw [fixUp]
  refine (size_ite_le _ (size_colorFlip _).le).trans ?_
  refine (size_ite_le _ (size_rotateRight_le _)).trans ?_
  exact size_ite_le _ (size_rotateLeft_le _)

/-! ### Insertion and removal -/

def insertKey (cmp : κ → κ → Ordering) (aKey : κ) (aValue : ν) :
    FLLRBNode κ ν → FLLRBNode κ ν
  | empty => node aKey aValue RED empty empty
  | node key value color left right =>
    let n := node key value color left right
    match cmp aKey key with
    | .lt => (n.copyWith none none none (some (left.insertKey cmp aKey aValue)) none).fixUp
    | .eq => (n.copyWith none (some aValue) none none none).fixUp
    | .gt => (n.copyWith none none none none (some (right.insertKey cmp aKey aValue))).fixUp

/-- Remove the first entry. -/
def removeMin (n : FLLRBNode κ ν) : FLLRBNode κ ν :=
  if n.left.isEmpty = true then empty
  else
    let m := if !n.left.isRed && !n.left.left.isRed then n.moveRedLeft else n
    (m.copyWith none none none (some m.left.removeMin) none).fixUp
termination_by n.size
decreasing_by
  refine size_left_lt (size_ite_le _ (size_moveRedLeft_le n)) ?_
  cases n with
  | empty => simp_all
  | node => rfl

theorem size_copyWith_left_le {n l : FLLRBNode κ ν} {k : Option κ} {v : Option ν}
    {c : Option FLLRBColor} (hl : l.size ≤ n.left.size) :
    (n.copyWith k v c (some l) none).size ≤ n.size := by
  cases n with
  | empty => simp
  | node => simpa using hl

theorem size_copyWith_right_le {n r : FLLRBNode κ ν} {k : Option κ} {v : Option ν}
    {c : Option FLLRBColor} (hr : r.size ≤ n.right.size) :
    (n.copyWith k v c none (some r)).size ≤ n.size := by
  cases n with
  | empty => simp
  | node => simpa using hr

theorem size_removeMin_le (n : FLLRBNode κ ν) : n.removeMin.size ≤ n.size := by
  induction n using removeMin.induct with
  | case1 n hn =>
    rw [removeMin, if_pos hn]
    exact Nat.zero_le _
  | case2 n hn m ih =>
    rw [removeMin, if_neg hn]
    refine (size_fixUp_le _).trans ((size_copyWith_left_le ih).trans ?_)
    exact size_ite_le _ (size_moveRedLeft_le n)

/-- The comparison of a key with the key of a node. -/
def compareTo (cmp : κ → κ → Ordering) (aKey : κ) : FLLRBNode κ ν → Ordering
  | empty => .gt
  | node key _ _ _ _ => cmp aKey key

@[simp] theorem compareTo_node (cmp : κ → κ → Ordering) (aKey k : κ) (v : ν) (c : FLLRBColor)
    (l r : FLLRBNode κ ν) : (node k v c l r).compareTo cmp aKey = cmp aKey k := rfl

/-- Remove the entry of a key. -/
def remove (cmp : κ → κ → Ordering) (aKey : κ) (n : FLLRBNode κ ν) : FLLRBNode κ ν :=
  if n.isEmpty = true then empty
  else if n.compareTo cmp aKey = .lt then
    let m := if !n.left.isEmpty && !n.left.isRed && !n.left.left.isRed then n.moveRedLeft else n
    (m.copyWith none none none (some (m.left.remove cmp aKey)) none).fixUp
  else
    let m := if n.left.isRed then n.rotateRight else n
    let m := if !m.right.isEmpty && !m.right.isRed && !m.right.left.isRed then m.moveRedRight else m
    if m.compareTo cmp aKey = .eq then
      if m.right.isEmpty then empty
      else
        let smallest := m.right.min
        let m := m.copyWith (smallest.map Prod.fst) (smallest.map Prod.snd) none none
          (some m.right.removeMin)
        (m.copyWith none none none none (some (m.right.remove cmp aKey))).fixUp
    else (m.copyWith none none none none (some (m.right.remove cmp aKey))).fixUp
termination_by n.size
decreasing_by
  · exact size_left_lt (size_ite_le _ (size_moveRedLeft_le n)) (by simp_all)
  · refine size_right_lt ?_ (by simp_all)
    refine (size_copyWith_right_le (size_removeMin_le _)).trans ?_
    exact (size_ite_le _ (size_moveRedRight_le _)).trans (size_ite_le _ (size_rotateRight_le n))
  · refine size_right_lt ?_ (by simp_all)
    exact (size_ite_le _ (size_moveRedRight_le _)).trans (size_ite_le _ (size_rotateRight_le n))

/-- The value of a key. -/
def get (cmp : κ → κ → Ordering) (aKey : κ) : FLLRBNode κ ν → Option ν
  | empty => none
  | node key value _ left right =>
    match cmp aKey key with
    | .eq => some value
    | .lt => left.get cmp aKey
    | .gt => right.get cmp aKey

/-! ### The entries of a balanced tree -/

@[simp] theorem entries_copyWith_color (n : FLLRBNode κ ν) (c : Option FLLRBColor) :
    (n.copyWith none none c none none).entries = n.entries := by
  cases n <;> rfl

theorem entries_rotateLeft {n : FLLRBNode κ ν} (h : n.right.isEmpty = false) :
    n.rotateLeft.entries = n.entries := by
  cases n with
  | empty => exact absurd h (by simp)
  | node k v c l r =>
    obtain ⟨k', v', c', l', r', rfl⟩ := exists_node_of_isEmpty_eq_false (n := r) h
    simp [rotateLeft]

theorem entries_rotateRight {n : FLLRBNode κ ν} (h : n.left.isEmpty = false) :
    n.rotateRight.entries = n.entries := by
  cases n with
  | empty => exact absurd h (by simp)
  | node k v c l r =>
    obtain ⟨k', v', c', l', r', rfl⟩ := exists_node_of_isEmpty_eq_false (n := l) h
    simp [rotateRight]

@[simp] theorem entries_colorFlip (n : FLLRBNode κ ν) : n.colorFlip.entries = n.entries := by
  cases n with
  | empty => rfl
  | node k v c l r => simp [colorFlip]

theorem entries_ite {m n : FLLRBNode κ ν} {b : Bool} (h : b = true → m.entries = n.entries) :
    (if b then m else n).entries = n.entries := by
  cases b
  · rfl
  · exact h rfl

/-- Repairing a node keeps its entries. -/
@[simp] theorem entries_fixUp (n : FLLRBNode κ ν) : n.fixUp.entries = n.entries := by
  rw [fixUp]
  refine (entries_ite fun _ => entries_colorFlip _).trans ?_
  refine (entries_ite fun h => entries_rotateRight ?_).trans (entries_ite fun h =>
    entries_rotateLeft ?_)
  · exact isEmpty_of_isRed_left (Bool.and_eq_true_iff.mp h).2
  · exact isEmpty_of_isRed (Bool.and_eq_true_iff.mp h).1

theorem entries_moveRedLeft (n : FLLRBNode κ ν) : n.moveRedLeft.entries = n.entries := by
  rw [moveRedLeft]
  refine Eq.trans ?_ (entries_colorFlip n)
  refine entries_ite fun h => ?_
  rw [entries_colorFlip]
  cases hn : n.colorFlip with
  | empty => exact absurd h (by simp [hn])
  | node k v c l r =>
    -- The new right node is a red one from the left of the old right node.
    have hr : r.left.isRed = true := by simpa [hn] using h
    obtain ⟨k', v', c', rl, rr, rfl⟩ := exists_node_of_isEmpty_eq_false (isEmpty_of_isRed_left hr)
    obtain ⟨k'', v'', l', r', rfl⟩ := exists_node_of_isRed (n := rl) hr
    simp [rotateLeft, rotateRight]

/-! ### Insertion and lookup -/

section Lawful

variable {cmp : κ → κ → Ordering} [TransCmp cmp]

/-- **Insertion is insertion into the sorted list of entries.** A key that the tree has, up to the
comparator, keeps its place and its name. -/
theorem entries_insertKey (aKey : κ) (aValue : ν) {n : FLLRBNode κ ν}
    (hs : Sorted cmp n.entries) :
    (n.insertKey cmp aKey aValue).entries =
      insertEntry cmp (storedKey cmp aKey n.entries) aValue n.entries := by
  induction n with
  | empty => simp [insertKey, insertEntry, storedKey, below, above]
  | node k v c l r ihl ihr =>
    obtain ⟨hl, hr, -⟩ := sorted_append_cons.mp hs
    simp only [insertKey, entries_node]
    cases hk : cmp aKey k with
    | lt =>
      have hstored := TransCmp.lt_of_eq_of_lt
        (OrientedCmp.eq_symm (compare_storedKey aKey l.entries)) hk
      rw [storedKey_append_of_lt hs hk, insertEntry_append_of_lt aValue hs hstored]
      simp [ihl hl]
    | eq =>
      rw [storedKey_append_of_eq hs hk, insertEntry_append_of_eq aValue hs ReflCmp.compare_self]
      simp
    | gt =>
      have hstored := TransCmp.gt_of_eq_of_gt
        (OrientedCmp.eq_symm (compare_storedKey aKey r.entries)) hk
      rw [storedKey_append_of_gt hs hk, insertEntry_append_of_gt aValue hs hstored]
      simp [ihr hr]

/-- A search finds what is in the list of entries. -/
theorem get_eq_lookupEntry (aKey : κ) {n : FLLRBNode κ ν} (hs : Sorted cmp n.entries) :
    n.get cmp aKey = lookupEntry cmp aKey n.entries := by
  induction n with
  | empty => rfl
  | node k v c l r ihl ihr =>
    obtain ⟨hl, hr, -⟩ := sorted_append_cons.mp hs
    simp only [get, entries_node]
    cases hk : cmp aKey k with
    | lt => rw [lookupEntry_append_of_lt hs hk, ← ihl hl]
    | eq => rw [lookupEntry_append_of_eq hs hk]
    | gt => rw [lookupEntry_append_of_gt hs hk, ← ihr hr]

end Lawful

end FLLRBNode

end GuruPractice.FirebaseDatabase
