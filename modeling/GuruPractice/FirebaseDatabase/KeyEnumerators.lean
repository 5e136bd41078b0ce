import GuruPractice.FirebaseDatabase.SortedDictionary

/-!
# Keys before and after a key

A sorted dictionary names the key before a key, and enumerates its keys in both directions, from a
key on or from the end. An array does so by position; a tree keeps the nodes that are still to come
on a stack. This file shows that the two kinds of dictionaries agree on the order of keys, with one
exception: the reverse enumerator of a tree without a start key ignores every node, since the
comparison that stands for a missing start key is negated with the others.

## Main definitions

* `FirebaseDatabase.FTreeSortedDictionary.getPredecessorKey`.
* `FirebaseDatabase.KeyEnumerator`, `FirebaseDatabase.KeyEnumerator.nextObject`,
  `FirebaseDatabase.KeyEnumerator.Yields`.
* `FirebaseDatabase.FImmutableSortedDictionary.keyEnumeratorFrom`,
  `FirebaseDatabase.FImmutableSortedDictionary.reverseKeyEnumeratorFrom`.

## Main results

* `FirebaseDatabase.getPredecessorKey_is_last_below`,
  `FirebaseDatabase.enumerators_yield_keys_in_order`.
-/

namespace GuruPractice.FirebaseDatabase

open Storage Std

variable {κ ν : Type}

/-! ### The key before a key -/

/-- The last key in order. -/
def FLLRBNode.maxKey : FLLRBNode κ ν → Option κ
  | .empty => none
  | .node key _ _ _ .empty => some key
  | .node _ _ _ _ right => right.maxKey

/-- The search for `key`, with the key of the last node at which it went to the right. -/
def FLLRBNode.getPredecessorKey (cmp : κ → κ → Ordering) (key : κ) :
    FLLRBNode κ ν → Option κ → Except NSException (Option κ)
  | .empty, _ => .error ⟨"NonexistentKey",
      some "getPredecessorKey called with nonexistent key."⟩
  | .node k _ _ left right, rightParent =>
    match cmp key k with
    | .eq => if !left.isEmpty then .ok left.maxKey else .ok rightParent
    | .lt => left.getPredecessorKey cmp key rightParent
    | .gt => right.getPredecessorKey cmp key (some k)

def FTreeSortedDictionary.getPredecessorKey (cmp : κ → κ → Ordering) (key : κ)
    (d : FTreeSortedDictionary κ ν) : Except NSException (Option κ) :=
  d.root.getPredecessorKey cmp key none

def FImmutableSortedDictionary.getPredecessorKey (cmp : κ → κ → Ordering) (key : κ) :
    FImmutableSortedDictionary κ ν → Except NSException (Option κ)
  | .array d => d.getPredecessorKey cmp key
  | .tree d => d.getPredecessorKey cmp key

/-! ### Enumerators -/

/-- `FArraySortedDictionaryEnumerator`, and `FTreeSortedDictionaryEnumerator` with the last object
of its stack first. -/
inductive KeyEnumerator (κ ν : Type)
  | array (keys : List κ) (pos : ℤ) (reverse : Bool)
  | tree (stack : List (FLLRBNode κ ν)) (isReverse : Bool)

namespace KeyEnumerator

/-- Push a node and all nodes on the way to its end. -/
def pushAll (isReverse : Bool) : FLLRBNode κ ν → List (FLLRBNode κ ν) → List (FLLRBNode κ ν)
  | .empty, stack => stack
  | .node key value color left right, stack =>
    let stack := .node key value color left right :: stack
    if isReverse then pushAll isReverse right stack else pushAll isReverse left stack

/-- The nodes on the way to the start key that are not before it. -/
def pushFrom (cmp : κ → κ → Ordering) (startKey : Option κ) (isReverse : Bool) :
    FLLRBNode κ ν → List (FLLRBNode κ ν) → List (FLLRBNode κ ν)
  | .empty, stack => stack
  | .node key value color left right, stack =>
    let c := match startKey with
      | some s => cmp key s
      | none => .gt
    match if isReverse then c.swap else c with
    | .lt =>
      if isReverse then pushFrom cmp startKey isReverse left stack
      else pushFrom cmp startKey isReverse right stack
    | .eq => .node key value color left right :: stack
    | .gt =>
      let stack := .node key value color left right :: stack
      if isReverse then pushFrom cmp startKey isReverse right stack
      else pushFrom cmp startKey isReverse left stack

/-- The next key and the enumerator after it. -/
def nextObject : KeyEnumerator κ ν → Option (κ × KeyEnumerator κ ν)
  | array keys pos reverse =>
    if 0 ≤ pos ∧ pos < keys.length then
      keys[pos.toNat]?.map fun key =>
        (key, array keys (if reverse then pos - 1 else pos + 1) reverse)
    else none
  | tree [] _ => none
  | tree (.empty :: _) _ => none
  | tree (.node key _ _ left right :: stack) isReverse =>
    some (key, tree (pushAll isReverse (if isReverse then left else right) stack) isReverse)

/-- Successive calls of `nextObject` return these keys, and then `nil`. -/
def Yields : KeyEnumerator κ ν → List κ → Prop
  | e, [] => e.nextObject = none
  | e, key :: keys => ∃ e', e.nextObject = some (key, e') ∧ Yields e' keys

end KeyEnumerator

namespace FArraySortedDictionary

def keyEnumeratorFrom (cmp : κ → κ → Ordering) (startKey : κ) (d : FArraySortedDictionary κ ν) :
    KeyEnumerator κ ν :=
  .array d.keys (findInsertPositionForKey cmp startKey d.keys) false

/-- A start key that is not there starts at the key before it. -/
def reverseKeyEnumeratorFrom (cmp : κ → κ → Ordering) (startKey : κ)
    (d : FArraySortedDictionary κ ν) : KeyEnumerator κ ν :=
  let startPos := findInsertPositionForKey cmp startKey d.keys
  if d.keys[startPos]?.all fun key => cmp key startKey ≠ .eq then
    .array d.keys (startPos - 1) true
  else .array d.keys startPos true

end FArraySortedDictionary

namespace FImmutableSortedDictionary

def keyEnumerator (cmp : κ → κ → Ordering) : FImmutableSortedDictionary κ ν → KeyEnumerator κ ν
  | .array d => .array d.keys 0 false
  | .tree d => .tree (KeyEnumerator.pushFrom cmp none false d.root []) false

def keyEnumeratorFrom (cmp : κ → κ → Ordering) (startKey : κ) :
    FImmutableSortedDictionary κ ν → KeyEnumerator κ ν
  | .array d => d.keyEnumeratorFrom cmp startKey
  | .tree d => .tree (KeyEnumerator.pushFrom cmp (some startKey) false d.root []) false

def reverseKeyEnumerator (cmp : κ → κ → Ordering) :
    FImmutableSortedDictionary κ ν → KeyEnumerator κ ν
  | .array d => .array d.keys (d.keys.length - 1) true
  | .tree d => .tree (KeyEnumerator.pushFrom cmp none true d.root []) true

def reverseKeyEnumeratorFrom (cmp : κ → κ → Ordering) (startKey : κ) :
    FImmutableSortedDictionary κ ν → KeyEnumerator κ ν
  | .array d => d.reverseKeyEnumeratorFrom cmp startKey
  | .tree d => .tree (KeyEnumerator.pushFrom cmp (some startKey) true d.root []) true

end FImmutableSortedDictionary

/-! ### Predecessors -/

section Predecessor

variable {cmp : κ → κ → Ordering} [TransCmp cmp]

theorem FLLRBNode.maxKey_eq_getLast? (n : FLLRBNode κ ν) :
    n.maxKey = n.entries.getLast?.map Prod.fst := by
  induction n with
  | empty => rfl
  | node k v c l r ihl ihr =>
    cases r with
    | empty => simp [maxKey]
    | node k' v' c' l' r' =>
      have hright : (node k v c l (node k' v' c' l' r')).maxKey = (node k' v' c' l' r').maxKey :=
        rfl
      rw [hright, ihr]
      simp [List.getLast?_append, List.getLast?_cons]

/-- The key before `key`, if `key` is there. -/
theorem FLLRBNode.getPredecessorKey_eq {n : FLLRBNode κ ν} (hs : Sorted cmp n.entries) (key : κ)
    (rightParent : Option κ) :
    n.getPredecessorKey cmp key rightParent =
      if (lookupEntry cmp key n.entries).isSome then
        .ok (((below cmp key n.entries).getLast?.map Prod.fst).or rightParent)
      else .error ⟨"NonexistentKey", some "getPredecessorKey called with nonexistent key."⟩ := by
  induction n generalizing rightParent with
  | empty => rfl
  | node k v c l r ihl ihr =>
    obtain ⟨hl, hr, hel, her, -⟩ := sorted_append_cons.mp hs
    rw [entries_node] at hs ⊢
    rw [getPredecessorKey, below_append, below_cons]
    cases hk : cmp key k with
    | lt =>
      have habove := her.of_lt hk
      simp [ihl hl, lookupEntry_append_of_lt hs hk, habove.below_eq]
    | eq =>
      have hbelow := hel.of_eq hk
      have habove := her.of_eq hk
      simp only [lookupEntry_append_of_eq hs hk, hbelow.below_eq, habove.below_eq]
      cases l with
      | empty => simp
      | node k' v' c' l' r' => simp [maxKey_eq_getLast?, List.getLast?_append, List.getLast?_cons]
    | gt =>
      have hbelow := hel.of_lt (OrientedCmp.lt_of_gt hk)
      simp only [ihr hr, lookupEntry_append_of_gt hs hk, hbelow.below_eq, if_pos]
      simp only [List.getLast?_append, List.getLast?_cons]
      cases (below cmp key r.entries).getLast? <;> simp

theorem FArraySortedDictionary.getPredecessorKey_eq {d : FArraySortedDictionary κ ν}
    (hs : Sorted cmp d.entries) (key : κ) :
    d.getPredecessorKey cmp key =
      if (lookupEntry cmp key d.entries).isSome then
        .ok ((below cmp key d.entries).getLast?.map Prod.fst)
      else .error ⟨"NSInternalInconsistencyException",
        some "Can't get predecessor key for non-existent key"⟩ := by
  obtain ⟨es, rfl⟩ : ∃ es, d = .ofEntries es := ⟨d.entries, d.ofEntries_entries.symm⟩
  rw [entries_ofEntries] at hs ⊢
  rcases findKey_cases hs key with ⟨hnone, hfind⟩ | ⟨l, e, r, rfl, hk, hfind⟩
  · rw [getPredecessorKey, ofEntries, hfind, hnone]
    rfl
  · obtain ⟨-, -, hel, her, -⟩ := sorted_append_cons.mp hs
    have hbelow : below cmp key (l ++ e :: r) = l := by
      rw [below_append, below_cons, (hel.of_eq hk).below_eq, (her.of_eq hk).below_eq]
      simp [hk]
    rw [getPredecessorKey, ofEntries, hfind, lookupEntry_append_of_eq hs hk, hbelow]
    cases hl : l.length with
    | zero =>
      obtain rfl := List.eq_nil_of_length_eq_zero hl
      rfl
    | succ pos =>
      have hpos : (l ++ e :: r)[pos]? = l.getLast? := by
        rw [List.getElem?_append_left (by omega), List.getLast?_eq_getElem?, hl, Nat.add_sub_cancel]
      simp only [List.getElem?_map, hpos, Option.isSome_some, if_true]

/-- **The key before a key is the last one below it.** -/
theorem getPredecessorKey_is_last_below {d : FImmutableSortedDictionary κ ν}
    (hd : d.WellFormed cmp) (key : κ) :
    ((d.get cmp key).isSome = true →
        d.getPredecessorKey cmp key = .ok ((below cmp key d.entries).getLast?.map Prod.fst)) ∧
      (d.get cmp key = none → ∃ e, d.getPredecessorKey cmp key = .error e) := by
  rw [hd.get_eq_lookupEntry]
  cases d with
  | array d =>
    have heq := FArraySortedDictionary.getPredecessorKey_eq hd.1 key
    exact ⟨fun h => heq.trans (if_pos h),
      fun h => ⟨_, heq.trans (if_neg (Option.not_isSome_iff_eq_none.mpr h))⟩⟩
  | tree d =>
    have heq := FLLRBNode.getPredecessorKey_eq hd.1 key none
    rw [Option.or_none] at heq
    exact ⟨fun h => heq.trans (if_pos h),
      fun h => ⟨_, heq.trans (if_neg (Option.not_isSome_iff_eq_none.mpr h))⟩⟩

/-- The key before 2 in a tree of two entries. -/
theorem getPredecessorKey_is_last_below_two :
    (FImmutableSortedDictionary.tree ⟨.node 2 'b' BLACK (.node 1 'a' RED .empty .empty)
      .empty⟩).getPredecessorKey (compare : ℕ → ℕ → Ordering) 2 = .ok (some 1) := by
  have hwf : (FImmutableSortedDictionary.tree ⟨.node 2 'b' BLACK (.node 1 'a' RED .empty .empty)
      .empty⟩).WellFormed (compare : ℕ → ℕ → Ordering) :=
    ⟨by rw [Sorted]; decide, 1, .black (.red .empty .empty) .empty⟩
  exact (getPredecessorKey_is_last_below hwf 2).1 rfl

end Predecessor

/-! ### The stack of an enumerator -/

namespace KeyEnumerator

/-- The keys of a list in the direction of an enumerator. -/
def directed (isReverse : Bool) (es : List (κ × ν)) : List κ :=
  if isReverse then (es.map Prod.fst).reverse else es.map Prod.fst

/-- The keys still to come: each node on the stack, and what lies behind it. -/
def upcoming (isReverse : Bool) : List (FLLRBNode κ ν) → List κ
  | [] => []
  | .empty :: stack => upcoming isReverse stack
  | .node key _ _ left right :: stack =>
    key :: (directed isReverse (if isReverse then left.entries else right.entries) ++
      upcoming isReverse stack)

theorem upcoming_pushAll (isReverse : Bool) (n : FLLRBNode κ ν) (stack : List (FLLRBNode κ ν)) :
    upcoming isReverse (pushAll isReverse n stack) =
      directed isReverse n.entries ++ upcoming isReverse stack := by
  induction n generalizing stack with
  | empty => cases isReverse <;> rfl
  | node k v c l r ihl ihr =>
    cases isReverse with
    | false => simp [pushAll, ihl, upcoming, directed]
    | true => simp [pushAll, ihr, upcoming, directed]

theorem forall_mem_pushAll (isReverse : Bool) (n : FLLRBNode κ ν) {stack : List (FLLRBNode κ ν)}
    (hstack : ∀ m ∈ stack, m.isEmpty = false) :
    ∀ m ∈ pushAll isReverse n stack, m.isEmpty = false := by
  induction n generalizing stack with
  | empty => exact hstack
  | node k v c l r ihl ihr =>
    have hpush : ∀ m ∈ FLLRBNode.node k v c l r :: stack, m.isEmpty = false :=
      List.forall_mem_cons.mpr ⟨rfl, hstack⟩
    rw [pushAll]
    cases isReverse
    · exact ihl hpush
    · exact ihr hpush

/-- **The enumerator of a tree yields what its stack stands for.** -/
theorem yields_tree (isReverse : Bool) {stack : List (FLLRBNode κ ν)}
    (hstack : ∀ m ∈ stack, m.isEmpty = false) :
    Yields (tree stack isReverse) (upcoming isReverse stack) := by
  generalize hkeys : upcoming isReverse stack = keys
  induction keys generalizing stack with
  | nil =>
    cases stack with
    | nil => rfl
    | cons n stack =>
      obtain ⟨k, v, c, l, r, rfl⟩ :=
        FLLRBNode.exists_node_of_isEmpty_eq_false (hstack n List.mem_cons_self)
      exact absurd hkeys (by simp [upcoming])
  | cons key keys ih =>
    cases stack with
    | nil => exact absurd hkeys (by simp [upcoming])
    | cons n stack =>
      obtain ⟨hn, hrest⟩ := List.forall_mem_cons.mp hstack
      obtain ⟨k, v, c, l, r, rfl⟩ := FLLRBNode.exists_node_of_isEmpty_eq_false hn
      obtain ⟨rfl, htail⟩ := List.cons.inj hkeys
      refine ⟨_, rfl, ih (forall_mem_pushAll isReverse _ hrest) ?_⟩
      rw [upcoming_pushAll, ← htail]
      cases isReverse <;> rfl

section Start

variable {cmp : κ → κ → Ordering} [TransCmp cmp]

/-- The entries from a start key on, in the direction of an enumerator. -/
def startingAt (cmp : κ → κ → Ordering) (isReverse : Bool) (startKey : κ) (es : List (κ × ν)) :
    List (κ × ν) :=
  if isReverse then atMost cmp startKey es else atLeast cmp startKey es

omit [TransCmp cmp] in
variable (cmp) in
theorem forall_mem_pushFrom (startKey : Option κ) (isReverse : Bool) (n : FLLRBNode κ ν)
    {stack : List (FLLRBNode κ ν)} (hstack : ∀ m ∈ stack, m.isEmpty = false) :
    ∀ m ∈ pushFrom cmp startKey isReverse n stack, m.isEmpty = false := by
  induction n generalizing stack with
  | empty => exact hstack
  | node k v c l r ihl ihr =>
    have hpush : ∀ m ∈ FLLRBNode.node k v c l r :: stack, m.isEmpty = false :=
      List.forall_mem_cons.mpr ⟨rfl, hstack⟩
    simp only [pushFrom]
    split
    · split
      · exact ihl hstack
      · exact ihr hstack
    · exact hpush
    · split
      · exact ihr hpush
      · exact ihl hpush

/-- **The stack of a new enumerator stands for the keys from the start key on.** -/
theorem upcoming_pushFrom (startKey : κ) (isReverse : Bool) {n : FLLRBNode κ ν}
    (hs : Sorted cmp n.entries) (stack : List (FLLRBNode κ ν)) :
    upcoming isReverse (pushFrom cmp (some startKey) isReverse n stack) =
      directed isReverse (startingAt cmp isReverse startKey n.entries) ++
        upcoming isReverse stack := by
  induction n generalizing stack with
  | empty => cases isReverse <;> rfl
  | node k v c l r ihl ihr =>
    obtain ⟨hl, hr, hel, her, -⟩ := sorted_append_cons.mp hs
    have hswap : cmp k startKey = (cmp startKey k).swap := OrientedCmp.eq_swap
    simp only [pushFrom, hswap, FLLRBNode.entries_node, startingAt]
    cases hk : cmp startKey k with
    | lt =>
      have habove := her.of_lt hk
      cases isReverse with
      | false =>
        simp [ihl hl, atLeast_append, atLeast_cons, hk, habove.atLeast_eq, upcoming, directed,
          startingAt]
      | true =>
        simp [ihl hl, atMost_append, atMost_cons, hk, habove.atMost_eq, startingAt]
    | eq =>
      have hbelow := hel.of_eq hk
      have habove := her.of_eq hk
      cases isReverse with
      | false =>
        simp [atLeast_append, atLeast_cons, hk, hbelow.atLeast_eq, habove.atLeast_eq, upcoming,
          directed]
      | true =>
        simp [atMost_append, atMost_cons, hk, hbelow.atMost_eq, habove.atMost_eq, upcoming,
          directed]
    | gt =>
      have hbelow := hel.of_lt (OrientedCmp.lt_of_gt hk)
      cases isReverse with
      | false =>
        simp [ihr hr, atLeast_append, atLeast_cons, hk, hbelow.atLeast_eq, startingAt]
      | true =>
        simp [ihr hr, atMost_append, atMost_cons, hk, hbelow.atMost_eq, upcoming, directed,
          startingAt]

omit [TransCmp cmp] in
/-- Without a start key, all keys are still to come. -/
theorem upcoming_pushFrom_none (n : FLLRBNode κ ν) (stack : List (FLLRBNode κ ν)) :
    upcoming false (pushFrom cmp none false n stack) =
      n.entries.map Prod.fst ++ upcoming false stack := by
  induction n generalizing stack with
  | empty => rfl
  | node k v c l r ihl ihr => simp [pushFrom, ihl, upcoming, directed]

omit [TransCmp cmp] in
/-- **Without a start key, a reverse enumerator of a tree pushes nothing.** -/
theorem pushFrom_none_reverse (n : FLLRBNode κ ν) (stack : List (FLLRBNode κ ν)) :
    pushFrom cmp none true n stack = stack := by
  induction n generalizing stack with
  | empty => rfl
  | node k v c l r ihl ihr => simp [pushFrom, ihl]

end Start

/-! ### The position of an enumerator -/

variable (ν) in
theorem yields_array (keys : List κ) (pos : ℕ) :
    Yields (array keys pos false : KeyEnumerator κ ν) (keys.drop pos) := by
  generalize hrest : keys.drop pos = rest
  induction rest generalizing pos with
  | nil =>
    have hlength : keys.length ≤ pos := List.drop_eq_nil_iff.mp hrest
    rw [Yields, nextObject, if_neg (by omega)]
  | cons key rest ih =>
    have hpos : pos < keys.length := by
      by_contra hge
      rw [List.drop_of_length_le (by omega)] at hrest
      exact absurd hrest (by simp)
    have hkey : keys[pos]? = some key := by
      rw [← List.head?_drop, hrest, List.head?_cons]
    refine ⟨array keys (pos + 1 : ℕ) false, ?_, ih (pos + 1) ?_⟩
    · rw [nextObject, if_pos (by omega), Int.toNat_natCast, hkey]
      rfl
    · rw [← List.tail_drop, hrest, List.tail_cons]

variable (ν) in
theorem yields_array_reverse (keys : List κ) {n : ℕ} (hn : n ≤ keys.length) :
    Yields (array keys (n - 1) true : KeyEnumerator κ ν) (keys.take n).reverse := by
  induction n with
  | zero =>
    rw [List.take_zero, List.reverse_nil, Yields, nextObject, if_neg (by omega)]
  | succ n ih =>
    have hkey : keys[n]? = some keys[n] := List.getElem?_eq_getElem _
    rw [List.take_add_one, hkey, Option.toList_some, List.reverse_append, List.reverse_singleton]
    refine ⟨array keys (n - 1) true, ?_, ih (by omega)⟩
    rw [nextObject, if_pos (by omega)]
    simp

end KeyEnumerator

/-! ### The enumerators of a dictionary -/

section Dictionary

open KeyEnumerator

variable {cmp : κ → κ → Ordering} [TransCmp cmp]

theorem FArraySortedDictionary.yields_keyEnumeratorFrom {d : FArraySortedDictionary κ ν}
    (hs : Sorted cmp d.entries) (startKey : κ) :
    Yields (d.keyEnumeratorFrom cmp startKey)
      ((atLeast cmp startKey d.entries).map Prod.fst) := by
  obtain ⟨es, rfl⟩ : ∃ es, d = .ofEntries es := ⟨d.entries, d.ofEntries_entries.symm⟩
  rw [entries_ofEntries] at hs ⊢
  have hdrop : es.drop (below cmp startKey es).length = atLeast cmp startKey es :=
    (congrArg (List.drop _) (below_append_atLeast hs startKey)).symm.trans List.drop_left
  have hyields := yields_array ν (es.map Prod.fst) (below cmp startKey es).length
  rw [← List.map_drop, hdrop] at hyields
  rwa [keyEnumeratorFrom, ofEntries, findInsertPositionForKey_eq hs]

theorem FArraySortedDictionary.yields_reverseKeyEnumeratorFrom {d : FArraySortedDictionary κ ν}
    (hs : Sorted cmp d.entries) (startKey : κ) :
    Yields (d.reverseKeyEnumeratorFrom cmp startKey)
      ((atMost cmp startKey d.entries).map Prod.fst).reverse := by
  obtain ⟨es, rfl⟩ : ∃ es, d = .ofEntries es := ⟨d.entries, d.ofEntries_entries.symm⟩
  rw [entries_ofEntries] at hs ⊢
  have hpos := findInsertPositionForKey_eq hs startKey
  have hkeys : (ofEntries es).keys = es.map Prod.fst := rfl
  rw [reverseKeyEnumeratorFrom, hkeys, hpos]
  rcases findKey_cases hs startKey with ⟨hnone, -⟩ | ⟨l, e, r, rfl, hk, -⟩
  · -- The start key is not there, and the key before its position comes first.
    have hall : ((es.map Prod.fst)[(below cmp startKey es).length]?.all
        fun key => cmp key startKey ≠ .eq) = true := by
      refine (Option.all_eq_true _ _).mpr fun key hkey => ?_
      obtain ⟨e, he, rfl⟩ := List.mem_map.mp (List.mem_of_getElem? hkey)
      have hlookup := lookupEntry_of_mem hs he
      refine decide_eq_true fun heq => ?_
      rw [lookupEntry, Option.map_eq_none_iff, List.find?_eq_none] at hnone
      exact hnone e he (decide_eq_true (OrientedCmp.eq_symm heq))
    have htake : es.take (below cmp startKey es).length = atMost cmp startKey es := by
      rw [atMost_of_lookupEntry_eq_none hnone]
      exact (congrArg (List.take _) (below_append_atLeast hs startKey)).symm.trans List.take_left
    have hyields := yields_array_reverse ν (es.map Prod.fst)
      (n := (below cmp startKey es).length) (by
        rw [List.length_map]
        exact List.length_filter_le ..)
    rw [← List.map_take, htake] at hyields
    rwa [if_pos hall]
  · obtain ⟨-, -, hel, her, -⟩ := sorted_append_cons.mp hs
    have hbelow : below cmp startKey (l ++ e :: r) = l := by
      rw [below_append, below_cons, (hel.of_eq hk).below_eq, (her.of_eq hk).below_eq]
      simp [hk]
    have hmost : atMost cmp startKey (l ++ e :: r) = l ++ [e] := by
      rw [atMost_append, atMost_cons, (hel.of_eq hk).atMost_eq, (her.of_eq hk).atMost_eq]
      simp [hk]
    have hyields := yields_array_reverse ν ((l ++ e :: r).map Prod.fst)
      (n := l.length + 1) (by simp)
    rw [hbelow, hmost, if_neg (by simp [OrientedCmp.eq_symm hk])]
    simpa [List.take_append, List.take_of_length_le] using hyields

/-- **The two kinds of dictionaries enumerate the same keys**, except in reverse from the end. -/
theorem enumerators_yield_keys_in_order {d : FImmutableSortedDictionary κ ν}
    (hd : d.WellFormed cmp) (startKey : κ) :
    (d.keyEnumerator cmp).Yields (d.entries.map Prod.fst) ∧
      (d.keyEnumeratorFrom cmp startKey).Yields
        ((atLeast cmp startKey d.entries).map Prod.fst) ∧
      (d.reverseKeyEnumeratorFrom cmp startKey).Yields
        ((atMost cmp startKey d.entries).map Prod.fst).reverse ∧
      (∀ a, d = .array a → (d.reverseKeyEnumerator cmp).Yields (d.entries.map Prod.fst).reverse) ∧
      ∀ t, d = .tree t → (d.reverseKeyEnumerator cmp).Yields [] := by
  cases d with
  | array d =>
    obtain ⟨hs, -⟩ := hd
    refine ⟨?_, d.yields_keyEnumeratorFrom hs startKey,
      d.yields_reverseKeyEnumeratorFrom hs startKey, fun a _ => ?_,
      fun t ht => absurd ht (by simp)⟩
    · rw [FImmutableSortedDictionary.entries, FArraySortedDictionary.entries,
        List.map_fst_zip d.length_eq.le]
      exact yields_array ν d.keys 0
    · rw [FImmutableSortedDictionary.entries, FArraySortedDictionary.entries,
        List.map_fst_zip d.length_eq.le]
      have hyields := yields_array_reverse ν d.keys (Nat.le_refl _)
      rwa [List.take_length] at hyields
  | tree d =>
    obtain ⟨hs, -⟩ := hd
    refine ⟨?_, ?_, ?_, fun a ha => absurd ha (by simp), fun t _ => ?_⟩
    · have hyields := yields_tree false
        (forall_mem_pushFrom cmp none false d.root (List.forall_mem_nil _))
      rw [upcoming_pushFrom_none, upcoming, List.append_nil] at hyields
      exact hyields
    · have hyields := yields_tree false
        (forall_mem_pushFrom cmp (some startKey) false d.root (List.forall_mem_nil _))
      rw [upcoming_pushFrom startKey false hs, upcoming, List.append_nil] at hyields
      exact hyields
    · have hyields := yields_tree true
        (forall_mem_pushFrom cmp (some startKey) true d.root (List.forall_mem_nil _))
      rw [upcoming_pushFrom startKey true hs, upcoming, List.append_nil] at hyields
      exact hyields
    · rw [FImmutableSortedDictionary.reverseKeyEnumerator, pushFrom_none_reverse]
      rfl

/-- Two entries, in a tree and in an array: only the reverse enumerators without a start key differ.
-/
theorem enumerators_yield_keys_in_order_two :
    (((FImmutableSortedDictionary.tree ⟨.node 2 'b' BLACK (.node 1 'a' RED .empty .empty)
        .empty⟩).keyEnumerator (compare : ℕ → ℕ → Ordering)).Yields [1, 2] ∧
      ((FImmutableSortedDictionary.tree ⟨.node 2 'b' BLACK (.node 1 'a' RED .empty .empty)
        .empty⟩).reverseKeyEnumerator (compare : ℕ → ℕ → Ordering)).Yields []) ∧
    ((FImmutableSortedDictionary.array (.ofEntries [(1, 'a'), (2, 'b')])).keyEnumerator
        (compare : ℕ → ℕ → Ordering)).Yields [1, 2] ∧
      ((FImmutableSortedDictionary.array (.ofEntries [(1, 'a'), (2, 'b')])).reverseKeyEnumerator
        (compare : ℕ → ℕ → Ordering)).Yields [2, 1] ∧
      ((FImmutableSortedDictionary.array (.ofEntries [(1, 'a'), (2, 'b')])).reverseKeyEnumeratorFrom
        (compare : ℕ → ℕ → Ordering) 1).Yields [1] := by
  have htree : (FImmutableSortedDictionary.tree ⟨.node 2 'b' BLACK (.node 1 'a' RED .empty .empty)
      .empty⟩).WellFormed (compare : ℕ → ℕ → Ordering) :=
    ⟨by rw [Sorted]; decide, 1, .black (.red .empty .empty) .empty⟩
  have harray : (FImmutableSortedDictionary.array (.ofEntries [(1, 'a'), (2, 'b')])).WellFormed
      (compare : ℕ → ℕ → Ordering) :=
    ⟨by rw [Sorted]; decide, by decide⟩
  obtain ⟨htreeAll, -, -, -, htreeReverse⟩ := enumerators_yield_keys_in_order htree 1
  obtain ⟨hall, -, hreverseFrom, hreverse, -⟩ := enumerators_yield_keys_in_order harray 1
  exact ⟨⟨htreeAll, htreeReverse _ rfl⟩, hall, hreverse _ rfl, hreverseFrom⟩

end Dictionary

end GuruPractice.FirebaseDatabase
