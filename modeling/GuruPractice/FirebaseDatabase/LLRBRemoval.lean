import GuruPractice.FirebaseDatabase.LLRBBalance

/-!
# Removal from left-leaning red-black trees

Removal relies on the balance of the tree: on its way down it moves red nodes ahead of it, and what
it meets must be there to be moved. This file shows that removal from a balanced tree takes out
exactly the entry of the key, and leaves a balanced tree.

Removal does not color the root red before it descends, and after it has replaced a node by its
successor, it removes the key once more from the subtree that no longer holds it. Neither does harm:
no operation looks at the color of the root (`SameChildren.remove`), and removing a key that is
below a whole subtree leaves the subtree balanced, of the same color
(`Balanced.remove_of_allAbove`).

## Main definitions

* `FirebaseDatabase.FLLRBNode.Shrunk`, `FirebaseDatabase.FLLRBNode.LeftReady`,
  `FirebaseDatabase.FLLRBNode.SameChildren`.

## Main results

* `FirebaseDatabase.FLLRBNode.Balanced.removeMin`, `FirebaseDatabase.FLLRBNode.Balanced.remove`,
  `FirebaseDatabase.FLLRBNode.Balanced.blacken_remove`.
-/

namespace GuruPractice.FirebaseDatabase.FLLRBNode

open Storage Std

variable {κ ν : Type}

/-! ### Moving red nodes down -/

section Move

variable {k k₁ k₂ k₃ : κ} {v v₁ v₂ v₃ : ν} {c : FLLRBColor} {a b d e l r : FLLRBNode κ ν} {h : ℕ}

/-- The left child becomes red. -/
theorem moveRedLeft_of_black (hd : d.isRed = false) :
    (node k v c (node k₁ v₁ BLACK a b) (node k₂ v₂ BLACK d e)).moveRedLeft =
      node k v (!c) (node k₁ v₁ RED a b) (node k₂ v₂ RED d e) := by
  simp [moveRedLeft, colorFlip, hd, RED, BLACK]

/-- The left child gets a red left child, from the left of the right child. -/
theorem moveRedLeft_of_red :
    (node k v c (node k₁ v₁ BLACK a b)
        (node k₂ v₂ BLACK (node k₃ v₃ RED d e) r)).moveRedLeft =
      node k₃ v₃ c (node k v BLACK (node k₁ v₁ RED a b) d) (node k₂ v₂ BLACK e r) := by
  simp [moveRedLeft, colorFlip, rotateLeft, rotateRight, RED, BLACK]

/-- The right child becomes red. -/
theorem moveRedRight_of_black (ha : a.isRed = false) :
    (node k v c (node k₁ v₁ BLACK a b) (node k₂ v₂ BLACK d e)).moveRedRight =
      node k v (!c) (node k₁ v₁ RED a b) (node k₂ v₂ RED d e) := by
  simp [moveRedRight, colorFlip, ha, RED, BLACK]

/-- The right child gets a red right child, from the left of the left child. -/
theorem moveRedRight_of_red :
    (node k v c (node k₁ v₁ BLACK (node k₃ v₃ RED a b) l)
        (node k₂ v₂ BLACK d e)).moveRedRight =
      node k₁ v₁ c (node k₃ v₃ BLACK a b) (node k v BLACK l (node k₂ v₂ RED d e)) := by
  simp [moveRedRight, colorFlip, rotateRight, RED, BLACK]

end Move

/-! ### Descending to the left -/

/-- The number of black nodes that a color stands for. -/
def blackCount (c : FLLRBColor) : ℕ := if c then 0 else 1

section Children

variable {k : κ} {v : ν} {c c' cl : FLLRBColor} {l r n : FLLRBNode κ ν} {h : ℕ}

theorem Balanced.node (hl : Balanced l cl h) (hr : Balanced r BLACK h) (hc : c = RED → cl = BLACK) :
    Balanced (.node k v c l r) c (h + blackCount c) := by
  cases c with
  | false => exact .black hl hr
  | true =>
    obtain rfl := hc rfl
    exact .red hl hr

theorem Balanced.exists_children (hn : Balanced (.node k v c l r) c' h) :
    c' = c ∧ ∃ cl hl, Balanced l cl hl ∧ Balanced r BLACK hl ∧ h = hl + blackCount c ∧
      (c = RED → cl = BLACK) := by
  cases hn with
  | red hl hr => exact ⟨rfl, BLACK, _, hl, hr, rfl, fun _ => rfl⟩
  | black hl hr => exact ⟨rfl, _, _, hl, hr, rfl, fun h => absurd h (by decide)⟩

/-- What removal makes of a tree of color `c`: a tree of the same depth, which is black if the tree
was. -/
def Shrunk (n : FLLRBNode κ ν) (c : FLLRBColor) (h : ℕ) : Prop :=
  ∃ c', Balanced n c' h ∧ (c = BLACK → c' = BLACK)

theorem Shrunk.of_black (hn : Shrunk n BLACK h) : Balanced n BLACK h := by
  obtain ⟨c', hn, hc⟩ := hn
  rwa [hc rfl] at hn

/-- The node with a red node moved to the left, if there is none. -/
def withRedLeft (n : FLLRBNode κ ν) : FLLRBNode κ ν :=
  if !n.left.isEmpty && !n.left.isRed && !n.left.left.isRed then n.moveRedLeft else n

/-- The node with a new left child, repaired. -/
def replaceLeft (n l : FLLRBNode κ ν) : FLLRBNode κ ν :=
  (n.copyWith none none none (some l) none).fixUp

/-- The left child `l` of a node of color `c` is ready: whatever balanced tree of its color and
depth replaces it, the node is repaired to color `c` and depth `h`; and if the node or its left
child was red, removal may go on in `l`. -/
structure LeftReady (n : FLLRBNode κ ν) (c : FLLRBColor) (h : ℕ) (canShrink : Prop) : Prop where
  exists_left : ∃ cl hl, Balanced n.left cl hl ∧
    (∀ l', Balanced l' cl hl → Balanced (n.replaceLeft l') c h) ∧
    (canShrink → (cl = RED ∨ n.left.left.isRed = true) ∧
      ∀ l', Shrunk l' cl hl → Shrunk (n.replaceLeft l') c h)

theorem replaceLeft_node (l' : FLLRBNode κ ν) :
    (FLLRBNode.node k v c l r).replaceLeft l' = (FLLRBNode.node k v c l' r).fixUp := rfl

/-- A left child that is red, or has a red left child, is ready. -/
private theorem leftReady_of_red (hl : Balanced l cl h) (hr : Balanced r BLACK h)
    (hc : c = RED → cl = BLACK) (hred : cl = RED ∨ l.left.isRed = true) (canShrink : Prop) :
    LeftReady (.node k v c l r) c (h + blackCount c) canShrink := by
  refine ⟨⟨cl, h, hl, fun l' hl' => ?_, fun _ => ⟨hred, fun l' hl' => ?_⟩⟩⟩
  · rw [replaceLeft_node, fixUp_of_black_right hl' hr]
    exact .node hl' hr hc
  · obtain ⟨cl', hl', hblack⟩ := hl'
    rw [replaceLeft_node, fixUp_of_black_right hl' hr]
    exact ⟨c, .node hl' hr fun h => hblack (hc h), id⟩

/-- Two black children become red, and the left one is ready. -/
private theorem leftReady_of_black {k₁ k₂ : κ} {v₁ v₂ : ν} {a b d e : FLLRBNode κ ν}
    (ha : Balanced a BLACK h) (hb : Balanced b BLACK h) (hd : Balanced d BLACK h)
    (he : Balanced e BLACK h) {canShrink : Prop} (hcan : canShrink → c = RED) :
    LeftReady (.node k v (!c) (.node k₁ v₁ RED a b) (.node k₂ v₂ RED d e)) c
      (h + 1 + blackCount c) canShrink := by
  refine ⟨⟨RED, h, .red ha hb, fun l' hl' => ?_, fun hs => ⟨Or.inl rfl, fun l' hl' => ?_⟩⟩⟩
  · cases hl' with
    | red ha' hb' =>
      rw [replaceLeft_node, fixUp_of_red_children ha'.isRed_eq, Bool.not_not]
      exact .node (.black ha' hb') (.black hd he) fun _ => rfl
  · obtain ⟨cl', hl', -⟩ := hl'
    obtain rfl := hcan hs
    obtain ⟨c', hn, -⟩ := exists_balanced_fixUp (k := k) (v := v) hl' (.red hd he)
    exact ⟨c', hn, fun h => absurd h (by decide)⟩

theorem withRedLeft_eq_self (h : n.left.isRed = true ∨ n.left.left.isRed = true) :
    n.withRedLeft = n := by
  rcases h with h | h <;> simp [withRedLeft, h]

theorem withRedLeft_eq_moveRedLeft (hempty : n.left.isEmpty = false) (hleft : n.left.isRed = false)
    (hleftleft : n.left.left.isRed = false) : n.withRedLeft = n.moveRedLeft := by
  simp [withRedLeft, hempty, hleft, hleftleft]

/-- **Removal can descend to the left.** -/
theorem Balanced.leftReady (hn : Balanced n c h) (hempty : n.left.isEmpty = false) :
    LeftReady n.withRedLeft c h (c = RED ∨ n.left.isRed = true) := by
  cases n with
  | empty => exact absurd hempty (by simp)
  | node k v c₀ l r =>
    obtain ⟨rfl, cl, hl, hL, hR, rfl, hc⟩ := hn.exists_children
    by_cases hready : l.isRed = true ∨ l.left.isRed = true
    · rw [withRedLeft_eq_self (n := .node k v c l r) hready]
      exact leftReady_of_red hL hR hc (hL.isRed_eq ▸ hready) _
    obtain ⟨hleft, hleftleft⟩ := not_or.mp hready
    have hleft : l.isRed = false := Bool.eq_false_iff.mpr hleft
    have hleftleft : l.left.isRed = false := Bool.eq_false_iff.mpr hleftleft
    rw [withRedLeft_eq_moveRedLeft (n := .node k v c l r) hempty hleft hleftleft]
    cases hL with
    | empty => exact absurd hempty (by simp)
    | red => exact absurd hleft (by simp [RED])
    | @black k₁ v₁ a b ca h ha hb =>
      obtain rfl : ca = BLACK := ha.isRed_eq.symm.trans hleftleft
      cases hR with
      | @black k₂ v₂ d e cd _ hd he =>
        cases hd with
        | empty =>
          rw [moveRedLeft_of_black rfl]
          exact leftReady_of_black ha hb .empty he fun hcan => hcan.resolve_right (by simp [hleft])
        | black hd₁ hd₂ =>
          rw [moveRedLeft_of_black rfl]
          exact leftReady_of_black ha hb (.black hd₁ hd₂) he fun hcan =>
            hcan.resolve_right (by simp [hleft])
        | red hd₁ hd₂ =>
          rw [moveRedLeft_of_red]
          exact leftReady_of_red (.black (.red ha hb) hd₁) (.black hd₂ he) (fun _ => rfl)
            (Or.inr rfl) _

end Children

/-! ### Removing the first entry -/

section RemoveMin

variable {c : FLLRBColor} {n : FLLRBNode κ ν} {h : ℕ}

theorem min_eq_head? (n : FLLRBNode κ ν) : n.min = n.entries.head? := by
  induction n with
  | empty => rfl
  | node k v c l r ihl ihr =>
    cases l with
    | empty => rfl
    | node => simpa [FLLRBNode.min] using ihl

theorem entries_withRedLeft (n : FLLRBNode κ ν) : n.withRedLeft.entries = n.entries :=
  entries_ite fun _ => entries_moveRedLeft n

theorem exists_node_of_entries_ne_nil (hn : n.entries ≠ []) : ∃ k v c l r, n = node k v c l r := by
  cases n with
  | empty => exact absurd rfl hn
  | node k v c l r => exact ⟨k, v, c, l, r, rfl⟩

/-- A tree with a red node at its root or to the left of it is not empty. -/
theorem Balanced.entries_ne_nil (hn : Balanced n c h) (hred : c = RED ∨ n.left.isRed = true) :
    n.entries ≠ [] := by
  cases hn with
  | empty => simp [RED, BLACK] at hred
  | red | black => simp

theorem removeMin_eq (hempty : n.left.isEmpty = false) :
    n.removeMin = n.withRedLeft.replaceLeft n.withRedLeft.left.removeMin := by
  rw [FLLRBNode.removeMin, if_neg (by simp [hempty])]
  simp [withRedLeft, hempty, replaceLeft]

/-- **Removing the first entry.** -/
theorem Balanced.removeMin (hn : Balanced n c h) (hred : c = RED ∨ n.left.isRed = true) :
    Shrunk n.removeMin c h ∧ n.removeMin.entries = n.entries.tail := by
  induction n using FLLRBNode.removeMin.induct generalizing c h with
  | case1 n hleft =>
    rw [FLLRBNode.removeMin, if_pos hleft]
    cases n with
    | empty =>
      cases hn
      exact absurd hred (by simp [RED, BLACK])
    | node k v c₀ l r =>
      obtain ⟨rfl, cl, hl, hL, hR, rfl, hc⟩ := hn.exists_children
      cases l with
      | node => exact absurd hleft (by simp)
      | empty =>
        cases hL
        obtain rfl := hR.eq_empty
        obtain rfl : c = RED := hred.resolve_right (by simp)
        exact ⟨⟨BLACK, .empty, fun _ => rfl⟩, rfl⟩
  | case2 n hleft m =>
    rename_i ih
    have hempty : n.left.isEmpty = false := Bool.eq_false_iff.mpr hleft
    have hm : m = n.withRedLeft := by simp [m, withRedLeft, hempty]
    rw [hm] at ih
    obtain ⟨cl, hl, hbal, -, hcan⟩ := (hn.leftReady hempty).exists_left
    obtain ⟨hredl, hshrink⟩ := hcan hred
    obtain ⟨hmin, hentries⟩ := ih hbal hredl
    rw [removeMin_eq hempty]
    refine ⟨hshrink _ hmin, ?_⟩
    have hne : n.withRedLeft.entries ≠ [] := by
      rw [entries_withRedLeft]
      exact hn.entries_ne_nil hred
    obtain ⟨k, v, c', l, r, hnode⟩ := exists_node_of_entries_ne_nil hne
    rw [← entries_withRedLeft n]
    rw [hnode, left_node] at hentries hbal hredl
    rw [hnode, left_node, replaceLeft_node, entries_fixUp, entries_node, entries_node, hentries,
      List.tail_append_of_ne_nil (hbal.entries_ne_nil hredl)]

end RemoveMin

/-! ### Descending with a key -/

section Descend

variable {cmp : κ → κ → Ordering} {aKey : κ} {n : FLLRBNode κ ν}

/-- The node with a red node moved to the right, if there is none. -/
def withRedRight (n : FLLRBNode κ ν) : FLLRBNode κ ν :=
  if !n.right.isEmpty && !n.right.isRed && !n.right.left.isRed then n.moveRedRight else n

/-- The node with a new right child, repaired. -/
def replaceRight (n r : FLLRBNode κ ν) : FLLRBNode κ ν :=
  (n.copyWith none none none none (some r)).fixUp

/-- Removal at the node or to the right of it. -/
def removeRight (cmp : κ → κ → Ordering) (aKey : κ) (n : FLLRBNode κ ν) : FLLRBNode κ ν :=
  if n.compareTo cmp aKey = .eq then
    if n.right.isEmpty then FLLRBNode.empty
    else
      let m := n.copyWith (n.right.min.map Prod.fst) (n.right.min.map Prod.snd) none none
        (some n.right.removeMin)
      m.replaceRight (m.right.remove cmp aKey)
  else n.replaceRight (n.right.remove cmp aKey)

@[simp] theorem remove_empty : (FLLRBNode.empty : FLLRBNode κ ν).remove cmp aKey = .empty := by
  rw [FLLRBNode.remove, if_pos isEmpty_empty]

theorem remove_of_lt (hempty : n.isEmpty = false) (hlt : n.compareTo cmp aKey = .lt) :
    n.remove cmp aKey = n.withRedLeft.replaceLeft (n.withRedLeft.left.remove cmp aKey) := by
  rw [FLLRBNode.remove, if_neg (by simp [hempty]), if_pos hlt]
  rfl

theorem remove_of_not_lt (hempty : n.isEmpty = false) (hlt : n.compareTo cmp aKey ≠ .lt) :
    n.remove cmp aKey =
      (if n.left.isRed then n.rotateRight else n).withRedRight.removeRight cmp aKey := by
  rw [FLLRBNode.remove, if_neg (by simp [hempty]), if_neg hlt]
  rfl

end Descend

/-! ### Removal -/

section Remove

variable {cmp : κ → κ → Ordering} {aKey : κ} {n : FLLRBNode κ ν} {c : FLLRBColor} {h : ℕ}

/-- Removing a key from `n`, of color `c` and depth `h`, takes out its entry. -/
def Erases (cmp : κ → κ → Ordering) (aKey : κ) (n : FLLRBNode κ ν) (c : FLLRBColor) (h : ℕ) :
    Prop :=
  Shrunk (n.remove cmp aKey) c h ∧ (n.remove cmp aKey).entries = eraseEntry cmp aKey n.entries

theorem entries_replaceLeft {k : κ} {v : ν} {l r : FLLRBNode κ ν} (l' : FLLRBNode κ ν) :
    ((FLLRBNode.node k v c l r).replaceLeft l').entries = l'.entries ++ (k, v) :: r.entries :=
  entries_fixUp _

/-- **Removing a key that is below a whole subtree leaves the subtree balanced.** -/
theorem Balanced.remove_of_allAbove (hn : Balanced n c h) (habove : AllAbove cmp aKey n.entries) :
    Balanced (n.remove cmp aKey) c h ∧ (n.remove cmp aKey).entries = n.entries := by
  induction hsize : n.size using Nat.strong_induction_on generalizing n c h with
  | _ size ih =>
    cases n with
    | empty => exact ⟨by rwa [remove_empty], by rw [remove_empty]⟩
    | node k v c₀ l r =>
      have hlt : (FLLRBNode.node k v c₀ l r).compareTo cmp aKey = .lt := habove (k, v) (by simp)
      rw [remove_of_lt rfl hlt]
      cases hempty : l.isEmpty with
      | true =>
        obtain ⟨rfl, cl, hl, hL, hR, rfl, hc⟩ := hn.exists_children
        have hself : (FLLRBNode.node k v c l r).withRedLeft = .node k v c l r := by
          simp [withRedLeft, hempty]
        cases l with
        | node => exact absurd hempty (by simp)
        | empty =>
          rw [hself, left_node, remove_empty, replaceLeft_node, fixUp_of_black_right hL hR]
          exact ⟨hn, rfl⟩
      | false =>
        obtain ⟨cl, hl, hbal, hkeep, -⟩ := (hn.leftReady hempty).exists_left
        have hsame := entries_withRedLeft (FLLRBNode.node k v c₀ l r)
        have hle : (FLLRBNode.node k v c₀ l r).withRedLeft.size ≤ _ :=
          size_ite_le _ (size_moveRedLeft_le _)
        obtain ⟨k', v', c', l', r', hnode⟩ := exists_node_of_entries_ne_nil
          (n := (FLLRBNode.node k v c₀ l r).withRedLeft) (by rw [hsame]; simp)
        rw [← hsame] at habove
        rw [hnode, left_node] at hbal
        rw [hnode] at habove hle
        obtain ⟨hl', hentries⟩ := ih _ (by simp at hle hsize; omega) hbal
          (fun e he => habove e (by simp [he])) rfl
        rw [← hsame, hnode, left_node, entries_replaceLeft, hentries, ← hnode]
        exact ⟨hkeep _ hl', by rw [hnode]; rfl⟩

variable [TransCmp cmp]

/-- The key of the node that takes the place of `n` is not below the key of `n`. -/
theorem compareTo_withRedLeft (hs : Sorted cmp n.entries) (hlt : n.compareTo cmp aKey = .lt) :
    n.withRedLeft.compareTo cmp aKey = .lt := by
  cases n with
  | empty => exact absurd hlt (by simp [compareTo])
  | node k v c l r =>
    rw [withRedLeft]
    split
    · rw [moveRedLeft]
      split
      · next hred =>
        -- The new node is a red one from the left of the right child.
        have hrl : r.left.isRed = true := by simpa [colorFlip] using hred
        obtain ⟨k', v', c', rl, rr, rfl⟩ :=
          exists_node_of_isEmpty_eq_false (isEmpty_of_isRed_left hrl)
        obtain ⟨k'', v'', l', r', rfl⟩ := exists_node_of_isRed (n := rl) hrl
        obtain ⟨-, -, -, her, -⟩ := sorted_append_cons.mp hs
        have hk : cmp k k'' = .lt := her (k'', v'') (by simp)
        simpa [colorFlip, rotateLeft, rotateRight, compareTo] using TransCmp.lt_trans hlt hk
      · simpa [colorFlip, compareTo] using hlt
    · exact hlt

/-- Removal at a node or to the right of it replaces the right child, and possibly the entry. -/
private theorem removeRight_spec {k : κ} {v : ν} {l r : FLLRBNode κ ν} {cr : FLLRBColor} {hr : ℕ}
    (hR : Balanced r cr hr) (hred : cr = RED ∨ r.left.isRed = true)
    (hs : Sorted cmp (FLLRBNode.node k v c l r).entries) (hk : cmp aKey k ≠ .lt)
    (ih : Erases cmp aKey r cr hr) :
    ∃ k' v' r', Shrunk r' cr hr ∧
      (FLLRBNode.node k v c l r).removeRight cmp aKey = (FLLRBNode.node k' v' c l r').fixUp ∧
      l.entries ++ (k', v') :: r'.entries =
        eraseEntry cmp aKey (FLLRBNode.node k v c l r).entries := by
  obtain ⟨-, hsr, -, her, -⟩ := sorted_append_cons.mp hs
  rw [entries_node] at hs ⊢
  by_cases heq : cmp aKey k = .eq
  · -- The successor takes the place of the entry, and the key is removed from what is left.
    have hne : r.entries ≠ [] := hR.entries_ne_nil hred
    have hempty : r.isEmpty = false := by
      obtain ⟨k', v', c', l', r', rfl⟩ := exists_node_of_entries_ne_nil hne
      rfl
    obtain ⟨⟨c', hmin, hblack⟩, hentries⟩ := hR.removeMin hred
    have habove : AllAbove cmp aKey r.removeMin.entries := by
      intro e he
      rw [hentries] at he
      exact her.of_eq heq e (List.mem_of_mem_tail he)
    obtain ⟨hrem, hsame⟩ := hmin.remove_of_allAbove habove
    obtain ⟨⟨k', v'⟩, es, hes⟩ := List.exists_cons_of_ne_nil hne
    refine ⟨k', v', r.removeMin.remove cmp aKey, ⟨c', hrem, hblack⟩, ?_, ?_⟩
    · rw [removeRight, if_pos (by rwa [compareTo_node])]
      simp [hempty, min_eq_head?, hes, replaceRight]
    · rw [hsame, hentries, eraseEntry_append_of_eq hs heq, hes, List.tail_cons]
  · refine ⟨k, v, r.remove cmp aKey, ih.1, ?_, ?_⟩
    · rw [removeRight, if_neg (by rwa [compareTo_node])]
      rfl
    · have hgt : cmp aKey k = .gt := by
        cases hcmp : cmp aKey k with
        | lt => exact absurd hcmp hk
        | eq => exact absurd hcmp heq
        | gt => rfl
      rw [eraseEntry_append_of_gt hs hgt, ih.2]

/-- A black node with a red right child is what `moveRedRight` hands down. -/
private theorem remove_of_red_right {k : κ} {v : ν} {a b : FLLRBNode κ ν} (ha : Balanced a BLACK h)
    (hb : Balanced b RED h) (hs : Sorted cmp (FLLRBNode.node k v BLACK a b).entries)
    (hk : cmp aKey k ≠ .lt) (ih : Erases cmp aKey b RED h) :
    Erases cmp aKey (.node k v BLACK a b) BLACK (h + 1) := by
  obtain ⟨k', v', b', ⟨c', hb', -⟩, heq, hentries⟩ := removeRight_spec hb (Or.inl rfl) hs hk ih
  have hself : (FLLRBNode.node k v BLACK a b).withRedRight = .node k v BLACK a b := by
    simp [withRedRight, hb.isRed_eq, RED]
  have hrem : (FLLRBNode.node k v BLACK a b).remove cmp aKey =
      (FLLRBNode.node k' v' BLACK a b').fixUp := by
    rw [remove_of_not_lt (n := FLLRBNode.node k v BLACK a b) rfl hk, left_node, ha.isRed_eq,
      if_neg (by decide), hself, heq]
  obtain ⟨c'', hfix, hblack⟩ := exists_balanced_fixUp (k := k') (v := v') ha hb'
  rw [Erases, hrem, entries_fixUp, entries_node]
  exact ⟨⟨c'', hfix, fun _ => hblack rfl⟩, hentries⟩

/-- Removal descends to the left. -/
private theorem remove_left (hn : Balanced n c h) (hred : c = RED ∨ n.left.isRed = true)
    (hs : Sorted cmp n.entries) (hempty : n.left.isEmpty = false)
    (hlt : n.compareTo cmp aKey = .lt)
    (ih : ∀ m : FLLRBNode κ ν, m.size < n.size → ∀ c h, Balanced m c h →
      c = RED ∨ m.left.isRed = true → Sorted cmp m.entries → Erases cmp aKey m c h) :
    Erases cmp aKey n c h := by
  have hn_empty : n.isEmpty = false := by
    cases n with
    | empty => exact absurd hempty (by simp)
    | node => rfl
  obtain ⟨cl, hl, hbal, -, hcan⟩ := (hn.leftReady hempty).exists_left
  obtain ⟨hredl, hshrink⟩ := hcan hred
  have hsame := entries_withRedLeft n
  have hsize : n.withRedLeft.left.size < n.size :=
    size_left_lt (size_ite_le _ (size_moveRedLeft_le n)) hn_empty
  have hlt' := compareTo_withRedLeft hs hlt
  obtain ⟨k, v, c', l, r, hnode⟩ := exists_node_of_entries_ne_nil
    (n := n.withRedLeft) (by rw [hsame]; exact hn.entries_ne_nil hred)
  rw [hnode, compareTo_node] at hlt'
  rw [← hsame, hnode, entries_node] at hs
  rw [hnode, left_node] at hbal hredl hsize
  obtain ⟨hsl, -⟩ := sorted_append_cons.mp hs
  obtain ⟨hl', hentries⟩ := ih l hsize cl hl hbal hredl hsl
  rw [Erases, remove_of_lt hn_empty hlt, hnode, left_node, entries_replaceLeft, ← hsame,
    hentries, ← hnode]
  refine ⟨hshrink _ hl', ?_⟩
  rw [hnode, entries_node, eraseEntry_append_of_lt hs hlt']

/-- A red left child is rotated to the right before removal descends there. -/
private theorem remove_of_red_left {k k₁ : κ} {v v₁ : ν} {a b r : FLLRBNode κ ν}
    (ha : Balanced a BLACK h) (hb : Balanced b BLACK h) (hr : Balanced r BLACK h)
    (hs : Sorted cmp (FLLRBNode.node k v BLACK (.node k₁ v₁ RED a b) r).entries)
    (hk : cmp aKey k ≠ .lt) (ih : Erases cmp aKey (.node k v RED b r) RED h) :
    Erases cmp aKey (.node k v BLACK (.node k₁ v₁ RED a b) r) BLACK (h + 1) := by
  have hassoc : (FLLRBNode.node k v BLACK (.node k₁ v₁ RED a b) r).entries =
      (FLLRBNode.node k₁ v₁ BLACK a (.node k v RED b r)).entries := by simp
  have hk₁ : cmp k₁ k = .lt := by
    rw [hassoc] at hs
    obtain ⟨-, -, -, her, -⟩ := sorted_append_cons.mp hs
    exact her (k, v) (by simp)
  have hgt : cmp aKey k₁ ≠ .lt := fun hlt => hk (TransCmp.lt_trans hlt hk₁)
  obtain ⟨k', v', r', ⟨c', hr', -⟩, heq, hentries⟩ :=
    removeRight_spec (.red hb hr) (Or.inl rfl) (hassoc ▸ hs) hgt ih
  have hself : (FLLRBNode.node k₁ v₁ BLACK a (.node k v RED b r)).withRedRight =
      .node k₁ v₁ BLACK a (.node k v RED b r) := by
    simp [withRedRight, RED]
  have hrem : (FLLRBNode.node k v BLACK (.node k₁ v₁ RED a b) r).remove cmp aKey =
      (FLLRBNode.node k' v' BLACK a r').fixUp := by
    rw [remove_of_not_lt (n := FLLRBNode.node k v BLACK (.node k₁ v₁ RED a b) r) rfl hk, left_node,
      isRed_node, if_pos (show RED = true from rfl)]
    exact (congrArg (removeRight cmp aKey) hself).trans heq
  obtain ⟨c'', hfix, hblack⟩ := exists_balanced_fixUp (k := k') (v := v') ha hr'
  rw [Erases, hrem, entries_fixUp, entries_node, hassoc]
  exact ⟨⟨c'', hfix, fun _ => hblack rfl⟩, hentries⟩

/-- Two black children become red before removal descends to the right. -/
private theorem removeRight_of_black {k k₁ k₂ : κ} {v v₁ v₂ : ν} {a b d e : FLLRBNode κ ν}
    (ha : Balanced a BLACK h) (hb : Balanced b BLACK h) (hd : Balanced d BLACK h)
    (he : Balanced e BLACK h)
    (hs : Sorted cmp (FLLRBNode.node k v RED (.node k₁ v₁ BLACK a b)
      (.node k₂ v₂ BLACK d e)).entries) (hk : cmp aKey k ≠ .lt)
    (ih : Erases cmp aKey (.node k₂ v₂ RED d e) RED h) :
    Shrunk (removeRight cmp aKey (.node k v BLACK (.node k₁ v₁ RED a b) (.node k₂ v₂ RED d e)))
        RED (h + 1) ∧
      (removeRight cmp aKey
        (.node k v BLACK (.node k₁ v₁ RED a b) (.node k₂ v₂ RED d e))).entries =
        eraseEntry cmp aKey (FLLRBNode.node k v RED (.node k₁ v₁ BLACK a b)
          (.node k₂ v₂ BLACK d e)).entries := by
  obtain ⟨k', v', r', ⟨c', hr', -⟩, heq, hentries⟩ :=
    removeRight_spec (c := BLACK) (l := .node k₁ v₁ RED a b) (.red hd he) (Or.inl rfl) hs hk ih
  obtain ⟨c'', hfix, -⟩ := exists_balanced_fixUp (k := k') (v := v') (.red ha hb) hr'
  rw [heq, entries_fixUp, entries_node]
  exact ⟨⟨c'', hfix, fun h => absurd h (by decide)⟩, hentries⟩

/-- A red node comes over from the left child before removal descends to the right. -/
private theorem removeRight_of_red {k k₁ k₂ k₃ : κ} {v v₁ v₂ v₃ : ν}
    {a b l d e : FLLRBNode κ ν} (ha : Balanced a BLACK h) (hb : Balanced b BLACK h)
    (hl : Balanced l BLACK h) (hd : Balanced d BLACK h) (he : Balanced e BLACK h)
    (hs : Sorted cmp (FLLRBNode.node k v RED (.node k₁ v₁ BLACK (.node k₃ v₃ RED a b) l)
      (.node k₂ v₂ BLACK d e)).entries) (hk : cmp aKey k ≠ .lt)
    (ih : Erases cmp aKey (.node k₂ v₂ RED d e) RED h) :
    Shrunk (removeRight cmp aKey (.node k₁ v₁ RED (.node k₃ v₃ BLACK a b)
        (.node k v BLACK l (.node k₂ v₂ RED d e)))) RED (h + 1) ∧
      (removeRight cmp aKey (.node k₁ v₁ RED (.node k₃ v₃ BLACK a b)
        (.node k v BLACK l (.node k₂ v₂ RED d e)))).entries =
        eraseEntry cmp aKey (FLLRBNode.node k v RED (.node k₁ v₁ BLACK (.node k₃ v₃ RED a b) l)
          (.node k₂ v₂ BLACK d e)).entries := by
  have hassoc : (FLLRBNode.node k v RED (.node k₁ v₁ BLACK (.node k₃ v₃ RED a b) l)
      (.node k₂ v₂ BLACK d e)).entries = (FLLRBNode.node k₃ v₃ BLACK a b).entries ++
        (k₁, v₁) :: (FLLRBNode.node k v BLACK l (.node k₂ v₂ RED d e)).entries := by
    simp
  rw [hassoc] at hs ⊢
  obtain ⟨-, hsr, -, her, -⟩ := sorted_append_cons.mp hs
  have hgt : cmp aKey k₁ = .gt := by
    have hk₁ : cmp k₁ k = .lt := her (k, v) (by simp)
    have hne : cmp aKey k₁ ≠ .lt := fun hlt => hk (TransCmp.lt_trans hlt hk₁)
    have hne' : cmp aKey k₁ ≠ .eq := fun heq => hk (TransCmp.lt_of_eq_of_lt heq hk₁)
    cases hcmp : cmp aKey k₁ with
    | lt => exact absurd hcmp hne
    | eq => exact absurd hcmp hne'
    | gt => rfl
  obtain ⟨hr', hentries⟩ := remove_of_red_right hl (.red hd he) hsr hk ih
  have hfix : removeRight cmp aKey (.node k₁ v₁ RED (.node k₃ v₃ BLACK a b)
      (.node k v BLACK l (.node k₂ v₂ RED d e))) = (FLLRBNode.node k₁ v₁ RED
        (.node k₃ v₃ BLACK a b) ((FLLRBNode.node k v BLACK l (.node k₂ v₂ RED d e)).remove cmp
          aKey)).fixUp := by
    rw [removeRight, if_neg (by simp [hgt])]
    rfl
  rw [hfix, fixUp_of_black_right (.black ha hb) hr'.of_black, entries_node,
    eraseEntry_append_of_gt hs hgt, hentries]
  exact ⟨⟨RED, .red (.black ha hb) hr'.of_black, id⟩, rfl⟩

theorem withRedRight_eq_moveRedRight (hempty : n.right.isEmpty = false)
    (hright : n.right.isRed = false) (hrightleft : n.right.left.isRed = false) :
    n.withRedRight = n.moveRedRight := by
  simp [withRedRight, hempty, hright, hrightleft]

/-- Removal from a red node, at the node or to the right of it. -/
private theorem remove_right {k : κ} {v : ν} {l r : FLLRBNode κ ν} (hl : Balanced l BLACK h)
    (hr : Balanced r BLACK h) (hs : Sorted cmp (FLLRBNode.node k v RED l r).entries)
    (hk : cmp aKey k ≠ .lt)
    (ih : ∀ m : FLLRBNode κ ν, m.size < (FLLRBNode.node k v RED l r).size → ∀ c h,
      Balanced m c h → c = RED ∨ m.left.isRed = true → Sorted cmp m.entries →
        Erases cmp aKey m c h) :
    Erases cmp aKey (.node k v RED l r) RED h := by
  have hgo := remove_of_not_lt (n := FLLRBNode.node k v RED l r) rfl hk
  rw [left_node, hl.isRed_eq, if_neg (by decide)] at hgo
  obtain ⟨-, hsr, -, -, -⟩ := sorted_append_cons.mp hs
  cases hr with
  | empty =>
    obtain rfl := hl.eq_empty
    have hself : (FLLRBNode.node k v RED .empty .empty).withRedRight =
        .node k v RED .empty .empty := rfl
    rw [Erases, hgo, hself, removeRight, compareTo_node]
    by_cases heq : cmp aKey k = .eq
    · rw [if_pos heq, right_node, isEmpty_empty, if_pos rfl]
      exact ⟨⟨BLACK, .empty, fun _ => rfl⟩, by simp [eraseEntry, heq]⟩
    · rw [if_neg heq, right_node, remove_empty]
      exact ⟨⟨RED, .red .empty .empty, id⟩, by simp [eraseEntry, heq]; rfl⟩
  | @black k₂ v₂ d e cd h hd he =>
    by_cases hdred : d.isRed = true
    · have hself : (FLLRBNode.node k v RED l (.node k₂ v₂ BLACK d e)).withRedRight =
          .node k v RED l (.node k₂ v₂ BLACK d e) := by
        simp [withRedRight, hdred]
      obtain ⟨k', v', r', hr', heq, hentries⟩ := removeRight_spec (.black hd he) (Or.inr hdred) hs
        hk (ih _ (by simp) _ _ (.black hd he) (Or.inr hdred) hsr)
      rw [Erases, hgo, hself, heq, entries_fixUp, entries_node,
        fixUp_of_black_right hl hr'.of_black]
      exact ⟨⟨RED, .red hl hr'.of_black, id⟩, hentries⟩
    · obtain rfl : cd = BLACK := hd.isRed_eq.symm.trans (Bool.eq_false_iff.mpr hdred)
      have hmove := withRedRight_eq_moveRedRight
        (n := FLLRBNode.node k v RED l (.node k₂ v₂ BLACK d e)) rfl rfl
        (Bool.eq_false_iff.mpr hdred)
      rw [Erases, hgo, hmove]
      have ihr : Erases cmp aKey (.node k₂ v₂ RED d e) RED h :=
        ih _ (by simp) _ _ (.red hd he) (Or.inl rfl) hsr
      cases hl with
      | @black k₁ v₁ a b ca _ ha hb =>
        cases ca with
        | true =>
          cases ha with
          | red ha₁ ha₂ =>
            rw [moveRedRight_of_red]
            exact removeRight_of_red ha₁ ha₂ hb hd he hs hk ihr
        | false =>
          rw [moveRedRight_of_black ha.isRed_eq]
          exact removeRight_of_black ha hb hd he hs hk ihr

/-- **Removal.** -/
theorem Balanced.remove (hn : Balanced n c h) (hred : c = RED ∨ n.left.isRed = true)
    (hs : Sorted cmp n.entries) (aKey : κ) : Erases cmp aKey n c h := by
  induction hsize : n.size using Nat.strong_induction_on generalizing n c h with
  | _ size ih =>
    subst hsize
    replace ih := fun (m : FLLRBNode κ ν) hm c h (hmb : Balanced m c h) hmr hms =>
      @ih m.size hm m c h hmb hmr hms rfl
    cases n with
    | empty =>
      cases hn
      exact absurd hred (by simp [RED, BLACK])
    | node k v c₀ l r =>
      obtain ⟨rfl, cl, hl, hL, hR, rfl, hc⟩ := hn.exists_children
      by_cases hlt : cmp aKey k = .lt
      · cases hempty : l.isEmpty with
        | false => exact remove_left hn hred hs hempty hlt ih
        | true =>
          have habove : AllAbove cmp aKey (FLLRBNode.node k v c l r).entries := by
            cases l with
            | node => exact absurd hempty (by simp)
            | empty =>
              obtain ⟨-, -, -, her, -⟩ := sorted_append_cons.mp hs
              exact List.forall_mem_cons.mpr ⟨hlt, her.of_lt hlt⟩
          obtain ⟨hb, hentries⟩ := hn.remove_of_allAbove habove
          exact ⟨⟨c, hb, id⟩, hentries.trans habove.eraseEntry_eq.symm⟩
      · cases c with
        | true =>
          obtain rfl := hc rfl
          exact remove_right hL hR hs hlt ih
        | false =>
          have hlred : l.isRed = true := hred.resolve_left (by decide)
          cases hL with
          | empty => exact absurd hlred (by simp)
          | black => exact absurd hlred (by simp [BLACK])
          | red ha hb =>
            refine remove_of_red_left ha hb hR hs hlt (ih _ ?_ _ _ (.red hb hR) (Or.inl rfl) ?_)
            · simp
            · rw [entries_node, entries_node, List.append_assoc, List.cons_append] at hs
              exact (sorted_append_cons.mp hs).2.1

end Remove

/-! ### The color of the root -/

/-- The same node up to its color. -/
inductive SameChildren : FLLRBNode κ ν → FLLRBNode κ ν → Prop
  | empty : SameChildren empty empty
  | node (k v c c' l r) : SameChildren (node k v c l r) (node k v c' l r)

namespace SameChildren

variable {m n : FLLRBNode κ ν}

theorem refl (n : FLLRBNode κ ν) : SameChildren n n := by
  cases n with
  | empty => exact .empty
  | node => exact .node ..

theorem left_eq (h : SameChildren m n) : m.left = n.left := by
  cases h <;> rfl

theorem right_eq (h : SameChildren m n) : m.right = n.right := by
  cases h <;> rfl

theorem isEmpty_eq (h : SameChildren m n) : m.isEmpty = n.isEmpty := by
  cases h <;> rfl

theorem compareTo_eq (h : SameChildren m n) (cmp : κ → κ → Ordering) (aKey : κ) :
    m.compareTo cmp aKey = n.compareTo cmp aKey := by
  cases h <;> rfl

theorem blacken_eq (h : SameChildren m n) : m.blacken = n.blacken := by
  cases h <;> rfl

theorem copyWith (h : SameChildren m n) (k : Option κ) (v : Option ν)
    (l r : Option (FLLRBNode κ ν)) :
    SameChildren (m.copyWith k v none l r) (n.copyWith k v none l r) := by
  cases h with
  | empty => exact .empty
  | node => exact .node ..

/-- A copy of one node with two colors. -/
theorem copyWith_color (n : FLLRBNode κ ν) (c c' : FLLRBColor) (l r : Option (FLLRBNode κ ν)) :
    SameChildren (n.copyWith none none (some c) l r) (n.copyWith none none (some c') l r) := by
  cases n with
  | empty => exact .empty
  | node => exact .node ..

theorem rotateLeft (h : SameChildren m n) : SameChildren m.rotateLeft n.rotateLeft := by
  cases h with
  | empty => exact .refl _
  | node k v c c' l r => exact copyWith_color r c c' _ none

theorem rotateRight (h : SameChildren m n) : SameChildren m.rotateRight n.rotateRight := by
  cases h with
  | empty => exact .refl _
  | node k v c c' l r => exact copyWith_color l c c' none _

theorem colorFlip (h : SameChildren m n) : SameChildren m.colorFlip n.colorFlip := by
  cases h with
  | empty => exact .refl _
  | node => exact .node ..

/-- A case distinction on the children. -/
theorem ite (h : SameChildren m n) {f : FLLRBNode κ ν → FLLRBNode κ ν}
    (hf : SameChildren (f m) (f n)) {p : FLLRBNode κ ν → Bool} (hp : p m = p n) :
    SameChildren (if p m then f m else m) (if p n then f n else n) := by
  rw [hp]
  cases p n
  · exact h
  · exact hf

theorem fixUp (h : SameChildren m n) : SameChildren m.fixUp n.fixUp := by
  have h₁ := h.ite h.rotateLeft (p := fun n => n.right.isRed && !n.left.isRed)
    (by simp only [h.left_eq, h.right_eq])
  have h₂ := h₁.ite h₁.rotateRight (p := fun n => n.left.isRed && n.left.left.isRed)
    (by simp only [h₁.left_eq])
  exact h₂.ite h₂.colorFlip (p := fun n => n.left.isRed && n.right.isRed)
    (by simp only [h₂.left_eq, h₂.right_eq])

theorem moveRedLeft (h : SameChildren m n) : SameChildren m.moveRedLeft n.moveRedLeft := by
  have hflip := h.colorFlip
  refine hflip.ite (f := fun n => (n.copyWith none none none none
    (some n.right.rotateRight)).rotateLeft.colorFlip) ?_ (p := fun n => n.right.left.isRed)
    (by simp only [hflip.right_eq])
  simp only [hflip.right_eq]
  exact (hflip.copyWith ..).rotateLeft.colorFlip

theorem moveRedRight (h : SameChildren m n) : SameChildren m.moveRedRight n.moveRedRight :=
  h.colorFlip.ite (f := fun n => n.rotateRight.colorFlip) h.colorFlip.rotateRight.colorFlip
    (p := fun n => n.left.left.isRed) (by simp only [h.colorFlip.left_eq])

theorem withRedLeft (h : SameChildren m n) : SameChildren m.withRedLeft n.withRedLeft :=
  h.ite h.moveRedLeft
    (p := fun n => !n.left.isEmpty && !n.left.isRed && !n.left.left.isRed)
    (by simp only [h.left_eq])

theorem withRedRight (h : SameChildren m n) : SameChildren m.withRedRight n.withRedRight :=
  h.ite h.moveRedRight
    (p := fun n => !n.right.isEmpty && !n.right.isRed && !n.right.left.isRed)
    (by simp only [h.right_eq])

theorem removeRight (h : SameChildren m n) (cmp : κ → κ → Ordering) (aKey : κ) :
    SameChildren (m.removeRight cmp aKey) (n.removeRight cmp aKey) := by
  rw [FLLRBNode.removeRight, FLLRBNode.removeRight, h.compareTo_eq, h.right_eq]
  split
  · split
    · exact .empty
    · have hcopy := h.copyWith (n.right.min.map Prod.fst) (n.right.min.map Prod.snd) none
        (some n.right.removeMin)
      simp only [hcopy.right_eq, replaceRight]
      exact (hcopy.copyWith ..).fixUp
  · exact (h.copyWith ..).fixUp

/-- **Removal does not look at the color of the root.** -/
theorem remove (h : SameChildren m n) (cmp : κ → κ → Ordering) (aKey : κ) :
    SameChildren (m.remove cmp aKey) (n.remove cmp aKey) := by
  cases hempty : n.isEmpty with
  | true =>
    cases h with
    | empty => exact .refl _
    | node => exact absurd hempty (by simp)
  | false =>
    by_cases hlt : n.compareTo cmp aKey = .lt
    · rw [remove_of_lt hempty hlt, remove_of_lt (h.isEmpty_eq.trans hempty)
        ((h.compareTo_eq cmp aKey).trans hlt), h.withRedLeft.left_eq]
      exact (h.withRedLeft.copyWith ..).fixUp
    · rw [remove_of_not_lt hempty hlt, remove_of_not_lt (h.isEmpty_eq.trans hempty)
        (by rwa [h.compareTo_eq])]
      exact (h.ite h.rotateRight (p := fun n => n.left.isRed)
        (by simp only [h.left_eq])).withRedRight.removeRight cmp aKey

end SameChildren

/-- **Removal from the root takes out exactly the entry of the key.** -/
theorem Balanced.blacken_remove {cmp : κ → κ → Ordering} [TransCmp cmp] {n : FLLRBNode κ ν} {h : ℕ}
    (hn : Balanced n BLACK h) (hs : Sorted cmp n.entries) (aKey : κ) :
    (∃ h', Balanced (n.remove cmp aKey).blacken BLACK h') ∧
      (n.remove cmp aKey).blacken.entries = eraseEntry cmp aKey n.entries := by
  rw [entries_blacken]
  cases hn with
  | empty =>
    rw [remove_empty]
    exact ⟨⟨0, .empty⟩, rfl⟩
  | @black k v l r c h hl hr =>
    cases c with
    | true =>
      obtain ⟨⟨c', hrem, -⟩, hentries⟩ := (Balanced.black (k := k) (v := v) hl hr).remove
        (Or.inr hl.isRed_eq) hs aKey
      exact ⟨hrem.blacken, hentries⟩
    | false =>
      -- The root may as well be red.
      obtain ⟨⟨c', hrem, -⟩, hentries⟩ := (Balanced.red (k := k) (v := v) hl hr).remove
        (Or.inl rfl) hs aKey
      have hsame := (SameChildren.node k v BLACK RED l r).remove cmp aKey
      rw [hsame.blacken_eq, ← entries_blacken, hsame.blacken_eq, entries_blacken]
      exact ⟨hrem.blacken, hentries⟩

end GuruPractice.FirebaseDatabase.FLLRBNode
