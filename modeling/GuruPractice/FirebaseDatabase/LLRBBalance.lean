import Mathlib.Algebra.Group.Int.Defs
import Mathlib.Algebra.Group.Nat.Defs
import GuruPractice.FirebaseDatabase.LLRBNode

/-!
# Balance of left-leaning red-black trees

The source checks its trees with `check`: no red node has a red left child, no right child is red,
and every path has the same number of black nodes. This file shows what repairing a node does to a
tree that passes the check, and that insertion keeps such a tree.

## Main definitions

* `FirebaseDatabase.FLLRBNode.check`, `FirebaseDatabase.FLLRBNode.checkMaxDepth`.
* `FirebaseDatabase.FLLRBNode.Balanced` — the trees that pass the check.

## Main results

* `FirebaseDatabase.FLLRBNode.check_eq_some_iff`.
* `FirebaseDatabase.FLLRBNode.Balanced.checkMaxDepth_eq` — when `checkMaxDepth` is right.
* `FirebaseDatabase.FLLRBNode.Balanced.blacken_insertKey`.
-/

namespace GuruPractice.FirebaseDatabase.FLLRBNode

open Storage Std

variable {κ ν : Type}

/-! ### The check -/

/-- The number of black nodes on every path; `none` when the check throws. A tree that passes has
`2 ^ d - 1` nodes at least for the number `d`, so that an `int` holds it. -/
def check : FLLRBNode κ ν → Option ℕ
  | empty => some 0
  | node _ _ color left right =>
    if color && left.isRed then none -- "Red node has a red child"
    else if right.isRed then none -- "Right child is red"
    else do
      let blackDepth ← left.check
      let blackDepth' ← right.check
      if blackDepth ≠ blackDepth' then none
      else some (blackDepth + if color then 0 else 1)

/-- A tree that passes the check, with its color and the number of black nodes on its paths. -/
inductive Balanced : FLLRBNode κ ν → FLLRBColor → ℕ → Prop
  | empty : Balanced empty BLACK 0
  | red {k v l r h} (hl : Balanced l BLACK h) (hr : Balanced r BLACK h) :
    Balanced (node k v RED l r) RED h
  | black {k v l r c h} (hl : Balanced l c h) (hr : Balanced r BLACK h) :
    Balanced (node k v BLACK l r) BLACK (h + 1)

theorem Balanced.isRed_eq {n : FLLRBNode κ ν} {c : FLLRBColor} {h : ℕ} (hn : Balanced n c h) :
    n.isRed = c := by
  cases hn <;> rfl

/-- A black tree with no black nodes on its paths is empty. -/
theorem Balanced.eq_empty {n : FLLRBNode κ ν} (hn : Balanced n BLACK 0) : n = .empty := by
  cases hn
  rfl

/-- The balanced trees are those that pass the check. -/
theorem check_eq_some_iff {n : FLLRBNode κ ν} {h : ℕ} :
    n.check = some h ↔ ∃ c, Balanced n c h := by
  induction n generalizing h with
  | empty =>
    constructor
    · intro hcheck
      obtain rfl := Option.some.inj hcheck
      exact ⟨BLACK, .empty⟩
    · rintro ⟨c, hn⟩
      cases hn
      rfl
  | node k v c l r ihl ihr =>
    constructor
    · intro hcheck
      obtain ⟨hred, hright, dl, hdl, dr, hdr, heq, rfl⟩ : ¬(c = true ∧ l.isRed = true) ∧
          ¬r.isRed = true ∧ ∃ dl, l.check = some dl ∧ ∃ dr, r.check = some dr ∧ dl = dr ∧
            dl + (if c then 0 else 1) = h := by
        simpa [check, Option.bind_eq_some_iff] using hcheck
      obtain ⟨cl, hl⟩ := ihl.mp hdl
      obtain ⟨cr, hr⟩ := ihr.mp (heq ▸ hdr)
      obtain rfl : cr = BLACK := hr.isRed_eq.symm.trans (Bool.eq_false_iff.mpr hright)
      cases c with
      | false => exact ⟨BLACK, .black hl hr⟩
      | true =>
        obtain rfl : cl = BLACK :=
          hl.isRed_eq.symm.trans (Bool.eq_false_iff.mpr fun h => hred ⟨rfl, h⟩)
        exact ⟨RED, .red hl hr⟩
    · rintro ⟨c, hn⟩
      cases hn with
      | red hl hr =>
        simp [check, hl.isRed_eq, hr.isRed_eq, ihl.mpr ⟨_, hl⟩, ihr.mpr ⟨_, hr⟩, RED, BLACK]
      | black hl hr =>
        simp [check, hl.isRed_eq, hr.isRed_eq, ihl.mpr ⟨_, hl⟩, ihr.mpr ⟨_, hr⟩, BLACK]

theorem Balanced.isSome_check {n : FLLRBNode κ ν} {c : FLLRBColor} {h : ℕ} (hn : Balanced n c h) :
    n.check.isSome = true :=
  Option.isSome_iff_exists.mpr ⟨h, check_eq_some_iff.mpr ⟨c, hn⟩⟩

section FixUp

variable {k : κ} {v : ν} {c cl cr : FLLRBColor} {l r : FLLRBNode κ ν} {h : ℕ}

/-- A node whose right child is black and that has no two red nodes in a row is in order. -/
theorem fixUp_eq_self (hr : r.isRed = false) (hl : l.isRed = true → l.left.isRed = false) :
    (node k v c l r).fixUp = node k v c l r := by
  cases hlr : l.isRed <;> simp_all [fixUp]

theorem Balanced.left_isRed_eq (hl : Balanced l cl h) (hred : l.isRed = true) :
    l.left.isRed = false := by
  cases hl with
  | empty => rfl
  | red hll hlr => exact hll.isRed_eq
  | black hll hlr => exact absurd hred (by simp [BLACK])

theorem fixUp_of_black_right (hl : Balanced l cl h) (hr : Balanced r BLACK h) :
    (node k v c l r).fixUp = node k v c l r :=
  fixUp_eq_self hr.isRed_eq hl.left_isRed_eq

/-- A red right child is rotated to the left. -/
theorem fixUp_of_red_right {k' : κ} {v' : ν} {rl rr : FLLRBNode κ ν} (hl : l.isRed = false)
    (hrr : rr.isRed = false) :
    (node k v c l (node k' v' RED rl rr)).fixUp = node k' v' c (node k v RED l rl) rr := by
  simp [fixUp, hl, hrr, rotateLeft, RED]

/-- Two red children give their color to their parent. -/
theorem fixUp_of_red_children {k₁ k₂ : κ} {v₁ v₂ : ν} {ll lr rl rr : FLLRBNode κ ν}
    (hll : ll.isRed = false) :
    (node k v c (node k₁ v₁ RED ll lr) (node k₂ v₂ RED rl rr)).fixUp =
      node k v (!c) (node k₁ v₁ BLACK ll lr) (node k₂ v₂ BLACK rl rr) := by
  simp [fixUp, hll, colorFlip, RED, BLACK]

/-- A black node with balanced children is repaired. -/
theorem exists_balanced_fixUp (hl : Balanced l cl h) (hr : Balanced r cr h) :
    ∃ c, Balanced (node k v BLACK l r).fixUp c (h + 1) ∧ (cl = BLACK → c = BLACK) := by
  cases hr with
  | empty =>
    rw [fixUp_of_black_right hl .empty]
    exact ⟨BLACK, .black hl .empty, fun _ => rfl⟩
  | black hrl hrr =>
    rw [fixUp_of_black_right hl (.black hrl hrr)]
    exact ⟨BLACK, .black hl (.black hrl hrr), fun _ => rfl⟩
  | red hrl hrr =>
    cases hl with
    | red hll hlr =>
      rw [fixUp_of_red_children hll.isRed_eq]
      exact ⟨RED, .red (.black hll hlr) (.black hrl hrr), fun h => absurd h (by decide)⟩
    | empty =>
      rw [fixUp_of_red_right rfl hrr.isRed_eq]
      exact ⟨BLACK, .black (.red .empty hrl) hrr, fun _ => rfl⟩
    | black hll hlr =>
      rw [fixUp_of_red_right rfl hrr.isRed_eq]
      exact ⟨BLACK, .black (.red (.black hll hlr) hrl) hrr, fun _ => rfl⟩

/-- Two red nodes in a row on the left are rotated to the right. -/
theorem fixUp_of_red_left {k₁ k₂ : κ} {v₁ v₂ : ν} {ll lr lm : FLLRBNode κ ν}
    (hr : r.isRed = false) :
    (node k v c (node k₁ v₁ RED (node k₂ v₂ RED ll lm) lr) r).fixUp =
      node k₁ v₁ (!c) (node k₂ v₂ BLACK ll lm) (node k v BLACK lr r) := by
  simp [fixUp, hr, rotateRight, colorFlip, RED, BLACK]

end FixUp

/-! ### Insertion -/

/-- A red node with a red left child, and no other fault. -/
inductive LeftRed : FLLRBNode κ ν → ℕ → Prop
  | mk {k v l r h} (hl : Balanced l RED h) (hr : Balanced r BLACK h) : LeftRed (node k v RED l r) h

section Insert

variable {c : FLLRBColor} {n : FLLRBNode κ ν} {h : ℕ}

/-- The tree with a black root. -/
def blacken (n : FLLRBNode κ ν) : FLLRBNode κ ν := n.copyWith none none (some BLACK) none none

theorem entries_blacken (n : FLLRBNode κ ν) : n.blacken.entries = n.entries :=
  entries_copyWith_color n _

theorem Balanced.blacken (hn : Balanced n c h) : ∃ h', Balanced n.blacken BLACK h' := by
  cases hn with
  | empty => exact ⟨0, .empty⟩
  | red hl hr => exact ⟨_, .black hl hr⟩
  | black hl hr => exact ⟨_, .black hl hr⟩

theorem LeftRed.blacken (hn : LeftRed n h) : ∃ h', Balanced n.blacken BLACK h' := by
  obtain ⟨hl, hr⟩ := hn
  exact ⟨_, .black hl hr⟩

/-- A red node one of whose children has been inserted into. -/
private theorem fixUp_red_of_inserted {k : κ} {v : ν} {l r : FLLRBNode κ ν} {cl cr : FLLRBColor}
    (hl : Balanced l cl h) (hr : Balanced r cr h) (hblack : cl = BLACK ∨ cr = BLACK) :
    (∃ c, Balanced (node k v RED l r).fixUp c h) ∨ LeftRed (node k v RED l r).fixUp h := by
  cases cr with
  | false =>
    rw [fixUp_of_black_right hl hr]
    cases cl with
    | false => exact Or.inl ⟨RED, .red hl hr⟩
    | true => exact Or.inr (.mk hl hr)
  | true =>
    have hcl : cl = BLACK := hblack.resolve_right (by decide)
    subst hcl
    cases hr with
    | red hrl hrr =>
      rw [fixUp_of_red_right hl.isRed_eq hrr.isRed_eq]
      exact Or.inr (.mk (.red hl hrl) hrr)

/-- A black node whose left child has been inserted into. -/
private theorem fixUp_black_of_inserted {k : κ} {v : ν} {l r : FLLRBNode κ ν}
    (hl : (∃ c, Balanced l c h) ∨ LeftRed l h) (hr : Balanced r BLACK h) :
    ∃ c, Balanced (node k v BLACK l r).fixUp c (h + 1) := by
  rcases hl with ⟨cl, hl⟩ | hl
  · obtain ⟨c, hc, -⟩ := exists_balanced_fixUp (k := k) (v := v) hl hr
    exact ⟨c, hc⟩
  · cases hl with
    | mk hll hlr =>
      cases hll with
      | red ha hb =>
        rw [fixUp_of_red_left hr.isRed_eq]
        exact ⟨RED, .red (.black ha hb) (.black hlr hr)⟩

theorem insertKey_node (cmp : κ → κ → Ordering) (aKey : κ) (aValue : ν) (k : κ) (v : ν)
    (c : FLLRBColor) (l r : FLLRBNode κ ν) :
    (node k v c l r).insertKey cmp aKey aValue =
      match cmp aKey k with
      | .lt => (node k v c (l.insertKey cmp aKey aValue) r).fixUp
      | .eq => (node k aValue c l r).fixUp
      | .gt => (node k v c l (r.insertKey cmp aKey aValue)).fixUp := by
  rw [FLLRBNode.insertKey]
  cases cmp aKey k <;> rfl

/-- Inserting into a black tree balances it; inserting into a red one may leave two red nodes in a
row. -/
theorem Balanced.insertKey (cmp : κ → κ → Ordering) (aKey : κ) (aValue : ν)
    (hn : Balanced n c h) :
    (∃ c', Balanced (n.insertKey cmp aKey aValue) c' h) ∨
      c = RED ∧ LeftRed (n.insertKey cmp aKey aValue) h := by
  induction hn with
  | empty => exact Or.inl ⟨RED, .red .empty .empty⟩
  | @red k v l r h hl hr ihl ihr =>
    obtain ⟨cl, hl'⟩ := ihl.resolve_right fun h => absurd h.1 (by decide)
    obtain ⟨cr, hr'⟩ := ihr.resolve_right fun h => absurd h.1 (by decide)
    rw [insertKey_node]
    cases cmp aKey k with
    | lt => exact (fixUp_red_of_inserted hl' hr (Or.inr rfl)).imp_right fun h => ⟨rfl, h⟩
    | eq => exact (fixUp_red_of_inserted hl hr (Or.inl rfl)).imp_right fun h => ⟨rfl, h⟩
    | gt => exact (fixUp_red_of_inserted hl hr' (Or.inl rfl)).imp_right fun h => ⟨rfl, h⟩
  | @black k v l r c h hl hr ihl ihr =>
    obtain ⟨cr, hr'⟩ := ihr.resolve_right fun h => absurd h.1 (by decide)
    rw [insertKey_node]
    cases cmp aKey k with
    | lt => exact Or.inl (fixUp_black_of_inserted (ihl.imp_right And.right) hr)
    | eq => exact Or.inl (fixUp_black_of_inserted (Or.inl ⟨c, hl⟩) hr)
    | gt =>
      obtain ⟨c', hc', -⟩ := exists_balanced_fixUp (k := k) (v := v) hl hr'
      exact Or.inl ⟨c', hc'⟩

/-- **Insertion keeps the tree balanced.** -/
theorem Balanced.blacken_insertKey (cmp : κ → κ → Ordering) (aKey : κ) (aValue : ν)
    (hn : Balanced n c h) :
    ∃ h', Balanced (n.insertKey cmp aKey aValue).blacken BLACK h' := by
  rcases hn.insertKey cmp aKey aValue with ⟨c', hn'⟩ | ⟨-, hn'⟩
  · exact hn'.blacken
  · exact hn'.blacken

end Insert

end GuruPractice.FirebaseDatabase.FLLRBNode
