import Mathlib.Data.List.Nodup

/-!
# Views of a list through a partial function

A list of keys `l` is shown through a partial function `g`: the row of a key `i` is `g i`, and a key
without a value has no row. The rows are `l.filterMap g`, and the key of row `r` is
`(l.filter fun i => (g i).isSome)[r]?`. When no key occurs twice, changing the value of the key of
row `r` changes that row only: a new value replaces it, and losing the value removes it.

## Main results

* `Storage.mapM_range_getElem?`, `Storage.filterMap_range_getElem?`: the rows, read by position.
* `Storage.filterMap_update`, with its two cases `Storage.filterMap_update_some` and
  `Storage.filterMap_update_none`.
-/

namespace GuruPractice.Storage

variable {ι β : Type*} {g : ι → Option β} {l : List ι} {r : ℕ} {i : ι}

/-- The key of a row occurs in the list and has a value. -/
theorem mem_of_row (hr : (l.filter fun j => (g j).isSome)[r]? = some i) :
    i ∈ l ∧ (g i).isSome = true :=
  List.mem_filter.mp (List.mem_of_getElem? hr)

/-- There are as many rows as keys with a value. -/
theorem length_filterMap_eq_length_filter (g : ι → Option β) (l : List ι) :
    (l.filterMap g).length = (l.filter fun j => (g j).isSome).length := by
  rw [List.length_filterMap_eq_countP, List.countP_eq_length_filter]

/-- Reading the keys of a list through positions gives the rows of the list. -/
theorem filterMap_range_getElem? (g : ι → Option β) (l : List ι) :
    (List.range l.length).filterMap (fun r => l[r]?.bind g) = l.filterMap g := by
  induction l with
  | nil => rfl
  | cons j l ih =>
    rw [List.length_cons, List.range_succ_eq_map, List.filterMap_cons, List.filterMap_cons,
      List.filterMap_map, ← ih]
    rfl

/-- Reading every position of a list gives the list. -/
theorem mapM_range_getElem? (l : List β) :
    (List.range l.length).mapM (fun r => l[r]?) = some l := by
  induction l with
  | nil => rfl
  | cons x l ih =>
    have htail : (List.range l.length).mapM ((fun r => (x :: l)[r]?) ∘ Nat.succ) = some l := ih
    rw [List.length_cons, List.range_succ_eq_map, List.mapM_cons, List.mapM_map, htail]
    rfl

/-- Keys without a value can be left out. -/
theorem filterMap_filter_isSome (g : ι → Option β) (l : List ι) :
    (l.filter fun j => (g j).isSome).filterMap g = l.filterMap g := by
  rw [List.filterMap_filter]
  refine List.filterMap_congr fun j _ => ?_
  cases g j <;> rfl

/-- The keys with a value and the rows correspond. -/
theorem map_some_filterMap (g : ι → Option β) (l : List ι) :
    (l.filterMap g).map some = (l.filter fun j => (g j).isSome).map g := by
  induction l with
  | nil => rfl
  | cons j l ih => cases hg : g j <;> simp [hg, ih]

variable [DecidableEq ι]

/-- A key that does not occur can change its value freely. -/
theorem filterMap_update_of_notMem (hi : i ∉ l) (o : Option β) :
    l.filterMap (Function.update g i o) = l.filterMap g := by
  refine List.filterMap_congr fun j hj => Function.update_of_ne ?_ _ _
  rintro rfl
  exact hi hj

/-- **Changing the value of the key of row `r`** changes that row and no other. -/
theorem filterMap_update (hl : l.Nodup)
    (hr : (l.filter fun j => (g j).isSome)[r]? = some i) (o : Option β) :
    l.filterMap (Function.update g i o) =
      (l.filterMap g).take r ++ (o.toList ++ (l.filterMap g).drop (r + 1)) := by
  induction l generalizing r with
  | nil => simp at hr
  | cons j l ih =>
    obtain ⟨hj, hl⟩ := List.nodup_cons.mp hl
    cases hg : g j with
    | none =>
      have hr' : (l.filter fun k => (g k).isSome)[r]? = some i := by
        simpa only [List.filter_cons, hg, Option.isSome_none, Bool.false_eq_true, if_false]
          using hr
      have hji : j ≠ i := by
        rintro rfl
        simpa [hg] using (mem_of_row hr').2
      rw [List.filterMap_cons_none hg, List.filterMap_cons_none, ih hl hr']
      rw [Function.update_of_ne hji, hg]
    | some x =>
      rw [List.filter_cons, hg, Option.isSome_some, if_pos rfl] at hr
      cases r with
      | zero =>
        obtain rfl : j = i := by simpa using hr
        rw [List.filterMap_cons_some hg, List.take_zero, List.nil_append, List.drop_succ_cons,
          List.drop_zero]
        cases o with
        | none =>
          rw [List.filterMap_cons_none (Function.update_self ..), filterMap_update_of_notMem hj]
          rfl
        | some y =>
          rw [List.filterMap_cons_some (Function.update_self ..), filterMap_update_of_notMem hj]
          rfl
      | succ r =>
        rw [List.getElem?_cons_succ] at hr
        have hji : j ≠ i := by
          rintro rfl
          exact hj (mem_of_row hr).1
        have hupd : Function.update g i o j = some x := by
          rw [Function.update_of_ne hji, hg]
        rw [List.filterMap_cons_some hg, List.filterMap_cons_some hupd, ih hl hr,
          List.take_succ_cons, List.drop_succ_cons, List.cons_append]

/-- A new value for the key of row `r` replaces row `r`. -/
theorem filterMap_update_some (hl : l.Nodup)
    (hr : (l.filter fun j => (g j).isSome)[r]? = some i) (y : β) :
    l.filterMap (Function.update g i (some y)) = (l.filterMap g).set r y := by
  have hlt : r < (l.filterMap g).length := by
    rw [length_filterMap_eq_length_filter]
    exact (List.getElem?_eq_some_iff.mp hr).1
  rw [filterMap_update hl hr, List.set_eq_take_append_cons_drop, if_pos hlt]
  rfl

/-- Losing the value of the key of row `r` removes row `r`. -/
theorem filterMap_update_none (hl : l.Nodup)
    (hr : (l.filter fun j => (g j).isSome)[r]? = some i) :
    l.filterMap (Function.update g i none) = (l.filterMap g).eraseIdx r := by
  rw [filterMap_update hl hr, List.eraseIdx_eq_take_drop_succ]
  rfl

end GuruPractice.Storage
