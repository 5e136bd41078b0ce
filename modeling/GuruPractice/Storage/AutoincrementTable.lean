import Mathlib.Data.List.Basic

/-!
# Tables with an autoincrement key

An *autoincrement table* gives every inserted record the number after the largest one it has ever
used, also after records have been deleted. The table carries the invariant that its records stand
in the order of their ids, which is the order in which they are selected.

A record is written by position (the `i`-th value goes to the `i`-th of the listed columns) and read
by name.

## Main definitions

* `Storage.AutoincrementTable` with `empty`, `insert`, `insertAll`, `deleteAll` and `select`.

## Main results

* `Storage.AutoincrementTable.select_insertAll`: records are selected in the order of insertion.
* `Storage.map_lookup_zip`: values written by position are read back by name.
-/

namespace GuruPractice.Storage

/-- A table whose records get increasing ids. -/
structure AutoincrementTable (ρ : Type*) where
  /-- The ids and the records. -/
  rows : List (ℕ × ρ)
  /-- The largest id ever used. -/
  seq : ℕ
  pairwise_lt : (rows.map Prod.fst).Pairwise (· < ·)
  le_seq : ∀ row ∈ rows, row.1 ≤ seq

namespace AutoincrementTable

variable {ρ : Type*}

/-- A table as it is created. -/
def empty : AutoincrementTable ρ where
  rows := []
  seq := 0
  pairwise_lt := List.Pairwise.nil
  le_seq _ h := absurd h List.not_mem_nil

/-- Insert a record. -/
def insert (t : AutoincrementTable ρ) (x : ρ) : AutoincrementTable ρ where
  rows := t.rows ++ [(t.seq + 1, x)]
  seq := t.seq + 1
  pairwise_lt := by
    rw [List.map_append, List.pairwise_append]
    refine ⟨t.pairwise_lt, List.pairwise_singleton _ _, fun i hi j hj => ?_⟩
    obtain ⟨row, hrow, rfl⟩ := List.mem_map.mp hi
    rw [List.mem_singleton.mp hj]
    exact Nat.lt_succ_of_le (t.le_seq row hrow)
  le_seq row hrow := by
    rcases List.mem_append.mp hrow with h | h
    · exact Nat.le_succ_of_le (t.le_seq row h)
    · exact List.mem_singleton.mp h ▸ Nat.le_refl _

/-- Delete all records. The ids are not used again. -/
def deleteAll (t : AutoincrementTable ρ) : AutoincrementTable ρ where
  rows := []
  seq := t.seq
  pairwise_lt := List.Pairwise.nil
  le_seq _ h := absurd h List.not_mem_nil

/-- The records, in the order of their ids. -/
def select (t : AutoincrementTable ρ) : List ρ := t.rows.map Prod.snd

/-- Insert records one after the other. -/
def insertAll (t : AutoincrementTable ρ) (xs : List ρ) : AutoincrementTable ρ := xs.foldl insert t

variable (t : AutoincrementTable ρ)

@[simp] theorem select_deleteAll : t.deleteAll.select = [] := rfl

@[simp] theorem select_insert (x : ρ) : (t.insert x).select = t.select ++ [x] := by
  rw [select, insert, List.map_append]
  rfl

@[simp] theorem insertAll_nil : t.insertAll [] = t := rfl

@[simp] theorem insertAll_cons (x : ρ) (xs : List ρ) :
    t.insertAll (x :: xs) = (t.insert x).insertAll xs := rfl

/-- Records are selected in the order of insertion. -/
theorem select_insertAll (xs : List ρ) : (t.insertAll xs).select = t.select ++ xs := by
  induction xs generalizing t with
  | nil => rw [insertAll_nil, List.append_nil]
  | cons x xs ih => rw [insertAll_cons, ih, select_insert, List.append_assoc, List.singleton_append]

end AutoincrementTable

/-- **By position and by name.** If no column is listed twice, the values written to the columns by
position are the values read by name. -/
theorem map_lookup_zip {κ ν : Type*} [BEq κ] [LawfulBEq κ] {columns : List κ}
    (hcols : columns.Nodup) {values : List ν} (hlen : values.length = columns.length) :
    columns.map (fun c => (columns.zip values).lookup c) = values.map some := by
  induction columns generalizing values with
  | nil => rw [List.length_eq_zero_iff.mp hlen, List.map_nil, List.map_nil]
  | cons c columns ih =>
    obtain ⟨hc, hcols⟩ := List.nodup_cons.mp hcols
    cases values with
    | nil => exact absurd hlen (by simp)
    | cons v values =>
      have hrest : columns.map (fun c' => (((c, v) :: columns.zip values).lookup c')) =
          columns.map fun c' => (columns.zip values).lookup c' := by
        refine List.map_congr_left fun c' hc' => ?_
        have hne : (c' == c) = false := by
          rw [beq_eq_false_iff_ne]
          rintro rfl
          exact hc hc'
        rw [List.lookup_cons, hne]
      rw [List.zip_cons_cons, List.map_cons, hrest, ih hcols (by simpa using hlen),
        List.map_cons, List.lookup_cons, BEq.rfl]

end GuruPractice.Storage
