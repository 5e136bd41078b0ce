import Mathlib.Data.List.Nodup
import Mathlib.Data.List.Range

/-!
# Managed object contexts

A *managed context* sits in front of a durable list of records. It holds an object for every stored
record, with the value it has in memory, followed by the objects inserted since the last save. An
object is known by its position, which never changes: records are added and changed but not
removed. A save commits the values of all objects, or throws and leaves them as they are; a fresh
context, as a new process has it, shows what is stored.

The context carries its two invariants: no stored record lacks an object, and without changes the
objects show what is stored.

## Main definitions

* `Storage.FetchOrder` — the order in which a fetch returns the objects.
* `Storage.ManagedContext` with `fresh`, `insert`, `modify`, `save`, `attemptSave` and `fetch`.

## Main results

* `Storage.ManagedContext.mem_fetch`, `Storage.ManagedContext.nodup_fetch`: a fetch returns every
  object, inserted ones included, exactly once.
-/

namespace GuruPractice.Storage

variable {ρ : Type*}

/-- The order in which a fetch returns the objects: each position once. -/
structure FetchOrder (ρ : Type*) where
  /-- The positions of the objects, in the order of the fetch. -/
  positions : List ρ → List ℕ
  perm_range : ∀ objects, (positions objects).Perm (List.range objects.length)

/-- The order of insertion. -/
def FetchOrder.insertion : FetchOrder ρ where
  positions objects := List.range objects.length
  perm_range _ := .refl _

/-- A context of managed objects in front of durable records. -/
structure ManagedContext (ρ : Type*) where
  /-- The durable records. -/
  stored : List ρ
  /-- The values of the objects in memory: of the stored records, then of inserted objects. -/
  objects : List ρ
  /-- Some object was inserted or changed since the last save. -/
  hasChanges : Bool
  length_stored_le : stored.length ≤ objects.length
  objects_eq_of_not_hasChanges : hasChanges = false → objects = stored

namespace ManagedContext

/-- The context of a new process. -/
def fresh (stored : List ρ) : ManagedContext ρ where
  stored := stored
  objects := stored
  hasChanges := false
  length_stored_le := le_rfl
  objects_eq_of_not_hasChanges _ := rfl

/-- Insert an object, at the position after the last one. -/
def insert (c : ManagedContext ρ) (x : ρ) : ManagedContext ρ where
  stored := c.stored
  objects := c.objects ++ [x]
  hasChanges := true
  length_stored_le := by
    have := c.length_stored_le
    simp only [List.length_append]
    omega
  objects_eq_of_not_hasChanges h := absurd h (by decide)

/-- Change the object at a position. -/
def modify (c : ManagedContext ρ) (i : ℕ) (f : ρ → ρ) : ManagedContext ρ where
  stored := c.stored
  objects := c.objects.modify i f
  hasChanges := true
  length_stored_le := by simpa only [List.length_modify] using c.length_stored_le
  objects_eq_of_not_hasChanges h := absurd h (by decide)

/-- Save all changes; `none` when the save throws. -/
def save (c : ManagedContext ρ) (succeeds : Bool) : Option (ManagedContext ρ) :=
  if succeeds then some (fresh c.objects) else none

/-- The context after an attempt to save: a save that throws leaves its changes pending. -/
def attemptSave (c : ManagedContext ρ) (succeeds : Bool) : ManagedContext ρ :=
  (c.save succeeds).getD c

/-- The objects returned by a fetch, by position. -/
def fetch (c : ManagedContext ρ) (order : FetchOrder ρ) : List ℕ := order.positions c.objects

variable (c : ManagedContext ρ)

@[simp] theorem stored_fresh (stored : List ρ) : (fresh stored).stored = stored := rfl

@[simp] theorem objects_fresh (stored : List ρ) : (fresh stored).objects = stored := rfl

@[simp] theorem stored_insert (x : ρ) : (c.insert x).stored = c.stored := rfl

@[simp] theorem objects_insert (x : ρ) : (c.insert x).objects = c.objects ++ [x] := rfl

@[simp] theorem stored_modify (i : ℕ) (f : ρ → ρ) : (c.modify i f).stored = c.stored := rfl

@[simp] theorem objects_modify (i : ℕ) (f : ρ → ρ) :
    (c.modify i f).objects = c.objects.modify i f := rfl

@[simp] theorem save_true : c.save true = some (fresh c.objects) := rfl

@[simp] theorem save_false : c.save false = none := rfl

@[simp] theorem attemptSave_true : c.attemptSave true = fresh c.objects := rfl

@[simp] theorem attemptSave_false : c.attemptSave false = c := rfl

@[simp] theorem objects_attemptSave (succeeds : Bool) :
    (c.attemptSave succeeds).objects = c.objects := by
  cases succeeds <;> rfl

/-- Saving a context without changes changes nothing. -/
theorem fresh_objects_of_not_hasChanges (h : c.hasChanges = false) : fresh c.objects = c := by
  have hobj := c.objects_eq_of_not_hasChanges h
  cases c
  simp_all [fresh]

theorem mem_fetch {order : FetchOrder ρ} {i : ℕ} : i ∈ c.fetch order ↔ i < c.objects.length := by
  rw [fetch, (order.perm_range _).mem_iff, List.mem_range]

theorem nodup_fetch (order : FetchOrder ρ) : (c.fetch order).Nodup :=
  (order.perm_range _).nodup_iff.mpr List.nodup_range

end ManagedContext

end GuruPractice.Storage
