import Mathlib.Algebra.Group.Nat.Defs
import GuruPractice.MemoApp.FailedSaves

/-!
# The ids of notes

A new note takes `noteList.count` as its id. While the list is as long as the context whenever a
note is created, the ids of the context are its positions, and so distinct. The list falls behind
when the save of a new note throws: the note stays in the context, the list does not count it, and
the next note takes its id. It runs ahead when the table is loaded again in the same process, which
is not felt before a relaunch has shortened the list.

## Main definitions

* `MemoApp.storedIds`, `MemoApp.objectIds`.
* `MemoApp.CountsNotes` — the list is as long as the context.
* `MemoApp.IdsArePositions`.

## Main results

* `MemoApp.IdsArePositions.of_step` — one action.
* `MemoApp.nodup_storedIds_of_countsNotes` — a whole history.
* `MemoApp.IdsArePositions.not_nodup_storedIds` — a list that has fallen behind gives an id twice.
-/

namespace GuruPractice.MemoApp

open Storage Transition

/-- The ids of the stored notes. -/
def storedIds (s : AppState) : List Int32 := s.viewContext.stored.map Note.id

/-- The ids of the notes of the context, whether stored or waiting to be. -/
def objectIds (s : AppState) : List Int32 := s.viewContext.objects.map Note.id

/-- A note is created while `noteList` is as long as the context. -/
def CountsNotes (s : AppState) : Action → Prop
  | .create _ _ _ => s.noteList.length = s.viewContext.objects.length
  | _ => True

/-! ### What an action does to the ids -/

private theorem map_id_modify (l : List Note) (i : ℕ) {f : Note → Note}
    (hf : ∀ note, (f note).id = note.id) : (l.modify i f).map Note.id = l.map Note.id := by
  refine List.ext_getElem? fun j => ?_
  rw [List.getElem?_map, List.getElem?_modify, List.getElem?_map]
  cases l[j]? with
  | none => rfl
  | some note => by_cases hj : i = j <;> simp [hj, hf]

/-- **The ids after an action.** Creating a note appends the id it takes; a relaunch falls back to
the stored ids; nothing else changes the ids of the context. The stored ids are left alone, or
become those of the context. -/
theorem ids_step {s s' : AppState} {a : Action} : step s a = some s' →
    (match a with
      | .create _ _ _ => objectIds s' = objectIds s ++ [Int32.ofNat s.noteList.length]
      | .relaunch _ => objectIds s' = storedIds s
      | _ => objectIds s' = objectIds s) ∧
    (storedIds s' = storedIds s ∨ storedIds s' = objectIds s') := by
  intro h
  cases a with
  | create title desc r =>
    obtain ⟨-, rfl⟩ := step_create.mp h
    refine ⟨by simp [objectIds], ?_⟩
    cases hr : r.saved with
    | true => exact Or.inr (by simp [storedIds, objectIds])
    | false => exact Or.inl rfl
  | edit row title desc r =>
    obtain ⟨i, -, rfl⟩ := step_edit.mp h
    refine ⟨?_, ?_⟩
    · change ((s.viewContext.modify i _).attemptSave _).objects.map Note.id = _
      rw [ManagedContext.objects_attemptSave, ManagedContext.objects_modify]
      exact map_id_modify _ i fun _ => rfl
    · cases hr : r.saved with
      | true => exact Or.inr (by simp [storedIds, objectIds])
      | false => exact Or.inl rfl
  | delete row now r =>
    obtain ⟨i, -, rfl⟩ := step_delete.mp h
    refine ⟨?_, ?_⟩
    · change ((s.viewContext.modify i _).attemptSave _).objects.map Note.id = _
      rw [ManagedContext.objects_attemptSave, ManagedContext.objects_modify]
      exact map_id_modify _ i fun _ => rfl
    · cases hr : r.saved with
      | true => exact Or.inr (by simp [storedIds, objectIds])
      | false => exact Or.inl rfl
  | deleteNew now r =>
    obtain ⟨-, rfl⟩ := step_deleteNew.mp h
    exact ⟨rfl, Or.inl rfl⟩
  | background =>
    obtain rfl := step_background.mp h
    exact ⟨rfl, Or.inr rfl⟩
  | connectScene fetchOrder =>
    obtain rfl := step_connectScene.mp h
    exact ⟨rfl, Or.inl rfl⟩
  | relaunch fetchOrder =>
    obtain rfl := step_relaunch.mp h
    exact ⟨rfl, Or.inl rfl⟩

/-- The stored ids stay the first ids of the context. -/
theorem prefix_objectIds_of_step {s s' : AppState} {a : Action}
    (hs : storedIds s <+: objectIds s) (h : step s a = some s') :
    storedIds s' <+: objectIds s' := by
  obtain ⟨hobj, hsto⟩ := ids_step h
  rcases hsto with hsto | hsto
  · rw [hsto]
    cases a with
    | create title desc r => exact hobj ▸ hs.trans (List.prefix_append _ _)
    | relaunch fetchOrder => exact hobj ▸ List.prefix_rfl
    | _ => exact hobj ▸ hs
  · exact hsto ▸ List.prefix_rfl

/-! ### Lists that count the notes -/

private theorem ofNat_injOn {m n : ℕ} (hm : m < 2 ^ 31) (hn : n < 2 ^ 31)
    (h : Int32.ofNat m = Int32.ofNat n) : m = n := by
  have hint := congrArg Int32.toInt h
  rw [Int32.toInt_ofNat_of_lt hm, Int32.toInt_ofNat_of_lt hn] at hint
  exact Int.ofNat.inj hint

/-- The ids of the context are its positions, and the stored ids are the first of them. -/
structure IdsArePositions (s : AppState) : Prop where
  prefix_objectIds : storedIds s <+: objectIds s
  objectIds_eq : objectIds s = (List.range (objectIds s).length).map Int32.ofNat

namespace IdsArePositions

variable {s : AppState} (hs : IdsArePositions s)

include hs

theorem storedIds_eq : storedIds s = (List.range (storedIds s).length).map Int32.ofNat := by
  have htake := List.prefix_iff_eq_take.mp hs.prefix_objectIds
  have hle := hs.prefix_objectIds.length_le
  rw [hs.objectIds_eq, ← List.map_take, List.take_range, Nat.min_eq_left hle] at htake
  exact htake

/-- Positions below `2^31` are distinct as ids. -/
theorem nodup_storedIds (hfew : s.viewContext.stored.length < 2 ^ 31) : (storedIds s).Nodup := by
  have hlen : (storedIds s).length = s.viewContext.stored.length := List.length_map _
  rw [hs.storedIds_eq, hlen]
  refine List.Nodup.map_on (fun m hm n hn heq => ?_) List.nodup_range
  have hm := List.mem_range.mp hm
  have hn := List.mem_range.mp hn
  exact ofNat_injOn (by omega) (by omega) heq

/-- Creating notes while the list counts them keeps the ids the positions. -/
theorem of_step {s' : AppState} {a : Action} (ha : CountsNotes s a) (h : step s a = some s') :
    IdsArePositions s' := by
  refine ⟨prefix_objectIds_of_step hs.prefix_objectIds h, ?_⟩
  have hobj := (ids_step h).1
  cases a with
  | create title desc r =>
    have hlen : s.noteList.length = (objectIds s).length := by
      rw [objectIds, List.length_map]
      exact ha
    rw [hobj, hlen, List.length_append, List.length_singleton, List.range_succ,
      List.map_append, ← hs.objectIds_eq, List.map_singleton]
  | relaunch fetchOrder => exact hobj ▸ hs.storedIds_eq
  | _ => exact hobj ▸ hs.objectIds_eq

/-- **A list that has fallen behind gives an id twice.** Once `noteList` is shorter than the
context, the next note that is created and saved has the id of another stored note. -/
theorem not_nodup_storedIds {s' : AppState} {title desc : Option String} {r : Reply}
    (hr : r.saved = true) (hlt : s.noteList.length < s.viewContext.objects.length)
    (h : step s (.create title desc r) = some s') : ¬(storedIds s').Nodup := by
  have hobj : objectIds s' = objectIds s ++ [Int32.ofNat s.noteList.length] := (ids_step h).1
  have hsto : storedIds s' = objectIds s' := by
    obtain ⟨-, rfl⟩ := step_create.mp h
    simp [storedIds, objectIds, hr]
  have hmem : Int32.ofNat s.noteList.length ∈ objectIds s := by
    rw [hs.objectIds_eq, objectIds, List.length_map]
    exact List.mem_map_of_mem (List.mem_range.mpr hlt)
  intro hnodup
  rw [hsto, hobj, List.nodup_append] at hnodup
  exact hnodup.2.2 _ hmem _ (List.mem_singleton_self _) rfl

end IdsArePositions

/-- **Stored ids are distinct when the list counts the notes.** Along a history from the first
launch of the app in which every note is created while `noteList` is as long as the context, no two
stored notes ever have the same id, as long as there are fewer than `2^31` of them. -/
theorem nodup_storedIds_of_countsNotes {as : List Action}
    (hcount : AllSteps step CountsNotes (processStart []) as) :
    ∀ bs, bs <+: as → ∀ s, run step (processStart []) bs = some s →
      s.viewContext.stored.length < 2 ^ 31 → (storedIds s).Nodup := by
  rintro bs ⟨cs, rfl⟩ s hrun hfew
  have hbs := ((allSteps_append_iff hrun).mp hcount).1
  have hs : IdsArePositions s :=
    run_induction_of_allSteps (fun s a s' hs ha h => hs.of_step ha h) ⟨List.prefix_rfl, rfl⟩ hbs
      hrun
  exact hs.nodup_storedIds hfew

/-- Two notes are created in one launch and a third in the next. -/
theorem nodup_storedIds_of_countsNotes_relaunch :
    ∃ s, run step (processStart []) [.connectScene .insertion, .create "a" "b" ⟨true, .insertion⟩,
        .create "c" "d" ⟨true, .insertion⟩, .relaunch .insertion,
        .create "e" "f" ⟨true, .insertion⟩] = some s ∧
      s.viewContext.stored.length = 3 ∧ (storedIds s).Nodup := by
  have hcount : AllSteps step CountsNotes (processStart []) [.connectScene .insertion,
      .create "a" "b" ⟨true, .insertion⟩, .create "c" "d" ⟨true, .insertion⟩, .relaunch .insertion,
      .create "e" "f" ⟨true, .insertion⟩] := by
    refine (allSteps_cons_iff rfl).mpr ⟨trivial, ?_⟩
    refine (allSteps_cons_iff rfl).mpr ⟨rfl, ?_⟩
    refine (allSteps_cons_iff rfl).mpr ⟨rfl, ?_⟩
    refine (allSteps_cons_iff rfl).mpr ⟨trivial, ?_⟩
    exact (allSteps_cons_iff rfl).mpr ⟨rfl, trivial⟩
  exact ⟨_, rfl, by decide,
    nodup_storedIds_of_countsNotes hcount _ List.prefix_rfl _ rfl (by decide)⟩

/-- A create whose save throws, then one whose save succeeds: both notes are stored with id `0`. -/
theorem not_nodup_storedIds_create :
    ¬∀ s, run step (processStart []) [.connectScene .insertion,
      .create "a" "b" ⟨false, .insertion⟩, .create "c" "d" ⟨true, .insertion⟩] = some s →
        (storedIds s).Nodup :=
  fun h => absurd (h _ rfl) (by decide)

end GuruPractice.MemoApp
