import Mathlib.Data.Set.Card

/-!
# Counting in a table

A table `f : κ → Option β` with finitely many entries, such as a table of open
files: an entry is made where there was none, and deleted again.  `number b f` counts
the keys whose entry is `b`; `number_insert` and `number_erase` say how making and
deleting an entry changes the count, and `finite_update` that the counts stay finite.
-/

universe u v

namespace DsoFifo.Table

open Function

variable {κ : Type u} {β : Type v}

/-- The keys whose entry is `b`. -/
def keys (b : β) (f : κ → Option β) : Set κ := {k | f k = some b}

/-- The number of keys whose entry is `b`. -/
noncomputable def number (b : β) (f : κ → Option β) : ℕ := (keys b f).ncard

variable {b : β} {f : κ → Option β}

@[simp] theorem keys_empty : keys b (fun _ : κ ↦ none) = ∅ := by simp [keys]

@[simp] theorem number_empty : number b (fun _ : κ ↦ none) = 0 := by simp [number]

/-- No key has the entry `b`. -/
theorem number_eq_zero (h : ∀ k, f k ≠ some b) : number b f = 0 := by
  rw [number, show keys b f = ∅ from Set.eq_empty_of_forall_notMem h, Set.ncard_empty]

/-- Some key has the entry `b`. -/
theorem number_pos (hf : (keys b f).Finite) {k : κ} (hk : f k = some b) : 0 < number b f :=
  (Set.ncard_pos hf).mpr ⟨k, hk⟩

variable [DecidableEq κ]

theorem keys_update_of_eq (k : κ) : keys b (update f k (some b)) = insert k (keys b f) := by
  ext j
  by_cases hj : j = k <;> simp [keys, hj]

theorem keys_update_of_ne (k : κ) {o : Option β} (ho : o ≠ some b) :
    keys b (update f k o) = keys b f \ {k} := by
  ext j
  by_cases hj : j = k <;> simp [keys, hj, ho]

/-- Changing one entry keeps a count finite. -/
theorem finite_update (hf : (keys b f).Finite) (k : κ) (o : Option β) :
    (keys b (update f k o)).Finite := by
  by_cases ho : o = some b
  · rw [ho, keys_update_of_eq]
    exact hf.insert k
  · rw [keys_update_of_ne k ho]
    exact hf.sdiff

/-- **An entry is made.** -/
theorem number_insert [DecidableEq β] (hf : (keys b f).Finite) {k : κ} (hk : f k = none) (a : β) :
    number b (update f k (some a)) = number b f + if a = b then 1 else 0 := by
  have hnot : k ∉ keys b f := by simp [keys, hk]
  by_cases ha : a = b
  · rw [ha, number, keys_update_of_eq, Set.ncard_insert_of_notMem hnot hf, number, if_pos rfl]
  · rw [number, keys_update_of_ne k (by simpa using ha), Set.sdiff_singleton_eq_self hnot, number,
      if_neg ha, add_zero]

/-- **An entry is deleted.** -/
theorem number_erase [DecidableEq β] (hf : (keys b f).Finite) {k : κ} {a : β}
    (hk : f k = some a) : number b (update f k none) + (if a = b then 1 else 0) = number b f := by
  rw [number, keys_update_of_ne k (by simp)]
  by_cases ha : a = b
  · rw [if_pos ha, Set.ncard_sdiff_singleton_add_one (by simp [keys, hk, ha]) hf, number]
  · rw [if_neg ha, add_zero, Set.sdiff_singleton_eq_self (by simp [keys, hk, ha]), number]

end DsoFifo.Table
