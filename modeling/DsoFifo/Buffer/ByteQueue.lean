import DsoFifo.Transition.LTS

/-!
# Streams through a queue

The purpose of a pipe, apart from any program: blocks go in at one end, blocks
come out at the other, and from time to time what is left is thrown away.
`blockQueue` is the transition system of that purpose, over any type of items; a
removal is possible only if the block removed *is* the front of the queue.

`inserted` and `removed` read the two streams off a history, both since the last
reset.  `inserted_eq_of_run` is stream integrity: what went in is what came out
followed by what is still inside.

When all blocks have the same length, a queue of items is a queue of records: the
blocks that come out are the blocks that went in (`exists_run_records`), whatever
else could be cut out of the stream.
-/

universe u

namespace DsoFifo

variable {α : Type u}

/-- What can happen to a queue of items. -/
inductive BlockOp (α : Type u) where
  | insert (xs : List α)
  | remove (xs : List α)
  | reset
deriving DecidableEq, Repr

namespace BlockOp

/-- The effect of an operation on the queue's contents. -/
inductive Step : List α → BlockOp α → List α → Prop
  | /-- A block goes in, whole, at the end. -/
    insert (q xs : List α) : Step q (.insert xs) (q ++ xs)
  | /-- The block at the front comes out. -/
    remove (xs q : List α) : Step (xs ++ q) (.remove xs) q
  | /-- Everything is discarded. -/ reset (q : List α) : Step q .reset []

@[simp] theorem Step.insert_iff {q q' xs : List α} : Step q (.insert xs) q' ↔ q' = q ++ xs :=
  ⟨fun h ↦ by cases h; rfl, fun h ↦ h ▸ .insert q xs⟩

@[simp] theorem Step.remove_iff {q q' xs : List α} : Step q (.remove xs) q' ↔ q = xs ++ q' :=
  ⟨fun h ↦ by cases h; rfl, fun h ↦ h ▸ .remove xs q'⟩

@[simp] theorem Step.reset_iff {q q' : List α} : Step q .reset q' ↔ q' = [] :=
  ⟨fun h ↦ by cases h; rfl, fun h ↦ h ▸ .reset q⟩

/-- One operation, added to the blocks inserted so far. -/
def insertedStep (acc : List α) : BlockOp α → List α
  | .insert xs => acc ++ xs
  | .remove _ => acc
  | .reset => []

/-- One operation, added to the blocks removed so far. -/
def removedStep (acc : List α) : BlockOp α → List α
  | .insert _ => acc
  | .remove xs => acc ++ xs
  | .reset => []

/-- The blocks inserted since the last reset, joined in order. -/
def inserted (tr : List (BlockOp α)) : List α := tr.foldl insertedStep []

/-- The blocks removed since the last reset, joined in order. -/
def removed (tr : List (BlockOp α)) : List α := tr.foldl removedStep []

@[simp] theorem inserted_nil : inserted ([] : List (BlockOp α)) = [] := rfl

@[simp] theorem removed_nil : removed ([] : List (BlockOp α)) = [] := rfl

@[simp] theorem inserted_snoc (tr : List (BlockOp α)) (o : BlockOp α) :
    inserted (tr ++ [o]) = insertedStep (inserted tr) o := by simp [inserted]

@[simp] theorem removed_snoc (tr : List (BlockOp α)) (o : BlockOp α) :
    removed (tr ++ [o]) = removedStep (removed tr) o := by simp [removed]

end BlockOp

/-- The transition system of a queue of items, empty at first. -/
def blockQueue (α : Type u) : LTS (List α) (BlockOp α) where
  Init q := q = []
  Step := BlockOp.Step

namespace BlockOp

/-- **Stream integrity.**  Since the last reset, the blocks that went in are the
blocks that came out followed by what is still inside. -/
theorem inserted_eq_of_run {P : List α → BlockOp α → Prop} {tr : List (BlockOp α)} {q : List α}
    (h : (blockQueue α).Run P tr q) : inserted tr = removed tr ++ q := by
  refine LTS.Run.induction (J := fun tr q ↦ inserted tr = removed tr ++ q) ?_ ?_ h
  · intro q hq
    rw [show q = [] from hq]
    rfl
  · intro tr q o q' _ ih _ hst
    cases hst with
    | insert q xs => simp [insertedStep, removedStep, ih]
    | remove xs q => simp [insertedStep, removedStep, ih]
    | reset q => simp [insertedStep, removedStep]

/-! ## Records -/

/-- An operation of a queue of records, which is given one record at a time. -/
def asRecord : BlockOp α → BlockOp (List α)
  | .insert xs => .insert [xs]
  | .remove xs => .remove [xs]
  | .reset => .reset

/-- The block has this length. -/
def HasLength (n : ℕ) : BlockOp α → Prop
  | .insert xs | .remove xs => xs.length = n
  | .reset => True

/-- One operation with a block of the common length is an operation on the records. -/
theorem Step.exists_asRecord {n : ℕ} (hn : 0 < n) {rs : List (List α)} {q : List α}
    {o : BlockOp α} (hst : Step rs.flatten o q) (ho : o.HasLength n) (hrs : ∀ r ∈ rs, r.length = n) :
    ∃ rs', Step rs o.asRecord rs' ∧ rs'.flatten = q ∧ ∀ r ∈ rs', r.length = n := by
  cases o with
  | insert xs =>
      refine ⟨rs ++ [xs], .insert rs [xs], by simpa using (Step.insert_iff.mp hst).symm, ?_⟩
      exact List.forall_mem_append.mpr ⟨hrs, fun r hr ↦ List.mem_singleton.mp hr ▸ ho⟩
  | remove xs =>
      have hq := Step.remove_iff.mp hst
      have hxs : xs.length = n := ho
      cases rs with
      | nil =>
          obtain rfl : xs = [] := (List.append_eq_nil_iff.mp hq.symm).1
          exact absurd hxs (Nat.ne_of_lt hn)
      | cons r rs =>
          obtain ⟨hr, hrs⟩ := List.forall_mem_cons.mp hrs
          obtain ⟨rfl, rfl⟩ := List.append_inj (List.flatten_cons.symm.trans hq) (hr.trans hxs.symm)
          exact ⟨rs, .remove [r] rs, rfl, hrs⟩
  | reset => exact ⟨[], .reset rs, (Step.reset_iff.mp hst).symm, fun r hr ↦ (by cases hr)⟩

/-- **Framing.**  A queue all of whose blocks have the same length is a queue of records. -/
theorem exists_run_records {n : ℕ} (hn : 0 < n) {tr : List (BlockOp α)} {q : List α}
    (h : (blockQueue α).Run (fun _ o ↦ o.HasLength n) tr q) :
    ∃ rs, (blockQueue (List α)).Run LTS.anyStep (tr.map asRecord) rs ∧ rs.flatten = q ∧
      ∀ r ∈ rs, r.length = n := by
  refine LTS.Run.induction (J := fun tr q ↦ ∃ rs, (blockQueue (List α)).Run LTS.anyStep
    (tr.map asRecord) rs ∧ rs.flatten = q ∧ ∀ r ∈ rs, r.length = n) ?_ ?_ h
  · intro q hq
    exact ⟨[], .init rfl, (show q = [] from hq).symm, fun r hr ↦ (by cases hr)⟩
  · rintro tr q o q' - ⟨rs, hr, rfl, hrs⟩ ho hst
    obtain ⟨rs', hst', hq, hrs'⟩ := Step.exists_asRecord hn hst ho hrs
    rw [List.map_append]
    exact ⟨rs', hr.snoc trivial hst', hq, hrs'⟩

end BlockOp

end DsoFifo
