import DsoFifo.Cbuffer.Bulk

/-!
# The documented range of `head`

The operations on single items, and the invariant that `cbuffer.h` states: `head` in
`[0 .. max_size-1]`, `size` in `[0 .. max_size]`.  The single-item operations rely on it:
they index `data[head]` as it is.

`remove_items_cbuffer_t` does not keep it.  It moves `head` forward by plain addition,
and wraps only when the removal goes *beyond* the end of the array, so a removal that
ends on the last cell leaves `head = max_size`.  `Call.EndsOnLastCell` is that case;
`documented_of_run` says that it is the only one.
-/

namespace DsoFifo

open DsoFifo.C DsoFifo.Ring

/-- `data[i] = x`; `none` when the index is outside the array. -/
def store (data : List Byte) (i : ℕ) (x : Byte) : Option (List Byte) :=
  if i < data.length then some (data.set i x) else none

/-- `insert_cbuffer_t`. -/
def insertCbuffer (b : Cbuffer) (newItem : Byte) : Option Cbuffer :=
  if b.size = b.maxSize then
    (store b.data b.head newItem).map fun data ↦
      if b.size ≠ 0 then { b with data := data, head := toUnsigned (b.head + 1) % b.maxSize }
      else { b with data := data }
  else
    let pos := if b.maxSize ≠ 0 then toUnsigned (b.head + b.size) % b.maxSize else 0
    (store b.data pos newItem).map fun data ↦
      { b with data := data, size := toUnsigned (b.size + 1) }

/-- `remove_cbuffer_t`. -/
def removeCbuffer (b : Cbuffer) : Option (Cbuffer × Byte) :=
  if b.size ≠ 0 then
    (b.data[b.head]?).bind fun ret ↦
      if b.maxSize = 0 then none
      else some ({ b with
        head := toUnsigned (b.head + 1) % b.maxSize
        size := toUnsigned (b.size - 1) }, ret)
  else some (b, 0)

/-- `head_cbuffer_t`: the index in `data` that the pointer it returns points to, if it is
not `NULL`. -/
def headCbuffer (b : Cbuffer) : Option ℕ := if b.size ≠ 0 then some b.head else none

/-- The calls that change a buffer. -/
inductive Call where
  | insert (newItem : Byte)
  | insertItems (a : Items)
  | remove
  | removeItems (a : Items)

/-- A call, with the bytes that the caller gets. -/
def Call.run (b : Cbuffer) : Call → Option (Cbuffer × List Byte)
  | .insert newItem => (insertCbuffer b newItem).map fun b' ↦ (b', [])
  | .insertItems a => (Bulk.insertItems a).run b
  | .remove => (removeCbuffer b).map fun (b', ret) ↦ (b', [ret])
  | .removeItems a => (Bulk.removeItems a).run b

/-- A removal of all the items up to the last cell of the array. -/
def Call.EndsOnLastCell (b : Cbuffer) : Call → Prop
  | .removeItems a => 0 ≤ a.nr ∧ a.nr ≤ b.size ∧ b.head + a.nr = b.maxSize
  | _ => False

instance (b : Cbuffer) (c : Call) : Decidable (c.EndsOnLastCell b) := by
  cases c <;> unfold Call.EndsOnLastCell <;> infer_instance

namespace Cbuffer

/-- The representation invariant of `cbuffer.h`. -/
structure Documented (b : Cbuffer) : Prop where
  head_lt : b.head < b.maxSize
  size_le : b.size ≤ b.maxSize

/-- The array has `max_size` cells, and no operation on `b` uses an index beyond them. -/
structure Safe (b : Cbuffer) : Prop where
  length_data : b.data.length = b.maxSize
  run_isSome : ∀ c : Call, (c.run b).isSome
  headCbuffer_lt : ∀ i, headCbuffer b = some i → i < b.maxSize

/-! ## Single items -/

/-- The buffer after `insert_cbuffer_t`. -/
def pushed (b : Cbuffer) (newItem : Byte) : Cbuffer :=
  if b.size = b.maxSize then
    { b with data := b.data.set b.head newItem, head := (b.head + 1) % b.maxSize }
  else
    { b with data := b.data.set ((b.head + b.size) % b.maxSize) newItem, size := b.size + 1 }

/-- The buffer after `remove_cbuffer_t`. -/
def popped (b : Cbuffer) : Cbuffer :=
  if b.size ≠ 0 then { b with head := (b.head + 1) % b.maxSize, size := b.size - 1 } else b

theorem store_of_lt {data : List Byte} {i : ℕ} (h : i < data.length) (x : Byte) :
    store data i x = some (data.set i x) := if_pos h

/-- **`insert_cbuffer_t`**, on a buffer with `head` in the documented range. -/
theorem Wf.insertCbuffer_eq {b : Cbuffer} (h : b.Wf) (hhead : b.head < b.maxSize) (x : Byte) :
    insertCbuffer b x = some (b.pushed x) := by
  obtain ⟨hlen, -, hsize, hpos, hmax⟩ := h
  have hmod : (b.head + b.size) % b.maxSize < b.maxSize := Nat.mod_lt _ hpos
  have hnext : toUnsigned ((b.head : ℤ) + 1) = b.head + 1 := by unfold toUnsigned; omega
  have hmore : toUnsigned ((b.size : ℤ) + 1) = b.size + 1 := by unfold toUnsigned; omega
  unfold insertCbuffer pushed
  by_cases hfull : b.size = b.maxSize
  · rw [if_pos hfull, if_pos hfull, store_of_lt (by omega), Option.map_some,
      if_pos (by omega), hnext]
  · rw [if_neg hfull, if_neg hfull]
    dsimp only
    rw [if_pos (by omega), toUnsigned_add (by omega), store_of_lt (by omega), Option.map_some,
      hmore]

/-- **`remove_cbuffer_t`**, on a buffer with `head` in the documented range. -/
theorem Wf.removeCbuffer_eq {b : Cbuffer} (h : b.Wf) (hhead : b.head < b.maxSize) :
    ∃ ret, removeCbuffer b = some (b.popped, ret) := by
  obtain ⟨hlen, -, hsize, hpos, hmax⟩ := h
  have hnext : toUnsigned ((b.head : ℤ) + 1) = b.head + 1 := by unfold toUnsigned; omega
  unfold removeCbuffer popped
  by_cases hsome : b.size ≠ 0
  · have hless : toUnsigned ((b.size : ℤ) - 1) = b.size - 1 := by unfold toUnsigned; omega
    rw [if_pos hsome, if_pos hsome, List.getElem?_eq_getElem (by omega), Option.bind_some,
      if_neg (by omega), hnext, hless]
    exact ⟨_, rfl⟩
  · rw [if_neg hsome, if_neg hsome]
    exact ⟨_, rfl⟩

theorem Wf.pushed {b : Cbuffer} (h : b.Wf) (x : Byte) : (b.pushed x).Wf := by
  obtain ⟨hlen, hhead, hsize, hpos, hmax⟩ := h
  have hmod : (b.head + 1) % b.maxSize < b.maxSize := Nat.mod_lt _ hpos
  unfold Cbuffer.pushed
  split
  · exact ⟨by simpa using hlen, Nat.le_of_lt hmod, hsize, hpos, hmax⟩
  · exact ⟨by simpa using hlen, hhead, by simp only; omega, hpos, hmax⟩

theorem Wf.popped {b : Cbuffer} (h : b.Wf) : b.popped.Wf := by
  obtain ⟨hlen, hhead, hsize, hpos, hmax⟩ := h
  have hmod : (b.head + 1) % b.maxSize < b.maxSize := Nat.mod_lt _ hpos
  unfold Cbuffer.popped
  split
  · exact ⟨hlen, Nat.le_of_lt hmod, by simp only; omega, hpos, hmax⟩
  · exact ⟨hlen, hhead, hsize, hpos, hmax⟩

theorem head_pushed_lt {b : Cbuffer} (hhead : b.head < b.maxSize) (x : Byte) :
    (b.pushed x).head < (b.pushed x).maxSize := by
  unfold pushed
  split
  · exact Nat.mod_lt _ (by omega)
  · exact hhead

theorem head_popped_lt {b : Cbuffer} (hhead : b.head < b.maxSize) :
    b.popped.head < b.popped.maxSize := by
  unfold popped
  split
  · exact Nat.mod_lt _ (by omega)
  · exact hhead

/-! ## The invariant -/

/-- A bulk operation takes `head` out of its range just when it removes up to the last
cell. -/
theorem head_lt_iff_of_runs {b : Cbuffer} (h : b.Wf) (hhead : b.head < b.maxSize) {a : Items}
    {r : Cbuffer × List Byte} (hr : (Bulk.removeItems a).Runs b r) :
    r.1.head < r.1.maxSize ↔ ¬(Call.removeItems a).EndsOnLastCell b := by
  have hsize := h.size_le
  cases hr with
  | removeRefused href =>
      refine iff_of_true hhead fun ⟨h₁, h₂, _⟩ ↦ ?_
      omega
  | @removed a n hn hle =>
      simp only [Cbuffer.removed, headAfter, Call.EndsOnLastCell, hn]
      split <;> omega

/-- **One call.**  From the documented range no operation uses an index outside the array,
and the only one to leave the range is a removal that ends on the last cell. -/
theorem Wf.call_run {b : Cbuffer} (h : b.Wf) (hhead : b.head < b.maxSize) (c : Call) :
    ∃ r, c.run b = some r ∧ r.1.Wf ∧ r.1.maxSize = b.maxSize ∧
      (r.1.head < r.1.maxSize ↔ ¬c.EndsOnLastCell b) := by
  cases c with
  | insert x =>
      refine ⟨_, by simp only [Call.run, h.insertCbuffer_eq hhead, Option.map_some]; rfl,
        h.pushed x, ?_, iff_of_true (head_pushed_lt hhead x) not_false⟩
      unfold Cbuffer.pushed
      split <;> rfl
  | insertItems a =>
      obtain ⟨r, hrun, hr⟩ := h.bulk_runs (.insertItems a)
      refine ⟨r, hrun, hr.wf h, hr.maxSize_eq, iff_of_true ?_ not_false⟩
      cases hr with
      | insertRefused | inserted => exact hhead
      | overwritten => exact Nat.mod_lt _ h.pos
  | remove =>
      obtain ⟨ret, hrun⟩ := h.removeCbuffer_eq hhead
      refine ⟨_, by simp only [Call.run, hrun, Option.map_some]; rfl, h.popped, ?_,
        iff_of_true (head_popped_lt hhead) not_false⟩
      unfold Cbuffer.popped
      split <;> rfl
  | removeItems a =>
      obtain ⟨r, hrun, hr⟩ := h.bulk_runs (.removeItems a)
      exact ⟨r, hrun, hr.wf h, hr.maxSize_eq, head_lt_iff_of_runs h hhead hr⟩

/-- A buffer that is used by calls in any order. -/
def calls (maxSize : ℕ) (data : List Byte) : LTS Cbuffer (LTS.Io Call (List Byte)) :=
  .ofStep (fun b ↦ b = createCbuffer maxSize data) Call.run

/-- The call of a step does not remove up to the last cell. -/
def ShortOfLastCell (b : Cbuffer) (l : LTS.Io Call (List Byte)) : Prop :=
  ¬l.input.EndsOnLastCell b

instance (b : Cbuffer) (l : LTS.Io Call (List Byte)) : Decidable (ShortOfLastCell b l) :=
  inferInstanceAs (Decidable (¬l.input.EndsOnLastCell b))

theorem wf_of_run {maxSize : ℕ} {data : List Byte} (hpos : 1 ≤ maxSize) (hmax : maxSize ≤ 2 ^ 30)
    (hdata : data.length = maxSize) {tr : List (LTS.Io Call (List Byte))} {b : Cbuffer}
    (h : (calls maxSize data).Run ShortOfLastCell tr b) : b.Wf ∧ b.head < b.maxSize := by
  refine h.invariant (I := fun b ↦ b.Wf ∧ b.head < b.maxSize) ?_ ?_
  · rintro b rfl
    exact ⟨wf_createCbuffer hdata hpos (by omega), hpos⟩
  · rintro b l t ⟨hwf, hhead⟩ hP hst
    obtain ⟨r, hrun, hwf', -, hiff⟩ := hwf.call_run hhead l.input
    obtain rfl : r = (t, l.output) := Option.some.inj (hrun.symm.trans hst)
    exact ⟨hwf', hiff.mpr hP⟩

/-- **The documented invariant, but for removals that end on the last cell.**  As long as
none is made, `head` and `size` are in the range that `cbuffer.h` gives, and whatever
operation comes next uses only indices below `max_size`; and the first removal of that
kind takes `head` out of its range. -/
theorem documented_of_run {maxSize : ℕ} {data : List Byte} (hpos : 1 ≤ maxSize)
    (hmax : maxSize ≤ 2 ^ 30) (hdata : data.length = maxSize)
    {tr : List (LTS.Io Call (List Byte))} {b : Cbuffer}
    (h : (calls maxSize data).Run ShortOfLastCell tr b) :
    b.Documented ∧ b.Safe ∧
      ∀ l t, (calls maxSize data).Step b l t → (t.Documented ↔ ShortOfLastCell b l) := by
  obtain ⟨hwf, hhead⟩ := wf_of_run hpos hmax hdata h
  refine ⟨⟨hhead, hwf.size_le⟩, ⟨hwf.length_data, fun c ↦ ?_, fun i hi ↦ ?_⟩, fun l t hst ↦ ?_⟩
  · obtain ⟨r, hrun, -⟩ := hwf.call_run hhead c
    rw [hrun]
    rfl
  · unfold headCbuffer at hi
    split at hi
    · obtain rfl := Option.some.inj hi
      exact hhead
    · cases hi
  · obtain ⟨r, hrun, hwf', -, hiff⟩ := hwf.call_run hhead l.input
    obtain rfl : r = (t, l.output) := Option.some.inj (hrun.symm.trans hst)
    exact ⟨fun hd ↦ hiff.mp hd.head_lt, fun hs ↦ ⟨hiff.mpr hs, hwf'.size_le⟩⟩

/-- A list of calls whose last state passes a test gives a run to a state that passes it. -/
theorem exists_calls (maxSize : ℕ) (data : List Byte)
    (P : Cbuffer → LTS.Io Call (List Byte) → Prop) [∀ b l, Decidable (P b l)] (cs : List Call)
    (good : Cbuffer → Bool)
    (h : (LTS.replay Call.run (fun b l ↦ decide (P b l)) (createCbuffer maxSize data) cs).any
      good = true) :
    ∃ tr b, (calls maxSize data).Run P tr b ∧ good b = true := by
  obtain ⟨tr, b, hr, hg⟩ :=
    LTS.exists_run_of_replay (fun b ↦ b = createCbuffer maxSize data) rfl h
  exact ⟨tr, b, hr.mono fun _ _ ↦ of_decide_eq_true, hg⟩

/-- A buffer of two bytes is filled, and one of them removed and replaced. -/
theorem documented_of_run_two :
    ∃ tr b, (calls 2 [0, 0]).Run ShortOfLastCell tr b ∧ b.head = 1 ∧ b.size = 2 ∧
      b.Documented ∧ b.Safe := by
  obtain ⟨tr, b, hr, hg⟩ := exists_calls 2 [0, 0] ShortOfLastCell
    [.insertItems (.whole [1, 2] (by decide)), .remove, .insert 3]
    (fun b ↦ b.head = 1 ∧ b.size = 2) (by decide)
  obtain ⟨hhead, hsize⟩ := of_decide_eq_true hg
  obtain ⟨hdoc, hsafe, -⟩ :=
    documented_of_run (by decide) (by decide) (show [0, 0].length = 2 from rfl) hr
  exact ⟨tr, b, hr, hhead, hsize, hdoc, hsafe⟩

/-- **`head` leaves its range**: both bytes of a buffer are removed at once.  The next item
is inserted at index 0, and looked for at index 2. -/
theorem exists_head_eq_maxSize :
    ∃ tr b, (calls 2 [0, 0]).Run LTS.anyStep tr b ∧ b.head = b.maxSize ∧ ¬b.Documented ∧
      headCbuffer b = some b.maxSize ∧ Call.remove.run b = none := by
  obtain ⟨tr, b, hr, hg⟩ := exists_calls 2 [0, 0] LTS.anyStep
    [.insertItems (.whole [1, 2] (by decide)), .removeItems (.whole [0, 0] (by decide)), .insert 3]
    (fun b ↦ b.head = b.maxSize ∧ headCbuffer b = some b.maxSize ∧ Call.remove.run b = none)
    (by decide)
  obtain ⟨hhead, hptr, hnone⟩ := of_decide_eq_true hg
  exact ⟨tr, b, hr, hhead, fun hd ↦ absurd hd.head_lt (by omega), hptr, hnone⟩

end Cbuffer

end DsoFifo
