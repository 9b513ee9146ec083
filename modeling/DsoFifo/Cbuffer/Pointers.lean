import DsoFifo.Buffer.BoundedQueue
import DsoFifo.Buffer.Ring
import DsoFifo.Transition.Execute

/-!
# The circular buffer of pointers

The `cbuffer.c` of the producer-consumer examples.  It is an older one: the elements are
pointers of type `void*`, an element is inserted or removed alone, and `head_cbuffer_t`
returns the element and not its address.

Pointers are values of any type `π`, with `default` for `NULL`.  As in the buffer of bytes,
`none` stands for an index outside the array or a remainder by zero.
-/

namespace DsoFifo.Pointers

open DsoFifo.C DsoFifo.Ring

/-- `cbuffer_t`. -/
structure Cbuffer (π : Type) where
  /-- Vector of pointers to items in the buffer. -/
  data : List π
  /-- Index of the first element. -/
  head : ℕ
  /-- Current buffer size. -/
  size : ℕ
  /-- Buffer max capacity. -/
  maxSize : ℕ
deriving DecidableEq, Repr

variable {π : Type}

/-- `create_cbuffer_t`, on the `maxSize` pointers that the allocator returned; what they are
is arbitrary. -/
def createCbuffer (maxSize : ℕ) (data : List π) : Cbuffer π :=
  { data := data, head := 0, size := 0, maxSize := maxSize }

/-- `size_cbuffer_t`. -/
def sizeCbuffer (b : Cbuffer π) : ℤ := toInt b.size

/-- `is_full_cbuffer_t`. -/
def isFullCbuffer (b : Cbuffer π) : Bool := b.size == b.maxSize

/-- `is_empty_cbuffer_t`. -/
def isEmptyCbuffer (b : Cbuffer π) : Bool := b.size == 0

/-- `data[i] = x`; `none` when the index is outside the array. -/
def store (data : List π) (i : ℕ) (x : π) : Option (List π) :=
  if i < data.length then some (data.set i x) else none

/-- `insert_cbuffer_t`. -/
def insertCbuffer (b : Cbuffer π) (newItem : π) : Option (Cbuffer π) :=
  if b.size = b.maxSize then
    (store b.data b.head newItem).map fun data ↦
      if b.size ≠ 0 then { b with data := data, head := toUnsigned (b.head + 1) % b.maxSize }
      else { b with data := data }
  else
    let pos := if b.maxSize ≠ 0 then toUnsigned (b.head + b.size) % b.maxSize else 0
    (store b.data pos newItem).map fun data ↦
      { b with data := data, size := toUnsigned (b.size + 1) }

/-- `remove_cbuffer_t`. -/
def removeCbuffer (b : Cbuffer π) : Option (Cbuffer π) :=
  if b.size ≠ 0 then
    if b.maxSize = 0 then none
    else some { b with
      head := toUnsigned (b.head + 1) % b.maxSize
      size := toUnsigned (b.size - 1) }
  else some b

/-- `head_cbuffer_t`. -/
def headCbuffer [Inhabited π] (b : Cbuffer π) : Option π :=
  if b.size ≠ 0 then b.data[b.head]? else some default

/-! ## Content -/

namespace Cbuffer

/-- The elements, from the head on. -/
def content [Inhabited π] (b : Cbuffer π) : List π := ringSlice b.data b.maxSize b.head b.size

/-- The invariant of `cbuffer.h`, on an array of `max_size` cells. -/
structure Wf (b : Cbuffer π) : Prop where
  length_data : b.data.length = b.maxSize
  head_lt : b.head < b.maxSize
  size_le : b.size ≤ b.maxSize
  maxSize_le : b.maxSize ≤ 1073741824

variable {b : Cbuffer π}

theorem wf_createCbuffer {maxSize : ℕ} {data : List π} (hd : data.length = maxSize)
    (hpos : 0 < maxSize) (hmax : maxSize ≤ 1073741824) : (createCbuffer maxSize data).Wf :=
  ⟨hd, hpos, Nat.zero_le _, hmax⟩

variable [Inhabited π]

@[simp] theorem content_createCbuffer (maxSize : ℕ) (data : List π) :
    (createCbuffer maxSize data).content = [] := rfl

@[simp] theorem length_content (b : Cbuffer π) : b.content.length = b.size := length_ringSlice

/-- A buffer with an element begins with the one at the head. -/
theorem Wf.content_eq_cons (h : b.Wf) (hsize : b.size ≠ 0) :
    b.content = b.data.getD b.head default ::
      ringSlice b.data b.maxSize (b.head + 1) (b.size - 1) := by
  have hsucc : b.size = b.size - 1 + 1 := by omega
  rw [content, hsucc, ringSlice_succ, Nat.mod_eq_of_lt h.head_lt, Nat.add_sub_cancel]

/-- **`insert_cbuffer_t`**: the element goes in at the end; without room for it, the oldest
one goes. -/
theorem Wf.insertCbuffer_eq (h : b.Wf) (x : π) :
    ∃ b', insertCbuffer b x = some b' ∧ b'.Wf ∧ b'.maxSize = b.maxSize ∧
      b'.content = BoundedQueue.push b.maxSize b.content [x] := by
  have hcons := h.content_eq_cons
  obtain ⟨hlen, hhead, hsize, hmax⟩ := h
  have hpos : b.maxSize ≠ 0 := by omega
  unfold insertCbuffer store
  by_cases hfull : b.size = b.maxSize
  · have hnext : toUnsigned ((b.head : ℤ) + 1) = b.head + 1 := by unfold toUnsigned; omega
    -- the head is the cell behind the other ones
    have hcell : (b.head + 1 + (b.maxSize - 1)) % b.maxSize = b.head := by
      rw [show b.head + 1 + (b.maxSize - 1) = b.head + b.maxSize by omega, Nat.add_mod_right,
        Nat.mod_eq_of_lt hhead]
    have hset := ringSlice_set hlen (show b.maxSize - 1 < b.maxSize by omega) (b.head + 1) x
    rw [hcell, Nat.sub_add_cancel (by omega)] at hset
    rw [if_pos hfull, if_pos (by omega), Option.map_some, if_pos (by omega), hnext]
    refine ⟨_, rfl, ⟨by simpa using hlen, Nat.mod_lt _ (by omega), hsize, hmax⟩, rfl, ?_⟩
    rw [BoundedQueue.push_of_lt (by rw [length_content, List.length_singleton]; omega)
      (by rw [List.length_singleton]; omega), length_content, List.length_singleton,
      show b.size + 1 - b.maxSize = 1 by omega, hcons (by omega), List.drop_one, List.tail_cons]
    simp only [content, ringSlice_congr_mod (Nat.mod_mod (b.head + 1) b.maxSize), hfull, hset]
  · have hroom : toUnsigned ((b.size : ℤ) + 1) = b.size + 1 := by unfold toUnsigned; omega
    have hmod : (b.head + b.size) % b.maxSize < b.data.length := by
      rw [hlen]
      exact Nat.mod_lt _ (by omega)
    rw [if_neg hfull]
    simp only [if_pos hpos, toUnsigned_add (show b.head + b.size < 4294967296 by omega),
      if_pos hmod, Option.map_some, hroom]
    refine ⟨_, rfl, ⟨by simpa using hlen, hhead, by simp only; omega, hmax⟩, rfl, ?_⟩
    rw [BoundedQueue.push_of_le (by rw [length_content, List.length_singleton]; omega)]
    exact ringSlice_set hlen (by omega) b.head x

/-- **`remove_cbuffer_t`**: the first element goes, if there is one. -/
theorem Wf.removeCbuffer_eq (h : b.Wf) :
    ∃ b', removeCbuffer b = some b' ∧ b'.Wf ∧ b'.maxSize = b.maxSize ∧
      b'.content = b.content.tail := by
  have hcons := h.content_eq_cons
  obtain ⟨hlen, hhead, hsize, hmax⟩ := h
  unfold removeCbuffer
  by_cases hsome : b.size ≠ 0
  · have hnext : toUnsigned ((b.head : ℤ) + 1) = b.head + 1 := by unfold toUnsigned; omega
    have hless : toUnsigned ((b.size : ℤ) - 1) = b.size - 1 := by unfold toUnsigned; omega
    rw [if_pos hsome, if_neg (by omega), hnext, hless]
    refine ⟨_, rfl, ⟨hlen, Nat.mod_lt _ (by omega), by simp only; omega, hmax⟩, rfl, ?_⟩
    rw [hcons hsome, List.tail_cons]
    exact ringSlice_congr_mod (Nat.mod_mod _ _)
  · rw [if_neg hsome]
    have hnil : b.content = [] := by
      rw [content, Decidable.not_not.mp hsome, ringSlice_zero]
    exact ⟨b, rfl, ⟨hlen, hhead, hsize, hmax⟩, rfl, by rw [hnil]; rfl⟩

/-- **`head_cbuffer_t`**: the first element, or `NULL`. -/
theorem Wf.headCbuffer_eq (h : b.Wf) : headCbuffer b = some (b.content.head?.getD default) := by
  unfold headCbuffer
  by_cases hsome : b.size ≠ 0
  · have hlt : b.head < b.data.length := h.length_data ▸ h.head_lt
    rw [if_pos hsome, h.content_eq_cons hsome, List.head?_cons, Option.getD_some,
      List.getD_eq_getElem _ _ hlt, List.getElem?_eq_getElem hlt]
  · have hnil : b.content = [] := by
      rw [content, Decidable.not_not.mp hsome, ringSlice_zero]
    rw [if_neg hsome, hnil]
    rfl

end Cbuffer

/-! ## Any calls -/

/-- The functions that are called on a buffer. -/
inductive Call (π : Type) where
  | insertCbuffer (newItem : π)
  | removeCbuffer
  | headCbuffer
  | sizeCbuffer
  | isFullCbuffer
  | isEmptyCbuffer
deriving DecidableEq

/-- What they return. -/
inductive Answer (π : Type) where
  | void
  | ptr (item : π)
  | int (n : ℤ)
deriving DecidableEq

variable [Inhabited π]

/-- A call, with its answer. -/
def Call.run (b : Cbuffer π) : Call π → Option (Cbuffer π × Answer π)
  | .insertCbuffer newItem => (Pointers.insertCbuffer b newItem).map fun b' ↦ (b', .void)
  | .removeCbuffer => (Pointers.removeCbuffer b).map fun b' ↦ (b', .void)
  | .headCbuffer => (Pointers.headCbuffer b).map fun item ↦ (b, .ptr item)
  | .sizeCbuffer => some (b, .int (Pointers.sizeCbuffer b))
  | .isFullCbuffer => some (b, .int (Pointers.isFullCbuffer b).toNat)
  | .isEmptyCbuffer => some (b, .int (Pointers.isEmptyCbuffer b).toNat)

/-- The same on a queue with room for `m` elements that forgets its oldest. -/
def Call.spec (m : ℕ) (q : List π) : Call π → List π × Answer π
  | .insertCbuffer newItem => (BoundedQueue.push m q [newItem], .void)
  | .removeCbuffer => (q.tail, .void)
  | .headCbuffer => (q, .ptr (q.head?.getD default))
  | .sizeCbuffer => (q, .int q.length)
  | .isFullCbuffer => (q, .int (decide (q.length = m)).toNat)
  | .isEmptyCbuffer => (q, .int (decide (q = [])).toNat)

/-- The buffer has these elements, and room for `m`. -/
def Represents (m : ℕ) (b : Cbuffer π) (q : List π) : Prop :=
  b.Wf ∧ b.maxSize = m ∧ b.content = q

/-- **One call** does to the elements what it does to a queue, and answers the same. -/
theorem lockstep (m : ℕ) : Lockstep (Represents m) Call.run (Call.spec (π := π) m) := by
  rintro b _ c ⟨hwf, rfl, rfl⟩
  have hsize := hwf.size_le
  have hmax := hwf.maxSize_le
  cases c with
  | insertCbuffer newItem =>
      obtain ⟨b', hb', hwf', hm, hq⟩ := hwf.insertCbuffer_eq newItem
      exact ⟨b', by rw [Call.run, hb']; rfl, hwf', hm, hq⟩
  | removeCbuffer =>
      obtain ⟨b', hb', hwf', hm, hq⟩ := hwf.removeCbuffer_eq
      exact ⟨b', by rw [Call.run, hb']; rfl, hwf', hm, hq⟩
  | headCbuffer => exact ⟨b, by rw [Call.run, hwf.headCbuffer_eq]; rfl, hwf, rfl, rfl⟩
  | sizeCbuffer =>
      refine ⟨b, ?_, hwf, rfl, rfl⟩
      rw [Call.run, sizeCbuffer, toInt_natCast (by omega)]
      simp only [Call.spec, Cbuffer.length_content]
  | isFullCbuffer =>
      refine ⟨b, ?_, hwf, rfl, rfl⟩
      simp only [Call.run, isFullCbuffer, Call.spec, Cbuffer.length_content]
      rfl
  | isEmptyCbuffer =>
      refine ⟨b, ?_, hwf, rfl, rfl⟩
      simp only [Call.run, isEmptyCbuffer, Call.spec, ← List.length_eq_zero_iff,
        Cbuffer.length_content]
      rfl

/-- **The buffer of pointers is a queue that forgets its oldest element.**  From any well-formed
buffer on, any calls in any order use no index outside the array and answer as a queue with room
for `max_size` elements would. -/
theorem execute_eq_transduce {b : Cbuffer π} (hb : b.Wf) (calls : List (Call π)) :
    ∃ b', execute Call.run b calls =
        some (b', (transduce (Call.spec b.maxSize) b.content calls).2) ∧
      b'.Wf ∧ b'.maxSize = b.maxSize ∧
      b'.content = (transduce (Call.spec b.maxSize) b.content calls).1 :=
  (lockstep b.maxSize).execute_eq (show Represents b.maxSize b b.content from ⟨hb, rfl, rfl⟩) calls

/-- The same from `create_cbuffer_t` on, where the queue is empty. -/
theorem execute_createCbuffer {maxSize : ℕ} {data : List π} (hpos : 1 ≤ maxSize)
    (hmax : maxSize ≤ 2 ^ 30) (hdata : data.length = maxSize) (calls : List (Call π)) :
    ∃ b, execute Call.run (createCbuffer maxSize data) calls =
        some (b, (transduce (Call.spec maxSize) [] calls).2) ∧
      b.Wf ∧ b.content = (transduce (Call.spec maxSize) [] calls).1 := by
  have hinit : Represents maxSize (createCbuffer maxSize data) [] :=
    ⟨Cbuffer.wf_createCbuffer hdata hpos hmax, rfl, rfl⟩
  obtain ⟨b, hb, hwf, -, hq⟩ := (lockstep maxSize).execute_eq hinit calls
  exact ⟨b, hb, hwf, hq⟩

/-- A buffer of two, the second cell of which is its first element, forgets that element. -/
theorem execute_eq_transduce_two :
    ∃ b, execute Call.run ⟨[0, 1], 1, 1, 2⟩
        [.insertCbuffer 2, .insertCbuffer 3, .headCbuffer, .removeCbuffer] =
        some (b, [.void, .void, .ptr 2, .void]) ∧ b.Wf ∧ b.maxSize = 2 ∧ b.content = [3] :=
  execute_eq_transduce (b := ⟨([0, 1] : List ℕ), 1, 1, 2⟩)
    ⟨rfl, by decide, by decide, by decide⟩
    [.insertCbuffer 2, .insertCbuffer 3, .headCbuffer, .removeCbuffer]

end DsoFifo.Pointers
