import DsoFifo.Buffer.BoundedQueue
import DsoFifo.Cbuffer.Basic
import DsoFifo.Transition.Execute

/-!
# The bulk operations as a bounded queue

`insert_items_cbuffer_t` and `remove_items_cbuffer_t` on arbitrary arguments: counts
that are negative or too large, blocks that do not fit and overwrite the oldest items,
removals that end on the last cell of the array.

`Bulk.refer` is what the two operations and the reset are for, on a list of bytes;
`bulk_refines_queue` says that any sequence of calls does just that to the contents,
and that no copy leaves an array.
-/

namespace DsoFifo

open DsoFifo.C DsoFifo.Ring

/-- What a bulk operation is given: an array, and how many of its bytes to use. -/
structure Items where
  bytes : List Byte
  nr : ℤ
  isInt : IsInt nr
  nr_le : nr ≤ bytes.length

/-- All the bytes of an array. -/
def Items.whole (xs : List Byte) (h : xs.length < 2147483648) : Items :=
  ⟨xs, xs.length, ⟨by omega, by omega⟩, Int.le_refl _⟩

/-- The calls that move more than one item. -/
inductive Bulk where
  | insertItems (a : Items)
  | removeItems (a : Items)
  | /-- `cbuffer->size = 0`. -/ reset

/-- A call, with what the caller's array holds afterwards. -/
def Bulk.run (b : Cbuffer) : Bulk → Option (Cbuffer × List Byte)
  | .insertItems a => (insertItemsCbuffer b a.bytes a.nr).map fun b' ↦ (b', a.bytes)
  | .removeItems a => removeItemsCbuffer b a.bytes a.nr
  | .reset => some (b.reset, [])

/-- What the calls are for, with room for `m` bytes. -/
def Bulk.refer (m : ℕ) (q : List Byte) : Bulk → List Byte × List Byte
  | .insertItems a =>
    (if a.nr < 0 ∨ m < a.nr then q else BoundedQueue.push m q (a.bytes.take a.nr.toNat), a.bytes)
  | .removeItems a =>
    if a.nr < 0 ∨ q.length < a.nr then (q, a.bytes)
    else (q.drop a.nr.toNat, q.take a.nr.toNat ++ a.bytes.drop a.nr.toNat)
  | .reset => ([], [])

namespace Cbuffer

/-! ## Counts that are refused -/

/-- A negative count becomes larger than any size. -/
theorem toUnsigned_of_neg {x : ℤ} (hx : IsInt x) (hneg : x < 0) : 2147483648 ≤ toUnsigned x := by
  unfold IsInt at hx
  unfold toUnsigned
  omega

theorem Wf.insertItemsCbuffer_refused {b : Cbuffer} (h : b.Wf) {xs : List Byte} {n : ℤ}
    (hn : IsInt n) (href : n < 0 ∨ b.maxSize < n) : insertItemsCbuffer b xs n = some b := by
  obtain ⟨-, -, -, hpos, hmax⟩ := h
  have hlt : toUnsigned n > b.maxSize := by
    rcases href with hneg | hbig
    · have := toUnsigned_of_neg hn hneg
      omega
    · unfold IsInt at hn
      unfold toUnsigned
      omega
  unfold insertItemsCbuffer
  rw [if_neg (by omega)]
  dsimp only
  rw [if_pos hlt]

theorem Wf.removeItemsCbuffer_refused {b : Cbuffer} (h : b.Wf) {xs : List Byte} {n : ℤ}
    (hn : IsInt n) (href : n < 0 ∨ b.size < n) : removeItemsCbuffer b xs n = some (b, xs) := by
  obtain ⟨-, -, hsize, -, hmax⟩ := h
  have hlt : toUnsigned n > b.size := by
    rcases href with hneg | hbig
    · have := toUnsigned_of_neg hn hneg
      omega
    · unfold IsInt at hn
      unfold toUnsigned
      omega
  unfold removeItemsCbuffer
  rw [if_pos hlt]

/-! ## Blocks that overwrite -/

/-- The buffer after a block that does not fit is inserted: it is full, and its head is
past the items that were overwritten. -/
def overwritten (b : Cbuffer) (xs : List Byte) : Cbuffer :=
  { b with
    data := ringWrite b.data b.maxSize ((b.head + b.size) % b.maxSize) xs
    size := b.maxSize
    head := (b.head + (b.size + xs.length - b.maxSize)) % b.maxSize }

/-- **`insert_items_cbuffer_t` where the block does not fit.** -/
theorem Wf.insertItemsCbuffer_overwrites {b : Cbuffer} (h : b.Wf) {xs : List Byte} {n : ℕ}
    (hx : n ≤ xs.length) (hn : n ≤ b.maxSize) (hover : b.maxSize < b.size + n) :
    insertItemsCbuffer b xs n = some (b.overwritten (xs.take n)) := by
  have hw : (b.head + b.size) % b.maxSize < b.maxSize := Nat.mod_lt _ h.pos
  have hcopies := h.insertCopies_eq hw hn hx
  obtain ⟨hlen, hhead, hsize, hpos, hmax⟩ := h
  have hhead' : toUnsigned ((b.head : ℤ) + ((n : ℤ) - (b.maxSize - b.size : ℕ))) =
      b.head + (b.size + n - b.maxSize) := by
    unfold toUnsigned
    omega
  unfold insertItemsCbuffer
  rw [if_neg (by omega), toUnsigned_natCast (n := n) (by omega), if_neg (by omega),
    toUnsigned_sub hsize (by omega), toInt_natCast (n := b.maxSize - b.size) (by omega),
    toUnsigned_add (m := b.head) (by omega),
    toInt_natCast (n := (b.head + b.size) % b.maxSize) (by omega), hcopies, Option.map_some,
    if_neg (by omega), hhead', overwritten, List.length_take_of_le hx]

theorem Wf.overwritten {b : Cbuffer} (h : b.Wf) {xs : List Byte} (hx : xs.length ≤ b.maxSize) :
    (b.overwritten xs).Wf :=
  ⟨length_ringWrite h.length_data (Nat.le_of_lt (Nat.mod_lt _ h.pos)) hx,
    Nat.le_of_lt (Nat.mod_lt _ h.pos), le_rfl, h.pos, h.maxSize_le⟩

/-- **The oldest items go**, as many as there are too many. -/
theorem Wf.content_overwritten {b : Cbuffer} (h : b.Wf) {xs : List Byte}
    (hx : xs.length ≤ b.maxSize) (hover : b.maxSize < b.size + xs.length) :
    (b.overwritten xs).content = b.content.drop (b.size + xs.length - b.maxSize) ++ xs := by
  obtain ⟨hlen, hhead, hsize, hpos, hmax⟩ := h
  generalize hk : b.size + xs.length - b.maxSize = k
  have hkept : b.size = k + (b.maxSize - xs.length) := by omega
  -- the kept items start at position `head + k`, and the block follows them
  have hw : b.head + k + (b.maxSize - xs.length) = b.head + b.size := by omega
  have hfirst : ringSlice (ringWrite b.data b.maxSize
      ((b.head + k + (b.maxSize - xs.length)) % b.maxSize) xs) b.maxSize (b.head + k)
      (b.maxSize - xs.length) = _ := ringSlice_ringWrite_of_add_le hlen hpos (by omega)
  have hblock := ringSlice_ringWrite_self hlen (Nat.mod_lt (b.head + b.size) hpos) hx
  rw [hw] at hfirst
  have hdrop : b.content.drop k =
      ringSlice b.data b.maxSize (b.head + k) (b.maxSize - xs.length) := by
    rw [content]
    conv_lhs => rw [hkept, ringSlice_add]
    rw [List.drop_left' length_ringSlice]
  have hall : ringSlice (ringWrite b.data b.maxSize ((b.head + b.size) % b.maxSize) xs) b.maxSize
      (b.head + k) (b.maxSize - xs.length + xs.length) = _ := ringSlice_add _ _
  rw [Nat.sub_add_cancel hx, hfirst, hw,
    ringSlice_congr_mod (Nat.mod_mod (b.head + b.size) b.maxSize).symm, hblock] at hall
  rw [hdrop, content, Cbuffer.overwritten, hk]
  simp only
  rw [ringSlice_congr_mod (Nat.mod_mod _ _), hall]

end Cbuffer

/-! ## Refinement -/

/-- Every way a bulk operation on a well-formed buffer goes: the buffer and the caller's
array afterwards. -/
inductive Bulk.Runs (b : Cbuffer) : Bulk → Cbuffer × List Byte → Prop
  | insertRefused {a : Items} : a.nr < 0 ∨ b.maxSize < a.nr → Runs b (.insertItems a) (b, a.bytes)
  | inserted {a : Items} {n : ℕ} : a.nr = n → n ≤ a.bytes.length → b.size + n ≤ b.maxSize →
      Runs b (.insertItems a) (b.inserted (a.bytes.take n), a.bytes)
  | overwritten {a : Items} {n : ℕ} : a.nr = n → n ≤ a.bytes.length → n ≤ b.maxSize →
      b.maxSize < b.size + n →
      Runs b (.insertItems a) (b.overwritten (a.bytes.take n), a.bytes)
  | removeRefused {a : Items} : a.nr < 0 ∨ b.size < a.nr → Runs b (.removeItems a) (b, a.bytes)
  | removed {a : Items} {n : ℕ} : a.nr = n → n ≤ b.size →
      Runs b (.removeItems a) (b.removed n, b.front n ++ a.bytes.drop n)
  | reset : Runs b .reset (b.reset, [])

namespace Cbuffer

/-- **No copy leaves an array**, and the list of cases is complete. -/
theorem Wf.bulk_runs {b : Cbuffer} (h : b.Wf) (i : Bulk) : ∃ r, i.run b = some r ∧ i.Runs b r := by
  cases i with
  | insertItems a =>
      simp only [Bulk.run]
      by_cases href : a.nr < 0 ∨ b.maxSize < a.nr
      · rw [h.insertItemsCbuffer_refused a.isInt href]
        exact ⟨_, rfl, .insertRefused href⟩
      · obtain ⟨n, hn⟩ := Int.eq_ofNat_of_zero_le (show 0 ≤ a.nr by omega)
        have hx : n ≤ a.bytes.length := by have := a.nr_le; omega
        rw [hn]
        by_cases hfit : b.size + n ≤ b.maxSize
        · refine ⟨_, ?_, .inserted hn hx hfit⟩
          rw [h.insertItemsCbuffer_eq hx hfit, Cbuffer.inserted, List.length_take_of_le hx]
          rfl
        · refine ⟨_, ?_, .overwritten hn hx (by omega) (by omega)⟩
          rw [h.insertItemsCbuffer_overwrites hx (by omega) (by omega)]
          rfl
  | removeItems a =>
      simp only [Bulk.run]
      by_cases href : a.nr < 0 ∨ b.size < a.nr
      · exact ⟨_, h.removeItemsCbuffer_refused a.isInt href, .removeRefused href⟩
      · obtain ⟨n, hn⟩ := Int.eq_ofNat_of_zero_le (show 0 ≤ a.nr by omega)
        have hx : n ≤ a.bytes.length := by have := a.nr_le; omega
        refine ⟨_, ?_, .removed hn (by omega)⟩
        rw [hn, h.removeItemsCbuffer_eq (by omega) hx]
        simp [blit, front, Cbuffer.removed]
  | reset => exact ⟨_, rfl, .reset⟩

end Cbuffer

namespace Bulk.Runs

variable {b : Cbuffer} {i : Bulk} {r : Cbuffer × List Byte}

theorem wf (h : i.Runs b r) (hb : b.Wf) : r.1.Wf := by
  cases h with
  | insertRefused | removeRefused => exact hb
  | inserted hn hx hfit => exact hb.inserted (by rw [List.length_take_of_le hx]; exact hfit)
  | overwritten hn hx hle => exact hb.overwritten (by rw [List.length_take_of_le hx]; exact hle)
  | removed hn hle => exact hb.removed hle
  | reset => exact hb.reset

theorem maxSize_eq (h : i.Runs b r) : r.1.maxSize = b.maxSize := by cases h <;> rfl

/-- **One call** does to the contents what it is for. -/
theorem refer (h : i.Runs b r) (hb : b.Wf) :
    i.refer b.maxSize b.content = (r.1.content, r.2) := by
  cases h with
  | insertRefused href => simp only [Bulk.refer, if_pos href]
  | @inserted a n hn hx hfit =>
      have hlen : (a.bytes.take n).length = n := List.length_take_of_le hx
      simp only [Bulk.refer, hn, Int.toNat_natCast]
      rw [if_neg (by omega), hb.content_inserted (by omega),
        BoundedQueue.push_of_le (by rw [Cbuffer.length_content]; omega)]
  | @overwritten a n hn hx hle hover =>
      have hlen : (a.bytes.take n).length = n := List.length_take_of_le hx
      simp only [Bulk.refer, hn, Int.toNat_natCast]
      rw [if_neg (by omega), hb.content_overwritten (by omega) (by omega),
        BoundedQueue.push_of_lt (by rw [Cbuffer.length_content]; omega) (by omega),
        Cbuffer.length_content]
  | removeRefused href => simp only [Bulk.refer, Cbuffer.length_content, if_pos href]
  | @removed a n hn hle =>
      simp only [Bulk.refer, hn, Int.toNat_natCast, Cbuffer.length_content]
      rw [if_neg (by omega), Cbuffer.content_removed hle, List.drop_left' (b.length_front n),
        List.take_left' (b.length_front n)]
  | reset => rfl

end Bulk.Runs

namespace Cbuffer

/-- **The bulk operations refine a bounded queue.**  After any sequence of bulk
insertions, removals and resets, with any counts, the buffer holds what a queue with room
for `maxSize` bytes would hold, the callers got the bytes that it would have given them,
and no copy has left an array. -/
theorem bulk_refines_queue {maxSize : ℕ} (hpos : 1 ≤ maxSize) (hmax : maxSize ≤ 2 ^ 30)
    {data : List Byte} (hdata : data.length = maxSize) (calls : List Bulk) :
    ∃ b, execute Bulk.run (createCbuffer maxSize data) calls =
        some (b, (transduce (Bulk.refer maxSize) [] calls).2) ∧
      b.content = (transduce (Bulk.refer maxSize) [] calls).1 := by
  have hstep : Lockstep (fun b q ↦ b.Wf ∧ b.maxSize = maxSize ∧ b.content = q) Bulk.run
      (Bulk.refer maxSize) := by
    rintro b q i ⟨hwf, rfl, rfl⟩
    obtain ⟨r, hrun, hr⟩ := hwf.bulk_runs i
    rw [hr.refer hwf]
    exact ⟨r.1, hrun, hr.wf hwf, hr.maxSize_eq, rfl⟩
  have hinit := wf_createCbuffer hdata hpos (by omega)
  obtain ⟨b, hrun, -, -, hc⟩ := hstep.execute_eq ⟨hinit, rfl, rfl⟩ calls
  exact ⟨b, hrun, hc⟩

/-- A removal that ends on the last cell, and an insertion that overwrites, in a buffer of
two bytes. -/
theorem bulk_refines_queue_two :
    ∃ b, execute Bulk.run (createCbuffer 2 [0, 0])
        [.insertItems (.whole [1, 2] (by decide)), .removeItems (.whole [0, 0] (by decide)),
          .insertItems (.whole [3] (by decide)), .insertItems (.whole [4, 5] (by decide))] =
        some (b, [[1, 2], [1, 2], [3], [4, 5]]) ∧ b.content = [4, 5] :=
  bulk_refines_queue (by decide) (by decide) (show [0, 0].length = 2 from rfl) _

end Cbuffer

end DsoFifo
