import DsoFifo.Buffer.Ring
import DsoFifo.Buffer.ByteQueue

/-!
# The circular buffer

`cbuffer.c`, function by function.  A `Cbuffer` is the C structure; the fields of
type `unsigned int` are natural numbers below `2 ^ 32`.  A function that can run into
undefined behaviour — a copy or an index outside an array, a remainder by zero —
returns an `Option`, `none` standing for that.

The well-formed buffers (`Cbuffer.Wf`) are *not* those of the comment in `cbuffer.h`:
`removeItemsCbuffer` leaves `head = maxSize` when it takes the last cell of the array,
so the invariant that is kept is `head ≤ maxSize`.
-/

namespace DsoFifo

open DsoFifo.C DsoFifo.Ring

/-- `cbuffer_t`. -/
structure Cbuffer where
  /-- The raw byte vector. -/
  data : List Byte
  /-- Index of the first element. -/
  head : ℕ
  /-- Current buffer size. -/
  size : ℕ
  /-- Buffer max capacity. -/
  maxSize : ℕ
deriving DecidableEq, Repr

/-- `create_cbuffer_t`, on the block of `maxSize` bytes that the allocator returned;
what they hold is arbitrary. -/
def createCbuffer (maxSize : ℕ) (data : List Byte) : Cbuffer :=
  { data := data, head := 0, size := 0, maxSize := maxSize }

/-- `size_cbuffer_t`. -/
def sizeCbuffer (b : Cbuffer) : ℤ := toInt b.size

/-- `nr_gaps_cbuffer_t`. -/
def nrGapsCbuffer (b : Cbuffer) : ℤ := toInt (toUnsigned (b.maxSize - b.size))

/-- `is_empty_cbuffer_t`. -/
def isEmptyCbuffer (b : Cbuffer) : Bool := b.size == 0

/-- The second block of both bulk operations: `if (nr_items_left) memcpy(…)`. -/
def copyRest (dst : List Byte) (d : ℤ) (src : List Byte) (s nrItemsLeft : ℤ) :
    Option (List Byte) :=
  if nrItemsLeft ≠ 0 then memcpy dst d src s nrItemsLeft else some dst

/-- The copies of `insert_items_cbuffer_t`, to the cells from `whead` on and, when the
items do not all fit before the end of the array, on to the cells from `0` on. -/
def insertCopies (b : Cbuffer) (whead : ℤ) (items : List Byte) (nrItems : ℤ) :
    Option (List Byte) :=
  if toUnsigned (toInt (whead + nrItems)) > b.maxSize then
    let itemsCopied := toInt (toUnsigned (b.maxSize - whead))
    (memcpy b.data whead items 0 itemsCopied).bind fun data ↦
      copyRest data 0 items itemsCopied (nrItems - itemsCopied)
  else copyRest b.data whead items 0 nrItems

/-- `insert_items_cbuffer_t`: the first `nrItems` bytes of `items` go in at the end. -/
def insertItemsCbuffer (b : Cbuffer) (items : List Byte) (nrItems : ℤ) : Option Cbuffer :=
  if b.maxSize = 0 then none  -- the remainder in the initialisation of `whead`
  else
    let nrGaps := toInt (toUnsigned (b.maxSize - b.size))
    let whead := toInt (toUnsigned (b.head + b.size) % b.maxSize : ℕ)
    if toUnsigned nrItems > b.maxSize then some b
    else
      (insertCopies b whead items nrItems).map fun data ↦
        if nrGaps ≥ nrItems then
          { b with data := data, size := toUnsigned (b.size + nrItems) }
        else
          { b with
            data := data
            size := b.maxSize
            -- the head moves when old items are overwritten
            head := toUnsigned (b.head + (nrItems - nrGaps)) % b.maxSize }

/-- The second block of `remove_items_cbuffer_t`, which also moves the head. -/
def removeRest (b : Cbuffer) (items : List Byte) (pos : ℤ) (head : ℕ) (nrItemsLeft : ℤ) :
    Option (List Byte × ℕ) :=
  (copyRest items pos b.data head nrItemsLeft).map fun items ↦
    (items, if nrItemsLeft ≠ 0 then toUnsigned (head + nrItemsLeft) else head)

/-- The copies of `remove_items_cbuffer_t`, from the cells from `head` on and, when
the items are not all before the end of the array, on from the cells from `0` on.
Returns the caller's array and the new head. -/
def removeCopies (b : Cbuffer) (items : List Byte) (nrItems : ℤ) : Option (List Byte × ℕ) :=
  if toUnsigned (b.head + nrItems) > b.maxSize then
    let itemsCopied := toInt (toUnsigned (b.maxSize - b.head))
    (memcpy items 0 b.data b.head itemsCopied).bind fun items ↦
      removeRest b items itemsCopied 0 (nrItems - itemsCopied)
  else removeRest b items 0 b.head nrItems

/-- `remove_items_cbuffer_t`: `nrItems` bytes go to the front of the array `items`.
Returns the buffer and that array. -/
def removeItemsCbuffer (b : Cbuffer) (items : List Byte) (nrItems : ℤ) :
    Option (Cbuffer × List Byte) :=
  if toUnsigned nrItems > b.size then some (b, items)
  else
    (removeCopies b items nrItems).map fun (items, head) ↦
      ({ b with head := head, size := toUnsigned (b.size - nrItems) }, items)

namespace Cbuffer

/-- The logical content: `size` bytes from `head` on, around the ring. -/
def content (b : Cbuffer) : List Byte := ringSlice b.data b.maxSize b.head b.size

/-- What the bulk operations need and keep. -/
structure Wf (b : Cbuffer) : Prop where
  length_data : b.data.length = b.maxSize
  head_le : b.head ≤ b.maxSize
  size_le : b.size ≤ b.maxSize
  pos : 0 < b.maxSize
  maxSize_le : b.maxSize ≤ 1073741824

@[simp] theorem length_content (b : Cbuffer) : b.content.length = b.size := length_ringSlice

theorem wf_createCbuffer {maxSize : ℕ} {data : List Byte} (hd : data.length = maxSize)
    (hpos : 0 < maxSize) (hle : maxSize ≤ 1073741824) : (createCbuffer maxSize data).Wf :=
  ⟨hd, Nat.zero_le _, Nat.zero_le _, hpos, hle⟩

@[simp] theorem content_createCbuffer (maxSize : ℕ) (data : List Byte) :
    (createCbuffer maxSize data).content = [] := rfl

/-- `cbuffer->size = 0`, the reset that the driver does by hand. -/
def reset (b : Cbuffer) : Cbuffer := { b with size := 0 }

@[simp] theorem content_reset (b : Cbuffer) : b.reset.content = [] := rfl

@[simp] theorem size_reset (b : Cbuffer) : b.reset.size = 0 := rfl

theorem Wf.reset {b : Cbuffer} (h : b.Wf) : b.reset.Wf :=
  ⟨h.length_data, h.head_le, Nat.zero_le _, h.pos, h.maxSize_le⟩

/-! ## The observers -/

theorem Wf.sizeCbuffer_eq {b : Cbuffer} (h : b.Wf) : sizeCbuffer b = b.size := by
  have := h.size_le
  have := h.maxSize_le
  exact toInt_natCast (by omega)

theorem Wf.nrGapsCbuffer_eq {b : Cbuffer} (h : b.Wf) :
    nrGapsCbuffer b = (b.maxSize - b.size : ℕ) := by
  have hm := h.maxSize_le
  rw [nrGapsCbuffer, toUnsigned_sub h.size_le (by omega), toInt_natCast (by omega)]

theorem isEmptyCbuffer_iff {b : Cbuffer} : isEmptyCbuffer b = true ↔ b.size = 0 := by
  simp [isEmptyCbuffer]

/-! ## Inserting a block -/

theorem copyRest_natCast (dst src : List Byte) {d s n : ℕ} (hd : d + n ≤ dst.length)
    (hs : s + n ≤ src.length) :
    copyRest dst d src s n = some (blit dst d ((src.drop s).take n)) := by
  unfold copyRest
  split
  · exact memcpy_natCast dst src hd hs
  · obtain rfl : n = 0 := by omega
    simp [blit]

/-- The copies of an insertion stay inside both arrays, and they write the block
around the ring. -/
theorem Wf.insertCopies_eq {b : Cbuffer} (h : b.Wf) {w : ℕ} (hw : w < b.maxSize)
    {xs : List Byte} {n : ℕ} (hn : n ≤ b.maxSize) (hx : n ≤ xs.length) :
    insertCopies b w xs n = some (ringWrite b.data b.maxSize w (xs.take n)) := by
  obtain ⟨hlen, -, -, -, hmax⟩ := h
  have htake : (xs.take n).length = n := List.length_take_of_le hx
  unfold insertCopies ringWrite
  rw [toInt_add (by omega), toUnsigned_natCast (by omega),
    toUnsigned_sub (Nat.le_of_lt hw) (by omega), toInt_natCast (n := b.maxSize - w) (by omega),
    htake]
  by_cases hwrap : b.maxSize < w + n
  · rw [if_pos hwrap, if_pos hwrap]
    dsimp only
    have hfst : memcpy b.data w xs (0 : ℕ) (b.maxSize - w : ℕ) =
        some (blit b.data w (xs.take (b.maxSize - w))) :=
      memcpy_natCast b.data xs (by omega) (by omega)
    have hlen' : (blit b.data w (xs.take (b.maxSize - w))).length = b.maxSize := by
      rw [length_blit (by rw [List.length_take]; omega), hlen]
    have hsnd := copyRest_natCast (blit b.data w (xs.take (b.maxSize - w))) xs
      (d := 0) (s := b.maxSize - w) (n := n - (b.maxSize - w)) (by omega) (by omega)
    rw [Nat.cast_zero] at hfst hsnd
    rw [hfst, Option.bind_some, ← Nat.cast_sub (by omega), hsnd, List.take_take, List.drop_take,
      Nat.min_eq_left (by omega)]
  · rw [if_neg hwrap, if_neg hwrap]
    have := copyRest_natCast b.data xs (d := w) (s := 0) (n := n) (by omega)
      (by omega)
    simpa using this

/-- **`insert_items_cbuffer_t` where the block fits.** -/
theorem Wf.insertItemsCbuffer_eq {b : Cbuffer} (h : b.Wf) {xs : List Byte} {n : ℕ}
    (hx : n ≤ xs.length) (hn : b.size + n ≤ b.maxSize) :
    insertItemsCbuffer b xs n = some { b with
      data := ringWrite b.data b.maxSize ((b.head + b.size) % b.maxSize) (xs.take n)
      size := b.size + n } := by
  have hw : (b.head + b.size) % b.maxSize < b.maxSize := Nat.mod_lt _ h.pos
  have hcopies := h.insertCopies_eq hw (n := n) (by omega) hx
  obtain ⟨hlen, hhead, hsize, hpos, hmax⟩ := h
  unfold insertItemsCbuffer
  rw [if_neg (by omega), toUnsigned_natCast (n := n) (by omega), if_neg (by omega),
    toUnsigned_sub hsize (by omega), toInt_natCast (n := b.maxSize - b.size) (by omega),
    toUnsigned_add (m := b.head) (by omega),
    toInt_natCast (n := (b.head + b.size) % b.maxSize) (by omega), hcopies, Option.map_some,
    if_pos (by omega), toUnsigned_add (by omega)]

/-- The new head after `n` items are removed. -/
def headAfter (b : Cbuffer) (n : ℕ) : ℕ :=
  if b.maxSize < b.head + n then b.head + n - b.maxSize else b.head + n

theorem headAfter_mod (b : Cbuffer) (n : ℕ) :
    b.headAfter n % b.maxSize = (b.head + n) % b.maxSize := by
  unfold headAfter
  split
  · exact (Nat.mod_eq_sub_mod (by omega)).symm
  · rfl

theorem Wf.headAfter_le {b : Cbuffer} (h : b.Wf) {n : ℕ} (hn : n ≤ b.size) :
    b.headAfter n ≤ b.maxSize := by
  have := h.head_le
  have := h.size_le
  unfold headAfter
  split <;> omega

/-! ## Removing a block -/

theorem Wf.removeRest_natCast {b : Cbuffer} (h : b.Wf) (items : List Byte) (pos head : ℕ) {n : ℕ}
    (hd : pos + n ≤ items.length) (hs : head + n ≤ b.maxSize) :
    removeRest b items pos head n =
      some (blit items pos ((b.data.drop head).take n), head + n) := by
  obtain ⟨hlen, -, -, -, hmax⟩ := h
  rw [removeRest, copyRest_natCast _ _ hd (by omega), Option.map_some, toUnsigned_add (by omega)]
  congr 2
  split <;> omega

/-- The copies of a removal stay inside both arrays, and they read consecutive
positions of the ring. -/
theorem Wf.removeCopies_eq {b : Cbuffer} (h : b.Wf) {items : List Byte} {n : ℕ}
    (hn : n ≤ b.size) (hi : n ≤ items.length) :
    removeCopies b items n =
      some (blit items 0 (ringSlice b.data b.maxSize b.head n), b.headAfter n) := by
  have hrest := h.removeRest_natCast
  obtain ⟨hlen, hhead, hsize, hpos, hmax⟩ := h
  unfold removeCopies headAfter
  rw [toUnsigned_add (by omega), toUnsigned_sub hhead (by omega),
    toInt_natCast (n := b.maxSize - b.head) (by omega)]
  by_cases hwrap : b.maxSize < b.head + n
  · rw [if_pos hwrap, if_pos hwrap]
    dsimp only
    -- what is read first: the cells from the head to the end of the array
    generalize hk : b.maxSize - b.head = k
    have hslice : ringSlice b.data b.maxSize b.head n =
        (b.data.drop b.head).take k ++ (b.data.drop 0).take (n - k) := by
      conv_lhs => rw [show n = k + (n - k) by omega]
      rw [ringSlice_add, ringSlice_eq_take_drop hlen (by omega),
        ringSlice_congr_mod (k := 0) (by
          rw [show b.head + k = b.maxSize by omega, Nat.mod_self, Nat.zero_mod]),
        ringSlice_eq_take_drop hlen (by omega)]
    have hl : ((b.data.drop b.head).take k).length = k := by
      rw [List.length_take, List.length_drop]; omega
    have hl' : ((b.data.drop 0).take (n - k)).length = n - k := by
      rw [List.length_take, List.length_drop]; omega
    have hfst := memcpy_natCast items b.data (d := 0) (s := b.head) (n := k)
      (by omega) (by omega)
    have hsnd := hrest (blit items 0 ((b.data.drop b.head).take k)) k 0 (n := n - k)
      (by rw [length_blit (by omega)]; omega) (by omega)
    have happ := blit_append items ((b.data.drop b.head).take k)
      ((b.data.drop 0).take (n - k)) (d := 0) (by omega)
    rw [hl, Nat.zero_add] at happ
    rw [Nat.cast_zero] at hfst
    rw [hfst, Option.bind_some, ← Nat.cast_sub (by omega), hsnd, happ, hslice]
    congr 2
    omega
  · rw [if_neg hwrap, if_neg hwrap, ringSlice_eq_take_drop hlen (by omega)]
    exact_mod_cast hrest items 0 b.head (by omega) (by omega)

/-- **`remove_items_cbuffer_t` where the items are there.** -/
theorem Wf.removeItemsCbuffer_eq {b : Cbuffer} (h : b.Wf) {items : List Byte} {n : ℕ}
    (hn : n ≤ b.size) (hi : n ≤ items.length) :
    removeItemsCbuffer b items n =
      some ({ b with head := b.headAfter n, size := b.size - n },
        blit items 0 (ringSlice b.data b.maxSize b.head n)) := by
  have hs := h.size_le
  have hm := h.maxSize_le
  unfold removeItemsCbuffer
  rw [toUnsigned_natCast (by omega), if_neg (by omega), h.removeCopies_eq hn hi,
    Option.map_some, toUnsigned_sub hn (by omega)]

/-! ## The bulk operations as queue operations -/

/-- The buffer after a block that fits is inserted. -/
def inserted (b : Cbuffer) (xs : List Byte) : Cbuffer :=
  { b with
    data := ringWrite b.data b.maxSize ((b.head + b.size) % b.maxSize) xs
    size := b.size + xs.length }

/-- The buffer after `n` items that are there are removed. -/
def removed (b : Cbuffer) (n : ℕ) : Cbuffer :=
  { b with head := b.headAfter n, size := b.size - n }

/-- The first `n` items. -/
def front (b : Cbuffer) (n : ℕ) : List Byte := ringSlice b.data b.maxSize b.head n

@[simp] theorem length_front (b : Cbuffer) (n : ℕ) : (b.front n).length = n := length_ringSlice

theorem Wf.insert_eq {b : Cbuffer} (h : b.Wf) {xs : List Byte}
    (hx : b.size + xs.length ≤ b.maxSize) :
    insertItemsCbuffer b xs xs.length = some (b.inserted xs) := by
  rw [h.insertItemsCbuffer_eq le_rfl hx, List.take_length]
  rfl

/-- A removal of `n` items into an array of just `n` bytes fills the array. -/
theorem Wf.remove_eq {b : Cbuffer} (h : b.Wf) (items : List Byte) (hi : items.length ≤ b.size) :
    removeItemsCbuffer b items items.length =
      some (b.removed items.length, b.front items.length) := by
  rw [h.removeItemsCbuffer_eq hi le_rfl, blit_of_length_eq length_ringSlice]
  rfl

theorem Wf.inserted {b : Cbuffer} (h : b.Wf) {xs : List Byte}
    (hx : b.size + xs.length ≤ b.maxSize) : (b.inserted xs).Wf :=
  ⟨length_ringWrite h.length_data (Nat.le_of_lt (Nat.mod_lt _ h.pos)) (by omega), h.head_le, hx, h.pos,
    h.maxSize_le⟩

theorem Wf.removed {b : Cbuffer} (h : b.Wf) {n : ℕ} (hn : n ≤ b.size) : (b.removed n).Wf :=
  ⟨h.length_data, h.headAfter_le hn, Nat.le_trans (Nat.sub_le _ _) h.size_le, h.pos, h.maxSize_le⟩

/-- **A block goes in at the end**, and the items already there stay where they are. -/
theorem Wf.content_inserted {b : Cbuffer} (h : b.Wf) {xs : List Byte}
    (hx : b.size + xs.length ≤ b.maxSize) : (b.inserted xs).content = b.content ++ xs := by
  have hmod : (b.head + b.size) % b.maxSize < b.maxSize := Nat.mod_lt _ h.pos
  rw [content, Cbuffer.inserted]
  simp only
  rw [ringSlice_add, ringSlice_ringWrite_of_add_le h.length_data h.pos hx,
    ringSlice_congr_mod (k := (b.head + b.size) % b.maxSize) (Nat.mod_mod _ _).symm,
    ringSlice_ringWrite_self h.length_data hmod (by omega)]
  rfl

/-- **A block comes out at the front.** -/
theorem content_removed {b : Cbuffer} {n : ℕ} (hn : n ≤ b.size) :
    b.content = b.front n ++ (b.removed n).content := by
  rw [content, content, Cbuffer.removed, front]
  simp only
  rw [ringSlice_congr_mod (b.headAfter_mod n), ← ringSlice_add, Nat.add_sub_cancel' hn]

/-! ## Refinement -/

/-- What a user of the buffer does to it who checks the room and the size first: at
most one queue operation, recorded in the list. -/
inductive Step (b : Cbuffer) : List (BlockOp Byte) → Cbuffer → Prop
  | none : Step b [] b
  | insert {xs : List Byte} : b.size + xs.length ≤ b.maxSize →
      Step b [.insert xs] (b.inserted xs)
  | remove {n : ℕ} : n ≤ b.size → Step b [.remove (b.front n)] (b.removed n)
  | reset : Step b [.reset] b.reset

namespace Step

variable {b b' : Cbuffer} {ops : List (BlockOp Byte)}

theorem wf (h : Step b ops b') (hb : b.Wf) : b'.Wf := by
  cases h with
  | none => exact hb
  | insert hx => exact hb.inserted hx
  | remove hn => exact hb.removed hn
  | reset => exact hb.reset

theorem maxSize_eq (h : Step b ops b') : b'.maxSize = b.maxSize := by cases h <;> rfl

/-- **The buffer refines the queue**: on the contents, what is done to the buffer is the
queue operation of that name. -/
theorem content (h : Step b ops b') (hb : b.Wf) :
    (ops = [] ∧ b'.content = b.content) ∨
      ∃ op, ops = [op] ∧ BlockOp.Step b.content op b'.content := by
  cases h with
  | none => exact .inl ⟨rfl, rfl⟩
  | insert hx =>
      refine .inr ⟨_, rfl, ?_⟩
      rw [hb.content_inserted hx]
      exact .insert ..
  | remove hn =>
      refine .inr ⟨_, rfl, ?_⟩
      rw [content_removed hn]
      exact .remove ..
  | reset => exact .inr ⟨_, rfl, .reset _⟩

theorem path (h : Step b ops b') (hb : b.Wf) :
    (blockQueue Byte).Path LTS.anyStep b.content ops b'.content := by
  obtain ⟨rfl, hc⟩ | ⟨op, rfl, hst⟩ := h.content hb
  · rw [hc]
    exact .nil
  · exact .single trivial hst

end Step

end Cbuffer

end DsoFifo
