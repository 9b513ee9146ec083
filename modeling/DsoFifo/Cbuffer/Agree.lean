import DsoFifo.Cbuffer.Single

/-!
# A block at once, or item by item

`insert_items_cbuffer_t` computes where its block begins, where it is split and where the
head is afterwards; `insert_cbuffer_t` goes on from cell to cell, and changes from appending
to overwriting when the buffer becomes full.  They do the same to the array, the head and the
size (`bulk_eq_each`).

Removing does not: the head that `remove_items_cbuffer_t` leaves may be at the end of the array
where `remove_cbuffer_t` leaves it at 0.  The bytes, the size and the content are the same.
-/

namespace DsoFifo

open DsoFifo.C DsoFifo.Ring

/-- `insert_cbuffer_t` on each byte of a block. -/
def insertEach (b : Cbuffer) (xs : List Byte) : Option Cbuffer := xs.foldlM insertCbuffer b

/-- `n` calls of `remove_cbuffer_t`, with the bytes that they return. -/
def removeEach (b : Cbuffer) (n : ℕ) : Option (Cbuffer × List Byte) :=
  execute (fun b () ↦ removeCbuffer b) b (List.replicate n ())

namespace Cbuffer

variable {b : Cbuffer} {xs : List Byte} {n : ℕ}

/-! ## Inserting -/

/-- The buffer after a block, whether it fits or not. -/
def extended (b : Cbuffer) (xs : List Byte) : Cbuffer :=
  { b with
    data := ringWrite b.data b.maxSize ((b.head + b.size) % b.maxSize) xs
    size := min (b.size + xs.length) b.maxSize
    head := (b.head + (b.size + xs.length - b.maxSize)) % b.maxSize }

/-- **`insert_items_cbuffer_t`** on a block that is not larger than the buffer. -/
theorem Wf.insertItemsCbuffer_eq_extended (h : b.Wf) (hhead : b.head < b.maxSize)
    (hx : xs.length ≤ b.maxSize) : insertItemsCbuffer b xs xs.length = some (b.extended xs) := by
  by_cases hfit : b.size + xs.length ≤ b.maxSize
  · rw [h.insert_eq hfit, Cbuffer.inserted, extended, min_eq_left hfit,
      Nat.sub_eq_zero_of_le hfit, Nat.add_zero, Nat.mod_eq_of_lt hhead]
  · rw [h.insertItemsCbuffer_overwrites le_rfl hx (by omega), List.take_length,
      Cbuffer.overwritten, extended, min_eq_right (by omega)]

theorem Wf.extended (h : b.Wf) (hx : xs.length ≤ b.maxSize) : (b.extended xs).Wf :=
  ⟨length_ringWrite h.length_data (Nat.le_of_lt (Nat.mod_lt _ h.pos)) hx,
    Nat.le_of_lt (Nat.mod_lt _ h.pos), min_le_right _ _, h.pos, h.maxSize_le⟩

/-- One more item goes to the cell after the block, and overwrites when the buffer is full. -/
theorem Wf.pushed_extended (h : b.Wf) (hhead : b.head < b.maxSize) (hx : xs.length < b.maxSize)
    (x : Byte) : (b.extended xs).pushed x = b.extended (xs ++ [x]) := by
  have hw : (b.head + b.size) % b.maxSize < b.maxSize := Nat.mod_lt _ h.pos
  have hlen : (xs ++ [x]).length = xs.length + 1 := List.length_append
  have hnext : ((b.head + b.size) % b.maxSize + xs.length) % b.maxSize =
      (b.head + (b.size + xs.length)) % b.maxSize := by rw [Nat.mod_add_mod, Nat.add_assoc]
  unfold Cbuffer.pushed Cbuffer.extended
  dsimp only
  rw [ringWrite_snoc h.length_data hw hx, hnext, hlen]
  by_cases hfull : b.maxSize ≤ b.size + xs.length
  · have hcell : b.head + (b.size + xs.length) =
        b.head + (b.size + xs.length - b.maxSize) + b.maxSize := by omega
    have hmore : b.size + (xs.length + 1) - b.maxSize = b.size + xs.length - b.maxSize + 1 := by
      omega
    rw [if_pos (min_eq_right hfull), hcell, Nat.add_mod_right, hmore, Nat.mod_add_mod,
      min_eq_right hfull, min_eq_right (by omega), Nat.add_assoc b.head]
  · have hfit : b.size + xs.length ≤ b.maxSize := Nat.le_of_not_le hfull
    rw [min_eq_left hfit, if_neg (by omega), min_eq_left (by omega), Nat.sub_eq_zero_of_le hfit,
      Nat.sub_eq_zero_of_le (by omega), Nat.add_zero, Nat.mod_eq_of_lt hhead, Nat.add_assoc b.size]

/-- **`insert_cbuffer_t`**, byte by byte. -/
theorem Wf.insertEach_eq (h : b.Wf) (hhead : b.head < b.maxSize) (hx : xs.length ≤ b.maxSize) :
    insertEach b xs = some (b.extended xs) := by
  induction xs using List.reverseRecOn with
  | nil =>
      have hnil := h.insertItemsCbuffer_eq_extended hhead hx
      rw [h.insert_eq (by simpa using h.size_le)] at hnil
      rw [← hnil, Cbuffer.inserted]
      simp [insertEach, ringWrite, blit]
  | append_singleton xs x ih =>
      have hlt : xs.length < b.maxSize := by rwa [List.length_append] at hx
      have hcons : insertEach b xs = some (b.extended xs) := ih (by omega)
      rw [insertEach, List.foldlM_append]
      rw [insertEach] at hcons
      rw [hcons]
      have hhead' : (b.extended xs).head < (b.extended xs).maxSize := Nat.mod_lt _ h.pos
      simp [(h.extended hlt.le).insertCbuffer_eq hhead', h.pushed_extended hhead hlt]

/-! ## Removing -/

/-- **`remove_cbuffer_t`** on a buffer that is not empty. -/
theorem Wf.removeCbuffer_eq_front (h : b.Wf) (hhead : b.head < b.maxSize) (hsome : b.size ≠ 0) :
    removeCbuffer b = some (b.popped, b.data.getD b.head default) := by
  obtain ⟨ret, hret⟩ := h.removeCbuffer_eq hhead
  have hdata := h.length_data
  rw [hret]
  unfold removeCbuffer at hret
  rw [if_pos hsome, List.getElem?_eq_getElem (by omega), Option.bind_some,
    if_neg (Nat.ne_of_gt h.pos)] at hret
  rw [List.getD_eq_getElem _ _ (by omega), ← (Prod.mk.inj (Option.some.inj hret)).2]

/-- The buffer after `n` items that are there are removed one by one. -/
def poppedEach (b : Cbuffer) (n : ℕ) : Cbuffer :=
  { b with head := (b.head + n) % b.maxSize, size := b.size - n }

/-- **`remove_cbuffer_t`**, `n` times. -/
theorem Wf.removeEach_eq (h : b.Wf) (hhead : b.head < b.maxSize) (hn : n ≤ b.size) :
    removeEach b n = some (b.poppedEach n, b.front n) := by
  induction n generalizing b with
  | zero =>
      rw [poppedEach, Nat.add_zero, Nat.mod_eq_of_lt hhead]
      rfl
  | succ n ih =>
      have hsome : b.size ≠ 0 := by omega
      have hpopped : b.popped = { b with
          head := (b.head + 1) % b.maxSize
          size := b.size - 1 } := if_pos hsome
      have hrest := ih h.popped (head_popped_lt hhead) (by rw [hpopped]; dsimp only; omega)
      have hfront : b.front (n + 1) = b.data.getD b.head default :: b.popped.front n := by
        rw [front, Nat.add_comm, ringSlice_add, hpopped, front,
          ringSlice_congr_mod (Nat.mod_mod _ _)]
        simp [ringSlice, Nat.mod_eq_of_lt hhead]
      have heach : b.popped.poppedEach n = b.poppedEach (n + 1) := by
        rw [hpopped, poppedEach, poppedEach]
        simp only [Nat.mod_add_mod]
        rw [Nat.add_assoc, Nat.add_comm 1, Nat.sub_sub, Nat.add_comm 1]
      rw [removeEach] at hrest ⊢
      rw [List.replicate_succ, execute, h.removeCbuffer_eq_front hhead hsome, Option.bind_some]
      simp only [hrest, Option.map_some, hfront, heach]

/-- The two removals leave the same content. -/
theorem content_poppedEach (b : Cbuffer) (n : ℕ) :
    (b.poppedEach n).content = (b.removed n).content := by
  rw [content, content]
  exact ringSlice_congr_mod ((Nat.mod_mod _ _).trans (b.headAfter_mod n).symm)

/-- **Bulk and single-item operations agree.**  From a buffer with `head` in the documented
range, a block that is not larger than the buffer is inserted at once as it is byte by byte,
also when it overwrites; and a removal of items that are there gives the bytes that single
removals give, and leaves as many and the same ones. -/
theorem bulk_eq_each (hpos : 1 ≤ b.maxSize) (hmax : b.maxSize ≤ 2 ^ 30)
    (hdata : b.data.length = b.maxSize) (hhead : b.head < b.maxSize) (hsize : b.size ≤ b.maxSize) :
    (∀ xs : List Byte, xs.length ≤ b.maxSize →
      ∃ b', insertItemsCbuffer b xs xs.length = some b' ∧ insertEach b xs = some b') ∧
    ∀ n ≤ b.size, ∀ items : List Byte, items.length = n →
      ∃ b₁ b₂ out, removeItemsCbuffer b items n = some (b₁, out) ∧
        removeEach b n = some (b₂, out) ∧ b₁.size = b₂.size ∧ b₁.content = b₂.content := by
  have h : b.Wf := ⟨hdata, hhead.le, hsize, hpos, by omega⟩
  constructor
  · intro xs hx
    exact ⟨_, h.insertItemsCbuffer_eq_extended hhead hx, h.insertEach_eq hhead hx⟩
  · rintro n hn items rfl
    exact ⟨_, _, _, h.remove_eq items hn, h.removeEach_eq hhead hn, rfl,
      (b.content_poppedEach _).symm⟩

/-- Three bytes over a ring of four that holds three, from cell 2 on. -/
theorem bulk_eq_each_four :
    let b : Cbuffer := ⟨[3, 0, 1, 2], 2, 3, 4⟩
    (∀ xs : List Byte, xs.length ≤ b.maxSize →
      ∃ b', insertItemsCbuffer b xs xs.length = some b' ∧ insertEach b xs = some b') ∧
    ∀ n ≤ b.size, ∀ items : List Byte, items.length = n →
      ∃ b₁ b₂ out, removeItemsCbuffer b items n = some (b₁, out) ∧
        removeEach b n = some (b₂, out) ∧ b₁.size = b₂.size ∧ b₁.content = b₂.content :=
  bulk_eq_each (by decide) (by decide) rfl (by decide) (by decide)

example : insertEach ⟨[3, 0, 1, 2], 2, 3, 4⟩ [4, 5, 6] = some ⟨[3, 4, 5, 6], 0, 4, 4⟩ := rfl

end Cbuffer

end DsoFifo
