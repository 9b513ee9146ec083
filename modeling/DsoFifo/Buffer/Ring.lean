import DsoFifo.C.Machine
import Mathlib.Data.List.GetD
import Mathlib.Data.Nat.ModEq

/-!
# Cells of a ring

An array of `m` cells used as a ring: position `h + i` means cell `(h + i) % m`.
`ringSlice` reads consecutive positions, `ringWrite` writes a block at consecutive
positions, in at most two straight pieces as a program does it.

The one fact about writing is `getD_ringWrite`: of the `m` positions from the write
position on, the first ones hold the block and the others what they held before.
The two statements a queue needs, `ringSlice_ringWrite_of_add_le` (what is read
before the write position is untouched) and `ringSlice_ringWrite_self` (the block is
read back), are instances; and so is `ringWrite_snoc`, by which a block is written one
item at a time.
-/

universe u

namespace DsoFifo.Ring

open DsoFifo.C

variable {α : Type u} [Inhabited α]

/-- The items at positions `h`, …, `h + n - 1` of a ring of `m` cells. -/
def ringSlice (data : List α) (m h n : ℕ) : List α :=
  (List.range n).map fun i ↦ data.getD ((h + i) % m) default

/-- The block `xs` written at positions `w`, … of a ring, where `w < m` is a cell:
in one piece if it fits before the end of the array, else in two. -/
def ringWrite (data : List α) (m w : ℕ) (xs : List α) : List α :=
  if m < w + xs.length then blit (blit data w (xs.take (m - w))) 0 (xs.drop (m - w))
  else blit data w xs

variable {data xs : List α} {m h n w : ℕ}

/-! ## Reading -/

@[simp] theorem length_ringSlice : (ringSlice data m h n).length = n := by simp [ringSlice]

@[simp] theorem ringSlice_zero : ringSlice data m h 0 = [] := rfl

/-- Consecutive slices join. -/
theorem ringSlice_add (a b : ℕ) :
    ringSlice data m h (a + b) = ringSlice data m h a ++ ringSlice data m (h + a) b := by
  rw [ringSlice, List.range_add, List.map_append, List.map_map]
  simp only [ringSlice, List.append_cancel_left_eq]
  refine List.map_congr_left fun i _ ↦ ?_
  simp [Nat.add_assoc]

/-- Positions count modulo the number of cells. -/
theorem ringSlice_congr_mod {k : ℕ} (hk : h % m = k % m) :
    ringSlice data m h n = ringSlice data m k n := by
  refine List.map_congr_left fun i _ ↦ ?_
  rw [Nat.add_mod, hk, ← Nat.add_mod]

/-- Slices of arrays that agree on the cells read. -/
theorem ringSlice_congr {data' : List α}
    (hd : ∀ i < n, data.getD ((h + i) % m) default = data'.getD ((h + i) % m) default) :
    ringSlice data m h n = ringSlice data' m h n :=
  List.map_congr_left fun i hi ↦ hd i (List.mem_range.mp hi)

/-- A slice that does not reach the end of the array is a straight piece of it. -/
theorem ringSlice_eq_take_drop (hm : data.length = m) (hn : h + n ≤ m) :
    ringSlice data m h n = (data.drop h).take n := by
  refine List.ext_getElem (by simp; omega) fun i hi _ ↦ ?_
  simp only [length_ringSlice] at hi
  have hlt : h + i < data.length := by omega
  simp [ringSlice, Nat.mod_eq_of_lt (show h + i < m by omega), List.getElem?_eq_getElem hlt]

/-! ## Writing -/

omit [Inhabited α] in
theorem length_ringWrite (hm : data.length = m) (hw : w ≤ m) (hx : xs.length ≤ m) :
    (ringWrite data m w xs).length = m := by
  unfold ringWrite
  split
  · have h₁ : (blit data w (xs.take (m - w))).length = m := by
      rw [length_blit (by rw [List.length_take]; omega), hm]
    rw [length_blit (by rw [h₁, List.length_drop]; omega), h₁]
  · rw [length_blit (by omega), hm]

/-- **What a write does to the ring.**  Of the positions `w`, …, `w + m - 1` the
first `xs.length` hold `xs` and the others what they held before. -/
theorem getD_ringWrite (hm : data.length = m) (hw : w < m) (hx : xs.length ≤ m) {j : ℕ}
    (hj : j < m) : (ringWrite data m w xs).getD ((w + j) % m) default =
      if j < xs.length then xs.getD j default else data.getD ((w + j) % m) default := by
  have hmod : (w + j) % m = if w + j < m then w + j else w + j - m := by
    split
    · exact Nat.mod_eq_of_lt ‹_›
    · rw [Nat.mod_eq_sub_mod (by omega), Nat.mod_eq_of_lt (by omega)]
  simp only [List.getD_eq_getElem?_getD, hmod]
  unfold ringWrite
  split
  · -- two pieces: the second one overwrites cells `0`, … only
    have h₁ : (blit data w (xs.take (m - w))).length = m := by
      rw [length_blit (by rw [List.length_take]; omega), hm]
    rw [getElem?_blit (by rw [h₁, List.length_drop]; omega),
      getElem?_blit (by rw [List.length_take]; omega)]
    simp only [List.length_drop, List.length_take]
    by_cases hc : w + j < m
    · simp only [hc, if_true]
      rw [if_neg (by omega), if_pos (by omega), if_pos (by omega),
        List.getElem?_take_of_lt (by omega)]
      congr 2
      omega
    · simp only [hc, if_false]
      by_cases hjx : j < xs.length
      · rw [if_pos (by omega), if_pos hjx, List.getElem?_drop]
        congr 2
        omega
      · rw [if_neg (by omega), if_neg (by omega), if_neg hjx]
  · rw [getElem?_blit (by omega)]
    by_cases hjx : j < xs.length
    · rw [if_pos (show w + j < m by omega), if_pos (by omega), if_pos hjx]
      congr 2
      omega
    · rw [if_neg (by split <;> omega), if_neg hjx]

/-- A block that fits in the ring is read back where it was written. -/
theorem ringSlice_ringWrite_self (hm : data.length = m) (hw : w < m) (hx : xs.length ≤ m) :
    ringSlice (ringWrite data m w xs) m w xs.length = xs := by
  refine List.ext_getElem (by simp) fun i hi _ ↦ ?_
  simp only [length_ringSlice] at hi
  have hget := getD_ringWrite hm hw hx (j := i) (by omega)
  rw [if_pos hi] at hget
  simp only [ringSlice, List.getElem_map, List.getElem_range, hget]
  simp [List.getElem?_eq_getElem hi]

/-- Writing after the first `n` positions leaves these alone, if the block does not
come round to them. -/
theorem ringSlice_ringWrite_of_add_le (hm : data.length = m) (hpos : 0 < m)
    (hx : n + xs.length ≤ m) :
    ringSlice (ringWrite data m ((h + n) % m) xs) m h n = ringSlice data m h n := by
  refine ringSlice_congr fun i hi ↦ ?_
  -- position `h + i` is `m - n + i` positions after the write position
  have hpos' : (h + i) % m = ((h + n) % m + (m - n + i)) % m := by
    rw [Nat.mod_add_mod, show h + n + (m - n + i) = h + i + m by omega, Nat.add_mod_right]
  rw [hpos', getD_ringWrite hm (Nat.mod_lt _ hpos) (by omega) (by omega), if_neg (by omega)]

/-- Every cell is at one of the `m` positions from `w` on. -/
theorem exists_add_mod_eq (hw : w < m) {c : ℕ} (hc : c < m) : ∃ j < m, (w + j) % m = c := by
  refine ⟨(c + (m - w)) % m, Nat.mod_lt _ (by omega), ?_⟩
  rw [Nat.add_mod_mod, show w + (c + (m - w)) = c + m by omega, Nat.add_mod_right,
    Nat.mod_eq_of_lt hc]

/-- Different positions are different cells. -/
theorem add_mod_injective {i j : ℕ} (hi : i < m) (hj : j < m) (h : (w + i) % m = (w + j) % m) :
    i = j := by
  have hmod : i ≡ j [MOD m] := Nat.ModEq.add_left_cancel' w h
  rwa [Nat.ModEq, Nat.mod_eq_of_lt hi, Nat.mod_eq_of_lt hj] at hmod

/-- **A block is written one item at a time.** -/
theorem ringWrite_snoc (hm : data.length = m) (hw : w < m) {x : α} (hx : xs.length < m) :
    ringWrite data m w (xs ++ [x]) = (ringWrite data m w xs).set ((w + xs.length) % m) x := by
  have hlen : (xs ++ [x]).length = xs.length + 1 := List.length_append
  have hroom : (xs ++ [x]).length ≤ m := by omega
  have hleft := length_ringWrite hm (Nat.le_of_lt hw) hroom
  have hright := length_ringWrite hm (Nat.le_of_lt hw) hx.le
  refine List.ext_getElem (by rw [List.length_set, hleft, hright]) fun c hc _ ↦ ?_
  rw [hleft] at hc
  obtain ⟨j, hj, rfl⟩ := exists_add_mod_eq hw hc
  have hnew := getD_ringWrite hm hw hroom hj
  have hold := getD_ringWrite hm hw hx.le hj
  rw [List.getD_eq_getElem _ _ (by omega)] at hnew hold
  rw [hnew, List.getElem_set, hold, hlen]
  by_cases hlast : xs.length = j
  · subst hlast
    rw [if_pos (by omega), if_pos rfl, List.getD_append_right _ _ _ _ (by omega), Nat.sub_self]
    rfl
  · rw [if_neg (c := (w + xs.length) % m = (w + j) % m)
      fun heq ↦ hlast (add_mod_injective hx hj heq)]
    by_cases hlt : j < xs.length
    · rw [if_pos (by omega), if_pos hlt, List.getD_append _ _ _ _ hlt]
    · rw [if_neg (by omega), if_neg hlt]

/-! ## Single items -/

/-- The first item of a slice. -/
theorem ringSlice_succ (data : List α) (m h n : ℕ) :
    ringSlice data m h (n + 1) = data.getD (h % m) default :: ringSlice data m (h + 1) n := by
  rw [Nat.add_comm, ringSlice_add]
  rfl

/-- An item that is written right behind a slice extends it. -/
theorem ringSlice_set (hm : data.length = m) (hn : n < m) (h : ℕ) (x : α) :
    ringSlice (data.set ((h + n) % m) x) m h (n + 1) = ringSlice data m h n ++ [x] := by
  have hw : (h + n) % m < m := Nat.mod_lt _ (by omega)
  have hset : data.set ((h + n) % m) x = ringWrite data m ((h + n) % m) [x] := by
    have hsnoc := ringWrite_snoc hm hw (x := x) (List.length_nil (α := α) ▸ (by omega : 0 < m))
    rw [List.nil_append, List.length_nil, Nat.add_zero, Nat.mod_mod] at hsnoc
    rw [hsnoc, ringWrite, List.length_nil, if_neg (by omega), blit]
    simp
  have hback : ringSlice (ringWrite data m ((h + n) % m) [x]) m (h + n) 1 = [x] := by
    rw [ringSlice_congr_mod (Nat.mod_mod _ _).symm]
    exact ringSlice_ringWrite_self hm hw (by rw [List.length_singleton]; omega)
  rw [hset, ringSlice_add, hback,
    ringSlice_ringWrite_of_add_le hm (by omega) (by rw [List.length_singleton]; omega)]

end DsoFifo.Ring
