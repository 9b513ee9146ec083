import Mathlib.Data.List.Basic
import Mathlib.Data.Int.Cast.Lemmas

/-!
# What the sources take from C

The kernel modules are compiled for a machine with 32-bit `int` and `unsigned int`,
which convert into each other at every mixed comparison and assignment, and they
move bytes with `memcpy`.

A quantity of C type `unsigned int` is a natural number here and one of type `int`
an integer; `toUnsigned` and `toInt` are the two conversions, written wherever the
source converts.  An out-of-bounds `memcpy` has no meaning in C; `memcpy` returns
`none` for it, so "this never happens" is a statement about the model.
-/

universe u

namespace DsoFifo.C

/-- Bytes: the values of a `char`. -/
abbrev Byte : Type := UInt8

/-- Conversion to `unsigned int`. -/
def toUnsigned (x : ℤ) : ℕ := (x % 4294967296).toNat

/-- Conversion to `int`. -/
def toInt (x : ℤ) : ℤ := (x + 2147483648) % 4294967296 - 2147483648

/-- The range of `int`. -/
def IsInt (x : ℤ) : Prop := -2147483648 ≤ x ∧ x < 2147483648

theorem toUnsigned_natCast {n : ℕ} (h : n < 4294967296) : toUnsigned n = n := by
  unfold toUnsigned; omega

theorem toInt_of_isInt {x : ℤ} (h : IsInt x) : toInt x = x := by
  unfold toInt; unfold IsInt at h; omega

theorem toInt_natCast {n : ℕ} (h : n < 2147483648) : toInt n = n :=
  toInt_of_isInt ⟨by omega, by omega⟩

theorem toUnsigned_add {m n : ℕ} (h : m + n < 4294967296) : toUnsigned (m + n) = m + n := by
  unfold toUnsigned; omega

theorem toUnsigned_sub {m n : ℕ} (h : n ≤ m) (hm : m < 4294967296) :
    toUnsigned (m - n) = m - n := by
  unfold toUnsigned; omega

theorem toInt_add {m n : ℕ} (h : m + n < 2147483648) : toInt (m + n) = (m + n : ℕ) :=
  toInt_natCast h

/-! ## Copying -/

variable {α : Type u}

/-- `xs` written over `dst` from index `d` on. -/
def blit (dst : List α) (d : ℕ) (xs : List α) : List α :=
  dst.take d ++ xs ++ dst.drop (d + xs.length)

/-- `memcpy(&dst[d], &src[s], n)`, where `n` is an `int` on its way to a `size_t`: a
negative `n` becomes larger than any array.  `none` when a range leaves its array. -/
def memcpy (dst : List α) (d : ℤ) (src : List α) (s n : ℤ) : Option (List α) :=
  if 0 ≤ d ∧ 0 ≤ s ∧ 0 ≤ n ∧ d + n ≤ dst.length ∧ s + n ≤ src.length then
    some (blit dst d.toNat ((src.drop s.toNat).take n.toNat))
  else none

theorem memcpy_natCast (dst src : List α) {d s n : ℕ} (hd : d + n ≤ dst.length)
    (hs : s + n ≤ src.length) :
    memcpy dst d src s n = some (blit dst d ((src.drop s).take n)) := by
  unfold memcpy
  rw [if_pos (by omega)]
  simp

/-- A whole array that fits is copied. -/
theorem memcpy_whole (dst xs : List α) {d : ℕ} (h : d + xs.length ≤ dst.length) :
    memcpy dst d xs 0 xs.length = some (blit dst d xs) := by
  have hcopy := memcpy_natCast dst xs (s := 0) h (by omega)
  rwa [List.drop_zero, List.take_length, Nat.cast_zero] at hcopy

theorem length_blit {dst xs : List α} {d : ℕ} (h : d + xs.length ≤ dst.length) :
    (blit dst d xs).length = dst.length := by
  simp only [blit, List.length_append, List.length_take, List.length_drop]
  omega

theorem getElem?_blit {dst xs : List α} {d : ℕ} (h : d + xs.length ≤ dst.length) (j : ℕ) :
    (blit dst d xs)[j]? = if d ≤ j ∧ j < d + xs.length then xs[j - d]? else dst[j]? := by
  have hlen : (dst.take d).length = d := List.length_take_of_le (by omega)
  rw [blit, List.append_assoc]
  by_cases hlt : j < d
  · rw [List.getElem?_append_left (by omega), List.getElem?_take_of_lt hlt, if_neg (by omega)]
  · rw [List.getElem?_append_right (by omega), hlen]
    by_cases hin : j < d + xs.length
    · rw [List.getElem?_append_left (by omega), if_pos (by omega)]
    · rw [List.getElem?_append_right (by omega), if_neg (by omega), List.getElem?_drop]
      congr 1
      omega

/-- What is before a write stays. -/
theorem take_blit {dst xs : List α} {d k : ℕ} (hk : k ≤ d) (hd : d ≤ dst.length) :
    (blit dst d xs).take k = dst.take k := by
  have hlen : (dst.take d).length = d := List.length_take_of_le hd
  rw [blit, List.append_assoc, List.take_append_of_le_length (by omega), List.take_take,
    min_eq_left hk]

/-- Two writes, the second one right after the first. -/
theorem blit_append (dst xs ys : List α) {d : ℕ}
    (h : d + xs.length + ys.length ≤ dst.length) :
    blit (blit dst d xs) (d + xs.length) ys = blit dst d (xs ++ ys) := by
  refine List.ext_getElem? fun j ↦ ?_
  have hlen : (blit dst d xs).length = dst.length := length_blit (by omega)
  rw [getElem?_blit (by omega), getElem?_blit (by omega),
    getElem?_blit (by rw [List.length_append]; omega), List.length_append]
  by_cases hx : d ≤ j ∧ j < d + xs.length
  · rw [if_neg (by omega), if_pos hx, if_pos (by omega), List.getElem?_append_left (by omega)]
  · by_cases hy : d + xs.length ≤ j ∧ j < d + xs.length + ys.length
    · rw [if_pos hy, if_pos (by omega), List.getElem?_append_right (by omega)]
      congr 1
      omega
    · rw [if_neg hy, if_neg hx, if_neg (by omega)]

/-- What is written behind a text, over the array. -/
theorem append_prefix_blit {out dst : List α} (h : out <+: dst) (xs : List α) :
    out ++ xs <+: blit dst out.length xs := by
  obtain ⟨rest, rfl⟩ := h
  simp only [blit, List.take_left]
  exact List.prefix_append _ _

/-- A write over a whole array. -/
theorem blit_of_length_eq {dst xs : List α} (h : xs.length = dst.length) :
    blit dst 0 xs = xs := by
  simp [blit, h]

end DsoFifo.C
