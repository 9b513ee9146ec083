import DsoFifo.C.Machine
import Mathlib.Data.List.TakeWhile
import Mathlib.Order.Basic

/-!
# Strings

`strncmp`, `strncpy`, `strlen` and the two copies from user memory, as the kernel's
`lib/string.c` and its user access functions have them.  A pointer to characters is the list
of the bytes that can be read from it on; a function that has to read further returns `none`.

What the bounded ones stop at is a NUL or a number `n` of bytes, whichever comes first:
`cut n xs` is the string they see.  `Bounded n xs` says that they stop inside `xs`, and
`strncmp_eq_zero_iff` that `strncmp` compares the cuts.
-/

namespace DsoFifo.C

/-- The bytes of a text in ASCII. -/
def ascii (cs : List Char) : List Byte := cs.map fun c ↦ c.toNat.toUInt8

/-- The characters of a C string. -/
structure CString where
  bytes : List Byte
  ne_zero : ∀ c ∈ bytes, c ≠ 0
deriving DecidableEq

/-- A C string in memory. -/
def CString.mem (s : CString) : List Byte := s.bytes ++ [0]

/-- `strncmp`. -/
def strncmp : List Byte → List Byte → ℕ → Option ℤ
  | _, _, 0 => some 0
  | c₁ :: cs, c₂ :: ct, count + 1 =>
    if c₁ ≠ c₂ then some (if c₁ < c₂ then -1 else 1)
    else if c₁ = 0 then some 0
    else strncmp cs ct count
  | _, _, _ + 1 => none

/-- `strncpy`: the `count` bytes that are written. -/
def strncpy : List Byte → ℕ → Option (List Byte)
  | _, 0 => some []
  | [], _ + 1 => none
  | c :: src, count + 1 =>
    (if c ≠ 0 then strncpy src count else strncpy (c :: src) count).map (c :: ·)

/-- `strncpy_from_user`: the bytes that are written.  It stops after a NUL, after `count`
bytes, or where the user's memory cannot be read any further. -/
def strncpyFromUser : List Byte → ℕ → List Byte
  | _, 0 => []
  | [], _ + 1 => []
  | c :: src, count + 1 => if c = 0 then [0] else c :: strncpyFromUser src count

/-- `strlen`: how many characters there are before the NUL. -/
def strlen : List Byte → Option ℕ
  | [] => none
  | c :: s => if c = 0 then some 0 else (strlen s).map (· + 1)

/-- `copy_from_user(dst, src, n)` when `src` is what can be read of the user's memory: what
cannot be read is cleared.  Returns the array, and the number of bytes that were not copied. -/
def copyFromUser (dst src : List Byte) (n : ℕ) : Option (List Byte × ℕ) :=
  let copied := src.take n
  (memcpy dst 0 (copied ++ List.replicate (n - copied.length) 0) 0 n).map fun dst ↦
    (dst, n - copied.length)

/-! ## The string in the first bytes -/

/-- The string in the first `n` bytes. -/
def cut (n : ℕ) (xs : List Byte) : List Byte := (xs.take n).takeWhile (· ≠ 0)

/-- A function that stops at a NUL or after `n` bytes stays inside `xs`. -/
def Bounded (n : ℕ) (xs : List Byte) : Prop := n ≤ xs.length ∨ 0 ∈ xs

/-- `s` with NULs after it, `n` bytes in all. -/
def pad (n : ℕ) (s : List Byte) : List Byte := s ++ List.replicate (n - s.length) 0

/-- The first `n` bytes, where those that cannot be read are NULs. -/
def readable (n : ℕ) (src : List Byte) : List Byte :=
  src.take n ++ List.replicate (n - (src.take n).length) 0

variable {n : ℕ} {c : Byte} {s xs ys : List Byte}

@[simp] theorem cut_zero : cut 0 xs = [] := rfl

@[simp] theorem cut_nil : cut n [] = [] := by simp [cut]

theorem cut_cons : cut (n + 1) (c :: xs) = if c = 0 then [] else c :: cut n xs := by
  by_cases hc : c = 0 <;> simp [cut, hc]

theorem bounded_cons : Bounded (n + 1) (c :: xs) ↔ c = 0 ∨ Bounded n xs := by
  simp only [Bounded, List.length_cons, List.mem_cons, eq_comm (a := (0 : Byte))]
  constructor
  · rintro (h | rfl | h)
    · exact .inr (.inl (by omega))
    · exact .inl rfl
    · exact .inr (.inr h)
  · rintro (rfl | h | h)
    · exact .inr (.inl rfl)
    · exact .inl (by omega)
    · exact .inr (.inr h)

theorem length_cut_le : (cut n xs).length ≤ n :=
  (List.takeWhile_prefix _).length_le.trans (List.length_take_le n xs)

theorem ne_zero_of_mem_cut (h : c ∈ cut n xs) : c ≠ 0 := by
  simpa using List.mem_takeWhile_imp h

theorem CString.bounded_mem (name : CString) : Bounded n name.mem :=
  .inr (List.mem_append_right _ (List.mem_singleton_self 0))

/-- The cut of a C string. -/
theorem CString.cut_mem (name : CString) : cut n name.mem = name.bytes.take n := by
  obtain ⟨bytes, hne⟩ := name
  simp only [CString.mem]
  induction bytes generalizing n with
  | nil => cases n <;> rfl
  | cons c bytes ih =>
      cases n with
      | zero => rfl
      | succ n =>
          rw [List.cons_append, cut_cons, if_neg (hne c List.mem_cons_self),
            ih fun d hd ↦ hne d (List.mem_cons_of_mem c hd), List.take_succ_cons]

theorem length_pad (h : s.length ≤ n) : (pad n s).length = n := by simp [pad, h]

theorem bounded_pad (h : s.length ≤ n) : Bounded n (pad n s) := .inl (length_pad h).ge

/-- Padding adds nothing to the string. -/
theorem cut_pad (h : s.length ≤ n) (hs : ∀ c ∈ s, c ≠ 0) : cut n (pad n s) = s := by
  rw [cut, List.take_of_length_le (length_pad h).le, pad, List.takeWhile_append_of_pos
    fun c hc ↦ by simpa using hs c hc]
  cases n - s.length <;> simp [List.replicate_succ]

@[simp] theorem cut_pad_cut : cut n (pad n (cut n xs)) = cut n xs :=
  cut_pad length_cut_le fun _ ↦ ne_zero_of_mem_cut

/-- This is so whatever the bytes are. -/
theorem cut_pad_of_length_le (h : s.length ≤ n) : cut n (pad n s) = cut n s := by
  rw [cut, cut, List.take_of_length_le (length_pad h).le, List.take_of_length_le h, pad]
  generalize n - s.length = k
  clear h
  induction s with
  | nil => cases k <;> simp [List.replicate_succ]
  | cons c s ih =>
      by_cases hc : c = 0
      · simp [hc]
      · simpa [hc] using ih

/-- A string ends with a NUL. -/
theorem exists_eq_cut_append (h : 0 ∈ xs.take n) : ∃ ys, xs = cut n xs ++ 0 :: ys := by
  induction xs generalizing n with
  | nil => simp at h
  | cons c xs ih =>
      cases n with
      | zero => simp at h
      | succ n =>
          rw [cut_cons]
          by_cases hc : c = 0
          · exact ⟨xs, by simp [hc]⟩
          · rw [List.take_succ_cons, List.mem_cons] at h
            obtain ⟨ys, hys⟩ := ih (h.resolve_left (Ne.symm hc))
            exact ⟨ys, by rw [if_neg hc, List.cons_append, ← hys]⟩

/-! ## What the functions do -/

/-- **`strncmp` compares the cuts.** -/
theorem strncmp_eq_zero_iff (hx : Bounded n xs) (hy : Bounded n ys) :
    ∃ r, strncmp xs ys n = some r ∧ (r = 0 ↔ cut n xs = cut n ys) := by
  induction n generalizing xs ys with
  | zero => exact ⟨0, by simp [strncmp], by simp⟩
  | succ n ih =>
      cases xs with
      | nil => simp [Bounded] at hx
      | cons c xs =>
      cases ys with
      | nil => simp [Bounded] at hy
      | cons d ys =>
      rw [bounded_cons] at hx hy
      simp only [strncmp, cut_cons]
      by_cases hcd : c = d
      · subst hcd
        by_cases hc : c = 0
        · exact ⟨0, by simp [hc], by simp [hc]⟩
        · obtain ⟨r, hr, hiff⟩ := ih (hx.resolve_left hc) (hy.resolve_left hc)
          exact ⟨r, by simp [hc, hr], by simp [hc, hiff]⟩
      · refine ⟨_, by rw [if_pos hcd], iff_of_false (by split <;> decide) fun heq ↦ ?_⟩
        by_cases hc : c = 0
        · subst hc
          simp [Ne.symm hcd] at heq
        · by_cases hd : d = 0
          · simp [hc, hd] at heq
          · simp [hc, hd, hcd] at heq

/-- `strlen` stops at the first NUL. -/
theorem strlen_append (hs : 0 ∉ s) (xs : List Byte) : strlen (s ++ 0 :: xs) = some s.length := by
  induction s with
  | nil => rfl
  | cons c s ih =>
      rw [List.mem_cons, not_or] at hs
      rw [List.cons_append, strlen, if_neg (Ne.symm hs.1), ih hs.2]
      rfl

@[simp] theorem length_readable (src : List Byte) (n : ℕ) : (readable n src).length = n := by
  have hle := List.length_take_le n src
  rw [readable, List.length_append, List.length_replicate]
  omega

theorem getElem?_readable {src : List Byte} {i : ℕ} (hi : i < n) :
    (readable n src)[i]? = some (src.getD i 0) := by
  rw [readable, List.getD_eq_getElem?_getD]
  by_cases hsrc : i < src.length
  · rw [List.getElem?_append_left (by rw [List.length_take]; omega), List.getElem?_take_of_lt hi,
      List.getElem?_eq_getElem hsrc, Option.getD_some]
  · rw [List.take_of_length_le (by omega), List.getElem?_append_right (by omega),
      List.getElem?_replicate_of_lt (by omega), List.getElem?_eq_none (by omega), Option.getD_none]

/-- `copy_from_user` writes `n` bytes, whether it could read them or not. -/
theorem copyFromUser_of_le {dst : List Byte} (hdst : n ≤ dst.length) (src : List Byte) :
    copyFromUser dst src n = some (blit dst 0 (readable n src), n - (src.take n).length) := by
  have hcopy := memcpy_whole dst (readable n src) (d := 0) (by rw [length_readable]; omega)
  rw [length_readable, Nat.cast_zero, readable] at hcopy
  rw [copyFromUser, hcopy, Option.map_some, readable]

/-- `copy_from_user` copies what is there. -/
theorem copyFromUser_eq {dst src : List Byte} (hsrc : n ≤ src.length) (hdst : n ≤ dst.length) :
    copyFromUser dst src n = some (blit dst 0 (src.take n), 0) := by
  rw [copyFromUser_of_le hdst, readable, List.length_take_of_le hsrc, Nat.sub_self,
    List.replicate_zero, List.append_nil]

/-- `strlen` passes characters only, and ends at a NUL. -/
theorem strlen_eq_some (h : strlen s = some n) :
    (∀ i < n, ∃ c ≠ 0, s[i]? = some c) ∧ s[n]? = some 0 := by
  induction s generalizing n with
  | nil => cases h
  | cons c s ih =>
      rw [strlen] at h
      split at h
      · rename_i hc
        cases h
        exact ⟨fun i hi ↦ absurd hi (Nat.not_lt_zero i), by rw [hc]; rfl⟩
      · rename_i hc
        obtain ⟨m, hm, rfl⟩ := Option.map_eq_some_iff.mp h
        obtain ⟨hlt, hnul⟩ := ih hm
        refine ⟨fun i hi ↦ ?_, hnul⟩
        cases i with
        | zero => exact ⟨c, hc, rfl⟩
        | succ i => exact hlt i (by omega)

/-- **`strncpy` writes the cut**, and NULs after it. -/
theorem strncpy_eq (h : Bounded n xs) : strncpy xs n = some (pad n (cut n xs)) := by
  induction n generalizing xs with
  | zero => simp [strncpy, pad]
  | succ n ih =>
      cases xs with
      | nil => simp [Bounded] at h
      | cons c xs =>
      by_cases hc : c = 0
      · subst hc
        have hcut : ∀ k, cut k (0 :: xs) = [] := fun k ↦ by
          cases k with
          | zero => rfl
          | succ k => rw [cut_cons, if_pos rfl]
        have hrest : strncpy (0 :: xs) n = _ := ih (.inr List.mem_cons_self)
        simp [strncpy, hrest, hcut, pad, List.replicate_succ]
      · have hrest := ih ((bounded_cons.mp h).resolve_left hc)
        simp [strncpy, hc, hrest, cut_cons, pad]

/-- **`strncpy_from_user` writes the cut**: over NULs, it is as if the rest was there. -/
theorem strncpyFromUser_eq :
    blit (List.replicate n 0) 0 (strncpyFromUser xs n) = pad n (cut n xs) := by
  have hpad : strncpyFromUser xs n ++ List.replicate (n - (strncpyFromUser xs n).length) 0 =
      pad n (cut n xs) := by
    induction n generalizing xs with
    | zero => cases xs <;> rfl
    | succ n ih =>
        cases xs with
        | nil => simp [strncpyFromUser, pad]
        | cons c xs =>
        by_cases hc : c = 0
        · simp [strncpyFromUser, cut_cons, hc, pad, List.replicate_succ]
        · simpa [strncpyFromUser, cut_cons, hc, pad] using @ih xs
  simpa [blit] using hpad

end DsoFifo.C
