import DsoFifo.Kifs.Basic

/-!
# The clipboard

The callbacks of the entry `"clipboard"`, over an array of 50 bytes.  A write puts a NUL
behind what it has copied, and a read delivers what is in front of the first NUL: the
clipboard holds a string of C, and its length is kept nowhere else.

`clipboard_round_trip_iff` says that what comes back is what was written if there was no NUL
in it, whatever the clipboard held before.
-/

namespace DsoFifo.Kifs

open DsoFifo.C

/-- `CLIP_SIZE`. -/
def clipSize : ℕ := 50

/-! ## The callbacks -/

/-- The first part of `clipboard_kifs_write`: the copy, and the value of `used`. -/
def copyIn (clipboard buffer : List Byte) (maxchars : ℕ) : Option (List Byte × ℕ) :=
  (copyFromUser clipboard buffer maxchars).map fun (clipboard, left) ↦ (clipboard, maxchars - left)

/-- `clipboard[used] = '\0'`. -/
def terminate (clipboard : List Byte) (used : ℕ) : Option (List Byte) :=
  memcpy clipboard used [0] 0 1

/-- `clipboard_kifs_write`, when `buffer` is what can be read of the user's buffer: the
clipboard after it, and what it returns. -/
def clipboardKifsWrite (clipboard buffer : List Byte) (maxchars : ℕ) :
    Option (List Byte × ℤ) :=
  if maxchars < clipSize then
    (copyIn clipboard buffer maxchars).bind fun (clipboard, used) ↦
      (terminate clipboard used).map fun clipboard ↦ (clipboard, used)
  else some (clipboard, -enospc)

/-- `clipboard_kifs_read`, when `copy_to_user` leaves out the last `left` bytes: what it
returns, and what it has written to the user's buffer, if it came to that.  The clipboard is
only read. -/
def clipboardKifsRead (clipboard : List Byte) (maxchars left : ℕ) :
    Option (ℤ × Option (List Byte)) :=
  (strlen clipboard).map fun used ↦
    if used ≤ maxchars then (used - left, some (clipboard.take (used - left)))
    else (-enospc, none)

/-- A call of one of the callbacks; of the user's buffer for a write, what can be read. -/
inductive Clipboard.Call where
  | read (maxchars : ℕ)
  | write (buffer : List Byte) (maxchars : ℕ)
deriving DecidableEq

/-! ## What they do -/

variable {clipboard buffer xs : List Byte} {maxchars : ℕ}

theorem copyIn_readable (hlen : clipboard.length = clipSize) (hmax : maxchars < clipSize) :
    copyIn clipboard buffer maxchars =
      some (blit clipboard 0 (readable maxchars buffer), (buffer.take maxchars).length) := by
  have hle := List.length_take_le maxchars buffer
  rw [copyIn, copyFromUser_of_le (by omega), Option.map_some]
  dsimp only
  rw [Nat.sub_sub_self hle]

theorem copyIn_eq (hlen : clipboard.length = clipSize) (hmax : maxchars < clipSize)
    (hbuffer : maxchars ≤ buffer.length) :
    copyIn clipboard buffer maxchars = some (blit clipboard 0 (buffer.take maxchars), maxchars) := by
  rw [copyIn, copyFromUser_eq hbuffer (by omega), Option.map_some]
  rfl

theorem terminate_eq {used : ℕ} (hused : used < clipboard.length) :
    terminate clipboard used = some (blit clipboard used [0]) :=
  memcpy_whole clipboard [0] hused

/-- A write that does not fault leaves its bytes and a NUL in front of what was there. -/
theorem clipboardKifsWrite_eq (hlen : clipboard.length = clipSize) (hmax : maxchars < clipSize)
    (hbuffer : maxchars ≤ buffer.length) :
    clipboardKifsWrite clipboard buffer maxchars =
      some (buffer.take maxchars ++ 0 :: clipboard.drop (maxchars + 1), (maxchars : ℤ)) := by
  have htake : (buffer.take maxchars).length = maxchars := List.length_take_of_le hbuffer
  have hcopied : (blit clipboard 0 (buffer.take maxchars)).length = clipboard.length :=
    length_blit (by omega)
  have happ := blit_append clipboard (buffer.take maxchars) [0] (d := 0)
    (by rw [List.length_singleton]; omega)
  rw [Nat.zero_add, htake] at happ
  rw [clipboardKifsWrite, if_pos hmax, copyIn_eq hlen hmax hbuffer, Option.bind_some]
  dsimp only
  rw [terminate_eq (by omega), Option.map_some, happ]
  simp [blit, htake]

/-- A read delivers the string, if there is room for it. -/
theorem clipboardKifsRead_append (hs : 0 ∉ xs) (rest : List Byte) (maxchars : ℕ) :
    clipboardKifsRead (xs ++ 0 :: rest) maxchars 0 =
      if xs.length ≤ maxchars then some ((xs.length : ℤ), some xs) else some (-enospc, none) := by
  rw [clipboardKifsRead, strlen_append hs, Option.map_some]
  split
  · simp
  · rfl

/-- The reads that follow a write of these bytes return them, where there is room. -/
def ReadsBack (clipboard xs : List Byte) : Prop :=
  (∀ maxchars, xs.length ≤ maxchars →
    clipboardKifsRead clipboard maxchars 0 = some ((xs.length : ℤ), some xs)) ∧
  ∀ maxchars < xs.length, clipboardKifsRead clipboard maxchars 0 = some (-enospc, none)

/-- **The clipboard round trip.**  A write of fewer than 50 bytes returns how many they are,
and the reads that follow give back just these bytes, or `-ENOSPC` where there is no room for
them, if and only if there is no NUL among them. -/
theorem clipboard_round_trip_iff (hlen : clipboard.length = clipSize) (hxs : xs.length < clipSize) :
    ∃ clipboard', clipboardKifsWrite clipboard xs xs.length = some (clipboard', (xs.length : ℤ)) ∧
      (ReadsBack clipboard' xs ↔ 0 ∉ xs) := by
  refine ⟨_, clipboardKifsWrite_eq hlen hxs le_rfl, ?_⟩
  rw [List.take_length]
  constructor
  · rintro ⟨hread, -⟩ hnul
    -- the string ends at the first NUL
    obtain ⟨ys, hys⟩ := exists_eq_cut_append (n := xs.length) (by rwa [List.take_length])
    have hmem : xs ++ 0 :: clipboard.drop (xs.length + 1) =
        cut xs.length xs ++ 0 :: (ys ++ 0 :: clipboard.drop (xs.length + 1)) := by
      rw [← List.cons_append, ← List.append_assoc, ← hys]
    have hshort := hread xs.length le_rfl
    rw [hmem, clipboardKifsRead_append fun h ↦ ne_zero_of_mem_cut h rfl,
      if_pos length_cut_le] at hshort
    have hcut : cut xs.length xs = xs := Option.some.inj (Prod.mk.inj (Option.some.inj hshort)).2
    rw [← hcut] at hnul
    exact ne_zero_of_mem_cut hnul rfl
  · intro hnul
    refine ⟨fun maxchars hle ↦ ?_, fun maxchars hlt ↦ ?_⟩
    · rw [clipboardKifsRead_append hnul, if_pos hle]
    · rw [clipboardKifsRead_append hnul, if_neg (by omega)]

/-- Three bytes over a longer string. -/
theorem clipboard_round_trip_iff_abc :
    ∃ clipboard', clipboardKifsWrite (List.replicate 49 7 ++ [0]) [97, 98, 99] 3 =
        some (clipboard', 3) ∧
      (ReadsBack clipboard' [97, 98, 99] ↔ 0 ∉ ([97, 98, 99] : List Byte)) :=
  clipboard_round_trip_iff (by decide) (by decide)

/-- **Bytes are lost** when there is a NUL among them: of three bytes, one comes back. -/
theorem clipboard_cut_at_nul :
    (clipboardKifsWrite (List.replicate 50 0) [97, 0, 99] 3).bind (fun (clipboard, used) ↦
      (clipboardKifsRead clipboard 49 0).map fun r ↦ (used, r)) =
        some (3, 1, some [97]) := by
  decide +kernel

end DsoFifo.Kifs
