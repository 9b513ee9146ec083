import DsoFifo.Modlist.Basic

/-!
# Reading the list

`procfile_read` adds up what `snprintf` returns, the length that each line would have had,
and it leaves its loop when this is exactly the size of the buffer.  As long as the text and
the NUL after it fit (`readLoop_of_fits`) that is the length of what was written.  When they do
not, the last line is cut and ends in a NUL, or the sum steps over the size of the buffer
and `snprintf` is called with a negative size (`readLoop_of_not_fits`).

`procfileRead_inBounds_iff` is where exactly that happens.
-/

namespace DsoFifo.Modlist

open DsoFifo.C

variable {bufferLen data : CInt} {r r' : Reading} {out : List Byte} {l : List CInt}

/-- `out` has been printed: it is in the buffer, and counted. -/
structure Reading.Holds (bufferLen : CInt) (out : List Byte) (r : Reading) : Prop where
  le_length : bufferLen.1 ≤ r.buffer.length
  out_prefix : out <+: r.buffer
  used_eq : r.used = out.length
  sizes_nonneg : ∀ size ∈ r.sizes, 0 ≤ size

/-- Nothing has been printed yet. -/
theorem holds_nil {buffer : List Byte} (h : bufferLen.1 ≤ buffer.length) :
    Reading.Holds bufferLen [] { buffer := buffer, used := 0, sizes := [] } where
  le_length := h
  out_prefix := List.nil_prefix
  used_eq := rfl
  sizes_nonneg := fun _ h ↦ absurd h List.not_mem_nil

/-- What `snprintf` writes where there is room for `size` bytes. -/
theorem snprintf_of_pos {buffer xs : List Byte} {size : ℤ} (hsize : 0 < size)
    (hroom : out.length + size ≤ buffer.length) :
    snprintf buffer out.length size xs =
      some (blit buffer out.length (xs.take (size.toNat - 1) ++ [0]), (xs.length : ℤ)) := by
  have hlen : (xs.take (size.toNat - 1) ++ [0]).length ≤ size.toNat := by
    rw [List.length_append, List.length_take, List.length_singleton]
    omega
  have hcopy := memcpy_whole buffer (xs.take (size.toNat - 1) ++ [0]) (d := out.length) (by omega)
  simp only [snprintf]
  rw [if_neg (by omega), if_neg (by omega), hcopy, Option.map_some]

namespace Reading.Holds

/-- What the body of the loop does as long as there is room. -/
theorem print_eq (h : r.Holds bufferLen out) (hlt : (out.length : ℤ) < bufferLen.1) :
    r.print bufferLen data =
      if IsInt (out.length + (line data).length) then
        some { buffer := blit r.buffer out.length
                 ((line data).take ((bufferLen.1 - out.length).toNat - 1) ++ [0])
               used := out.length + (line data).length
               sizes := (bufferLen.1 - out.length) :: r.sizes }
      else none := by
  have hroom := h.le_length
  simp only [Reading.print, h.used_eq]
  rw [snprintf_of_pos (by omega) (by omega), Option.bind_some]

/-- A line that fits, with its NUL, is printed. -/
theorem print (h : r.Holds bufferLen out)
    (hfits : (out.length + (line data).length : ℤ) < bufferLen.1) :
    ∃ r', r.print bufferLen data = some r' ∧ r'.Holds bufferLen (out ++ line data) := by
  have hroom := h.le_length
  have hint := bufferLen.2.2
  have htake : (line data).take ((bufferLen.1 - out.length).toNat - 1) = line data :=
    List.take_of_length_le (by omega)
  rw [h.print_eq (by omega), htake, if_pos (by unfold IsInt; omega)]
  refine ⟨_, rfl, ?_, ?_, ?_, ?_⟩
  · simp only
    rw [length_blit (by simp only [List.length_append, List.length_singleton]; omega)]
    exact hroom
  · refine List.IsPrefix.trans ?_ (append_prefix_blit h.out_prefix _)
    rw [← List.append_assoc]
    exact List.prefix_append _ _
  · simp
  · exact List.forall_mem_cons.mpr ⟨by omega, h.sizes_nonneg⟩

/-- **A text that fits, with its NUL, is printed.** -/
theorem readLoop_of_fits (h : r.Holds bufferLen out)
    (hfits : (out.length + (text l).length : ℤ) < bufferLen.1) :
    ∃ r', readLoop bufferLen r l = some r' ∧ r'.Holds bufferLen (out ++ text l) := by
  induction l generalizing r out with
  | nil => exact ⟨r, rfl, by simpa using h⟩
  | cons data l ih =>
      rw [text_cons, List.length_append, Nat.cast_add] at hfits
      obtain ⟨r₁, hr₁, h₁⟩ : ∃ r₁, r.print bufferLen data = some r₁ ∧
        r₁.Holds bufferLen (out ++ line data) := h.print (by omega)
      obtain ⟨r', hr', h'⟩ := ih h₁ (by rw [List.length_append]; omega)
      refine ⟨r', ?_, by simpa using h'⟩
      rw [readLoop, if_neg (by rw [h.used_eq]; omega), hr₁, Option.bind_some, hr']

end Reading.Holds

/-- Once the sum is the size of the buffer, the loop is left. -/
theorem readLoop_of_full (h : r.used = bufferLen.1) : readLoop bufferLen r l = some r := by
  cases l with
  | nil => rfl
  | cons data l => rw [readLoop, if_pos (by omega)]

/-- Once the sum is beyond the size of the buffer, it stays what it is. -/
theorem used_of_readLoop (hlt : bufferLen.1 < r.used) (h : readLoop bufferLen r l = some r') :
    r'.used = r.used := by
  induction l generalizing r with
  | nil => rw [Option.some.inj h]
  | cons data l ih =>
      rw [readLoop, if_neg (by omega)] at h
      obtain ⟨r₁, hr₁, hrest⟩ := Option.bind_eq_some_iff.mp h
      have hused : r₁.used = r.used := by
        rw [Reading.print, snprintf, if_pos (by omega), Option.bind_some] at hr₁
        simp only [add_zero] at hr₁
        split at hr₁
        · rw [← Option.some.inj hr₁]
        · cases hr₁
      rw [ih (by omega) hrest, hused]

/-- **A text that does not fit.**  In the end the sum is beyond the size of the buffer, or it
is that size and the buffer has a NUL among its first bytes. -/
theorem Reading.Holds.readLoop_of_not_fits (h : r.Holds bufferLen out)
    (hlt : (out.length : ℤ) < bufferLen.1)
    (hfits : bufferLen.1 ≤ out.length + (text l).length) (hr : readLoop bufferLen r l = some r') :
    bufferLen.1 < r'.used ∨ r'.used = bufferLen.1 ∧ 0 ∈ r'.buffer.take bufferLen.1.toNat := by
  induction l generalizing r out with
  | nil =>
      simp only [text_nil, List.length_nil, Nat.cast_zero] at hfits
      omega
  | cons data l ih =>
      rw [readLoop, if_neg (by rw [h.used_eq]; omega)] at hr
      obtain ⟨r₁, hr₁, hrest⟩ := Option.bind_eq_some_iff.mp hr
      by_cases hline : (out.length + (line data).length : ℤ) < bufferLen.1
      · obtain ⟨r₂, hr₂, h₂⟩ := h.print hline
        obtain rfl : r₂ = r₁ := Option.some.inj (hr₂.symm.trans hr₁)
        rw [text_cons, List.length_append, Nat.cast_add] at hfits
        exact ih h₂ (by rw [List.length_append]; omega) (by rw [List.length_append]; omega) hrest
      · -- the line in which the buffer ends
        rw [h.print_eq hlt] at hr₁
        split at hr₁
        case isFalse => cases hr₁
        obtain rfl := Option.some.inj hr₁
        by_cases hused : bufferLen.1 < out.length + (line data).length
        · exact .inl ((used_of_readLoop hused hrest).symm ▸ hused)
        · have heq : (out.length + (line data).length : ℤ) = bufferLen.1 := by omega
          rw [readLoop_of_full heq] at hrest
          obtain rfl := Option.some.inj hrest
          refine .inr ⟨heq, ?_⟩
          have hpre := append_prefix_blit h.out_prefix
            ((line data).take ((bufferLen.1 - out.length).toNat - 1) ++ [0])
          have hlen : (out ++ ((line data).take
              ((bufferLen.1 - out.length).toNat - 1) ++ [0])).length = bufferLen.1.toNat := by
            simp only [List.length_append, List.length_take, List.length_singleton]
            omega
          rw [List.prefix_iff_eq_take, hlen] at hpre
          simp only
          rw [← hpre]
          exact List.mem_append_right _ (List.mem_append_right _ (List.mem_singleton_self 0))

/-! ## When it works -/

/-- What `procfile_read` should leave behind for a list. -/
structure Reading.InBounds (bufferLen : CInt) (l : List CInt) (r : Reading) : Prop where
  sizes_nonneg : ∀ size ∈ r.sizes, 0 ≤ size
  used_nonneg : 0 ≤ r.used
  used_le : r.used ≤ bufferLen.1
  take_eq : r.buffer.take r.used.toNat = (text l).take r.used.toNat

/-- **The text, its length and nothing else**, when it fits with the NUL after it. -/
theorem procfileRead_of_fits {buffer : List Byte} (hbuffer : bufferLen.1 ≤ buffer.length)
    (hfits : (text l).length < bufferLen.1) :
    ∃ r, procfileRead buffer bufferLen l = some r ∧ r.used = (text l).length ∧
      r.buffer.take (text l).length = text l ∧ ∀ size ∈ r.sizes, 0 ≤ size := by
  obtain ⟨r, hr, h⟩ := (holds_nil hbuffer).readLoop_of_fits (l := l) (by simpa using hfits)
  rw [List.nil_append] at h
  exact ⟨r, hr, h.used_eq, (List.prefix_iff_eq_take.mp h.out_prefix).symm, h.sizes_nonneg⟩

/-- **`procfile_read` stays in bounds exactly when the buffer is larger than the text**, or
empty. -/
theorem procfileRead_inBounds_iff (l : List CInt) {buffer : List Byte} (hlen : 0 ≤ bufferLen.1)
    (hbuffer : bufferLen.1 ≤ buffer.length) :
    (∃ r, procfileRead buffer bufferLen l = some r ∧ r.InBounds bufferLen l) ↔
      bufferLen.1 = 0 ∨ (text l).length < bufferLen.1 := by
  constructor
  · rintro ⟨r, hr, hin⟩
    by_contra hnot
    have hpos : 0 < bufferLen.1 := by omega
    rcases (holds_nil hbuffer).readLoop_of_not_fits (by simpa using hpos)
      (by simp only [List.length_nil, Nat.cast_zero]; omega) hr with hlt | ⟨heq, hnul⟩
    · exact absurd hin.used_le (by omega)
    · rw [← heq, hin.take_eq] at hnul
      obtain ⟨data, -, hmem⟩ := List.mem_flatMap.mp (List.mem_of_mem_take hnul)
      exact zero_notMem_line hmem
  · rintro (hzero | hfits)
    · refine ⟨_, readLoop_of_full hzero.symm, ?_⟩
      exact ⟨fun _ h ↦ absurd h List.not_mem_nil, Int.le_refl 0, hlen, by simp⟩
    · obtain ⟨r, hr, hused, htake, hsizes⟩ := procfileRead_of_fits hbuffer hfits
      refine ⟨r, hr, hsizes, by omega, by omega, ?_⟩
      rw [hused, Int.toNat_natCast, htake, List.take_length]

/-- A buffer of three bytes has room for `"5\n"`. -/
theorem procfileRead_inBounds_iff_five :
    (∃ r, procfileRead [0, 0, 0] (.ofInt 3) [.ofInt 5] = some r ∧
      r.InBounds (.ofInt 3) [.ofInt 5]) ↔
      (CInt.ofInt 3).1 = 0 ∨ (text [.ofInt 5]).length < (CInt.ofInt 3).1 :=
  procfileRead_inBounds_iff [.ofInt 5] (by decide) (by decide)

/-- **The sum steps over the size of the buffer**: three lines of two bytes are read into
three bytes.  The second one is cut, and the third one printed with a negative size. -/
theorem procfileRead_three_fives :
    procfileRead [0, 0, 0] (.ofInt 3) [.ofInt 5, .ofInt 5, .ofInt 5] =
        some { buffer := [53, newline, 0], used := 4, sizes := [-1, 1, 3] } ∧
      ¬∃ r, procfileRead [0, 0, 0] (.ofInt 3) [.ofInt 5, .ofInt 5, .ofInt 5] = some r ∧
        r.InBounds (.ofInt 3) [.ofInt 5, .ofInt 5, .ofInt 5] := by
  have hread : procfileRead [0, 0, 0] (.ofInt 3) [.ofInt 5, .ofInt 5, .ofInt 5] =
      some { buffer := [53, newline, 0], used := 4, sizes := [-1, 1, 3] } := by decide +kernel
  refine ⟨hread, fun ⟨r, hr, hin⟩ ↦ ?_⟩
  obtain rfl := Option.some.inj (hread.symm.trans hr)
  exact absurd (hin.sizes_nonneg (-1) List.mem_cons_self) (by decide)

end DsoFifo.Modlist
