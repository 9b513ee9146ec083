import DsoFifo.Kifs.Registry
import DsoFifo.C.Decimal

/-!
# The list of the names

`list_kifs` reads `num_entry` before it takes the lock, allocates by it, and then prints the
names of whatever entries there are: more, or fewer, or none.  What keeps it inside the buffer
is the test in front of every name, which asks for as much as the longest name takes, with
its newline and the NUL that `sprintf` puts behind it; the NUL that comes after the loop falls
on the last of these.

`listKifs_complete` is the whole story, for any calls between the two moments.
-/

namespace DsoFifo.Kifs

open DsoFifo.C DsoFifo.BoundedMap

variable {ρ ω δ : Type}

/-! ## The function -/

/-- `buffsize`, from the value that `num_entry` has when it is read. -/
def buffsize (maxchars numEntry : ℕ) : ℤ :=
  toInt (min maxchars (toUnsigned ((maxKifsEntryNameSize + 2) * numEntry : ℕ)) : ℕ)

/-- What `"%.50s\n"` prints. -/
def entryLine (entryname : List Byte) : List Byte :=
  cut maxKifsEntryNameSize entryname ++ [newline]

/-- `sprintf(kbuff + used, "%.50s\n", entryname)`, which returns the length of the text and
writes a NUL behind it. -/
def sprintf (kbuff : List Byte) (used : ℤ) (entryname : List Byte) : Option (List Byte × ℤ) :=
  let text := entryLine entryname
  (memcpy kbuff used (text ++ [0]) 0 (text ++ [0]).length).map fun kbuff ↦ (kbuff, text.length)

/-- What `list_kifs` keeps while it loops. -/
structure Listing where
  kbuff : List Byte
  used : ℤ

/-- `list_for_each_entry` with the body of `list_kifs`, or the value that it returns from the
body; `none` when it would write outside `kbuff`. -/
def listLoop (buffsize : ℤ) (entryBuff : Slot → KifsEntry ρ ω δ) :
    Listing → List Slot → Option (Except ℤ Listing)
  | r, [] => some (.ok r)
  | r, e :: es =>
    if r.used + maxKifsEntryNameSize + 2 > buffsize then some (.error (-enospc))
    else
      (sprintf r.kbuff r.used (entryBuff e).entryname).bind fun (kbuff, n) ↦
        listLoop buffsize entryBuff ⟨kbuff, r.used + n⟩ es

/-- `list_kifs`: what it returns, and what it has written to the user's buffer, if it came to
that.  `numEntry` is `num_entry` at the beginning, `s` the registry when the lock is taken,
and `left` the number of bytes that `copy_to_user` leaves out. -/
def listKifs (vmalloc : ℕ → Option (List Byte)) (numEntry : ℕ) (s : Registry ρ ω δ)
    (maxchars left : ℕ) : Option (ℤ × Option (List Byte)) :=
  match vmalloc (buffsize maxchars numEntry).toNat with
  | none => some (-enomem, none)
  | some kbuff =>
    (listLoop (buffsize maxchars numEntry) s.entryBuff ⟨kbuff, 0⟩ s.entryList).bind fun
      | .error v => some (v, none)
      | .ok r =>
        (memcpy r.kbuff r.used [0] 0 1).map fun kbuff ↦
          let used := r.used + 1
          (used - left, some (kbuff.take (used - left).toNat))

/-- The lines of some entries. -/
def Registry.lines (s : Registry ρ ω δ) (es : List Slot) : List Byte :=
  es.flatMap fun e ↦ entryLine (s.entryBuff e).entryname

/-- The complete listing. -/
def Registry.listing (s : Registry ρ ω δ) : List Byte := s.lines s.entryList ++ [0]

/-- The call does not create an entry. -/
def Call.NoCreate : Call ρ ω δ → Prop
  | .create _ _ => False
  | .remove _ | .lookup _ => True

/-! ## The loop -/

variable {s t : Registry ρ ω δ} {maxchars : ℕ} {kbuff out entryname : List Byte}

theorem length_entryLine_le (entryname : List Byte) :
    (entryLine entryname).length ≤ maxKifsEntryNameSize + 1 := by
  rw [entryLine, List.length_append, List.length_singleton]
  exact Nat.add_le_add_right length_cut_le 1

/-- A name is written where there is room for the longest one, and leaves room for a NUL. -/
theorem sprintf_eq (entryname : List Byte) (hout : out <+: kbuff)
    (hroom : out.length + maxKifsEntryNameSize + 2 ≤ kbuff.length) :
    ∃ kbuff', sprintf kbuff out.length entryname =
        some (kbuff', ((entryLine entryname).length : ℤ)) ∧ kbuff'.length = kbuff.length ∧
      out ++ entryLine entryname <+: kbuff' ∧
      (out ++ entryLine entryname).length < kbuff.length := by
  have htext := length_entryLine_le entryname
  have hnul : (entryLine entryname ++ [0]).length = (entryLine entryname).length + 1 :=
    List.length_append
  refine ⟨blit kbuff out.length (entryLine entryname ++ [0]), ?_, length_blit (by omega), ?_, ?_⟩
  · simp only [sprintf]
    rw [memcpy_whole _ _ (by omega), Option.map_some]
  · refine List.IsPrefix.trans ?_ (append_prefix_blit hout _)
    rw [← List.append_assoc]
    exact List.prefix_append _ _
  · rw [List.length_append]
    omega

/-- **The loop** either finds too little room, or prints all the names. -/
theorem listLoop_eq (s : Registry ρ ω δ) (es : List Slot) (hout : out <+: kbuff)
    (hlt : out.length < kbuff.length) :
    (listLoop kbuff.length s.entryBuff ⟨kbuff, out.length⟩ es = some (.error (-enospc)) ∧
        kbuff.length < out.length + (maxKifsEntryNameSize + 2) * es.length) ∨
      ∃ kbuff', listLoop kbuff.length s.entryBuff ⟨kbuff, out.length⟩ es =
          some (.ok ⟨kbuff', (out ++ s.lines es).length⟩) ∧
        kbuff'.length = kbuff.length ∧ out ++ s.lines es <+: kbuff' ∧
        (out ++ s.lines es).length < kbuff.length := by
  induction es generalizing kbuff out with
  | nil =>
      have hnil : out ++ s.lines [] = out := List.append_nil out
      exact .inr ⟨kbuff, by rw [hnil]; rfl, rfl, by rwa [hnil], by rwa [hnil]⟩
  | cons e es ih =>
      simp only [listLoop]
      by_cases hfull : (out.length : ℤ) + maxKifsEntryNameSize + 2 > kbuff.length
      · rw [if_pos hfull, List.length_cons, Nat.mul_add]
        exact .inl ⟨rfl, by omega⟩
      · obtain ⟨kbuff₁, hprint, hlen₁, hout₁, hlt₁⟩ :=
          sprintf_eq (s.entryBuff e).entryname hout (by omega)
        have hused : (out.length : ℤ) + (entryLine (s.entryBuff e).entryname).length =
            (out ++ entryLine (s.entryBuff e).entryname).length := by
          rw [List.length_append, Nat.cast_add]
        have hlines : out ++ s.lines (e :: es) =
            out ++ entryLine (s.entryBuff e).entryname ++ s.lines es :=
          (List.append_assoc _ _ _).symm
        have hstep := length_entryLine_le (s.entryBuff e).entryname
        rw [if_neg hfull, hprint, Option.bind_some, hused, hlines, ← hlen₁]
        refine (ih hout₁ (hlen₁ ▸ hlt₁)).imp_left fun ⟨herror, hshort⟩ ↦ ⟨herror, ?_⟩
        rw [List.length_append] at hshort
        rw [List.length_cons, Nat.mul_add]
        omega

/-! ## One call -/

/-- What is assumed of `vmalloc`: it has no memory of size 0, and enough otherwise. -/
structure Allocates (vmalloc : ℕ → Option (List Byte)) : Prop where
  zero : vmalloc 0 = none
  pos : ∀ n, 0 < n → ∃ kbuff, vmalloc n = some kbuff ∧ kbuff.length = n

theorem buffsize_eq {numEntry : ℕ} (hnum : numEntry ≤ maxKifsEntry) :
    buffsize maxchars numEntry =
      (min maxchars ((maxKifsEntryNameSize + 2) * numEntry) : ℕ) := by
  unfold maxKifsEntry at hnum
  unfold buffsize maxKifsEntryNameSize
  rw [toUnsigned_natCast (by omega), toInt_natCast (by omega)]

/-- Every way `list_kifs` goes when its user copy does not fail. -/
inductive Lists (size : ℕ) (s : Registry ρ ω δ) : ℤ × Option (List Byte) → Prop
  | nomem : size = 0 → Lists size s (-enomem, none)
  | full : size < (maxKifsEntryNameSize + 2) * s.entryList.length → Lists size s (-enospc, none)
  | listed : s.listing.length ≤ size → Lists size s (s.listing.length, some s.listing)

/-- `list_kifs` goes in one of these ways, and never writes outside its buffer. -/
theorem exists_lists {vmalloc : ℕ → Option (List Byte)} (hmem : Allocates vmalloc)
    {numEntry : ℕ} (hnum : numEntry ≤ maxKifsEntry) (s : Registry ρ ω δ) (maxchars : ℕ) :
    ∃ r, listKifs vmalloc numEntry s maxchars 0 = some r ∧
      Lists (min maxchars ((maxKifsEntryNameSize + 2) * numEntry)) s r := by
  unfold listKifs
  rw [buffsize_eq hnum, Int.toNat_natCast]
  generalize min maxchars ((maxKifsEntryNameSize + 2) * numEntry) = size
  rcases Nat.eq_zero_or_pos size with rfl | hpos
  · rw [hmem.zero]
    exact ⟨_, rfl, .nomem rfl⟩
  · obtain ⟨kbuff, hkbuff, rfl⟩ := hmem.pos size hpos
    rw [hkbuff]
    dsimp only
    have hloop := listLoop_eq s s.entryList (List.nil_prefix (l := kbuff)) hpos
    rw [List.nil_append, List.length_nil, Nat.cast_zero, Nat.zero_add] at hloop
    obtain ⟨herror, hshort⟩ | ⟨kbuff', hok, hlen, hout, hlt⟩ := hloop
    · rw [herror]
      exact ⟨_, rfl, .full hshort⟩
    · have hnul : memcpy kbuff' (s.lines s.entryList).length [0] 0 1 =
          some (blit kbuff' (s.lines s.entryList).length [0]) :=
        memcpy_whole kbuff' [0] (by rw [List.length_singleton]; omega)
      have hlisting : s.listing.length = (s.lines s.entryList).length + 1 := List.length_append
      have htake := List.prefix_iff_eq_take.mp (append_prefix_blit hout [0])
      refine ⟨(s.listing.length, some s.listing), ?_, .listed (by omega)⟩
      rw [hok, Option.bind_some]
      dsimp only
      rw [hnul, Option.map_some, Option.some.injEq, Prod.mk.injEq, Option.some.injEq]
      rw [List.length_append, List.length_singleton] at htake
      exact ⟨by rw [hlisting]; simp, by simpa [Registry.listing] using htake.symm⟩

/-! ## Any calls in between -/

/-- Without creations there are not more entries. -/
theorem length_le_of_execute (hs : Sound s) {calls : List (Call ρ ω δ)}
    (hno : ∀ i ∈ calls, i.NoCreate) {os : List (Answer ρ ω δ)}
    (h : execute Call.run s calls = some (t, os)) :
    t.entryList.length ≤ s.entryList.length := by
  induction calls generalizing s os with
  | nil =>
      obtain ⟨rfl, -⟩ := Prod.mk.inj (Option.some.inj h)
      exact le_rfl
  | cons i calls ih =>
      rw [List.forall_mem_cons] at hno
      simp only [execute, Option.bind_eq_some_iff, Option.map_eq_some_iff] at h
      obtain ⟨⟨u, o⟩, hrun, ⟨t', os'⟩, hrest, heq⟩ := h
      obtain ⟨rfl, -⟩ := Prod.mk.inj heq
      cases i with
      | create name b => exact hno.1.elim
      | remove name =>
          obtain ⟨r, hr, hc⟩ := hs.removes name
          simp only [Call.run, hr, Option.map_some, Option.some.injEq, Prod.mk.injEq] at hrun
          obtain ⟨rfl, -⟩ := hrun
          refine (ih (hc.sound hs) hno.2 hrest).trans ?_
          cases hc with
          | absent => exact le_rfl
          | found => exact List.length_erase_le
      | lookup name =>
          simp only [Call.run, Option.map_eq_some_iff, Prod.mk.injEq] at hrun
          obtain ⟨e, -, rfl, -⟩ := hrun
          exact ih hs hno.2 hrest

/-- **`list_kifs` is bounded and complete.**  Whatever calls have been made when it reads
`num_entry`, and whatever calls are made before it takes the lock, it writes nothing outside
`kbuff`, and it either fails without writing to the user's buffer, or returns the length of
the complete listing at the time of the lock, at most `maxchars`, and delivers it; and it does
not fail if `maxchars` allows for all the entries it counted, there are some, and none is
created in between. -/
theorem listKifs_complete (c : Builtin ρ ω) (before between : List (Call ρ ω δ))
    {vmalloc : ℕ → Option (List Byte)} (hmem : Allocates vmalloc) (maxchars : ℕ) :
    ∃ s₀ s₁ s₂ os₁ os₂ v out, initKifsEntrySet c = some s₀ ∧
      execute Call.run s₀ before = some (s₁, os₁) ∧
      execute Call.run s₁ between = some (s₂, os₂) ∧
      listKifs vmalloc s₁.numEntry s₂ maxchars 0 = some (v, out) ∧
      (v < 0 ∧ out = none ∨
        v = s₂.listing.length ∧ s₂.listing.length ≤ maxchars ∧ out = some s₂.listing) ∧
      (0 < s₁.numEntry → (maxKifsEntryNameSize + 2) * s₁.numEntry ≤ maxchars →
        (∀ i ∈ between, i.NoCreate) → 0 ≤ v) := by
  obtain ⟨s₀, hinit, h₀⟩ : ∃ s : Registry ρ ω δ, _ ∧ Holds s _ := exists_holds_init c
  obtain ⟨s₁, hrun₁, h₁⟩ := lockstep_holds.execute_eq h₀ before
  obtain ⟨s₂, hrun₂, -⟩ := lockstep_holds.execute_eq h₁ between
  have hcount := h₁.sound.length_le
  have hnum := h₁.sound.numEntry_eq
  have hmax : s₁.numEntry ≤ maxKifsEntry := by omega
  obtain ⟨⟨v, out⟩, hlist, hr⟩ := exists_lists hmem hmax s₂ maxchars
  refine ⟨s₀, s₁, s₂, _, _, v, out, hinit, hrun₁, hrun₂, hlist, ?_, fun hpos hle hno ↦ ?_⟩
  · cases hr with
    | nomem | full => exact .inl ⟨by decide, rfl⟩
    | listed hsize => exact .inr ⟨rfl, hsize.trans (min_le_left _ _), rfl⟩
  · have hshrink := length_le_of_execute h₁.sound hno hrun₂
    rw [← hnum] at hshrink
    have hroom := Nat.mul_le_mul_left (maxKifsEntryNameSize + 2) hshrink
    cases hr with
    | nomem hzero => exact absurd hzero (by unfold maxKifsEntryNameSize at hle ⊢; omega)
    | full hshort => exact absurd hshort (by omega)
    | listed => exact Int.natCast_nonneg _

/-- A `vmalloc` that returns zeroed memory. -/
def zeroedMemory (n : ℕ) : Option (List Byte) :=
  if n = 0 then none else some (List.replicate n 0)

theorem allocates_zeroedMemory : Allocates zeroedMemory where
  zero := rfl
  pos n hn := ⟨List.replicate n 0, if_neg (Nat.ne_of_gt hn), List.length_replicate⟩

/-- The list is read while one of its two entries is removed. -/
theorem listKifs_complete_two :
    ∃ (s₀ s₁ s₂ : Registry ℕ ℕ ℕ) (os₁ os₂ : List (Answer ℕ ℕ ℕ)) (v : ℤ)
      (out : Option (List Byte)), initKifsEntrySet ⟨1, 2, 3⟩ = some s₀ ∧
      execute Call.run s₀ [] = some (s₁, os₁) ∧
      execute Call.run s₁ [.remove listName] = some (s₂, os₂) ∧
      listKifs zeroedMemory s₁.numEntry s₂ 104 0 = some (v, out) ∧
      (v < 0 ∧ out = none ∨
        v = s₂.listing.length ∧ s₂.listing.length ≤ 104 ∧ out = some s₂.listing) ∧
      (0 < s₁.numEntry → (maxKifsEntryNameSize + 2) * s₁.numEntry ≤ 104 →
        (∀ i ∈ [(.remove listName : Call ℕ ℕ ℕ)], i.NoCreate) → 0 ≤ v) :=
  listKifs_complete ⟨1, 2, 3⟩ [] [.remove listName] allocates_zeroedMemory 104

end DsoFifo.Kifs
