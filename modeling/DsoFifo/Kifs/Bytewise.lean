import DsoFifo.Kifs.Clipboard
import DsoFifo.Transition.Processes

/-!
# The clipboard, byte by byte

The callbacks again, with every access to the array a step of its own: a copy stores one byte
after the other, `strlen` looks at one after the other, and any number of processes do so at
the same time.  While a write is in progress there may be no NUL where the last one was, or
none at all up to the last byte of the array.

That last byte stays NUL, since a copy has no more than 49 bytes and the only thing that is
stored behind them is a NUL.  `clipboard_in_bounds` is what follows from it.
-/

namespace DsoFifo.Kifs.Bytewise

open DsoFifo.C DsoFifo.LTS DsoFifo.Processes Function

variable {ι : Type}

/-! ## The system -/

/-- Where a process is in the callbacks. -/
inductive Pc where
  | idle
  | /-- In `copy_from_user`, at this byte. -/ copyIn (buffer : List Byte) (maxchars i : ℕ)
  | /-- At the store of the NUL. -/ terminate (used : ℕ)
  | /-- In `strlen`, at this byte. -/ strlen (maxchars i : ℕ)
  | /-- In `copy_to_user`, at this byte. -/ copyOut (used i : ℕ)
deriving DecidableEq

/-- How a step turns out: a byte of the user's buffer can be written, or it cannot. -/
inductive Act where
  | go
  | fault
deriving DecidableEq, Repr

/-- What a step does that others can see. -/
inductive Event where
  | /-- `strlen` returns. -/ strlen (used : ℕ)
  | copyOut (c : Byte)
  | ret (v : ℤ)
deriving DecidableEq

/-- The beginning of a call. -/
def enter : Clipboard.Call → Pc × List Event
  | .write buffer maxchars =>
    if maxchars < clipSize then (.copyIn buffer maxchars 0, []) else (.idle, [.ret (-enospc)])
  | .read maxchars => (.strlen maxchars 0, [])

/-- A step of a process in the callbacks; `none` when it would use an index outside the
array. -/
def Pc.run (clipboard : List Byte) : Pc → Act → Option (List Byte × Pc × List Event)
  | .copyIn buffer maxchars i, .go =>
    if i < maxchars then
      -- what cannot be read of the user's buffer is cleared
      (memcpy clipboard i [buffer.getD i 0] 0 1).map fun clipboard ↦
        (clipboard, .copyIn buffer maxchars (i + 1), [])
    else some (clipboard, .terminate (buffer.take maxchars).length, [])
  | .terminate used, .go =>
    (Kifs.terminate clipboard used).map fun clipboard ↦ (clipboard, .idle, [.ret used])
  | .strlen maxchars i, .go =>
    clipboard[i]?.map fun c ↦
      if c ≠ 0 then (clipboard, .strlen maxchars (i + 1), [])
      else if i ≤ maxchars then (clipboard, .copyOut i 0, [.strlen i])
      else (clipboard, .idle, [.strlen i, .ret (-enospc)])
  | .copyOut used i, .go =>
    if i < used then
      clipboard[i]?.map fun c ↦ (clipboard, .copyOut used (i + 1), [.copyOut c])
    else some (clipboard, .idle, [.ret used])
  | .copyOut used i, .fault => if i < used then some (clipboard, .idle, [.ret i]) else none
  | _, _ => none

/-- The callbacks as processes run them. -/
def code : Code Clipboard.Call Act (List Byte) Pc Event where
  idle := .idle
  enter := enter
  run clipboard pc a := pc.run clipboard a

theorem code_run (clipboard : List Byte) (pc : Pc) (a : Act) :
    code.run clipboard pc a = pc.run clipboard a := rfl

/-- The array, and the processes in the callbacks. -/
abbrev State (ι : Type) : Type := Processes.State ι (List Byte) Pc

/-- The label of a step. -/
abbrev Label (ι : Type) : Type := Processes.Label ι Clipboard.Call Act Event

/-- The clipboard with its processes, as `init_kifs_entry_set` leaves it. -/
def clipboard (ι : Type) [DecidableEq ι] : LTS (State ι) (Label ι) :=
  system ι code (List.replicate clipSize 0)

/-! ## One process -/

variable {mem : List Byte} {pc : Pc} {i : ℕ}

/-- The store of one byte. -/
theorem memcpy_byte (hi : i < mem.length) (c : Byte) :
    memcpy mem i [c] 0 1 = some (blit mem i [c]) := memcpy_whole mem [c] hi

/-- The bytes that have been written to the user's buffer. -/
def copies (tr : List (Label ι)) : List Byte :=
  (tr.flatMap Io.output).filterMap fun
    | .copyOut c => some c
    | _ => none

section

variable [DecidableEq ι] {p : ι} {pcs : ι → Pc} {maxchars used left n : ℕ}

/-- The copy of a write. -/
theorem exists_path_copyIn (p : ι) (pcs : ι → Pc) (buffer : List Byte)
    (hmax : maxchars ≤ mem.length) :
    ∃ tr, (clipboard ι).Path (Alone p) ⟨mem, update pcs p (.copyIn buffer maxchars 0)⟩ tr
      ⟨blit mem 0 (readable maxchars buffer),
        update pcs p (.copyIn buffer maxchars maxchars)⟩ := by
  let mems := fun i ↦ blit mem 0 ((readable maxchars buffer).take i)
  have hrun : ∀ i < maxchars, code.run (mems i) (.copyIn buffer maxchars i) .go =
      some (mems (i + 1), .copyIn buffer maxchars (i + 1), []) := by
    intro i hi
    have htake : ((readable maxchars buffer).take i).length = i :=
      List.length_take_of_le (by rw [length_readable]; omega)
    have hblit : (blit mem 0 ((readable maxchars buffer).take i)).length = mem.length :=
      length_blit (by omega)
    have hnext := blit_append mem ((readable maxchars buffer).take i) [buffer.getD i 0]
      (d := 0) (by rw [List.length_singleton]; omega)
    rw [Nat.zero_add, htake] at hnext
    simp only [mems, List.take_add_one, getElem?_readable hi]
    rw [code_run, Pc.run, if_pos hi, memcpy_byte (by omega), Option.map_some, hnext]
    rfl
  obtain ⟨tr, hpath, -⟩ := exists_path_loop p pcs hrun
  have hfirst : mems 0 = mem := by simp [mems, blit]
  have hlast : mems maxchars = blit mem 0 (readable maxchars buffer) := by
    simp only [mems]
    rw [List.take_of_length_le (length_readable buffer maxchars).le]
  rw [hfirst, hlast] at hpath
  exact ⟨tr, hpath⟩

/-- **A write alone** does what `clipboardKifsWrite` says, -/
theorem exists_path_write (hp : pcs p = .idle) (hlen : mem.length = clipSize)
    (buffer : List Byte) (maxchars : ℕ) :
    ∃ mem' v tr, clipboardKifsWrite mem buffer maxchars = some (mem', v) ∧
      (clipboard ι).Path (Alone p) ⟨mem, pcs⟩ tr ⟨mem', pcs⟩ ∧ .ret v ∈ tr.flatMap Io.output := by
  have hself : update pcs p .idle = pcs := hp ▸ update_eq_self p pcs
  have hcall : (clipboard ι).Path (Alone p) ⟨mem, pcs⟩ _ ⟨mem, update pcs p _⟩ :=
    path_call mem hp (.write buffer maxchars)
  simp only [code, enter] at hcall
  by_cases hmax : maxchars < clipSize
  · rw [if_pos hmax] at hcall
    obtain ⟨tr, hcopy⟩ := exists_path_copyIn p pcs buffer (hmax.le.trans hlen.ge)
    have hcopied : (blit mem 0 (readable maxchars buffer)).length = clipSize := by
      rw [length_blit (by rw [length_readable]; omega), hlen]
    have hused : (buffer.take maxchars).length < clipSize :=
      (List.length_take_le _ _).trans_lt hmax
    have hleave : code.run (blit mem 0 (readable maxchars buffer))
        (.copyIn buffer maxchars maxchars) .go =
          some (blit mem 0 (readable maxchars buffer),
            .terminate (buffer.take maxchars).length, []) := by
      rw [code_run, Pc.run, if_neg (lt_irrefl _)]
    have hterm := terminate_eq (hcopied ▸ hused)
    have hstore : code.run (blit mem 0 (readable maxchars buffer))
        (.terminate (buffer.take maxchars).length) .go =
          some (blit (blit mem 0 (readable maxchars buffer)) (buffer.take maxchars).length [0],
            .idle, [.ret (buffer.take maxchars).length]) := by
      rw [code_run, Pc.run, hterm, Option.map_some]
    refine ⟨_, (buffer.take maxchars).length, _, ?_, ((hcall.append hcopy).append
      (path_act p pcs hleave)).append (hself ▸ path_act p pcs hstore), by simp⟩
    rw [clipboardKifsWrite, if_pos hmax, copyIn_readable hlen hmax, Option.bind_some]
    dsimp only
    rw [hterm, Option.map_some]
  · rw [if_neg hmax, hself] at hcall
    exact ⟨mem, _, _, by rw [clipboardKifsWrite, if_neg hmax], hcall, by simp⟩

omit [DecidableEq ι] in
/-- The bytes in front of an index, one by one. -/
theorem flatMap_range_getD (h : ∀ i < n, i < mem.length) :
    (List.range n).flatMap (fun i ↦ [mem[i]?.getD 0]) = mem.take n := by
  induction n with
  | zero => rfl
  | succ n ih =>
      rw [List.range_succ, List.flatMap_append, List.flatMap_singleton,
        ih fun i hi ↦ h i (by omega), List.take_add_one,
        List.getElem?_eq_getElem (h n (by omega))]
      rfl

/-- and **a read alone** what `clipboardKifsRead` says. -/
theorem exists_path_read (hp : pcs p = .idle) (hlen : C.strlen mem = some used)
    (hleft : left ≤ used) (maxchars : ℕ) :
    ∃ v out tr, clipboardKifsRead mem maxchars left = some (v, out) ∧
      (clipboard ι).Path (Alone p) ⟨mem, pcs⟩ tr ⟨mem, pcs⟩ ∧ .ret v ∈ tr.flatMap Io.output ∧
        copies tr = out.getD [] := by
  have hself : update pcs p .idle = pcs := hp ▸ update_eq_self p pcs
  obtain ⟨hchars, hnul⟩ := strlen_eq_some hlen
  have hcall : (clipboard ι).Path (Alone p) ⟨mem, pcs⟩ _ ⟨mem, update pcs p _⟩ :=
    path_call mem hp (.read maxchars)
  simp only [code, enter] at hcall
  have hmeasure : ∀ i < used, code.run mem (.strlen maxchars i) .go =
      some (mem, .strlen maxchars (i + 1), []) := by
    intro i hi
    obtain ⟨c, hc, hget⟩ := hchars i hi
    rw [code_run, Pc.run, hget, Option.map_some, if_pos hc]
  obtain ⟨tr, hloop, hquiet⟩ := exists_path_loop p pcs hmeasure
  rw [List.flatMap_eq_nil_iff.mpr fun _ _ ↦ rfl] at hquiet
  have hend : code.run mem (.strlen maxchars used) .go =
      some (if used ≤ maxchars then (mem, .copyOut used 0, [.strlen used])
        else (mem, .idle, [.strlen used, .ret (-enospc)])) := by
    rw [code_run, Pc.run, hnul, Option.map_some, if_neg (by simp)]
  have hout : ∀ n ≤ used, ∀ i < n, code.run mem (.copyOut used i) .go =
      some (mem, .copyOut used (i + 1), [.copyOut (mem.getD i 0)]) := by
    intro n hn i hi
    obtain ⟨c, -, hget⟩ := hchars i (by omega)
    rw [code_run, Pc.run, if_pos (by omega), hget, List.getD_eq_getElem?_getD, hget]
    rfl
  rw [clipboardKifsRead, hlen, Option.map_some]
  by_cases hmax : used ≤ maxchars
  · rw [if_pos hmax] at hend ⊢
    obtain ⟨tr', hcopy, hdelivered⟩ := exists_path_loop p pcs (hout (used - left) (by omega))
    have htake : (List.range (used - left)).flatMap (fun i ↦ [mem[i]?.getD 0]) =
        mem.take (used - left) := flatMap_range_getD fun i hi ↦ by
      obtain ⟨c, -, hget⟩ := hchars i (by omega)
      exact (List.getElem?_eq_some_iff.mp hget).1
    have hlast : ∃ a, code.run mem (.copyOut used (used - left)) a =
        some (mem, .idle, [.ret (used - left : ℕ)]) := by
      by_cases hzero : left = 0
      · exact ⟨.go, by simp [code_run, Pc.run, hzero]⟩
      · exact ⟨.fault, by rw [code_run, Pc.run, if_pos (by omega)]⟩
    obtain ⟨a, hlast⟩ := hlast
    refine ⟨_, _, _, rfl, (((hcall.append hloop).append (path_act p pcs hend)).append
      hcopy).append (hself ▸ path_act p pcs hlast), by simp [Nat.cast_sub hleft], ?_⟩
    simp [copies, hquiet, hdelivered, List.filterMap_flatMap, htake]
  · rw [if_neg hmax] at hend ⊢
    refine ⟨_, _, _, rfl, (hcall.append hloop).append (hself ▸ path_act p pcs hend), by simp, ?_⟩
    simp [copies, hquiet]

end

/-! ## The invariant -/

/-- The index that the next step of a process uses. -/
def Pc.touches : Pc → Option ℕ
  | .idle => none
  | .copyIn _ maxchars i => if i < maxchars then some i else none
  | .terminate used => some used
  | .strlen _ i => some i
  | .copyOut used i => if i < used then some i else none

/-- A process stays inside the array; a copy stays in front of the last byte. -/
def Pc.InBounds : Pc → Prop
  | .idle => True
  | .copyIn _ maxchars i => maxchars < clipSize ∧ i ≤ maxchars
  | .terminate used => used < clipSize
  | .strlen _ i => i < clipSize
  | .copyOut used _ => used < clipSize

/-- The array keeps its size, and a NUL at its end. -/
structure Closed (clipboard : List Byte) : Prop where
  length_eq : clipboard.length = clipSize
  last : clipboard[clipSize - 1]? = some 0

/-- The invariant. -/
structure InBounds (s : State ι) : Prop where
  closed : Closed s.mem
  procs : ∀ p, (s.pc p).InBounds

theorem isSome_memcpy_byte (c : Byte) : (memcpy mem i [c] 0 1).isSome ↔ i < mem.length := by
  by_cases hi : i < mem.length
  · simp [memcpy_byte hi, hi]
  · refine iff_of_false ?_ hi
    rw [memcpy, if_neg (by omega)]
    exact Bool.false_ne_true

theorem of_memcpy_byte {c : Byte} {mem' : List Byte} (h : memcpy mem i [c] 0 1 = some mem') :
    i < mem.length ∧ mem' = blit mem i [c] := by
  have hi : i < mem.length := (isSome_memcpy_byte c).mp (by rw [h, Option.isSome_some])
  rw [memcpy_byte hi] at h
  exact ⟨hi, (Option.some.inj h).symm⟩

/-- What a step of a process can be. -/
inductive Pc.Runs (mem : List Byte) : Pc → Act → List Byte × Pc × List Event → Prop
  | copyByte {buffer : List Byte} {maxchars i : ℕ} : i < maxchars → i < mem.length →
      Runs mem (.copyIn buffer maxchars i) .go
        (blit mem i [buffer.getD i 0], .copyIn buffer maxchars (i + 1), [])
  | copied {buffer : List Byte} {maxchars i : ℕ} : ¬i < maxchars →
      Runs mem (.copyIn buffer maxchars i) .go (mem, .terminate (buffer.take maxchars).length, [])
  | terminate {used : ℕ} : used < mem.length →
      Runs mem (.terminate used) .go (blit mem used [0], .idle, [.ret used])
  | character {maxchars i : ℕ} {c : Byte} : mem[i]? = some c → c ≠ 0 →
      Runs mem (.strlen maxchars i) .go (mem, .strlen maxchars (i + 1), [])
  | measured {maxchars i : ℕ} : mem[i]? = some 0 → i ≤ maxchars →
      Runs mem (.strlen maxchars i) .go (mem, .copyOut i 0, [.strlen i])
  | refused {maxchars i : ℕ} : mem[i]? = some 0 → ¬i ≤ maxchars →
      Runs mem (.strlen maxchars i) .go (mem, .idle, [.strlen i, .ret (-enospc)])
  | deliver {used i : ℕ} {c : Byte} : i < used → mem[i]? = some c →
      Runs mem (.copyOut used i) .go (mem, .copyOut used (i + 1), [.copyOut c])
  | delivered {used i : ℕ} : ¬i < used →
      Runs mem (.copyOut used i) .go (mem, .idle, [.ret used])
  | fault {used i : ℕ} : i < used →
      Runs mem (.copyOut used i) .fault (mem, .idle, [.ret i])

/-- **Inversion of a step.** -/
theorem Pc.runs_of_run {a : Act} {r : List Byte × Pc × List Event} (h : pc.run mem a = some r) :
    pc.Runs mem a r := by
  cases pc with
  | idle => cases h
  | copyIn buffer maxchars i =>
      cases a with
      | fault => cases h
      | go =>
          simp only [Pc.run] at h
          split at h
          · obtain ⟨mem', hcopy, rfl⟩ := Option.map_eq_some_iff.mp h
            obtain ⟨hmem, rfl⟩ := of_memcpy_byte hcopy
            exact .copyByte ‹_› hmem
          · cases h
            exact .copied ‹_›
  | terminate used =>
      cases a with
      | fault => cases h
      | go =>
          obtain ⟨mem', hcopy, rfl⟩ := Option.map_eq_some_iff.mp h
          obtain ⟨hmem, rfl⟩ := of_memcpy_byte hcopy
          exact .terminate hmem
  | strlen maxchars i =>
      cases a with
      | fault => cases h
      | go =>
          obtain ⟨c, hget, rfl⟩ := Option.map_eq_some_iff.mp h
          by_cases hc : c ≠ 0
          · rw [if_pos hc]
            exact .character hget hc
          · rw [if_neg hc]
            rw [not_not.mp hc] at hget
            split
            · exact .measured hget ‹_›
            · exact .refused hget ‹_›
  | copyOut used i =>
      cases a with
      | fault =>
          simp only [Pc.run] at h
          split at h <;> cases h
          exact .fault ‹_›
      | go =>
          simp only [Pc.run] at h
          split at h
          · obtain ⟨c, hget, rfl⟩ := Option.map_eq_some_iff.mp h
            exact .deliver ‹_› hget
          · cases h
            exact .delivered ‹_›

/-- A store keeps the NUL at the end if it is in front of it, or of a NUL. -/
theorem Closed.blit (h : Closed mem) {c : Byte} (hi : i < clipSize)
    (hc : i = clipSize - 1 → c = 0) : Closed (blit mem i [c]) := by
  have hlen := h.length_eq
  have hbound : i + ([c] : List Byte).length ≤ mem.length := by
    rw [List.length_singleton, hlen]
    exact hi
  refine ⟨(length_blit hbound).trans hlen, ?_⟩
  rw [getElem?_blit hbound, List.length_singleton]
  split
  · have hlast : i = clipSize - 1 := by omega
    rw [← hlast, Nat.sub_self, hc hlast]
    rfl
  · exact h.last

/-- A process can go on just when the index it uses is in the array. -/
theorem Pc.isSome_run_iff (hidle : pc ≠ .idle) :
    (pc.run mem .go).isSome ↔ ∀ i ∈ pc.touches, i < mem.length := by
  cases pc with
  | idle => exact absurd rfl hidle
  | copyIn buffer maxchars i =>
      simp only [Pc.run, Pc.touches]
      split
      · simpa using isSome_memcpy_byte _
      · simp
  | terminate used => simpa [Pc.run, Pc.touches, Kifs.terminate] using isSome_memcpy_byte 0
  | strlen maxchars i => simp [Pc.run, Pc.touches]
  | copyOut used i =>
      simp only [Pc.run, Pc.touches]
      split <;> simp

/-- A character is in front of the last byte. -/
theorem Closed.succ_lt (h : Closed mem) {c : Byte} (hi : i < clipSize) (hget : mem[i]? = some c)
    (hc : c ≠ 0) : i + 1 < clipSize := by
  have hne : i ≠ clipSize - 1 := by
    rintro rfl
    exact hc (Option.some.inj (hget.symm.trans h.last))
  omega

/-- **One step** of a process keeps all this. -/
theorem Closed.run (h : Closed mem) (hpc : pc.InBounds) {a : Act}
    {r : List Byte × Pc × List Event} (hr : pc.run mem a = some r) :
    Closed r.1 ∧ r.2.1.InBounds ∧ ∀ used, .strlen used ∈ r.2.2 → used < clipSize := by
  cases Pc.runs_of_run hr with
  | copyByte hlt hmem =>
      obtain ⟨hmax, -⟩ := hpc
      exact ⟨h.blit (hlt.trans hmax) (fun hlast ↦ by omega), ⟨hmax, hlt⟩, by simp⟩
  | copied _ => exact ⟨h, (List.length_take_le _ _).trans_lt hpc.1, by simp⟩
  | terminate _ => exact ⟨h.blit hpc fun _ ↦ rfl, trivial, by simp⟩
  | character hget hc => exact ⟨h, h.succ_lt hpc hget hc, by simp⟩
  | @measured maxchars i _ _ =>
      have hi : i < clipSize := hpc
      exact ⟨h, hpc, by simpa using hi⟩
  | @refused maxchars i _ _ =>
      have hi : i < clipSize := hpc
      exact ⟨h, trivial, by simpa using hi⟩
  | deliver _ _ => exact ⟨h, hpc, by simp⟩
  | delivered _ | fault _ => exact ⟨h, trivial, by simp⟩

theorem Pc.InBounds.touches_lt (hpc : pc.InBounds) (hi : i ∈ pc.touches) : i < clipSize := by
  cases pc with
  | idle => cases hi
  | copyIn buffer maxchars j =>
      simp only [Pc.touches] at hi
      split at hi <;> cases hi
      exact lt_trans ‹_› hpc.1
  | terminate used => cases hi; exact hpc
  | strlen maxchars j => cases hi; exact hpc
  | copyOut used j =>
      simp only [Pc.touches] at hi
      split at hi <;> cases hi
      exact lt_trans ‹_› hpc

theorem inBounds_enter (c : Clipboard.Call) :
    (enter c).1.InBounds ∧ ∀ used, .strlen used ∉ (enter c).2 := by
  cases c with
  | read maxchars => exact ⟨Nat.zero_lt_succ 49, by simp [enter]⟩
  | write buffer maxchars =>
      simp only [enter]
      split
      · rename_i hlt
        exact ⟨⟨hlt, Nat.zero_le _⟩, by simp⟩
      · exact ⟨trivial, by simp⟩

section

variable [DecidableEq ι] {tr : List (Label ι)} {s t : State ι} {l : Label ι} {p : ι}
  {maxchars : ℕ}

/-- **A step** of the system keeps the invariant. -/
theorem InBounds.step (h : InBounds s) (hst : (clipboard ι).Step s l t) :
    InBounds t ∧ ∀ used, .strlen used ∈ l.output → used < clipSize := by
  cases step_iff.mp hst with
  | call c hidle =>
      obtain ⟨hpc, hnone⟩ := inBounds_enter c
      refine ⟨⟨h.closed, ?_⟩, fun used hmem ↦ absurd hmem (hnone used)⟩
      exact (forall_update_iff _ _).mpr ⟨hpc, fun q _ ↦ h.procs q⟩
  | @act p a mem pc evs hrun =>
      obtain ⟨hclosed, hpc, hlt⟩ := h.closed.run (h.procs p) hrun
      exact ⟨⟨hclosed, (forall_update_iff _ _).mpr ⟨hpc, fun q _ ↦ h.procs q⟩⟩, hlt⟩

omit [DecidableEq ι] in
theorem inBounds_initial :
    InBounds (Processes.initial code (List.replicate clipSize 0) : State ι) :=
  ⟨⟨List.length_replicate, rfl⟩, fun _ ↦ trivial⟩

theorem inBounds_of_run (h : (clipboard ι).Run anyStep tr s) : InBounds s := by
  refine h.invariant ?_ fun s l t hs _ hst ↦ (hs.step hst).1
  rintro _ rfl
  exact inBounds_initial

/-- Every length that has been measured is one of a string in the array. -/
theorem strlen_lt_of_run (h : (clipboard ι).Run anyStep tr s) {used : ℕ}
    (hused : .strlen used ∈ tr.flatMap Io.output) : used < clipSize := by
  revert hused
  refine Run.induction (J := fun tr _ ↦ .strlen used ∈ tr.flatMap Io.output → used < clipSize)
    ?_ ?_ h
  · rintro _ - hused
    cases hused
  · intro tr s l t hr ih _ hst hused
    rw [List.flatMap_append, List.flatMap_singleton, List.mem_append] at hused
    rcases hused with hused | hused
    · exact ih hused
    · exact ((inBounds_of_run hr).step hst).2 used hused

/-! ## A `strlen` ends -/

/-- The process has come to the end of a `strlen`. -/
def Measured (p : ι) (tr : List (Label ι)) : Prop :=
  ∃ l ∈ tr, l.input.proc = p ∧ ∃ used, .strlen used ∈ l.output

/-- A process in `strlen` goes on to the next byte, or returns. -/
theorem strlen_step (hst : (clipboard ι).Step s l t) {i : ℕ} (hpc : s.pc p = .strlen maxchars i)
    (hp : l.input.proc = p) :
    (∃ used, .strlen used ∈ l.output) ∨ t.pc p = .strlen maxchars (i + 1) := by
  cases step_iff.mp hst with
  | @call q c hidle =>
      obtain rfl : q = p := hp
      rw [hpc] at hidle
      cases hidle
  | @act q a mem pc evs hrun =>
      obtain rfl : q = p := hp
      rw [hpc] at hrun
      cases Pc.runs_of_run hrun with
      | character _ _ => exact .inr (update_self ..)
      | measured _ _ | refused _ _ => exact .inl ⟨i, List.mem_cons_self⟩

/-- Until it returns, every move of the process is to the next byte. -/
theorem strlen_path (h : (clipboard ι).Path anyStep s tr t) {i : ℕ}
    (hpc : s.pc p = .strlen maxchars i) :
    Measured p tr ∨ t.pc p = .strlen maxchars (i + moves p tr) :=
  done_or_pc_eq (Pc.strlen maxchars) (fun evs ↦ ∃ used, Event.strlen used ∈ evs)
    (fun hst hpos hp ↦ strlen_step hst hpos hp) h hpc

/-- Nobody leaves the array. -/
structure Contained (tr : List (Label ι)) (s : State ι) : Prop where
  /-- The last byte is a NUL. -/
  closed : Closed s.mem
  /-- What the processes use next is in the array, -/
  touches_lt : ∀ p, ∀ i ∈ (s.pc p).touches, i < clipSize
  /-- and all of them can go on. -/
  goes_on : ∀ p, s.pc p ≠ .idle → ∃ evs t, (clipboard ι).Step s ⟨.act p .go, evs⟩ t
  /-- What `strlen` has returned so far. -/
  strlen_le : ∀ used, .strlen used ∈ tr.flatMap Io.output → used ≤ 49
  /-- A `strlen` ends within as many steps of its process as there are bytes left. -/
  strlen_ends : ∀ p maxchars i tr' t, s.pc p = .strlen maxchars i →
    (clipboard ι).Path anyStep s tr' t → clipSize - i ≤ moves p tr' → Measured p tr'

/-- **The clipboard is never left**, whatever is written, read and in progress. -/
theorem clipboard_in_bounds (h : (clipboard ι).Run anyStep tr s) : Contained tr s := by
  have hin := inBounds_of_run h
  have htouches : ∀ p, ∀ i ∈ (s.pc p).touches, i < clipSize := fun p i ↦ (hin.procs p).touches_lt
  refine ⟨hin.closed, htouches, fun p hidle ↦ ?_,
    fun used hused ↦ Nat.le_of_lt_succ (strlen_lt_of_run h hused),
    fun p maxchars i tr' t hpc hpath hmoves ↦ ?_⟩
  · obtain ⟨r, hr⟩ := Option.isSome_iff_exists.mp
      ((Pc.isSome_run_iff hidle).mpr (hin.closed.length_eq ▸ htouches p))
    exact ⟨_, _, step_iff.mpr (.act hr)⟩
  · refine (strlen_path hpath hpc).resolve_right fun hpos ↦ ?_
    -- it would be behind the last byte
    obtain ⟨s₀, h₀, hfirst⟩ := h
    have hlt := (inBounds_of_run ⟨s₀, h₀, hfirst.append hpath⟩).procs p
    rw [hpos] at hlt
    have hlt : i + moves p tr' < clipSize := hlt
    omega

end

/-- Process 0 measures a string whose NUL process 1 has just overwritten. -/
theorem clipboard_in_bounds_abc :
    ∃ (tr : List (Label (Fin 2))) (s : State (Fin 2)), (clipboard (Fin 2)).Run anyStep tr s ∧
      s.pc 0 = .strlen 49 3 ∧ 0 ∉ s.mem.take 4 ∧ Contained tr s := by
  have hreplay : (replay (Processes.step code) (fun _ _ ↦ true)
      (Processes.initial code (List.replicate clipSize 0) : State (Fin 2))
      ([.call 1 (.write [97, 98, 99] 3)] ++ List.replicate 5 (.act 1 .go) ++
        [.call 0 (.read 49), .call 1 (.write [119, 120, 121, 122] 4)] ++
          List.replicate 3 (.act 0 .go) ++ List.replicate 4 (.act 1 .go))).any
      (fun s ↦ decide (s.pc 0 = .strlen 49 3 ∧ 0 ∉ s.mem.take 4)) = true := by
    decide +kernel
  obtain ⟨tr, s, hr, hg⟩ := exists_run_of_replay (fun s ↦ s = _) rfl hreplay
  obtain ⟨hpc, hnul⟩ := of_decide_eq_true hg
  exact ⟨tr, s, hr.free, hpc, hnul, clipboard_in_bounds hr.free⟩

end DsoFifo.Kifs.Bytewise
