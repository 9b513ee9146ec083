import DsoFifo.Fifo.Delivery
import Mathlib.Algebra.BigOperators.Ring.List

/-!
# Records of a fixed length

Clients that always ask for the same number `L` of bytes, as `dump_utmp` does, send records:
if no user copy fails, every block that goes into the buffer is a whole record, and so is
every block that comes out.  Then the byte queue is a queue of records, for which it does not
matter that `L` need not divide the capacity: a record may lie around the end of the array,
and the buffer may be full with fewer than 512 bytes in it.

`fixed_records` puts this together with what a call has done when it returns.
-/

namespace DsoFifo.Fifo

open DsoFifo.C DsoFifo.LTS Function

variable {ι φ : Type} {L : ℕ}

/-! ## The clients -/

/-- A call that reads or writes asks for `L` bytes, and a user copy does not fail. -/
def Choice.Fixed (L : ℕ) : Choice φ → Prop
  | .call (.fifoRead _ length) => length = L
  | .call (.fifoWrite _ buff) => buff.length = L
  | .act (.copy left) => left = 0
  | _ => True

instance (L : ℕ) : (c : Choice φ) → Decidable (c.Fixed L)
  | .call (.fifoRead _ length) => inferInstanceAs (Decidable (length = L))
  | .call (.fifoWrite _ buff) => inferInstanceAs (Decidable (buff.length = L))
  | .act (.copy left) => inferInstanceAs (Decidable (left = 0))
  | .call (.fifoOpen _ _) | .call (.fifoRelease _) => .isTrue trivial
  | .act .go | .act .intr | .act .nomem => .isTrue trivial

/-- Every step is one of such clients. -/
def FixedRecords (L : ℕ) (_ : State ι φ) (l : Label ι φ) : Prop := l.input.choice.Fixed L

instance (s : State ι φ) (l : Label ι φ) : Decidable (FixedRecords L s l) :=
  inferInstanceAs (Decidable (l.input.choice.Fixed L))

/-- The records written since the last reset, in the order of the critical sections. -/
def recordsIn (tr : List (Label ι φ)) : List (List Byte) :=
  BlockOp.inserted ((streamOps (events tr)).map BlockOp.asRecord)

/-- The records taken out since the last reset. -/
def recordsOut (tr : List (Label ι φ)) : List (List Byte) :=
  BlockOp.removed ((streamOps (events tr)).map BlockOp.asRecord)

/-! ## What a call is about -/

/-- The file and the block of the write that a process is in. -/
def Pc.writes : Pc φ → Option (φ × List Byte)
  | .fifoWrite _ h kbuff | .condWait _ (.fifoWrite h kbuff)
  | .broadcast (.fifoWrite h kbuff) => some (h, kbuff)
  | _ => none

/-- The block of a write does not change when its copy is complete. -/
theorem Fires.writes {d : Driver} {pc pc' : Pc φ} {a : Act} {o : Outcome φ} (h : Fires d pc a o)
    (hcopy : ∀ left, a = .copy left → left = 0) (hn : o.next = .goto pc') {w : φ × List Byte}
    (hw : pc'.writes = some w) : pc.writes = some w := by
  cases h
  case writeCopy f kbuff left _ =>
    cases hn
    obtain rfl := hcopy left rfl
    simpa [Pc.writes] using hw
  case intrDec w | relockIntr w => cases w <;> cases hn; exact hw
  case take w _ | sleepIntr w | intrLock w _ | relock w _ => cases w <;> cases hn <;> exact hw
  case castEnd b _ => cases b <;> cases hn <;> exact hw
  case signal => cases hn; exact hw
  all_goals (cases hn <;> exact hw)

/-- What a step inserts is the block of the write. -/
theorem Fires.writes_of_insert {d : Driver} {pc : Pc φ} {a : Act} {o : Outcome φ}
    (h : Fires d pc a o) {xs : List Byte} (hx : Event.insert xs ∈ o.events) :
    ∃ f, pc.writes = some (f, xs) := by
  cases h
  case writeInsert f kbuff _ _ _ _ _ =>
    obtain rfl : xs = kbuff := by simpa using hx
    exact ⟨f, rfl⟩
  all_goals simp [enterWait] at hx

/-- What a step removes is as long as the read asks for. -/
theorem Fires.reads_of_remove {d : Driver} {pc : Pc φ} {a : Act} {o : Outcome φ}
    (h : Fires d pc a o) (hs : Sound d) {xs : List Byte} (hx : Event.remove xs ∈ o.events) :
    ∃ f, pc.reads = some (f, xs.length) := by
  cases h
  case readRemove f length cbuffer kbuff _ hle hr =>
    obtain rfl : xs = kbuff := by simpa using hx
    obtain ⟨-, heq⟩ := hs.remove_eq hle
    obtain ⟨-, rfl⟩ := Prod.mk.inj (Option.some.inj (hr.symm.trans heq))
    exact ⟨f, by simp [Pc.reads]⟩
  all_goals simp [enterWait] at hx

/-- A read that returns more than 0 comes from `copy_to_user`. -/
theorem Fires.exists_copy {d : Driver} {pc : Pc φ} {a : Act} {o : Outcome φ} (h : Fires d pc a o)
    {v : ℤ} (hn : o.next = .ret .fifoRead v) (hv : 0 < v) : ∃ left, a = .copy left := by
  cases h
  case readCopy left _ => exact ⟨left, rfl⟩
  case intrDec w | relockIntr w => cases w <;> cases hn; exact absurd hv (by decide)
  all_goals (cases hn <;> exact absurd hv (by decide))

/-- A call is not among the events of a step inside the driver. -/
theorem Fires.call_notMem {d : Driver} {pc : Pc φ} {a : Act} {o : Outcome φ} (h : Fires d pc a o)
    {c : Call φ} : Event.call c ∉ o.events ++ o.next.event := by
  rw [List.mem_append, not_or]
  refine ⟨?_, by simp⟩
  cases h <;> simp [enterWait]

theorem call_foldl_record {evs : List (Event φ)} (h : ∀ c, Event.call c ∉ evs) (L : Ledger φ) :
    (evs.foldl Ledger.record L).call = L.call := by
  induction evs generalizing L with
  | nil => rfl
  | cons e evs ih =>
      rw [List.foldl_cons, ih fun c hc ↦ h c (List.mem_cons_of_mem e hc)]
      cases e with
      | call c => exact absurd List.mem_cons_self (h c)
      | _ => rfl

section

variable [Fintype ι] [DecidableEq ι] [DecidableEq φ]

/-- A process has made the call that its control point says, with the block that it says, and
it has asked for `L` bytes. -/
structure Asked (L : ℕ) (s : State ι φ) (tr : List (Label ι φ)) : Prop where
  fixed : ∀ p c, (ledger p tr).call = some c → (Choice.call c).Fixed L
  writes : ∀ p f kbuff, (s.pc p).writes = some (f, kbuff) →
    (ledger p tr).call = some (.fifoWrite f kbuff)

theorem asked_of_run {tr : List (Label ι φ)} {s : State ι φ}
    (h : (fifo ι φ).Run (FixedRecords L) tr s) : Asked L s tr := by
  refine Run.induction (J := fun tr s ↦ Asked L s tr) ?_ ?_ h
  · rintro s ⟨data, -, rfl⟩
    exact ⟨fun _ _ hc ↦ (by cases hc), fun _ _ _ hw ↦ (by cases hw)⟩
  · intro tr s l t _ ih hP hst
    rcases step_cases hst with ⟨c, files, pc, hc, -, he, rfl, hout⟩ | ⟨a, o, ha, hf, rfl, hout⟩
    · have hcall : (ledger l.input.proc (tr ++ [l])).call = some c := by
        rw [ledger_snoc, if_pos rfl, hout]
        rfl
      refine ⟨fun p c' hc' ↦ ?_, fun p f kbuff hw ↦ ?_⟩ <;> by_cases hp : l.input.proc = p
      · subst hp
        obtain rfl := Option.some.inj (hcall.symm.trans hc')
        exact hc ▸ hP
      · exact ih.fixed p c' (by rwa [ledger_snoc, if_neg hp] at hc')
      · subst hp
        simp only [update_self] at hw
        rw [hcall]
        cases he with
        | fifoWrite _ => rw [Pc.writes, Option.some.injEq, Prod.mk.injEq] at hw; rw [hw.1, hw.2]
        | fifoOpen _ _ | fifoRelease _ _ | fifoRead _ => cases hw
      · simp only [update_of_ne (Ne.symm hp)] at hw
        rw [ledger_snoc, if_neg hp]
        exact ih.writes p f kbuff hw
    · have hcall : ∀ p, (ledger p (tr ++ [l])).call = (ledger p tr).call := fun p ↦ by
        rw [ledger_snoc]
        split
        · rw [hout]
          exact call_foldl_record (fun c ↦ hf.call_notMem) _
        · rfl
      have hcopy : ∀ left, a = .copy left → left = 0 := by
        rintro left rfl
        rw [FixedRecords, ha] at hP
        exact hP
      refine ⟨fun p c hc ↦ ih.fixed p c (hcall p ▸ hc), fun p f kbuff hw ↦ ?_⟩
      rw [hcall]
      by_cases hp : l.input.proc = p
      · subst hp
        simp only [update_self] at hw
        cases hn : o.next with
        | ret g v =>
            rw [hn] at hw
            cases hw
        | goto pc' =>
            rw [hn] at hw
            exact ih.writes _ f kbuff (hf.writes hcopy hn hw)
      · simp only [update_of_ne (Ne.symm hp)] at hw
        exact ih.writes p f kbuff hw

/-! ## Framing -/

/-- A step inserts only a record that a write was called with, -/
theorem length_of_insert {tr : List (Label ι φ)} {s t : State ι φ} {l : Label ι φ}
    (h : (fifo ι φ).Run (FixedRecords L) tr s) (hst : (fifo ι φ).Step s l t) {xs : List Byte}
    (hx : Event.insert xs ∈ l.output) :
    xs.length = L ∧ ∃ f, (ledger l.input.proc tr).call = some (.fifoWrite f xs) := by
  have hasked := asked_of_run h
  rcases step_cases hst with ⟨c, files, pc, -, -, -, -, hout⟩ | ⟨a, o, -, hf, -, hout⟩
  · simp [hout] at hx
  · have hin : Event.insert xs ∈ o.events := by simpa [hout] using hx
    obtain ⟨f, hw⟩ := hf.writes_of_insert hin
    have hcall := hasked.writes _ f xs hw
    exact ⟨hasked.fixed _ _ hcall, f, hcall⟩

/-- and removes only whole records. -/
theorem length_of_remove {tr : List (Label ι φ)} {s t : State ι φ} {l : Label ι φ}
    (h : (fifo ι φ).Run (FixedRecords L) tr s) (hst : (fifo ι φ).Step s l t) {xs : List Byte}
    (hx : Event.remove xs ∈ l.output) : xs.length = L := by
  rcases step_cases hst with ⟨c, files, pc, -, -, -, -, hout⟩ | ⟨a, o, -, hf, -, hout⟩
  · simp [hout] at hx
  · have hin : Event.remove xs ∈ o.events := by simpa [hout] using hx
    obtain ⟨f, hw⟩ := hf.reads_of_remove (sound_of_run h) hin
    exact (asked_of_run h).fixed _ _ ((recorded_of_run h hf.ne_idle).call f _ hw)

/-- Every block that has gone in or come out is a record. -/
theorem hasLength_of_run {tr : List (Label ι φ)} {s : State ι φ}
    (h : (fifo ι φ).Run (FixedRecords L) tr s) : ∀ op ∈ streamOps (events tr), op.HasLength L := by
  refine Run.induction (J := fun tr _ ↦ ∀ op ∈ streamOps (events tr), op.HasLength L) ?_ ?_ h
  · intro s _ op hop
    cases hop
  · intro tr s l t hr ih _ hst op hop
    rw [events, List.flatMap_append, List.flatMap_singleton, streamOps_append,
      List.mem_append] at hop
    refine hop.elim (ih op) fun hop ↦ ?_
    obtain ⟨e, he, heq⟩ := List.mem_filterMap.mp hop
    cases e with
    | insert xs =>
        cases heq
        exact (length_of_insert hr hst he).1
    | remove xs =>
        cases heq
        exact length_of_remove hr hst he
    | reset =>
        cases heq
        trivial
    | _ => cases heq

/-- A step that works on the stream works on one record. -/
theorem records_snoc {P : State ι φ → Label ι φ → Prop} {tr : List (Label ι φ)}
    {s t : State ι φ} {l : Label ι φ} (h : (fifo ι φ).Run P tr s) (hst : (fifo ι φ).Step s l t)
    {op : BlockOp Byte} (hop : op ∈ streamOps l.output) :
    recordsIn (tr ++ [l]) = BlockOp.insertedStep (recordsIn tr) op.asRecord ∧
      recordsOut (tr ++ [l]) = BlockOp.removedStep (recordsOut tr) op.asRecord := by
  have hops : (streamOps (events (tr ++ [l]))).map BlockOp.asRecord =
      (streamOps (events tr)).map BlockOp.asRecord ++ [op.asRecord] := by
    rw [events, List.flatMap_append, List.flatMap_singleton, streamOps_append, List.map_append,
      (streamOps_eq_singleton h hst hop).1]
    rfl
  rw [recordsIn, recordsOut, hops, BlockOp.inserted_snoc, BlockOp.removed_snoc]
  exact ⟨rfl, rfl⟩

/-- The records written are those taken out, followed by those in the buffer. -/
theorem exists_unread (hL : 1 ≤ L) {tr : List (Label ι φ)} {s : State ι φ}
    (h : (fifo ι φ).Run (FixedRecords L) tr s) :
    ∃ unread, recordsIn tr = recordsOut tr ++ unread ∧
      unread.flatten = s.drv.cbuffer.content ∧ ∀ xs ∈ unread, xs.length = L := by
  obtain ⟨s₀, hinit, hp⟩ := content_run h
  obtain ⟨unread, hr, hcontent, hlen⟩ :=
    BlockOp.exists_run_records hL ⟨s₀, hinit, hp.of_forall_mem (hasLength_of_run h)⟩
  exact ⟨unread, BlockOp.inserted_eq_of_run hr, hcontent, hlen⟩

/-- The buffer holds whole records. -/
theorem dvd_size (hL : 1 ≤ L) {tr : List (Label ι φ)} {s : State ι φ}
    (h : (fifo ι φ).Run (FixedRecords L) tr s) : L ∣ s.drv.cbuffer.size := by
  obtain ⟨unread, -, hcontent, hlen⟩ := exists_unread hL h
  rw [← Cbuffer.length_content, ← hcontent, List.length_flatten]
  refine List.dvd_sum fun n hn ↦ ?_
  obtain ⟨xs, hxs, rfl⟩ := List.mem_map.mp hn
  exact (hlen xs hxs).symm.dvd

/-- A read that returns a record has taken it out and delivered it. -/
theorem exists_delivered (hL : 1 ≤ L) {tr : List (Label ι φ)} {s t : State ι φ} {l : Label ι φ}
    (h : (fifo ι φ).Run (FixedRecords L) tr s) (hst : (fifo ι φ).Step s l t)
    (hP : FixedRecords L s l) (hret : Event.ret .fifoRead L ∈ l.output) :
    ∃ xs, xs.length = L ∧ (ledger l.input.proc (tr ++ [l])).removed = [xs] ∧
      (ledger l.input.proc (tr ++ [l])).copiedOut = some xs := by
  obtain ⟨⟨p, ch⟩, evs⟩ := l
  rcases step_cases hst with ⟨c, files, pc, -, -, -, -, hout⟩ | ⟨a, o, ha, hf, -, hout⟩
  · dsimp only at hout hret
    simp [hout] at hret
  · dsimp only at ha hf hout hret
    have hmem := hret
    rw [hout, List.mem_append] at hmem
    obtain ⟨f, v, hn, heq⟩ := Next.mem_event.mp (hmem.resolve_left hf.ret_notMem)
    obtain ⟨rfl, rfl⟩ : .fifoRead = f ∧ (L : ℤ) = v := by simpa using heq
    obtain ⟨left, rfl⟩ := hf.exists_copy hn (by omega)
    subst ha
    obtain rfl : left = 0 := hP
    obtain ⟨xs, hrem, -, hlen, hcopied⟩ := delivered_of_run h hst hret
    exact ⟨xs, by omega, hrem, by simpa using hcopied⟩

/-- **Records.**  When every read and every write asks for `L` bytes and no user copy fails,
then in every run:

* the size is a multiple of `L`, and there is no state with neither a record to read nor room
  for one;
* the records written since the last reset are those taken out since then, followed by those
  in the buffer;
* a step that inserts inserts the record that its call was given, and one that removes takes
  the first record that is not read yet;
* a read that returns `L` has taken one record, and its user has got it. -/
theorem fixed_records (hL : 1 ≤ L) (hle : L ≤ bufLen) {tr : List (Label ι φ)} {s : State ι φ}
    (h : (fifo ι φ).Run (FixedRecords L) tr s) :
    L ∣ s.drv.cbuffer.size ∧
    ¬(toUnsigned (sizeCbuffer s.drv.cbuffer) < L ∧
      toUnsigned (nrGapsCbuffer s.drv.cbuffer) < L) ∧
    (∃ unread, recordsIn tr = recordsOut tr ++ unread ∧
      unread.flatten = s.drv.cbuffer.content ∧ ∀ xs ∈ unread, xs.length = L) ∧
    ∀ l t, (fifo ι φ).Step s l t → FixedRecords L s l →
      (∀ xs, Event.insert xs ∈ l.output → xs.length = L ∧
        (∃ f, (ledger l.input.proc tr).call = some (.fifoWrite f xs)) ∧
        recordsIn (tr ++ [l]) = recordsIn tr ++ [xs]) ∧
      (∀ xs, Event.remove xs ∈ l.output → xs.length = L ∧
        recordsOut (tr ++ [l]) = recordsOut tr ++ [xs] ∧
        ∃ later, recordsIn tr = recordsOut tr ++ xs :: later) ∧
      (Event.ret .fifoRead L ∈ l.output → ∃ xs, xs.length = L ∧
        (ledger l.input.proc (tr ++ [l])).removed = [xs] ∧
        (ledger l.input.proc (tr ++ [l])).copiedOut = some xs) := by
  have hsound := sound_of_run h
  have hdvd := dvd_size hL h
  refine ⟨hdvd, ?_, exists_unread hL h, fun l t hst hP ↦ ⟨fun xs hx ↦ ?_, fun xs hx ↦ ?_, ?_⟩⟩
  · rw [hsound.size_eq, hsound.nrGaps_eq]
    rintro ⟨hsize, hgaps⟩
    -- with less than one record in it, the buffer is empty
    have hzero := Nat.eq_zero_of_dvd_of_lt hdvd hsize
    omega
  · obtain ⟨hlen, f, hcall⟩ := length_of_insert h hst hx
    exact ⟨hlen, ⟨f, hcall⟩, (records_snoc h hst (List.mem_filterMap.mpr ⟨_, hx, rfl⟩)).1⟩
  · obtain ⟨hin, hout⟩ := records_snoc h hst (List.mem_filterMap.mpr ⟨_, hx, rfl⟩)
    obtain ⟨later, heq, -⟩ := exists_unread hL (h.snoc hP hst)
    refine ⟨length_of_remove h hst hx, hout, later, ?_⟩
    rw [hin, hout] at heq
    simpa [BlockOp.insertedStep, BlockOp.removedStep, BlockOp.asRecord] using heq
  · intro hret
    exact exists_delivered hL h hst hP hret

end

/-- Process 1 has written a record of three bytes and process 0 has taken it out. -/
theorem fixed_records_meeting :
    ∃ (tr : List (Label (Fin 2) (Fin 2))) (s : State (Fin 2) (Fin 2)),
      (fifo (Fin 2) (Fin 2)).Run (FixedRecords 3) tr s ∧ 3 ∣ s.drv.cbuffer.size ∧
        ∃ unread, recordsIn tr = recordsOut tr ++ unread := by
  obtain ⟨tr, s, hr, -⟩ := exists_run (ι := Fin 2) (φ := Fin 2) (FixedRecords 3)
    (meeting ++ gos 4 0 ++ writing 1 [7, 8, 9] ++ gos 2 1 ++ call 0 (.fifoRead 0 3) :: gos 5 0)
    (fun s ↦ s.pc 0 = .fifoRead (.copy [7, 8, 9]) 0 3) (by decide +kernel)
  obtain ⟨hdvd, -, ⟨unread, heq, -⟩, -⟩ := fixed_records (by decide) (by decide) hr
  exact ⟨tr, s, hr, hdvd, unread, heq⟩

end DsoFifo.Fifo
