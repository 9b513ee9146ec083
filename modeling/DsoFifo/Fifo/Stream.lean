import DsoFifo.Fifo.Handles

/-!
# The byte stream

What the processes do to the buffer is a run of `blockQueue`: in whatever order they
reach their critical sections, the bytes read are the bytes written, in order, and what
is not read yet is still in the buffer (`stream_integrity`).

Two things have to be known before the operations of `cbuffer.c` can be taken for queue
operations.  The head may be at `max_size`, which they allow for; and they are called
with enough room, or enough items, only because the counters are not negative: with
`num_cons < 0` a write would not wait for room, and would overwrite.

What a single call has done so far is kept in its `Ledger`, which is read off the events
of its process.  `Recorded` says that the control point and the ledger agree.
-/

namespace DsoFifo.Fifo

open DsoFifo.C DsoFifo.LTS Function

variable {ι φ : Type}

/-! ## The buffer of the driver -/

/-- The buffer is well-formed and has the size that `init_module` gave it. -/
structure Sound (d : Driver) : Prop where
  wf : d.cbuffer.Wf
  maxSize_eq : d.cbuffer.maxSize = bufLen

theorem sound_initModule {data : List Byte} (h : data.length = bufLen) :
    Sound (initModule data) := ⟨Cbuffer.wf_createCbuffer h (by decide) (by decide), rfl⟩

/-- The operations on the stream among the events of a step. -/
def streamOps (evs : List (Event φ)) : List (BlockOp Byte) :=
  evs.filterMap fun
    | .insert xs => some (.insert xs)
    | .remove xs => some (.remove xs)
    | .reset => some .reset
    | _ => none

@[simp] theorem streamOps_append (evs evs' : List (Event φ)) :
    streamOps (evs ++ evs') = streamOps evs ++ streamOps evs' := by simp [streamOps]

@[simp] theorem streamOps_event (n : Next φ) : streamOps n.event = [] := by cases n <;> rfl

/-- The test of `fifo_read` compares the true size. -/
theorem Sound.size_eq {d : Driver} (h : Sound d) :
    toUnsigned (sizeCbuffer d.cbuffer) = d.cbuffer.size := by
  have hs := h.wf.size_le
  have hm := h.wf.maxSize_le
  rw [h.wf.sizeCbuffer_eq, toUnsigned_natCast (by omega)]

/-- The test of `fifo_write` compares the true room. -/
theorem Sound.nrGaps_eq {d : Driver} (h : Sound d) :
    toUnsigned (nrGapsCbuffer d.cbuffer) = bufLen - d.cbuffer.size := by
  have hm := h.wf.maxSize_le
  rw [h.wf.nrGapsCbuffer_eq, toUnsigned_natCast (by omega), h.maxSize_eq]

/-- A block for which there is room goes in. -/
theorem Sound.insert_eq {d : Driver} (h : Sound d) {kbuff : List Byte}
    (hk : kbuff.length ≤ toUnsigned (nrGapsCbuffer d.cbuffer)) :
    d.cbuffer.size + kbuff.length ≤ bufLen ∧
      insertItemsCbuffer d.cbuffer kbuff (toInt kbuff.length) =
        some (d.cbuffer.inserted kbuff) := by
  have hs := h.wf.size_le
  have hm := h.wf.maxSize_le
  have hmax := h.maxSize_eq
  rw [h.nrGaps_eq] at hk
  refine ⟨by omega, ?_⟩
  rw [toInt_natCast (by omega)]
  exact h.wf.insert_eq (by omega)

/-- Items that are there come out. -/
theorem Sound.remove_eq {d : Driver} (h : Sound d) {length : ℕ}
    (hl : length ≤ toUnsigned (sizeCbuffer d.cbuffer)) :
    length ≤ d.cbuffer.size ∧
      removeItemsCbuffer d.cbuffer (List.replicate length 0) (toInt length) =
        some (d.cbuffer.removed length, d.cbuffer.front length) := by
  have hs := h.wf.size_le
  have hm := h.wf.maxSize_le
  rw [h.size_eq] at hl
  refine ⟨hl, ?_⟩
  rw [toInt_natCast (by omega)]
  simpa using h.wf.remove_eq (List.replicate length 0) (by simpa using hl)

/-- **A step and the buffer.**  At most one queue operation, the one of the event. -/
theorem Fires.cbuffer {d : Driver} {pc : Pc φ} {a : Act} {o : Outcome φ} (h : Fires d pc a o)
    (hs : Sound d) (hcons : 0 ≤ d.num .cons) :
    d.cbuffer.Step (streamOps o.events) o.drv.cbuffer := by
  cases h
  case readRemove hle hr =>
    obtain ⟨hsize, heq⟩ := hs.remove_eq hle
    obtain ⟨rfl, rfl⟩ := Prod.mk.inj (Option.some.inj (hr.symm.trans heq))
    exact .remove hsize
  case writeInsert hne hroom hi =>
    obtain ⟨hsize, heq⟩ := hs.insert_eq (Nat.le_of_not_lt fun hlt ↦ hroom ⟨by omega, hlt⟩)
    obtain rfl := Option.some.inj (hi.symm.trans heq)
    exact .insert (hsize.trans_eq hs.maxSize_eq.symm)
  case releaseReset => exact .reset
  all_goals exact .none

/-! ## What a call has done -/

/-- What a call has done so far. -/
structure Ledger (φ : Type) where
  /-- The call itself. -/
  call : Option (Call φ)
  /-- What it copied from its user. -/
  copiedIn : Option (List Byte)
  /-- The blocks it inserted. -/
  inserted : List (List Byte)
  /-- The blocks it removed. -/
  removed : List (List Byte)
  /-- What it copied to its user. -/
  copiedOut : Option (List Byte)

/-- One event, recorded.  A call starts a new ledger. -/
def Ledger.record (L : Ledger φ) : Event φ → Ledger φ
  | .call c => ⟨some c, none, [], [], none⟩
  | .copyIn xs => { L with copiedIn := some xs }
  | .insert xs => { L with inserted := L.inserted ++ [xs] }
  | .remove xs => { L with removed := L.removed ++ [xs] }
  | .copyOut xs => { L with copiedOut := some xs }
  | _ => L

/-- What the last call of `p` has done so far. -/
def ledger [DecidableEq ι] (p : ι) (tr : List (Label ι φ)) : Ledger φ :=
  (eventsOf p tr).foldl Ledger.record ⟨none, none, [], [], none⟩

theorem ledger_snoc [DecidableEq ι] (p : ι) (tr : List (Label ι φ)) (l : Label ι φ) :
    ledger p (tr ++ [l]) =
      if l.input.proc = p then l.output.foldl Ledger.record (ledger p tr) else ledger p tr := by
  rw [ledger, eventsOf_snoc, List.foldl_append]
  split <;> rfl

/-- The file and the length of the read that a process is in. -/
def Pc.reads : Pc φ → Option (φ × ℕ)
  | .fifoRead _ h length | .condWait _ (.fifoRead h length)
  | .broadcast (.fifoRead h length _) => some (h, length)
  | _ => none

/-- The block that a write has copied in. -/
def Pc.copiedIn : Pc φ → Option (List Byte)
  | .fifoWrite .alloc _ _ | .fifoWrite .copy _ _ => none
  | .fifoWrite _ _ kbuff | .condWait _ (.fifoWrite _ kbuff)
  | .broadcast (.fifoWrite _ kbuff) => some kbuff
  | _ => none

/-- The blocks that a call has inserted when it is at this point. -/
def Pc.inserted : Pc φ → List (List Byte)
  | .broadcast (.fifoWrite _ kbuff) | .fifoWrite .unlock _ kbuff => [kbuff]
  | _ => []

/-- The blocks that a call has removed when it is at this point. -/
def Pc.removed : Pc φ → List (List Byte)
  | .broadcast (.fifoRead _ _ kbuff) | .fifoRead (.unlock kbuff) _ _
  | .fifoRead (.copy kbuff) _ _ => [kbuff]
  | _ => []

/-- The ledger of a call that is at `pc`. -/
structure Recorded (pc : Pc φ) (L : Ledger φ) : Prop where
  call : ∀ h length, pc.reads = some (h, length) → L.call = some (.fifoRead h length)
  copiedIn : L.copiedIn = pc.copiedIn
  inserted : L.inserted = pc.inserted
  removed : L.removed = pc.removed
  length : ∀ h length, pc.reads = some (h, length) → ∀ xs ∈ pc.removed, xs.length = length

/-- The ledger of a call of `f` that returns `v`: a call that fails has moved nothing, a
write has inserted the whole block that it copied in or nothing, a read has removed one
block of the length it was called with or nothing, and an open or a release has moved
nothing. -/
structure Settled (f : Fn) (v : ℤ) (L : Ledger φ) : Prop where
  failed : v < 0 → L.inserted = [] ∧ L.removed = []
  inserted : L.inserted = [] ∨
    f = .fifoWrite ∧ ∃ xs, L.copiedIn = some xs ∧ L.inserted = [xs]
  removed : L.removed = [] ∨
    f = .fifoRead ∧ ∃ h xs, L.call = some (.fifoRead h xs.length) ∧ L.removed = [xs]

/-- A call begins with an empty ledger. -/
theorem Enters.recorded [DecidableEq φ] {s : State ι φ} {c : Call φ} {files : φ → Option Side}
    {pc : Pc φ} (h : Enters s c files pc) (L : Ledger φ) : Recorded pc (L.record (.call c)) := by
  cases h <;> constructor <;> simp [Pc.reads, Pc.copiedIn, Pc.inserted, Pc.removed, Ledger.record]

/-- What the ledger says does not depend on the control point otherwise. -/
theorem Recorded.congr {pc pc' : Pc φ} {L : Ledger φ} (h : Recorded pc L)
    (hreads : pc'.reads = pc.reads) (hin : pc'.copiedIn = pc.copiedIn)
    (hins : pc'.inserted = pc.inserted) (hrem : pc'.removed = pc.removed) : Recorded pc' L :=
  ⟨hreads ▸ h.call, hin ▸ h.copiedIn, hins ▸ h.inserted, hrem ▸ h.removed,
    hreads ▸ hrem ▸ h.length⟩

/-- A step inside a call brings the ledger to the next control point, -/
theorem Fires.recorded {d : Driver} {pc pc' : Pc φ} {a : Act} {o : Outcome φ} (h : Fires d pc a o)
    (hs : Sound d) {L : Ledger φ} (hL : Recorded pc L) (hn : o.next = .goto pc') :
    Recorded pc' (o.events.foldl Ledger.record L) := by
  cases h
  case readRemove f length cbuffer kbuff _ hle hr =>
    obtain ⟨-, heq⟩ := hs.remove_eq hle
    obtain ⟨-, rfl⟩ := Prod.mk.inj (Option.some.inj (hr.symm.trans heq))
    cases hn
    obtain ⟨hcall, hin, hins, hrem, -⟩ := hL
    refine ⟨hcall, hin, hins, by simp [Ledger.record, hrem, Pc.removed], fun g n hg ↦ ?_⟩
    obtain ⟨-, rfl⟩ : f = g ∧ length = n := by simpa [Pc.reads] using hg
    simp [Pc.removed]
  case writeCopy =>
    cases hn
    exact ⟨fun _ _ hg ↦ (by cases hg), rfl, hL.inserted, hL.removed, fun _ _ hg ↦ (by cases hg)⟩
  case writeInsert hloc _ _ _ =>
    cases hn
    obtain ⟨-, hin, hins, hrem, -⟩ := hL
    rcases hloc with rfl | rfl <;>
      exact ⟨fun _ _ hg ↦ (by cases hg), hin, by simp [Ledger.record, hins, Pc.inserted], hrem,
        fun _ _ hg ↦ (by cases hg)⟩
  case writeSleep hloc _ _ =>
    cases hn
    rcases hloc with rfl | rfl <;> exact hL.congr rfl rfl rfl rfl
  case intrDec w | relockIntr w =>
    cases w <;> cases hn
    exact hL.congr rfl rfl rfl rfl
  case take w _ | sleepIntr w | intrLock w _ | relock w _ =>
    cases w <;> cases hn <;> exact hL.congr rfl rfl rfl rfl
  case castEnd b _ => cases b <;> cases hn <;> exact hL.congr rfl rfl rfl rfl
  case signal => cases hn; exact hL
  all_goals (cases hn <;> exact hL.congr rfl rfl rfl rfl)

/-- A call that has moved nothing is settled, whatever it returns. -/
theorem Recorded.settled {pc : Pc φ} {L : Ledger φ} (h : Recorded pc L) (hins : pc.inserted = [])
    (hrem : pc.removed = []) (f : Fn) (v : ℤ) : Settled f v L :=
  ⟨fun _ ↦ ⟨hins ▸ h.inserted, hrem ▸ h.removed⟩, .inl (hins ▸ h.inserted),
    .inl (hrem ▸ h.removed)⟩

/-- and a step that returns settles it. -/
theorem Fires.settled {d : Driver} {pc : Pc φ} {a : Act} {o : Outcome φ} (h : Fires d pc a o)
    {L : Ledger φ} (hL : Recorded pc L) {f : Fn} {v : ℤ} (hn : o.next = .ret f v) :
    Settled f v (o.events.foldl Ledger.record L) := by
  cases h
  case readCopy g length kbuff left hleft =>
    cases hn
    obtain ⟨hcall, -, hins, hrem, hlen⟩ := hL
    obtain rfl : kbuff.length = length := hlen g length rfl kbuff (by simp [Pc.removed])
    exact ⟨fun hneg ↦ (by omega), .inl hins, .inr ⟨rfl, g, kbuff, hcall g _ rfl, hrem⟩⟩
  case writeUnlock kbuff =>
    cases hn
    exact ⟨fun hneg ↦ (by omega), .inr ⟨rfl, kbuff, hL.copiedIn, hL.inserted⟩, .inl hL.removed⟩
  case writeEpipe hloc _ =>
    cases hn
    rcases hloc with rfl | rfl <;> exact hL.settled rfl rfl _ _
  case writeSleep | writeInsert => cases hn
  case intrDec w | relockIntr w => cases w <;> cases hn <;> exact hL.settled rfl rfl _ _
  all_goals (cases hn <;> exact hL.settled rfl rfl _ _)

/-! ## Runs -/

/-- The loop of `fifo_write` copies only what there is room for. -/
theorem Sound.writeLoop_isSome {d : Driver} (hs : Sound d) (hcons : 0 ≤ d.num .cons) {f : φ}
    {kbuff : List Byte} : (writeLoop d f kbuff).isSome = true := by
  unfold writeLoop
  split
  · rfl
  · split
    · rfl
    · rename_i hroom hne
      rw [(hs.insert_eq (Nat.le_of_not_lt fun hlt ↦ hroom ⟨by omega, hlt⟩)).2]
      rfl

/-- A process in a critical section can take its next step. -/
theorem Sound.run_isSome {d : Driver} (hs : Sound d) (hcons : 0 ≤ d.num .cons) {pc : Pc φ}
    (hpc : pc.holds = true) : (pc.run d .go).isSome = true := by
  cases pc with
  | idle => cases hpc
  | fifoOpen loc f m =>
      cases loc with
      | count | undo => rfl
      | test => simp only [Pc.run, fifoOpen]; split <;> rfl
      | _ => cases hpc
  | fifoRelease loc f m =>
      cases loc with
      | count => rfl
      | reset => simp only [Pc.run, fifoRelease]; split <;> rfl
      | _ => cases hpc
  | fifoRead loc f length =>
      cases loc with
      | unlock => rfl
      | test =>
          simp only [Pc.run, fifoRead]
          split
          · rfl
          · split
            · rfl
            · rename_i hlen
              rw [(hs.remove_eq (Nat.le_of_not_lt hlen)).2]
              rfl
      | _ => cases hpc
  | fifoWrite loc f kbuff =>
      cases loc with
      | unlock => rfl
      | test => exact hs.writeLoop_isSome hcons
      | enter =>
          simp only [Pc.run, fifoWrite]
          split
          · rfl
          · exact hs.writeLoop_isSome hcons
      | _ => cases hpc
  | condWait loc w =>
      cases loc with
      | intrDec => rfl
      | _ => cases hpc
  | broadcast b => simp only [Pc.run, broadcast]; split <;> rfl

/-- The buffer is reset only when both counters are zero. -/
theorem Fires.num_eq_zero_of_reset {d : Driver} {pc : Pc φ} {a : Act} {o : Outcome φ}
    (h : Fires d pc a o) (hr : Event.reset ∈ o.events) (x : Side) : d.num x = 0 := by
  cases h
  case releaseReset hp hc => cases x <;> assumption
  all_goals simp [enterWait] at hr

section

variable [Fintype ι] [DecidableEq ι] [DecidableEq φ]

/-- The buffer is sound in every run, -/
theorem sound_of_run {P : State ι φ → Label ι φ → Prop} {tr : List (Label ι φ)} {s : State ι φ}
    (h : (fifo ι φ).Run P tr s) : Sound s.drv := by
  refine Run.induction (J := fun _ s ↦ Sound s.drv) ?_ ?_ h
  · rintro s ⟨data, hd, rfl⟩
    exact sound_initModule hd
  · rintro tr s l t hr ih - hst
    rcases step_cases hst with ⟨c, files, pc, -, -, -, rfl, -⟩ | ⟨a, o, -, hf, rfl, -⟩
    · exact ih
    · have hst := hf.cbuffer ih (num_nonneg hr .cons)
      exact ⟨hst.wf ih.wf, hst.maxSize_eq.trans ih.maxSize_eq⟩

/-- and every step of a run does at most one queue operation to it. -/
theorem cbuffer_step {P : State ι φ → Label ι φ → Prop} {tr : List (Label ι φ)}
    {s t : State ι φ} {l : Label ι φ} (h : (fifo ι φ).Run P tr s)
    (hst : (fifo ι φ).Step s l t) : s.drv.cbuffer.Step (streamOps l.output) t.drv.cbuffer := by
  rcases step_cases hst with ⟨c, files, pc, -, -, -, rfl, hout⟩ | ⟨a, o, -, hf, rfl, hout⟩
  · rw [hout]
    exact .none
  · rw [hout, streamOps_append, streamOps_event, List.append_nil]
    exact hf.cbuffer (sound_of_run h) (num_nonneg h .cons)

/-- **The driver refines the queue.**  A path of the driver from a state met by a run is
a path of the queue of the unread bytes. -/
theorem content_path {P Q : State ι φ → Label ι φ → Prop} {tr tr' : List (Label ι φ)}
    {s t : State ι φ} (h : (fifo ι φ).Run P tr s) (hp : (fifo ι φ).Path Q s tr' t) :
    (blockQueue Byte).Path anyStep s.drv.cbuffer.content (streamOps (events tr'))
      t.drv.cbuffer.content := by
  induction hp with
  | nil => exact .nil
  | snoc hp _ hst ih =>
      have hr := h.free.append (hp.mono fun _ _ _ ↦ trivial)
      rw [events, List.flatMap_append, List.flatMap_singleton, streamOps_append]
      exact ih.append ((cbuffer_step hr hst).path (sound_of_run hr).wf)

/-- **A critical section is never stuck.**  In particular no copy to or from the buffer
leaves its arrays. -/
theorem step_of_holds {P : State ι φ → Label ι φ → Prop} {tr : List (Label ι φ)}
    {s : State ι φ} (h : (fifo ι φ).Run P tr s) {p : ι} (hp : (s.pc p).holds = true) :
    ∃ t evs, (fifo ι φ).Step s ⟨go p, evs⟩ t :=
  step_go ((sound_of_run h).run_isSome (num_nonneg h .cons) hp)

/-- What an event says is all that a step does to the stream, -/
theorem streamOps_eq_singleton {P : State ι φ → Label ι φ → Prop} {tr : List (Label ι φ)}
    {s t : State ι φ} {l : Label ι φ} (h : (fifo ι φ).Run P tr s) (hst : (fifo ι φ).Step s l t)
    {op : BlockOp Byte} (hop : op ∈ streamOps l.output) :
    streamOps l.output = [op] ∧ BlockOp.Step s.drv.cbuffer.content op t.drv.cbuffer.content := by
  rcases (cbuffer_step h hst).content (sound_of_run h).wf with ⟨hnone, -⟩ | ⟨op', hone, hstep⟩
  · simp [hnone] at hop
  · obtain rfl : op = op' := by simpa [hone] using hop
    exact ⟨hone, hstep⟩

/-- and is what happens to the unread bytes. -/
theorem content_step {P : State ι φ → Label ι φ → Prop} {tr : List (Label ι φ)}
    {s t : State ι φ} {l : Label ι φ} (h : (fifo ι φ).Run P tr s) (hst : (fifo ι φ).Step s l t)
    {op : BlockOp Byte} (hop : op ∈ streamOps l.output) :
    BlockOp.Step s.drv.cbuffer.content op t.drv.cbuffer.content :=
  (streamOps_eq_singleton h hst hop).2

/-- The ledger of every call in progress agrees with its control point. -/
theorem recorded_of_run {P : State ι φ → Label ι φ → Prop} {tr : List (Label ι φ)}
    {s : State ι φ} (h : (fifo ι φ).Run P tr s) {p : ι} (hp : s.pc p ≠ .idle) :
    Recorded (s.pc p) (ledger p tr) := by
  refine Run.induction (J := fun tr s ↦ ∀ p, s.pc p ≠ .idle → Recorded (s.pc p) (ledger p tr))
    ?_ ?_ h p hp
  · rintro s ⟨data, -, rfl⟩ p hp
    exact absurd rfl hp
  · rintro tr s l t hr ih - hst p hp
    rw [ledger_snoc]
    by_cases hlp : l.input.proc = p
    · subst hlp
      rw [if_pos rfl]
      rcases step_cases hst with ⟨c, files, pc, -, -, he, rfl, hout⟩ | ⟨a, o, -, hf, rfl, hout⟩
      · simpa [hout] using he.recorded (ledger l.input.proc tr)
      · cases hn : o.next with
        | ret f v => simp [hn] at hp
        | goto pc' =>
            simpa [hout, hn, Next.event] using hf.recorded (sound_of_run hr) (ih _ hf.ne_idle) hn
    · rw [if_neg hlp]
      have hpc : t.pc p = s.pc p := by
        rcases step_cases hst with ⟨c, files, pc, -, -, -, rfl, -⟩ | ⟨a, o, -, -, rfl, -⟩ <;>
          exact update_of_ne (Ne.symm hlp) ..
      rw [hpc] at hp ⊢
      exact ih p hp

/-- The ledger of every call is settled when it returns. -/
theorem settled_of_run {P : State ι φ → Label ι φ → Prop} {tr : List (Label ι φ)}
    {s t : State ι φ} {l : Label ι φ} (h : (fifo ι φ).Run P tr s) (hst : (fifo ι φ).Step s l t)
    {f : Fn} {v : ℤ} (hr : Event.ret f v ∈ l.output) :
    Settled f v (ledger l.input.proc (tr ++ [l])) := by
  rw [ledger_snoc, if_pos rfl]
  rcases step_cases hst with ⟨c, files, pc, -, -, -, -, hout⟩ | ⟨a, o, -, hf, rfl, hout⟩
  · simp [hout] at hr
  · rw [hout, List.mem_append] at hr
    rcases hr with hr | hr
    · exact absurd hr hf.ret_notMem
    · obtain ⟨g, w, hn, heq⟩ := Next.mem_event.mp hr
      obtain ⟨rfl, rfl⟩ : f = g ∧ v = w := by simpa using heq
      simpa [hout, hn, Next.event, Ledger.record] using
        hf.settled (recorded_of_run h hf.ne_idle) hn

/-- In every run the history of the buffer is one of the queue. -/
theorem content_run {P : State ι φ → Label ι φ → Prop} {tr : List (Label ι φ)}
    {s : State ι φ} (h : (fifo ι φ).Run P tr s) :
    (blockQueue Byte).Run anyStep (streamOps (events tr)) s.drv.cbuffer.content := by
  obtain ⟨s₀, hinit, hp⟩ := h
  have hempty : s₀.drv.cbuffer.content = [] := by
    obtain ⟨data, -, rfl⟩ := hinit
    exact Cbuffer.content_createCbuffer ..
  exact ⟨_, hempty, content_path (Run.init (P := anyStep) hinit) hp⟩

/-- **Stream integrity.**  In every run:

* the bytes inserted since the last reset are those removed since then, followed by
  those in the buffer;
* when a call returns, a write has inserted its whole block or nothing, a read has
  removed what it asked for or nothing, and a call that fails has moved nothing;
* an insertion leaves the unread bytes as they are and adds the block after them, a
  removal takes the block from their front, a reset happens only when no file is open,
  and no other step changes the unread bytes. -/
theorem stream_integrity {tr : List (Label ι φ)} {s : State ι φ}
    (h : (fifo ι φ).Run anyStep tr s) :
    BlockOp.inserted (streamOps (events tr)) =
        BlockOp.removed (streamOps (events tr)) ++ s.drv.cbuffer.content ∧
      ∀ l t, (fifo ι φ).Step s l t →
        (∀ f v, Event.ret f v ∈ l.output → Settled f v (ledger l.input.proc (tr ++ [l]))) ∧
        (∀ xs, Event.insert xs ∈ l.output →
          t.drv.cbuffer.content = s.drv.cbuffer.content ++ xs) ∧
        (∀ xs, Event.remove xs ∈ l.output →
          s.drv.cbuffer.content = xs ++ t.drv.cbuffer.content) ∧
        (Event.reset ∈ l.output → ∀ f, s.files f = none) ∧
        (streamOps l.output = [] → t.drv.cbuffer.content = s.drv.cbuffer.content) := by
  refine ⟨?_, fun l t hst ↦ ⟨fun f v hr ↦ settled_of_run h hst hr, fun xs hx ↦ ?_,
    fun xs hx ↦ ?_, fun hr f ↦ ?_, fun hnone ↦ ?_⟩⟩
  · exact BlockOp.inserted_eq_of_run (content_run h)
  · exact BlockOp.Step.insert_iff.mp (content_step h hst (List.mem_filterMap.mpr ⟨_, hx, rfl⟩))
  · exact BlockOp.Step.remove_iff.mp (content_step h hst (List.mem_filterMap.mpr ⟨_, hx, rfl⟩))
  · cases hf : s.files f with
    | none => rfl
    | some x =>
        rcases step_cases hst with ⟨c, files, pc, -, -, -, -, hout⟩ | ⟨a, o, -, hfires, -, hout⟩
        · simp [hout] at hr
        · have hpos := num_pos_of_open h hf
          have hzero := hfires.num_eq_zero_of_reset (by simpa [hout] using hr) x
          omega
  · rcases (cbuffer_step h hst).content (sound_of_run h).wf with ⟨-, hc⟩ | ⟨op, hone, -⟩
    · exact hc
    · simp [hnone] at hone

end

/-- Process 1 has written two bytes and process 0 has taken one of them out. -/
theorem stream_integrity_meeting :
    ∃ (tr : List (Label (Fin 2) (Fin 2))) (s : State (Fin 2) (Fin 2)),
      (fifo (Fin 2) (Fin 2)).Run anyStep tr s ∧ s.drv.cbuffer.content = [8] ∧
        BlockOp.inserted (streamOps (events tr)) =
          BlockOp.removed (streamOps (events tr)) ++ s.drv.cbuffer.content := by
  obtain ⟨tr, s, hr, hg⟩ := exists_run (ι := Fin 2) (φ := Fin 2) anyStep
    (meeting ++ gos 4 0 ++ writing 1 [7, 8] ++ gos 2 1 ++ call 0 (.fifoRead 0 1) :: gos 3 0)
    (fun s ↦ s.drv.cbuffer.content = [8]) (by decide +kernel)
  exact ⟨tr, s, hr, of_decide_eq_true hg, (stream_integrity hr).1⟩

end DsoFifo.Fifo
