import DsoFifo.Fifo.Wakeup

/-!
# Readers and writers that wait for each other

Transfers are all or nothing: a read waits for all the bytes it asks for, a write for
room for its whole block, and both against the same `BUF_LEN` bytes.  A read of `r`
bytes and a write of `w` bytes can then wait for each other, each for what the other
could give, just when `r + w` exceeds `BUF_LEN` by two or more (`standoff_iff`).  Two
clients that use one record size never do if the record is at most half the buffer.

That such a standoff really comes about is shown by running the calls one after the
other.  The lemmas of the first section say what a call does that nobody disturbs.
-/

namespace DsoFifo.Fifo

open DsoFifo.C DsoFifo.LTS DsoFifo.Pool Function

variable {ι φ : Type}

/-! ## Undisturbed calls -/

/-- A process that takes these steps and nobody else any. -/
def solo (d : Driver) (pc : Pc φ) : List Act → Option (Driver × Pc φ)
  | [] => some (d, pc)
  | a :: as => (pc.run d a).bind fun o ↦ solo o.drv o.next.pc as

/-- The state in which `p` is at `pc`, over the globals `d`. -/
def State.moved [DecidableEq ι] (s : State ι φ) (p : ι) (pc : Pc φ) (d : Driver) : State ι φ :=
  ⟨d, s.files, update s.pc p pc⟩

section

variable [Fintype ι] [DecidableEq ι] [DecidableEq φ]

/-- Steps without interruptions lead from `s` to `t`. -/
def Leads (s t : State ι φ) : Prop := ∃ tr, (fifo ι φ).Path NoIntr s tr t

theorem Leads.trans {s t u : State ι φ} (h : Leads s t) (h' : Leads t u) : Leads s u := by
  obtain ⟨tr, h⟩ := h
  obtain ⟨tr', h'⟩ := h'
  exact ⟨_, h.append h'⟩

theorem Leads.run {tr : List (Label ι φ)} {s t : State ι φ} (h : Leads s t)
    (hr : (fifo ι φ).Run NoIntr tr s) : ∃ tr', (fifo ι φ).Run NoIntr tr' t := by
  obtain ⟨tr', h⟩ := h
  exact ⟨_, hr.append h⟩

/-- A process enters the driver with a file that is open. -/
theorem leads_call {s : State ι φ} {p : ι} {c : Call φ} {pc : Pc φ} (hp : s.pc p = .idle)
    (he : s.enter c = some (s.files, pc)) : Leads s (s.moved p pc s.drv) := by
  refine ⟨[⟨call p c, [.call c]⟩], .single (by simp [NoIntr, call]) ?_⟩
  simp [fifo, ofStep, step, call, hp, he, State.moved]

/-- A process takes a step that opens no file. -/
theorem leads_act {s : State ι φ} {p : ι} {pc : Pc φ} {d : Driver} {a : Act} {o : Outcome φ}
    (ho : pc.run d a = some o) (ha : a ≠ .intr) (hpc : pc.opened = none) :
    Leads (s.moved p pc d) (s.moved p o.next.pc o.drv) := by
  have hfiles : o.next.files s.files pc = s.files := by rw [(fires_of_run ho).files, hpc]
  refine ⟨[⟨⟨p, .act a⟩, o.events ++ o.next.event⟩], .single (by simpa [NoIntr] using ha) ?_⟩
  simp [fifo, ofStep, step, State.moved, State.put, ho, hfiles]

/-- A process goes on alone with a read or a write. -/
theorem leads_solo {s : State ι φ} {p : ι} {pc pc' : Pc φ} {d d' : Driver} (as : List Act)
    (hsolo : solo d pc as = some (d', pc')) (has : .intr ∉ as) (hpc : pc.owns = false) :
    Leads (s.moved p pc d) (s.moved p pc' d') := by
  induction as generalizing d pc with
  | nil =>
      obtain ⟨rfl, rfl⟩ : d = d' ∧ pc = pc' := by simpa [solo] using hsolo
      exact ⟨[], .nil⟩
  | cons a as ih =>
      obtain ⟨o, ho, hrest⟩ := Option.bind_eq_some_iff.mp hsolo
      rw [List.mem_cons, not_or] at has
      have hopened : pc.opened = none := by
        cases hop : pc.opened with
        | none => rfl
        | some hm =>
            rw [Pc.eq_of_opened hop] at hpc
            cases hpc
      have hnext : o.next.pc.owns = false := by
        rcases (fires_of_run ho).file with hidle | ⟨-, howns, -⟩
        · rw [hidle]; rfl
        · rw [howns, hpc]
      exact (leads_act ho (Ne.symm has.1) hopened).trans (ih hrest has.2 hnext)

/-- A block for which there is room is written, if no reader waits. -/
theorem leads_fifoWrite {s : State ι φ} {p : ι} {f : φ} (kbuff : List Byte) (hs : Sound s.drv)
    (hp : s.pc p = .idle) (hf : s.files f ≠ none) (hm : 0 < s.drv.mutex)
    (hcons : 0 < s.drv.num .cons) (hbloq : s.drv.numBloq .cons = 0)
    (hk : s.drv.cbuffer.size + kbuff.length ≤ bufLen) :
    Leads s (s.moved p .idle { s.drv with cbuffer := s.drv.cbuffer.inserted kbuff }) := by
  have hle : kbuff.length ≤ bufLen := by omega
  have hne : s.drv.num .cons ≠ 0 := by omega
  have hroom : ¬toUnsigned (nrGapsCbuffer s.drv.cbuffer) < kbuff.length := by
    rw [hs.nrGaps_eq]
    omega
  have hinsert := (hs.insert_eq (Nat.le_of_not_lt hroom)).2
  refine (leads_call (c := .fifoWrite f kbuff) hp (if_pos hf)).trans
    (leads_solo [.go, .copy 0, .go, .go, .go, .go] ?_ (by simp) rfl)
  simp [solo, Pc.run, fifoWrite, writeLoop, downMutex, upMutex, broadcast, Caster.queue, Caster.next,
    hne, hm, hroom, hinsert, hbloq, Nat.not_lt.mpr hle]
  omega

/-- A read that asks for too much goes to sleep. -/
theorem leads_fifoRead {s : State ι φ} {p : ι} {f : φ} (length : ℕ) (hs : Sound s.drv)
    (hp : s.pc p = .idle) (hf : s.files f ≠ none) (hm : 0 < s.drv.mutex)
    (hprod : s.drv.num .prod ≠ 0) (hle : length ≤ bufLen) (hlt : s.drv.cbuffer.size < length) :
    Leads s (s.moved p (.condWait .sleep (.fifoRead f length)) { s.drv with
      numBloq := update s.drv.numBloq .cons (s.drv.numBloq .cons + 1) }) := by
  have hsize : toUnsigned (sizeCbuffer s.drv.cbuffer) < length := by rwa [hs.size_eq]
  refine (leads_call (c := .fifoRead f length) hp (if_pos hf)).trans
    (leads_solo [.go, .go, .go] ?_ (by simp) rfl)
  simp [solo, Pc.run, fifoRead, downMutex, enterWait, Waiter.queue, hprod, hm, hsize,
    Nat.not_lt.mpr hle]
  omega

/-- A write for which there is no room goes to sleep. -/
theorem leads_fifoWrite_sleep {s : State ι φ} {p : ι} {f : φ} (kbuff : List Byte)
    (hs : Sound s.drv) (hp : s.pc p = .idle) (hf : s.files f ≠ none) (hm : 0 < s.drv.mutex)
    (hcons : 0 < s.drv.num .cons) (hle : kbuff.length ≤ bufLen)
    (hk : bufLen - s.drv.cbuffer.size < kbuff.length) :
    Leads s (s.moved p (.condWait .sleep (.fifoWrite f kbuff)) { s.drv with
      numBloq := update s.drv.numBloq .prod (s.drv.numBloq .prod + 1) }) := by
  have hne : s.drv.num .cons ≠ 0 := by omega
  have hroom : toUnsigned (nrGapsCbuffer s.drv.cbuffer) < kbuff.length := by rwa [hs.nrGaps_eq]
  refine (leads_call (c := .fifoWrite f kbuff) hp (if_pos hf)).trans
    (leads_solo [.go, .copy 0, .go, .go] ?_ (by simp) rfl)
  simp [solo, Pc.run, fifoWrite, writeLoop, downMutex, enterWait, Waiter.queue, hcons, hne, hm,
    hroom, Nat.not_lt.mpr hle]
  omega

/-! ## Standoffs -/

omit [DecidableEq ι] [DecidableEq φ] in
/-- A read of `r` bytes and a write of `w` bytes wait for each other, with no signal
pending and nobody else awake. -/
structure Standoff (s : State ι φ) (r w : ℕ) : Prop where
  asleep : AllAsleep s
  reader : ∃ p f, s.pc p = .condWait .sleep (.fifoRead f r)
  writer : ∃ p f kbuff, kbuff.length = w ∧ s.pc p = .condWait .sleep (.fifoWrite f kbuff)
  size_lt : toUnsigned (sizeCbuffer s.drv.cbuffer) < r
  num_pos : 0 < s.drv.num .cons
  gaps_lt : toUnsigned (nrGapsCbuffer s.drv.cbuffer) < w

/-- Size and room add up to the capacity, so both can be too little only for lengths
that together exceed it. -/
theorem Standoff.le_add {P : State ι φ → Label ι φ → Prop} {tr : List (Label ι φ)}
    {s : State ι φ} (h : (fifo ι φ).Run P tr s) {r w : ℕ} (hst : Standoff s r w) :
    bufLen + 2 ≤ r + w := by
  have hs := sound_of_run h
  have hsize := hst.size_lt
  have hgaps := hst.gaps_lt
  have hle := hs.wf.size_le
  rw [hs.maxSize_eq] at hle
  rw [hs.size_eq] at hsize
  rw [hs.nrGaps_eq] at hgaps
  omega

/-- Two open sides that nobody uses, over an empty buffer. -/
structure Quiet (s : State (Fin 2) (Fin 2)) : Prop where
  idle : ∀ p, s.pc p = .idle
  files : ∀ f, s.files f ≠ none
  mutex : 0 < s.drv.mutex
  cola : ∀ x, s.drv.cola x = 0
  num : ∀ x, 0 < s.drv.num x
  numBloq : ∀ x, s.drv.numBloq x = 0
  size : s.drv.cbuffer.size = 0

end

theorem exists_quiet : ∃ tr s, (fifo (Fin 2) (Fin 2)).Run NoIntr tr s ∧ Quiet s := by
  obtain ⟨tr, s, hr, hg⟩ := exists_run (ι := Fin 2) (φ := Fin 2) NoIntr (meeting ++ gos 4 0)
    (fun s ↦ decide (∀ p, s.pc p = .idle) && decide (∀ f, s.files f ≠ none) && 0 < s.drv.mutex &&
      decide (∀ x, s.drv.cola x = 0) && decide (∀ x, 0 < s.drv.num x) &&
      decide (∀ x, s.drv.numBloq x = 0) && s.drv.cbuffer.size = 0) (by decide +kernel)
  simp only [Bool.and_eq_true, decide_eq_true_eq] at hg
  obtain ⟨⟨⟨⟨⟨⟨hidle, hfiles⟩, hmutex⟩, hcola⟩, hnum⟩, hbloq⟩, hsize⟩ := hg
  exact ⟨tr, s, hr, hidle, hfiles, hmutex, hcola, hnum, hbloq, hsize⟩

/-- A standoff of any two lengths that are too large together: process 1 writes one byte
less than process 0 then asks for, and then `w` bytes for which there is no room. -/
theorem exists_standoff {r w : ℕ} (hr : r ≤ bufLen) (hw : w ≤ bufLen) (hrw : bufLen + 2 ≤ r + w) :
    ∃ tr s, (fifo (Fin 2) (Fin 2)).Run NoIntr tr s ∧ Standoff s r w := by
  obtain ⟨tr, s, hrun, hq⟩ := exists_quiet
  have hs := sound_of_run hrun
  have hprod := hq.num .prod
  have hcons := hq.num .cons
  -- the first write leaves `r - 1` bytes in the buffer
  have hwrite := leads_fifoWrite (p := 1) (f := 1) (List.replicate (r - 1) 0) hs (hq.idle 1)
    (hq.files 1) hq.mutex hcons (hq.numBloq .cons) (by
      rw [hq.size, List.length_replicate]
      omega)
  obtain ⟨tr₁, hrun₁⟩ := hwrite.run hrun
  have hs₁ := sound_of_run hrun₁
  have hsize₁ : (s.drv.cbuffer.inserted (List.replicate (r - 1) 0)).size = r - 1 := by
    simp [Cbuffer.inserted, hq.size]
  have hread := leads_fifoRead (p := 0) (f := 0) r hs₁ (by simp [State.moved, hq.idle])
    (hq.files 0) hq.mutex (by simp [State.moved]; omega) hr (by
      simp only [State.moved]
      rw [hsize₁]
      omega)
  obtain ⟨tr₂, hrun₂⟩ := hread.run hrun₁
  have hs₂ := sound_of_run hrun₂
  have hsleep := leads_fifoWrite_sleep (p := 1) (f := 1) (List.replicate w 0) hs₂
    (by simp [State.moved]) (hq.files 1) hq.mutex hcons (by simpa using hw) (by
      simp only [State.moved]
      rw [hsize₁, List.length_replicate]
      omega)
  obtain ⟨tr₃, hrun₃⟩ := hsleep.run hrun₂
  have hs₃ := sound_of_run hrun₃
  refine ⟨tr₃, _, hrun₃, ⟨hq.mutex, hq.cola, Fin.forall_fin_two.mpr ?_⟩,
    ⟨0, 0, by simp [State.moved]⟩, ⟨1, 1, List.replicate w 0, by simp, by simp [State.moved]⟩, ?_,
    hcons, ?_⟩
  · simp [State.moved, Pc.rests]
  · rw [hs₃.size_eq]
    simp only [State.moved]
    rw [hsize₁]
    omega
  · rw [hs₃.nrGaps_eq]
    simp only [State.moved]
    rw [hsize₁]
    omega

/-- **Standoffs.**  A read of `r` bytes and a write of `w` bytes wait for each other in
some run if and only if `r + w` exceeds the size of the buffer by two or more; and below
that, they do so in no run of any number of processes. -/
theorem standoff_iff {r w : ℕ} (hr : r ≤ bufLen) (hw : w ≤ bufLen) :
    ((∃ tr s, (fifo (Fin 2) (Fin 2)).Run NoIntr tr s ∧ Standoff s r w) ↔ bufLen + 2 ≤ r + w) ∧
      ∀ (ι φ : Type) [Fintype ι] [DecidableEq ι] [DecidableEq φ] (tr : List (Label ι φ))
        (s : State ι φ), (fifo ι φ).Run anyStep tr s → r + w < bufLen + 2 → ¬Standoff s r w := by
  refine ⟨⟨fun ⟨tr, s, hrun, hst⟩ ↦ hst.le_add hrun, exists_standoff hr hw⟩, ?_⟩
  intro ι φ _ _ _ tr s hrun hlt hst
  have := hst.le_add hrun
  omega

/-- Records of half the buffer's size cannot block each other. -/
theorem standoff_iff_half :
    ¬∃ tr s, (fifo (Fin 2) (Fin 2)).Run NoIntr tr s ∧ Standoff s 256 256 := fun h ↦
  absurd ((standoff_iff (by decide) (by decide)).1.mp h) (by decide)

/-- **A reader and a writer block each other**, for three hundred bytes each. -/
theorem standoff_three_hundred :
    ∃ tr s, (fifo (Fin 2) (Fin 2)).Run NoIntr tr s ∧ Standoff s 300 300 :=
  exists_standoff (by decide) (by decide) (by decide)

end DsoFifo.Fifo
