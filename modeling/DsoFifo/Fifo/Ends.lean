import DsoFifo.Fifo.Wakeup

/-!
# End of file and broken pipe

When the last producer is gone and the buffer is empty, the readers that sleep should
return 0; when the last consumer is gone, the writers that sleep should return `-EPIPE`.
Both loops test for that after they are woken, so what matters is that somebody wakes
them.

* `fifo_release` wakes the writers when it takes the last consumer off; but it wakes
  nobody when it takes the last producer off, and readers that sleep then are left there
  (`reader_asleep_at_eof`).
* The interrupt handler of `fifo_open` takes a consumer or a producer off as well, and
  wakes nobody either (`writer_asleep_without_consumers`).

These are two instances of one situation: a condition on the globals becomes true, and
all the sleepers of one kind can go on.  `gated` is that notion of being able to go on.
-/

namespace DsoFifo.Fifo

open DsoFifo.C DsoFifo.LTS DsoFifo.Pool Function

variable {ι φ : Type}

/-! ## Conditions on the globals -/

/-- The waiters of a kind can go on when the condition holds. -/
def gated (kind : Waiter φ → Bool) (cond : Driver → Bool) (d : Driver) (w : Waiter φ) : Bool :=
  kind w && cond d

section

variable [Fintype ι] [DecidableEq ι] [DecidableEq φ]

/-- A step keeps enough signals for the waiters of a kind if, whenever it makes the
condition true, it leads into a broadcast or there are signals for all of them already,
and nobody of that kind falls asleep when it is true. -/
theorem Provided.step_gated {kind : Waiter φ → Bool} {cond : Driver → Bool} {x : Side}
    {tr : List (Label ι φ)} {s t : State ι φ} {l : Label ι φ}
    (h : Provided (gated kind cond) x s) (hJ : Holding tr s) (hb : (queueOf x t).Balanced)
    (hst : (fifo ι φ).Step s l t)
    (hmake : cond t.drv = true → cond s.drv = true ∨ (t.pc l.input.proc).casts x = true ∨
      (t.drv.cola x = s.drv.cola x ∧ sleepers x kind s ≤ s.drv.cola x))
    (hsleep : cond t.drv = true → (t.pc l.input.proc).sleeps x kind = false)
    (hthrifty : Thrifty (gated kind cond) x s l) : Provided (gated kind cond) x t := by
  by_cases hcast : (t.pc l.input.proc).casts x = true
  · exact h.step hJ hb hst (.inl hcast)
  cases hct : cond t.drv with
  | false =>
      have hzero : sleepers x (gated kind cond t.drv) t = 0 := count_eq_zero.mpr fun p ↦ by
        by_contra hp
        have hp' := Bool.eq_true_of_not_eq_false hp
        unfold Pc.sleeps at hp'
        split at hp'
        · simp [gated, hct] at hp'
        · cases hp'
      exact hzero.trans_le (Nat.zero_le _)
  | true =>
      have hnone : (t.pc l.input.proc).sleeps x (gated kind cond t.drv) = false := by
        by_contra hp
        have hp' := Bool.eq_true_of_not_eq_false hp
        have hk := hsleep hct
        unfold Pc.sleeps at hp' hk
        split at hp' <;> simp_all [gated]
      rcases hmake hct with hcs | hc | ⟨hcola, hle⟩
      · refine h.step hJ hb hst (.inr ⟨fun w _ hw ↦ ?_, hnone, hthrifty⟩)
        simpa [gated, hct, hcs] using hw
      · exact absurd hc hcast
      · have hsleepers := sleepers_step_le hst (x := x) (f := kind) (g := gated kind cond t.drv)
          fun w _ hw ↦ ((Bool.and_eq_true _ _).mp hw).1
        rw [hnone, Bool.toNat_false, add_zero] at hsleepers
        rw [Provided, signals]
        omega

end

/-! ## End of file -/

/-- A reader. -/
def Waiter.isRead : Waiter φ → Bool
  | .fifoRead _ _ => true
  | _ => false

/-- The test for EOF in `fifo_read`. -/
def atEof (d : Driver) : Bool := decide (d.num .prod = 0) && isEmptyCbuffer d.cbuffer

/-- The steps after which the test for EOF is true: the last producer leaves an empty
buffer, in `fifo_release` or in the interrupt handler of `fifo_open`, or a read takes
the last bytes that producers have left. -/
def Pc.endsInput (d : Driver) : Pc φ → Bool
  | .fifoRelease .count _ .prod | .fifoOpen .undo _ .prod =>
    decide (d.num .prod = 1) && isEmptyCbuffer d.cbuffer
  | .fifoRead .test _ length =>
    decide (d.num .prod = 0) && decide (0 < length ∧ length = d.cbuffer.size)
  | _ => false

/-- The test for EOF becomes true in these steps, or by a reset; no signal is sent. -/
theorem Fires.atEof {d : Driver} {pc : Pc φ} {a : Act} {o : Outcome φ} (h : Fires d pc a o)
    (hs : Sound d) (hnum : ∀ y, 0 ≤ d.num y) (he : Fifo.atEof o.drv = true) :
    Fifo.atEof d = true ∨
      o.drv.cola = d.cola ∧ (pc.endsInput d = true ∨ ∀ y, d.num y = 0) := by
  have hcbuffer := h.cbuffer hs (hnum .cons)
  simp only [Fifo.atEof, Bool.and_eq_true, decide_eq_true_eq] at he ⊢
  cases h
  case openCount m =>
    have hm := hnum m
    cases m with
    | prod =>
        simp only [update_self] at he
        omega
    | cons => exact .inl he
  case undo m =>
    cases m with
    | prod =>
        have hone : d.num .prod - 1 = 0 := by simpa [upMutex] using he.1
        refine .inr ⟨rfl, .inl ?_⟩
        simp only [Pc.endsInput, Bool.and_eq_true, decide_eq_true_eq]
        exact ⟨by omega, he.2⟩
    | cons => exact .inl he
  case releaseCount m _ =>
    cases m with
    | prod =>
        have hone : d.num .prod - 1 = 0 := by simpa using he.1
        refine .inr ⟨rfl, .inl ?_⟩
        simp only [Pc.endsInput, Bool.and_eq_true, decide_eq_true_eq]
        exact ⟨by omega, he.2⟩
    | cons => exact .inl he
  case releaseReset hp hc => exact .inr ⟨rfl, .inr fun y ↦ by cases y <;> assumption⟩
  case readRemove hne hle hr =>
    obtain ⟨hsize, heq⟩ := hs.remove_eq hle
    obtain ⟨rfl, rfl⟩ := Prod.mk.inj (Option.some.inj (hr.symm.trans heq))
    simp only [Cbuffer.isEmptyCbuffer_iff, Cbuffer.removed] at he hne
    refine .inr ⟨rfl, .inl ?_⟩
    simp only [Pc.endsInput, Bool.and_eq_true, decide_eq_true_eq]
    exact ⟨he.1, by omega⟩
  case writeInsert =>
    cases hcbuffer with
    | insert hx =>
        simp only [Cbuffer.isEmptyCbuffer_iff] at he ⊢
        exact .inl ⟨he.1, by omega⟩
  all_goals exact .inl he

/-- No reader falls asleep at the end of file. -/
theorem Fires.sleeps_isRead {d : Driver} {pc : Pc φ} {a : Act} {o : Outcome φ}
    (h : Fires d pc a o) (he : Fifo.atEof o.drv = true) (x : Side) :
    o.next.pc.sleeps x Waiter.isRead = false := by
  cases h
  case readSleep hne _ =>
    obtain ⟨hprod, hempty⟩ := (Bool.and_eq_true _ _).mp he
    exact absurd ⟨of_decide_eq_true hprod, hempty⟩ hne
  case intrDec w | relockIntr w | relock w _ => cases w <;> rfl
  case castEnd b _ => cases b <;> rfl
  case openSleep | writeSleep => exact Bool.and_false _
  all_goals rfl

section

variable [Fintype ι] [DecidableEq ι] [DecidableEq φ]

/-- Nobody reads when both counters are zero: a file that is read is open. -/
theorem sleepers_isRead_eq_zero {P : State ι φ → Label ι φ → Prop} {tr : List (Label ι φ)}
    {s : State ι φ} (h : (fifo ι φ).Run P tr s) (hzero : ∀ y, s.drv.num y = 0) (x : Side) :
    sleepers x Waiter.isRead s = 0 := by
  refine count_eq_zero.mpr fun p ↦ ?_
  cases hp : s.pc p with
  | condWait loc w =>
      cases w with
      | fifoRead f length =>
          have hopen : s.files f ≠ none := fun hnone ↦ by
            have := ((usage_of_run h).files_eq_none p f (by rw [hp]; rfl)).mp hnone
            rw [hp] at this
            cases this
          obtain ⟨y, hy⟩ := Option.ne_none_iff_exists'.mp hopen
          have hpos := num_pos_of_open h hy
          have := hzero y
          omega
      | _ => cases loc <;> first | rfl | exact Bool.and_false _
  | _ => rfl

/-- Every signal that the end of file needs is there already: a step that brings it
about finds a signal pending for every reader asleep, and a consumer that sleeps in its
open takes a signal at the end of file only if one is left for every reader. -/
def EofSignalled (s : State ι φ) (l : Label ι φ) : Prop :=
  ((s.pc l.input.proc).endsInput s.drv = true →
      sleepers .cons Waiter.isRead s ≤ s.drv.cola .cons) ∧
    Thrifty (gated Waiter.isRead atEof) .cons s l

instance (s : State ι φ) (l : Label ι φ) : Decidable (EofSignalled s l) :=
  inferInstanceAs (Decidable (((s.pc l.input.proc).endsInput s.drv = true →
      sleepers .cons Waiter.isRead s ≤ s.drv.cola .cons) ∧
    Thrifty (gated Waiter.isRead atEof) .cons s l))

/-- The end of file always has its signals. -/
theorem provided_isRead {tr : List (Label ι φ)} {s : State ι φ}
    (h : (fifo ι φ).Run EofSignalled tr s) : Provided (gated Waiter.isRead atEof) .cons s := by
  refine Run.induction (J := fun _ s ↦ Provided (gated Waiter.isRead atEof) .cons s) ?_ ?_ h
  · intro s hs
    exact provided_of_init hs
  · intro tr s l t hr ih hP hst
    have hb := queueOf_balanced (hr.snoc hP hst) .cons
    refine ih.step_gated (holding_of_run hr) hb hst (fun he ↦ ?_) (fun he ↦ ?_) hP.2
    · rcases step_cases hst with ⟨c, files, pc, -, -, -, rfl, -⟩ | ⟨a, o, -, hf, rfl, -⟩
      · exact .inl he
      · refine (hf.atEof (sound_of_run hr) (num_nonneg hr) he).imp_right fun ⟨hcola, hends⟩ ↦
          .inr ⟨by rw [hcola], ?_⟩
        rcases hends with hends | hzero
        · exact hP.1 hends
        · rw [sleepers_isRead_eq_zero hr hzero]
          exact Nat.zero_le _
    · rcases step_cases hst with ⟨c, files, pc, -, -, hen, rfl, -⟩ | ⟨a, o, -, hf, rfl, -⟩
      · simpa using hen.sleeps_eq_false .cons _
      · simpa using hf.sleeps_isRead he .cons

/-- **End of file reaches the readers**, in a run in which every step that brings it
about finds the signals that it needs: when there is no producer and nothing to read,
the mutex is free and no signal is pending, no reader is asleep. -/
theorem eof_reaches_readers {tr : List (Label ι φ)} {s : State ι φ}
    (h : (fifo ι φ).Run EofSignalled tr s) (hmutex : 0 < s.drv.mutex)
    (hcola : s.drv.cola .cons = 0) (hprod : s.drv.num .prod = 0)
    (hempty : isEmptyCbuffer s.drv.cbuffer = true) (p : ι) (f : φ) (length : ℕ) :
    s.pc p ≠ .condWait .sleep (.fifoRead f length) := by
  intro hp
  have hfree := (holding_of_run h).holds_eq_false hmutex
  have hno := (provided_isRead h).not_able hfree hcola hp rfl
  simp [gated, Waiter.isRead, atEof, hprod, hempty] at hno

end

/-- Processes 0 and 1 exchange a byte, process 1 closes and process 0 reads on. -/
theorem eof_reaches_readers_meeting :
    ∃ (tr : List (Label (Fin 2) (Fin 2))) (s : State (Fin 2) (Fin 2)),
      (fifo (Fin 2) (Fin 2)).Run EofSignalled tr s ∧ AllAsleep s ∧ s.drv.num .prod = 0 ∧
        s.drv.num .cons = 1 ∧ s.pc 0 ≠ .condWait .sleep (.fifoRead 0 1) := by
  obtain ⟨tr, s, hr, hg⟩ := exists_run (ι := Fin 2) (φ := Fin 2) EofSignalled
    (meeting ++ gos 4 0 ++ writing 1 [7] ++ gos 2 1 ++ call 1 (.fifoRelease 1) :: gos 4 1 ++
      call 0 (.fifoRead 0 1) :: gos 5 0 ++ [copyAll 0])
    (fun s ↦ AllAsleep s && s.drv.num .prod = 0 && s.drv.num .cons = 1 &&
      isEmptyCbuffer s.drv.cbuffer) (by decide +kernel)
  simp only [Bool.and_eq_true, decide_eq_true_eq] at hg
  obtain ⟨⟨⟨hs, hprod⟩, hcons⟩, hempty⟩ := hg
  exact ⟨tr, s, hr, hs, hprod, hcons,
    eof_reaches_readers hr hs.1 (hs.2.1 .cons) hprod hempty 0 0 1⟩

/-- **A reader misses the end of file.**  Process 0 reads from the empty FIFO and sleeps;
then process 1, the only producer, closes. -/
theorem reader_asleep_at_eof :
    ∃ (tr : List (Label (Fin 2) (Fin 2))) (s : State (Fin 2) (Fin 2)),
      (fifo (Fin 2) (Fin 2)).Run NoIntr tr s ∧ AllAsleep s ∧ s.drv.num .prod = 0 ∧
        isEmptyCbuffer s.drv.cbuffer = true ∧ s.pc 0 = .condWait .sleep (.fifoRead 0 1) := by
  obtain ⟨tr, s, hr, hg⟩ := exists_run (ι := Fin 2) (φ := Fin 2) NoIntr
    (meeting ++ gos 4 0 ++ call 0 (.fifoRead 0 1) :: gos 3 0 ++ call 1 (.fifoRelease 1) :: gos 4 1)
    (fun s ↦ AllAsleep s && s.drv.num .prod = 0 && isEmptyCbuffer s.drv.cbuffer &&
      s.pc 0 = .condWait .sleep (.fifoRead 0 1)) (by decide +kernel)
  simp only [Bool.and_eq_true, decide_eq_true_eq] at hg
  obtain ⟨⟨⟨hs, hprod⟩, hempty⟩, hp⟩ := hg
  exact ⟨tr, s, hr, hs, hprod, hempty, hp⟩

/-! ## Broken pipe -/

/-- A writer. -/
def Waiter.isWrite : Waiter φ → Bool
  | .fifoWrite _ _ => true
  | _ => false

/-- The test for `-EPIPE` in `fifo_write`. -/
def broken (d : Driver) : Bool := decide (d.num .cons = 0)

/-- The step after which the test for `-EPIPE` is true and nobody is woken: an open of
the only consumer is undone. -/
def Pc.breaksPipe (d : Driver) : Pc φ → Bool
  | .fifoOpen .undo _ .cons => decide (d.num .cons = 1)
  | _ => false

/-- The test for `-EPIPE` becomes true in this step, or in `fifo_release`, which wakes the
writers. -/
theorem Fires.broken {d : Driver} {pc : Pc φ} {a : Act} {o : Outcome φ} (h : Fires d pc a o)
    (hnum : ∀ y, 0 ≤ d.num y) (he : Fifo.broken o.drv = true) :
    Fifo.broken d = true ∨ o.next.pc.casts .prod = true ∨
      (o.drv.cola = d.cola ∧ pc.breaksPipe d = true) := by
  cases h
  case openCount m =>
    have hm := hnum m
    cases m with
    | prod => exact .inl he
    | cons =>
        have hz : d.num .cons + 1 = 0 := by simpa [Fifo.broken] using he
        omega
  case undo m =>
    cases m with
    | prod => exact .inl he
    | cons =>
        have hz : d.num .cons - 1 = 0 := by simpa [Fifo.broken, upMutex] using he
        exact .inr (.inr ⟨rfl, by simpa [Pc.breaksPipe] using by omega⟩)
  case releaseLast => exact .inr (.inl rfl)
  case releaseCount m hne =>
    cases m with
    | prod => exact .inl he
    | cons => exact absurd ⟨rfl, by simpa [Fifo.broken] using he⟩ hne
  all_goals exact .inl he

/-- No writer falls asleep when there is no consumer. -/
theorem Fires.sleeps_isWrite {d : Driver} {pc : Pc φ} {a : Act} {o : Outcome φ}
    (h : Fires d pc a o) (he : Fifo.broken o.drv = true) (x : Side) :
    o.next.pc.sleeps x Waiter.isWrite = false := by
  cases h
  case writeSleep hcons _ =>
    have hz : d.num .cons = 0 := of_decide_eq_true he
    omega
  case intrDec w | relockIntr w | relock w _ => cases w <;> rfl
  case castEnd b _ => cases b <;> rfl
  case openSleep | readSleep => exact Bool.and_false _
  all_goals rfl

section

variable [Fintype ι] [DecidableEq ι] [DecidableEq φ]

/-- Every signal that the broken pipe needs is there already: an undone open of the only
consumer finds a signal pending for every writer asleep, and a producer that sleeps in
its open takes a signal when there is no consumer only if one is left for every writer. -/
def EpipeSignalled (s : State ι φ) (l : Label ι φ) : Prop :=
  ((s.pc l.input.proc).breaksPipe s.drv = true →
      sleepers .prod Waiter.isWrite s ≤ s.drv.cola .prod) ∧
    Thrifty (gated Waiter.isWrite broken) .prod s l

instance (s : State ι φ) (l : Label ι φ) : Decidable (EpipeSignalled s l) :=
  inferInstanceAs (Decidable (((s.pc l.input.proc).breaksPipe s.drv = true →
      sleepers .prod Waiter.isWrite s ≤ s.drv.cola .prod) ∧
    Thrifty (gated Waiter.isWrite broken) .prod s l))

/-- The broken pipe always has its signals. -/
theorem provided_isWrite {tr : List (Label ι φ)} {s : State ι φ}
    (h : (fifo ι φ).Run EpipeSignalled tr s) :
    Provided (gated Waiter.isWrite broken) .prod s := by
  refine Run.induction (J := fun _ s ↦ Provided (gated Waiter.isWrite broken) .prod s) ?_ ?_ h
  · intro s hs
    exact provided_of_init hs
  · intro tr s l t hr ih hP hst
    have hb := queueOf_balanced (hr.snoc hP hst) .prod
    refine ih.step_gated (holding_of_run hr) hb hst (fun he ↦ ?_) (fun he ↦ ?_) hP.2
    · rcases step_cases hst with ⟨c, files, pc, -, -, -, rfl, -⟩ | ⟨a, o, -, hf, rfl, -⟩
      · exact .inl he
      · refine (hf.broken (num_nonneg hr) he).imp_right (Or.imp ?_ fun ⟨hcola, hbreaks⟩ ↦
          ⟨by rw [hcola], hP.1 hbreaks⟩)
        exact fun hcast ↦ by simpa using hcast
    · rcases step_cases hst with ⟨c, files, pc, -, -, hen, rfl, -⟩ | ⟨a, o, -, hf, rfl, -⟩
      · simpa using hen.sleeps_eq_false .prod _
      · simpa using hf.sleeps_isWrite he .prod

/-- **A broken pipe reaches the writers**, in a run in which an undone open finds the
signals that it needs: when there is no consumer, the mutex is free and no signal is
pending, no writer is asleep. -/
theorem epipe_reaches_writers {tr : List (Label ι φ)} {s : State ι φ}
    (h : (fifo ι φ).Run EpipeSignalled tr s) (hmutex : 0 < s.drv.mutex)
    (hcola : s.drv.cola .prod = 0) (hcons : s.drv.num .cons = 0) (p : ι) (f : φ)
    (kbuff : List Byte) : s.pc p ≠ .condWait .sleep (.fifoWrite f kbuff) := by
  intro hp
  have hfree := (holding_of_run h).holds_eq_false hmutex
  have hno := (provided_isWrite h).not_able hfree hcola hp rfl
  simp [gated, Waiter.isWrite, broken, hcons] at hno

end

/-- A writer sleeps because the buffer is full, and the only consumer closes: the writer
is woken and returns. -/
theorem epipe_reaches_writers_meeting :
    ∃ (tr : List (Label (Fin 2) (Fin 2))) (s : State (Fin 2) (Fin 2)),
      (fifo (Fin 2) (Fin 2)).Run EpipeSignalled tr s ∧ AllAsleep s ∧ s.drv.num .cons = 0 ∧
        s.drv.num .prod = 1 ∧ s.pc 1 ≠ .condWait .sleep (.fifoWrite 1 [7]) := by
  obtain ⟨tr, s, hr, hg⟩ := exists_run (ι := Fin 2) (φ := Fin 2) EpipeSignalled
    (meeting ++ gos 4 0 ++ writing 1 (List.replicate 512 0) ++ gos 2 1 ++ writing 1 [7] ++
      call 0 (.fifoRelease 0) :: gos 6 0 ++ gos 3 1)
    (fun s ↦ AllAsleep s && s.drv.num .cons = 0 && s.drv.num .prod = 1) (by decide +kernel)
  simp only [Bool.and_eq_true, decide_eq_true_eq] at hg
  obtain ⟨⟨hs, hcons⟩, hprod⟩ := hg
  exact ⟨tr, s, hr, hs, hcons, hprod,
    epipe_reaches_writers hr hs.1 (hs.2.1 .prod) hcons 1 1 [7]⟩

/-- **A writer misses the broken pipe.**  Process 1 meets the open of process 0, fills the
buffer and writes on; process 0 has not left its open yet, is interrupted at the mutex
and undoes it. -/
theorem writer_asleep_without_consumers :
    ∃ (tr : List (Label (Fin 2) (Fin 2))) (s : State (Fin 2) (Fin 2)),
      (fifo (Fin 2) (Fin 2)).Run Blocking tr s ∧ AllAsleep s ∧ s.drv.num .cons = 0 ∧
        s.pc 1 = .condWait .sleep (.fifoWrite 1 [7]) := by
  obtain ⟨tr, s, hr, hg⟩ := exists_run (ι := Fin 2) (φ := Fin 2) Blocking
    (meeting ++ writing 1 (List.replicate 512 0) ++ gos 2 1 ++ go 0 ::
      [call 1 (.fifoWrite 1 [7]), go 1, copyAll 1, go 1, intr 0, go 1] ++ gos 2 0)
    (fun s ↦ AllAsleep s && s.drv.num .cons = 0 && s.pc 1 = .condWait .sleep (.fifoWrite 1 [7]))
    (by decide +kernel)
  simp only [Bool.and_eq_true, decide_eq_true_eq] at hg
  exact ⟨tr, s, hr, hg.1.1, hg.1.2, hg.2⟩

end DsoFifo.Fifo
