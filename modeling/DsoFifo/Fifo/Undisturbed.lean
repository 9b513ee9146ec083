import Mathlib.Algebra.Order.BigOperators.Group.Finset
import DsoFifo.Fifo.Broadcast
import DsoFifo.Fifo.Wakeup

/-!
# Who can take a step, and how often

A process in the driver waits for the mutex or for a signal, and for nothing else.  Whoever
has the mutex can go on, so nobody waits for it forever: as long as not all processes in the
driver are asleep without a signal, one of them can take a step (`goes_on`).

Nor do the processes keep each other busy.  Who is woken may find its test false and sleep
again, but a signal is sent for each sleeper that a broadcast finds, and a call has one
broadcast.  `State.cost` adds up what is left of that, and every step takes something off it,
provided that the counters of the queues are not negative (`settles`).

`Undisturbed` are the steps where nobody is interrupted, `vmalloc` finds memory, and user memory
can be accessed.  A process that has not been interrupted is not in a handler either
(`calm_of_run`), and the counters count sleepers (`unraced_of_run`).
-/

namespace DsoFifo.Fifo

open DsoFifo.C DsoFifo.LTS DsoFifo.Pool Function

variable {ι φ : Type}

/-! ## Steps that are not disturbed -/

/-- The step goes well. -/
def Act.plain (a : Act) : Prop := a = .go ∨ a = .copy 0

/-- Nobody is disturbed. -/
def Undisturbed (_ : State ι φ) (l : Label ι φ) : Prop :=
  ∀ a, l.input.choice = .act a → a.plain

instance (a : Act) : Decidable a.plain := inferInstanceAs (Decidable (_ ∨ _))

instance (s : State ι φ) (l : Label ι φ) : Decidable (Undisturbed s l) :=
  match h : l.input.choice with
  | .call c => .isTrue fun a ha ↦ by rw [h] at ha; cases ha
  | .act a =>
    if ha : a.plain then .isTrue fun a' ha' ↦ by rw [h] at ha'; cases ha'; exact ha
    else .isFalse fun hall ↦ ha (hall a h)

/-- Not in the handler of an interruption. -/
def Pc.calm : Pc φ → Bool
  | .fifoOpen .undoLock _ _ | .fifoOpen .undo _ _ => false
  | .condWait .intrLock _ | .condWait .intrDec _ => false
  | _ => true

theorem Fires.calm {d : Driver} {pc : Pc φ} {a : Act} {o : Outcome φ} (h : Fires d pc a o)
    (ha : a.plain) (hpc : pc.calm = true) : o.next.pc.calm = true := by
  cases h
  case relock w _ => cases w <;> rfl
  case castEnd b _ => cases b <;> rfl
  case openIntr | releaseIntr | readIntr | writeIntr | sleepIntr | relockIntr | readNomem
    | writeNomem => rcases ha with ha | ha <;> cases ha
  all_goals first | rfl | cases hpc

section

variable [Fintype ι] [DecidableEq ι] [DecidableEq φ]

theorem calm_of_run {tr : List (Label ι φ)} {s : State ι φ}
    (h : (fifo ι φ).Run Undisturbed tr s) (p : ι) : (s.pc p).calm = true := by
  refine Run.invariant (I := fun s : State ι φ ↦ ∀ p, (s.pc p).calm = true) ?_ ?_ h p
  · rintro s ⟨data, -, rfl⟩ p
    rfl
  · rintro s l t ih hP hst p
    rcases step_cases hst with ⟨c, files, pc, -, -, he, rfl, -⟩ | ⟨a, o, ha, hf, rfl, -⟩
    · by_cases hp : p = l.input.proc
      · subst hp
        simp only [update_self]
        cases he <;> rfl
      · simpa [update_of_ne hp] using ih p
    · by_cases hp : p = l.input.proc
      · subst hp
        simpa only [update_self] using hf.calm (hP a ha) (ih _)
      · simpa [update_of_ne hp] using ih p

end

/-! ## Calls -/

/-- The file that a call is made on. -/
def Call.file : Call φ → φ
  | .fifoOpen h _ | .fifoRelease h | .fifoRead h _ | .fifoWrite h _ => h

theorem Enters.file_eq [DecidableEq φ] {s : State ι φ} {c : Call φ} {files : φ → Option Side}
    {pc : Pc φ} (h : Enters s c files pc) : pc.file = some c.file := by cases h <;> rfl

/-! ## Nobody waits for the mutex forever -/

/-- A process in the driver can go on, unless it is asleep without a signal, if it has the
mutex or the mutex is free. -/
theorem Sound.exists_run {d : Driver} (hs : Sound d) (hcons : 0 ≤ d.num .cons) {pc : Pc φ}
    (hpc : pc ≠ .idle) (hm : pc.holds = true ∨ 0 < d.mutex) :
    (∃ a, a.plain ∧ (pc.run d a).isSome = true) ∨
      ∃ w, pc = .condWait .sleep w ∧ d.cola w.queue = 0 := by
  by_cases hholds : pc.holds = true
  · exact .inl ⟨.go, .inl rfl, hs.run_isSome hcons hholds⟩
  have hdown (pc' : Pc φ) : (downMutex d pc').isSome = true := by
    rw [downMutex, if_pos (hm.resolve_left hholds)]
    rfl
  cases pc with
  | idle => exact absurd rfl hpc
  | fifoOpen loc f m =>
      cases loc with
      | lock | undoLock => exact .inl ⟨.go, .inl rfl, hdown _⟩
      | get => exact .inl ⟨.go, .inl rfl, rfl⟩
      | count | test | undo => exact absurd rfl hholds
  | fifoRelease loc f m =>
      cases loc with
      | lock => exact .inl ⟨.go, .inl rfl, hdown _⟩
      | put => exact .inl ⟨.go, .inl rfl, rfl⟩
      | count | reset => exact absurd rfl hholds
  | fifoRead loc f length =>
      cases loc with
      | alloc =>
          refine .inl ⟨.go, .inl rfl, ?_⟩
          simp only [Pc.run, fifoRead]
          split <;> rfl
      | lock => exact .inl ⟨.go, .inl rfl, hdown _⟩
      | copy kbuff => exact .inl ⟨.copy 0, .inr rfl, by simp [Pc.run, fifoRead]⟩
      | test | unlock => exact absurd rfl hholds
  | fifoWrite loc f kbuff =>
      cases loc with
      | alloc =>
          refine .inl ⟨.go, .inl rfl, ?_⟩
          simp only [Pc.run, fifoWrite]
          split <;> rfl
      | copy => exact .inl ⟨.copy 0, .inr rfl, by simp [Pc.run, fifoWrite]⟩
      | lock => exact .inl ⟨.go, .inl rfl, hdown _⟩
      | enter | test | unlock => exact absurd rfl hholds
  | condWait loc w =>
      cases loc with
      | sleep =>
          rcases Nat.eq_zero_or_pos (d.cola w.queue) with hcola | hcola
          · exact .inr ⟨w, rfl, hcola⟩
          · exact .inl ⟨.go, .inl rfl, by simp [Pc.run, condWait, hcola]⟩
      | intrLock | relock => exact .inl ⟨.go, .inl rfl, hdown _⟩
      | intrDec => exact absurd rfl hholds
  | broadcast b => exact absurd rfl hholds

/-- Asleep, with no signal to take. -/
def Pc.Sunk (d : Driver) (pc : Pc φ) : Prop := ∃ w, pc = .condWait .sleep w ∧ d.cola w.queue = 0

section

variable [Fintype ι] [DecidableEq ι] [DecidableEq φ]

theorem step_act {s : State ι φ} {p : ι} {a : Act} {o : Outcome φ}
    (h : (s.pc p).run s.drv a = some o) :
    (fifo ι φ).Step s ⟨⟨p, .act a⟩, (s.put p o).2⟩ (s.put p o).1 := by
  simp only [fifo, LTS.ofStep, step, h]
  rfl

/-- If a process can not go on, then because of the one that has the mutex. -/
theorem exists_run_of_not_sunk {P : State ι φ → Label ι φ → Prop} {tr : List (Label ι φ)}
    {s : State ι φ} (h : (fifo ι φ).Run P tr s) {p : ι} (hidle : s.pc p ≠ .idle)
    (hsunk : ¬(s.pc p).Sunk s.drv) :
    ∃ q a o, Act.plain a ∧ (s.pc q).run s.drv a = some o := by
  have hs := sound_of_run h
  rcases Nat.eq_zero_or_pos s.drv.mutex with hm | hm
  · have hcount := (holding_of_run h).mutex_add
    rw [hm, zero_add] at hcount
    obtain ⟨q, hq⟩ : ∃ q, (s.pc q).holds = true := by
      by_contra! hnone
      rw [count_eq_zero.mpr fun q ↦ Bool.eq_false_of_not_eq_true (hnone q)] at hcount
      cases hcount
    obtain ⟨o, ho⟩ := Option.isSome_iff_exists.mp (hs.run_isSome (num_nonneg h .cons) hq)
    exact ⟨q, .go, o, .inl rfl, ho⟩
  · obtain ⟨a, ha, ho⟩ := (hs.exists_run (num_nonneg h .cons) hidle (.inr hm)).resolve_right hsunk
    obtain ⟨o, ho⟩ := Option.isSome_iff_exists.mp ho
    exact ⟨p, a, o, ha, ho⟩

/-- **The driver does not deadlock on its mutex.**  Whenever a process in the driver is not
asleep without a signal, some process in the driver can take a step, without being interrupted
and without an error. -/
theorem goes_on {tr : List (Label ι φ)} {s : State ι φ} (h : (fifo ι φ).Run anyStep tr s) {p : ι}
    (hidle : s.pc p ≠ .idle) (hsunk : ¬(s.pc p).Sunk s.drv) :
    ∃ q a evs t, Act.plain a ∧ s.pc q ≠ .idle ∧ (fifo ι φ).Step s ⟨⟨q, .act a⟩, evs⟩ t := by
  obtain ⟨q, a, o, ha, ho⟩ := exists_run_of_not_sunk h hidle hsunk
  exact ⟨q, a, _, _, ha, (fires_of_run ho).ne_idle, step_act ho⟩

end

/-- Process 1 waits for the mutex, which process 0 has. -/
theorem goes_on_meeting : ∃ (tr : List (Label (Fin 2) (Fin 2))) (s : State (Fin 2) (Fin 2)),
    (fifo (Fin 2) (Fin 2)).Run anyStep tr s ∧ s.pc 1 = .fifoOpen .lock 1 .prod ∧
      s.drv.mutex = 0 ∧
      ∃ q a evs t, Act.plain a ∧ s.pc q ≠ .idle ∧
        (fifo (Fin 2) (Fin 2)).Step s ⟨⟨q, .act a⟩, evs⟩ t := by
  obtain ⟨tr, s, hr, hg⟩ := exists_run (ι := Fin 2) (φ := Fin 2) anyStep
    [call 0 (.fifoOpen 0 .cons), go 0, call 1 (.fifoOpen 1 .prod)]
    (fun s ↦ s.pc 1 = .fifoOpen .lock 1 .prod && s.drv.mutex = 0) (by decide +kernel)
  simp only [Bool.and_eq_true, decide_eq_true_eq] at hg
  obtain ⟨hpc, hm⟩ := hg
  refine ⟨tr, s, hr, hpc, hm, goes_on hr (p := 1) (by simp [hpc]) ?_⟩
  rintro ⟨w, hw, -⟩
  rw [hpc] at hw
  cases hw

/-! ## Nobody is woken forever -/

/-- The steps on the way out of the driver; a broadcast counts for what it leads to if there are
`n` sleepers. -/
def Pc.path (n : ℕ) : Pc φ → ℕ
  | .fifoOpen .lock _ _ => 4 * n + 9
  | .fifoOpen .count _ _ => 4 * n + 8
  | .fifoOpen .test _ _ => 6
  | .fifoOpen .undoLock _ _ => 2
  | .fifoOpen .undo _ _ | .fifoOpen .get _ _ => 1
  | .fifoRelease .lock _ _ => 4 * n + 5
  | .fifoRelease .count _ _ => 4 * n + 4
  | .fifoRelease .reset _ _ => 2
  | .fifoRelease .put _ _ => 1
  | .fifoRead .alloc _ _ => 4 * n + 6
  | .fifoRead .lock _ _ => 4 * n + 5
  | .fifoRead .test _ _ => 4 * n + 4
  | .fifoRead (.unlock _) _ _ => 2
  | .fifoRead (.copy _) _ _ => 1
  | .fifoWrite .alloc _ _ => 4 * n + 7
  | .fifoWrite .copy _ _ => 4 * n + 6
  | .fifoWrite .lock _ _ => 4 * n + 5
  | .fifoWrite .enter _ _ | .fifoWrite .test _ _ => 4 * n + 4
  | .fifoWrite .unlock _ _ => 1
  | _ => 0

/-- What a process still does if it sleeps only once more.  A signal is worth three steps: it is
taken, then the mutex, and the test may fail again. -/
def Pc.cost (n : ℕ) (numBloq : Side → ℤ) : Pc φ → ℕ
  | .condWait .sleep w => w.resume.path n - 1
  | .condWait .relock w => w.resume.path n + 1
  | .condWait .intrLock w => w.handler.pc.path n + 2
  | .condWait .intrDec w => w.handler.pc.path n + 1
  | .broadcast b => 4 * (numBloq b.queue).toNat + b.next.path n + 1
  | pc => pc.path n

/-- The signals that are pending. -/
def Driver.pending (d : Driver) : ℕ := d.cola .prod + d.cola .cons

theorem pending_update {d : Driver} {x : Side} {v : ℕ} :
    update d.cola x v .prod + update d.cola x v .cons + d.cola x = d.pending + v := by
  cases x <;> simp [Driver.pending] <;> omega

theorem Fires.cost_lt {d : Driver} {pc : Pc φ} {a : Act} {o : Outcome φ} (h : Fires d pc a o)
    {n : ℕ} (hpos : ∀ x, 0 ≤ d.numBloq x)
    (hn : ∀ x, d.numBloq x ≤ n) :
    o.next.pc.cost n o.drv.numBloq + 3 * o.drv.pending <
      pc.cost n d.numBloq + 3 * d.pending := by
  have hle (x : Side) : 4 * (d.numBloq x).toNat ≤ 4 * n := by
    have := hn x
    omega
  cases h
  case sleepIntr w | intrDec w | relockIntr w =>
    cases w <;> simp [Pc.cost, Pc.path, Waiter.resume, Waiter.handler, Driver.pending]
  case take w hcola =>
    have hsum := pending_update (d := d) (x := w.queue) (v := d.cola w.queue - 1)
    have hpath : 1 ≤ w.resume.path n := by cases w <;> simp [Waiter.resume, Pc.path]
    simp only [Next.pc_goto, Pc.cost, Driver.pending] at hsum ⊢
    omega
  case signal b hb =>
    have hsum := pending_update (d := d) (x := b.queue) (v := d.cola b.queue + 1)
    have hbpos := hpos b.queue
    simp only [Next.pc_goto, Pc.cost, Driver.pending, update_self] at hsum ⊢
    omega
  case relock w _ => cases w <;> simp [Pc.cost, Waiter.resume, Driver.pending]
  case castEnd b hb => cases b <;> simp [Pc.cost, Caster.next, Driver.pending]
  case writeEpipe hloc _ | writeSleep hloc _ _ =>
    rcases hloc with rfl | rfl <;>
      simp [Pc.cost, Pc.path, enterWait, upMutex, Waiter.resume, Driver.pending]
  case writeInsert hloc _ _ _ =>
    have := hle .cons
    rcases hloc with rfl | rfl <;>
      simp [Pc.cost, Pc.path, Caster.queue, Caster.next, Driver.pending] <;> omega
  case openCount h m =>
    have := hle m.other
    simp [Pc.cost, Pc.path, Caster.queue, Caster.next, Driver.pending]
    omega
  case releaseLast | readRemove =>
    have := hle .prod
    simp [Pc.cost, Pc.path, Caster.queue, Caster.next, Driver.pending]
    omega
  all_goals simp [Pc.cost, Pc.path, enterWait, upMutex, Waiter.resume, Driver.pending]

@[simp] theorem Pc.cost_idle (n : ℕ) (numBloq : Side → ℤ) : (idle : Pc φ).cost n numBloq = 0 := rfl

/-- The counters do not matter to a process that does not have the mutex. -/
theorem Pc.cost_congr {pc : Pc φ} (h : pc.holds = false) (n : ℕ) (numBloq numBloq' : Side → ℤ) :
    pc.cost n numBloq = pc.cost n numBloq' := by
  cases pc with
  | broadcast b => cases h
  | condWait loc w => cases loc <;> rfl
  | _ => rfl

theorem Enters.cost_le {s : State ι φ} {c : Call φ} {files : φ → Option Side} {pc : Pc φ}
    [DecidableEq φ] (h : Enters s c files pc) (n : ℕ) (numBloq : Side → ℤ) :
    pc.cost n numBloq ≤ 4 * n + 9 := by
  cases h <;> simp [Pc.cost, Pc.path]

/-- Whoever is in the driver has at most so much to do. -/
theorem Pc.cost_le_toNat [DecidableEq φ] {n : ℕ} {numBloq : Side → ℤ} (h : ∀ x, numBloq x ≤ n)
    {pc : Pc φ} : pc.cost n numBloq ≤ (4 * n + 9) * (decide (pc ≠ .idle)).toNat := by
  have hle (x : Side) : 4 * (numBloq x).toNat ≤ 4 * n := by
    have := h x
    omega
  cases pc with
  | idle => simp
  | broadcast b =>
      have := hle b.queue
      cases b <;> simp [cost, path, Caster.next] <;> omega
  | condWait loc w =>
      cases loc <;> cases w <;> simp [cost, path, Waiter.resume, Waiter.handler]
  | fifoOpen loc | fifoRelease loc | fifoRead loc | fifoWrite loc =>
      cases loc <;> simp [cost, path]

/-- Nobody waits on two queues. -/
theorem Pc.waits_cons_eq_false {pc : Pc φ} (h : pc.waits .prod = true) :
    pc.waits .cons = false := by
  cases pc with
  | condWait loc w => cases loc <;> cases hw : w.queue <;> simp_all [waits, asleep, leaving]
  | _ => cases h

section

variable [Fintype ι] [DecidableEq ι] [DecidableEq φ] {tr tr' : List (Label ι φ)} {s t : State ι φ}

/-- The counters, with the signals, count waiting processes. -/
theorem count_waits {P : State ι φ → Label ι φ → Prop} (h : (fifo ι φ).Run P tr s) (x : Side) :
    (count (Pc.waits x) s.pc : ℤ) = s.drv.numBloq x + s.drv.cola x := by
  have hb : ((queueOf x s).asleep + (queueOf x s).leaving : ℤ) =
    s.drv.numBloq x + s.drv.cola x := queueOf_balanced h x
  have hsum : count (Pc.waits x) s.pc = (queueOf x s).asleep + (queueOf x s).leaving :=
    count_or s.pc fun pc hpc ↦ by
      unfold Pc.asleep at hpc
      split at hpc
      · rfl
      · cases hpc
  rw [hsum, Nat.cast_add, hb]

theorem numBloq_le {P : State ι φ → Label ι φ → Prop} (h : (fifo ι φ).Run P tr s) (x : Side) :
    s.drv.numBloq x ≤ Fintype.card ι := by
  have hwaits := count_waits h x
  have hcard := count_le_card (Pc.waits x) s.pc
  omega

/-- What is still to be done if nobody calls. -/
def State.cost (s : State ι φ) : ℕ :=
  ∑ p, (s.pc p).cost (Fintype.card ι) s.drv.numBloq + 3 * s.drv.pending

theorem cost_of_init (h : (fifo ι φ).Init s) : s.cost = 0 := by
  obtain ⟨data, -, rfl⟩ := h
  exact Finset.sum_eq_zero fun p _ ↦ rfl

omit [DecidableEq φ] in
/-- The counters change only for the process that moves. -/
theorem State.cost_update (s : State ι φ) (p : ι) (pc : Pc φ) (d : Driver)
    (h : (s.pc p).holds = false → d.numBloq = s.drv.numBloq)
    (hothers : (s.pc p).holds = true → ∀ q ≠ p, (s.pc q).holds = false) (files : φ → Option Side) :
    (⟨d, files, update s.pc p pc⟩ : State ι φ).cost + (s.pc p).cost (Fintype.card ι) s.drv.numBloq +
        3 * s.drv.pending =
      s.cost + pc.cost (Fintype.card ι) d.numBloq + 3 * d.pending := by
  have hsame : ∑ q ∈ Finset.univ.erase p, (s.pc q).cost (Fintype.card ι) d.numBloq =
      ∑ q ∈ Finset.univ.erase p, (s.pc q).cost (Fintype.card ι) s.drv.numBloq :=
    Finset.sum_congr rfl fun q hq ↦ by
      cases hp : (s.pc p).holds with
      | false => rw [h hp]
      | true => exact Pc.cost_congr (hothers hp q (Finset.ne_of_mem_erase hq)) ..
  have hsum := Finset.add_sum_erase Finset.univ
    (fun q ↦ (s.pc q).cost (Fintype.card ι) s.drv.numBloq) (Finset.mem_univ p)
  simp only [State.cost]
  rw [sum_update (Pc.cost (Fintype.card ι) d.numBloq), hsame, ← hsum]
  omega

/-- A call, not a step in the driver. -/
def Choice.isCall : Choice φ → Bool
  | .call _ => true
  | .act _ => false

theorem length_add_cost_le (h : (fifo ι φ).Run Unraced tr s)
    (h' : (fifo ι φ).Path Unraced s tr' t) :
    tr'.length + t.cost ≤
      s.cost + (4 * Fintype.card ι + 10) * tr'.countP fun l ↦ l.input.choice.isCall := by
  refine Run.length_le State.cost (fun l ↦ l.input.choice.isCall) _ ?_ h h'
  intro tr s l t hr hP hst
  rcases step_cases hst with ⟨c, files, pc, hc, hidle, he, rfl, -⟩ | ⟨a, o, ha, hf, rfl, -⟩
  · have hcost := s.cost_update l.input.proc pc s.drv (fun _ ↦ rfl)
      (fun hp ↦ by rw [hidle] at hp; cases hp) files
    have hle := he.cost_le (Fintype.card ι) s.drv.numBloq
    rw [hidle, Pc.cost_idle] at hcost
    simp only [hc, Choice.isCall, Bool.toNat_true]
    omega
  · have hcost := s.cost_update l.input.proc o.next.pc o.drv (fun hp ↦ (hf.frame hp).2.1)
      (fun hp q hq ↦ (holding_of_run hr).holds_eq_false_of_ne hp hq)
      (o.next.files s.files (s.pc l.input.proc))
    have hlt := hf.cost_lt (numBloq_nonneg hr) (numBloq_le hr)
    simp only [ha, Choice.isCall, Bool.toNat_false]
    omega

/-- Nothing is to be done for those who are not in the driver. -/
theorem cost_le (h : (fifo ι φ).Run Unraced tr s) :
    s.cost ≤ (4 * Fintype.card ι + 12) * count (fun pc : Pc φ ↦ pc ≠ .idle) s.pc := by
  have hpc : ∑ p, (s.pc p).cost (Fintype.card ι) s.drv.numBloq ≤
      (4 * Fintype.card ι + 9) * count (fun pc : Pc φ ↦ pc ≠ .idle) s.pc := by
    rw [count_eq_sum, Finset.mul_sum]
    exact Finset.sum_le_sum fun p _ ↦ Pc.cost_le_toNat (numBloq_le h)
  -- a signal is for somebody who waits, on one of the queues
  have hwaits : count (Pc.waits .prod) s.pc + count (Pc.waits .cons) s.pc ≤
      count (fun pc : Pc φ ↦ pc ≠ .idle) s.pc := by
    rw [← count_or s.pc fun _ ↦ Pc.waits_cons_eq_false]
    refine count_le_count fun p hp ↦ decide_eq_true fun hidle ↦ ?_
    rw [hidle] at hp
    cases hp
  have hpending : s.drv.pending ≤ count (fun pc : Pc φ ↦ pc ≠ .idle) s.pc := by
    have hprod := count_waits h .prod
    have hcons := count_waits h .cons
    have hprod' := numBloq_nonneg h .prod
    have hcons' := numBloq_nonneg h .cons
    unfold Driver.pending
    omega
  calc s.cost
    _ ≤ (4 * Fintype.card ι + 9) * count (fun pc : Pc φ ↦ pc ≠ .idle) s.pc +
        3 * count (fun pc : Pc φ ↦ pc ≠ .idle) s.pc :=
      Nat.add_le_add hpc (Nat.mul_le_mul_left 3 hpending)
    _ = (4 * Fintype.card ι + 12) * count (fun pc : Pc φ ↦ pc ≠ .idle) s.pc := by
      rw [← Nat.add_mul]

/-- **Nobody is woken forever.**  As long as the counters of the queues count sleepers, whoever is
in the driver comes out or to rest: there are at most `4 n + 12` steps for each of them and for
each further call, where `n` is the number of processes. -/
theorem settles (h : (fifo ι φ).Run Unraced tr s) (h' : (fifo ι φ).Path Unraced s tr' t) :
    tr'.length ≤ (4 * Fintype.card ι + 12) *
      (count (fun pc : Pc φ ↦ pc ≠ .idle) s.pc + tr'.countP fun l ↦ l.input.choice.isCall) := by
  have hlength := length_add_cost_le h h'
  have hcost := cost_le h
  have hcalls : (4 * Fintype.card ι + 10) * (tr'.countP fun l ↦ l.input.choice.isCall) ≤
      (4 * Fintype.card ι + 12) * (tr'.countP fun l ↦ l.input.choice.isCall) :=
    Nat.mul_le_mul_right _ (by omega)
  rw [Nat.mul_add]
  omega

/-- Process 0 asks for more than process 1 writes: it is woken and sleeps again. -/
theorem settles_meeting : ∃ (s t : State (Fin 2) (Fin 2)) (tr : List (Label (Fin 2) (Fin 2))),
    (fifo (Fin 2) (Fin 2)).Init s ∧ (fifo (Fin 2) (Fin 2)).Path Unraced s tr t ∧
      t.pc 0 = .condWait .sleep (.fifoRead 0 3) ∧
      tr.length ≤ (4 * Fintype.card (Fin 2) + 12) *
        (count (fun pc : Pc (Fin 2) ↦ pc ≠ .idle) s.pc +
          tr.countP fun l ↦ l.input.choice.isCall) := by
  obtain ⟨tr, t, ⟨s, hs, hpath⟩, hg⟩ := exists_run (ι := Fin 2) (φ := Fin 2) Unraced
    (meeting ++ gos 4 0 ++ call 0 (.fifoRead 0 3) :: gos 3 0 ++ writing 1 [7, 8] ++ gos 3 1 ++
      gos 3 0)
    (fun s ↦ s.pc 0 = .condWait .sleep (.fifoRead 0 3)) (by decide +kernel)
  exact ⟨s, t, tr, hs, hpath, of_decide_eq_true hg, settles (.init hs) hpath⟩

/-- Undisturbed, the counters count the sleepers that have no signal. -/
theorem numBloq_eq (h : (fifo ι φ).Run Undisturbed tr s) (x : Side) :
    s.drv.numBloq x + s.drv.cola x = count (Pc.asleep x) s.pc := by
  have hb : ((queueOf x s).asleep + (queueOf x s).leaving : ℤ) =
    s.drv.numBloq x + s.drv.cola x := queueOf_balanced h x
  have hleaving : (queueOf x s).leaving = 0 := count_eq_zero.mpr fun p ↦ by
    have hcalm := calm_of_run h p
    generalize s.pc p = pc at hcalm
    cases pc with
    | condWait loc w => cases loc <;> first | rfl | cases hcalm
    | _ => rfl
  rw [← hb, hleaving, Nat.cast_zero, add_zero]
  rfl

/-- A signal is sent only while there is a sleeper to take it. -/
theorem unraced_of_run (h : (fifo ι φ).Run Undisturbed tr s) : (fifo ι φ).Run Unraced tr s := by
  refine Run.induction (J := fun tr s ↦ (fifo ι φ).Run Unraced tr s) (fun _ ↦ Run.init) ?_ h
  intro tr s l t hr ih hP hst
  refine ih.snoc (fun x hx ↦ ?_) hst
  unfold Pc.needsSleeper at hx
  split at hx
  · obtain ⟨hne, hx⟩ := Option.ite_none_right_eq_some.mp hx
    rw [Option.some.inj hx] at hne
    have hb := numBloq_eq hr x
    have hpos := numBloq_nonneg ih x
    omega
  · rcases hP _ ‹_› with ha | ha <;> cases ha
  · cases hx

end

end DsoFifo.Fifo
