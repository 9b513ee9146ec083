import DsoFifo.Fifo.Mutex
import DsoFifo.Monitor.CondQueue

/-!
# The two wait queues

`cond_wait` and the broadcast loops make a `CondQueue` of each of the pairs
(`num_bloq_prod`, `cola_prod`) and (`num_bloq_cons`, `cola_cons`): seen through
`queueOf x`, every run of the driver is a run of `condQueue`, with the operations
that `condOps x` reads off its events.  What is known of condition queues in general
then holds of both.
-/

namespace DsoFifo.Fifo

open DsoFifo.LTS DsoFifo.Pool Function

variable {ι φ : Type}

/-! ## Who is on a queue -/

/-- At the down of `cola_x` in `cond_wait`. -/
def Pc.asleep (x : Side) : Pc φ → Bool
  | .condWait .sleep w => decide (w.queue = x)
  | _ => false

/-- In the interrupt path of `cond_wait`, before its `count--`. -/
def Pc.leaving (x : Side) : Pc φ → Bool
  | .condWait .intrLock w | .condWait .intrDec w => decide (w.queue = x)
  | _ => false

/-- Past `count++` in a `cond_wait` on `cola_x`, without a signal from it and without
having executed its own `count--`. -/
def Pc.waits (x : Side) (pc : Pc φ) : Bool := pc.asleep x || pc.leaving x

/-- The operations on one condition queue among the events of a step. -/
def condOps (x : Side) (evs : List (Event φ)) : List CondQueue.Op :=
  evs.filterMap fun
    | .enqueue y => if y = x then some .wait else none
    | .down (.cola y) => if y = x then some .take else none
    | .interrupted (.cola y) => if y = x then some .interrupt else none
    | .dequeue y => if y = x then some .withdraw else none
    | .up (.cola y) => if y = x then some .signal else none
    | _ => none

@[simp] theorem condOps_append (x : Side) (evs evs' : List (Event φ)) :
    condOps x (evs ++ evs') = condOps x evs ++ condOps x evs' := by simp [condOps]

@[simp] theorem condOps_event (x : Side) (n : Next φ) : condOps x n.event = [] := by
  cases n <;> rfl

/-- A process that leaves `cond_wait` is on no queue. -/
theorem Waiter.waits_handler (w : Waiter φ) (x : Side) :
    w.handler.pc.asleep x = false ∧ w.handler.pc.leaving x = false := by
  cases w <;> exact ⟨rfl, rfl⟩

/-! ## Simulation -/

/-- What one process contributes to a condition queue, next to `n` others asleep and
`l` others leaving. -/
def localQueue (x : Side) (n l : ℕ) (d : Driver) (pc : Pc φ) : CondQueue :=
  ⟨n + (pc.asleep x).toNat, l + (pc.leaving x).toNat, d.numBloq x, d.cola x⟩

variable {R : CondQueue → CondQueue.Op → Prop}

/-- Going to sleep is a `wait`. -/
theorem enterWait_condQueue (x : Side) (n l : ℕ) {d : Driver} {pc : Pc φ} (w : Waiter φ)
    (hn : pc.asleep x = false) (hl : pc.leaving x = false)
    (hR : ∀ op ∈ condOps x (enterWait d w).events, R (localQueue x n l d pc) op) :
    condQueue.Path R (localQueue x n l d pc) (condOps x (enterWait d w).events)
      (localQueue x n l (enterWait d w).drv (enterWait d w).next.pc) := by
  by_cases hx : w.queue = x
  · subst hx
    simp only [localQueue, hn, hl, enterWait, condOps] at hR ⊢
    simp [Pc.asleep, Pc.leaving] at hR ⊢
    exact .single hR .wait
  · simp only [localQueue, hn, hl, enterWait, condOps]
    simp [Pc.asleep, Pc.leaving, hx, update_of_ne (Ne.symm hx)]
    exact .nil

/-- **A step of a process is a path of each condition queue.** -/
theorem Fires.condQueue {d : Driver} {pc : Pc φ} {a : Act} {o : Outcome φ} (h : Fires d pc a o)
    (x : Side) (n l : ℕ) (hR : ∀ op ∈ condOps x o.events, R (localQueue x n l d pc) op) :
    DsoFifo.condQueue.Path R (localQueue x n l d pc) (condOps x o.events)
      (localQueue x n l o.drv o.next.pc) := by
  cases h
  case openSleep => exact enterWait_condQueue x n l _ rfl rfl hR
  case readSleep => exact enterWait_condQueue x n l _ rfl rfl hR
  case writeSleep hloc _ _ =>
    rcases hloc with rfl | rfl <;> exact enterWait_condQueue x n l _ rfl rfl hR
  case take w hc =>
    by_cases hx : w.queue = x
    · subst hx
      obtain ⟨k, hk⟩ : ∃ k, d.cola w.queue = k + 1 := ⟨_, (Nat.succ_pred_eq_of_pos hc).symm⟩
      simp [localQueue, condOps, Pc.asleep, Pc.leaving, hk] at hR ⊢
      exact .single hR .take
    · simp [localQueue, condOps, Pc.asleep, Pc.leaving, hx, update_of_ne (Ne.symm hx)]
      exact .nil
  case sleepIntr w =>
    by_cases hx : w.queue = x
    · simp [localQueue, condOps, Pc.asleep, Pc.leaving, hx] at hR ⊢
      exact .single hR .interrupt
    · simp [localQueue, condOps, Pc.asleep, Pc.leaving, hx]
      exact .nil
  case intrDec w =>
    obtain ⟨hs, hl⟩ := w.waits_handler x
    by_cases hx : w.queue = x
    · subst hx
      simp [localQueue, condOps, hs, hl] at hR ⊢
      simp [Pc.asleep, Pc.leaving] at hR ⊢
      exact .single hR .withdraw
    · simp [localQueue, condOps, hx, hs, hl, update_of_ne (Ne.symm hx)]
      simp [Pc.asleep, Pc.leaving, hx]
      exact .nil
  case signal b hb =>
    by_cases hx : b.queue = x
    · subst hx
      simp [localQueue, condOps, Pc.asleep, Pc.leaving] at hR ⊢
      exact .single hR (.signal hb)
    · simp [localQueue, condOps, Pc.asleep, Pc.leaving, hx, update_of_ne (Ne.symm hx)]
      exact .nil
  case writeEpipe hloc _ | writeInsert hloc _ _ _ =>
    rcases hloc with rfl | rfl <;> exact .nil
  case relockIntr w => cases w <;> exact .nil
  case relock w _ => cases w <;> exact .nil
  case castEnd b _ => cases b <;> exact .nil
  all_goals exact .nil

/-! ## The queues of the system -/

section

variable [Fintype ι] [DecidableEq ι] [DecidableEq φ]

omit [DecidableEq ι] [DecidableEq φ] in
/-- The wait queue of one side. -/
def queueOf (x : Side) (s : State ι φ) : CondQueue :=
  ⟨count (Pc.asleep x) s.pc, count (Pc.leaving x) s.pc, s.drv.numBloq x, s.drv.cola x⟩

omit [DecidableEq φ] in
/-- A wait queue, split into one process and the others. -/
theorem queueOf_eq (x : Side) (s : State ι φ) (p : ι) :
    queueOf x s = localQueue x (count (Pc.asleep x) (update s.pc p .idle))
      (count (Pc.leaving x) (update s.pc p .idle)) s.drv (s.pc p) := by
  rw [queueOf, count_eq_add s.pc p (P := Pc.asleep x) (z := .idle) rfl,
    count_eq_add s.pc p (P := Pc.leaving x) (z := .idle) rfl, localQueue]

omit [Fintype ι] [DecidableEq ι] in
/-- A call begins outside `cond_wait`. -/
theorem Enters.waits_eq_false {s : State ι φ} {c : Call φ} {files : φ → Option Side} {pc : Pc φ}
    (h : Enters s c files pc) (x : Side) : pc.asleep x = false ∧ pc.leaving x = false := by
  cases h <;> exact ⟨rfl, rfl⟩

/-- **The driver simulates both condition queues**, step by step. -/
theorem queueOf_step {s t : State ι φ} {l : Label ι φ} (hst : (fifo ι φ).Step s l t) (x : Side)
    (hR : ∀ op ∈ condOps x l.output, R (queueOf x s) op) :
    condQueue.Path R (queueOf x s) (condOps x l.output) (queueOf x t) := by
  have ht := queueOf_eq x t l.input.proc
  rw [queueOf_eq x s l.input.proc] at hR ⊢
  rcases step_cases hst with ⟨c, files, pc, -, hidle, he, rfl, hout⟩ | ⟨a, o, -, hf, rfl, hout⟩
  · obtain ⟨hs, hl⟩ := he.waits_eq_false x
    simp only [update_self, update_idem] at ht
    rw [ht, hidle, hout]
    simp only [localQueue, hs, hl]
    exact .nil
  · simp only [update_self, update_idem] at ht
    rw [hout, condOps_append, condOps_event, List.append_nil] at hR ⊢
    rw [ht]
    exact hf.condQueue x _ _ hR

/-- Both queues are empty at first. -/
theorem queueOf_init {x : Side} (s : State ι φ) (hs : (fifo ι φ).Init s) :
    condQueue.Init (queueOf x s) := by
  obtain ⟨data, -, rfl⟩ := hs
  exact CondQueue.ext (count_const_false rfl) (count_const_false rfl) rfl rfl

/-- A run of the driver is a run of each of its condition queues. -/
theorem queueOf_run {P : State ι φ → Label ι φ → Prop} {x : Side}
    (hPR : ∀ s l t, (fifo ι φ).Step s l t → P s l →
      ∀ op ∈ condOps x l.output, R (queueOf x s) op)
    {tr : List (Label ι φ)} {s : State ι φ} (h : (fifo ι φ).Run P tr s) :
    condQueue.Run R (tr.flatMap fun l ↦ condOps x l.output) (queueOf x s) :=
  Run.map (queueOf x) _ queueOf_init
    (fun _ s l t _ hP hst ↦ queueOf_step hst x (hPR s l t hst hP)) h

/-- Both condition queues are balanced in every run. -/
theorem queueOf_balanced {P : State ι φ → Label ι φ → Prop} {tr : List (Label ι φ)}
    {s : State ι φ} (h : (fifo ι φ).Run P tr s) (x : Side) : (queueOf x s).Balanced :=
  CondQueue.balanced_of_run (queueOf_run (R := anyStep) (fun _ _ _ _ _ _ _ ↦ trivial) h)

/-- **Signal accounting.**  On both queues, the processes past `count++` that have
neither taken a signal nor executed their own `count--` are as many as the blocked
counter says, plus the signals pending. -/
theorem signal_accounting {tr : List (Label ι φ)} {s : State ι φ}
    (h : (fifo ι φ).Run anyStep tr s) (x : Side) :
    ((Finset.univ.filter fun p ↦ (s.pc p).waits x = true).card : ℤ) =
      s.drv.numBloq x + s.drv.cola x := by
  have hb : ((queueOf x s).asleep + (queueOf x s).leaving : ℤ) =
      s.drv.numBloq x + s.drv.cola x := queueOf_balanced h x
  rw [← hb]
  change ((count (fun pc ↦ pc.asleep x || pc.leaving x) s.pc : ℕ) : ℤ) = _
  rw [count_or s.pc, Nat.cast_add]
  · rfl
  · intro pc hpc
    unfold Pc.asleep at hpc
    split at hpc
    · rfl
    · cases hpc

end

/-- Process 0 opens the FIFO as its first consumer and goes to sleep. -/
theorem signal_accounting_sleeping :
    ∃ (tr : List (Label (Fin 2) (Fin 2))) (s : State (Fin 2) (Fin 2)),
      (fifo (Fin 2) (Fin 2)).Run anyStep tr s ∧ (s.pc 0).waits .cons = true ∧
        ((Finset.univ.filter fun p ↦ (s.pc p).waits .cons = true).card : ℤ) =
          s.drv.numBloq .cons + s.drv.cola .cons := by
  obtain ⟨tr, s, hr, hg⟩ := exists_run (ι := Fin 2) (φ := Fin 2) anyStep
    (call 0 (.fifoOpen 0 .cons) :: gos 4 0) (fun s ↦ (s.pc 0).waits .cons) (by decide +kernel)
  exact ⟨tr, s, hr, hg, signal_accounting hr .cons⟩

end DsoFifo.Fifo
