import DsoFifo.Fifo.Fires

/-!
# The mutex

About twenty exits of four functions, a macro that gives the mutex away and takes it
again, and handlers that take it once more: this file shows that they balance.

Who holds the mutex is defined by the *history*: `held p tr` is the number of downs
of the mutex by `p` in `tr` less the number of its ups.  `Pc.holds` says the same by
the control point, and `Holding` is the invariant that they agree and that the
semaphore and the holders add up to one.  Everything in `mutex_discipline` is read
off it.
-/

namespace DsoFifo.Fifo

open DsoFifo.C DsoFifo.LTS DsoFifo.Pool Function

variable {ι φ : Type}

/-! ## Histories -/

/-- The events of the process `p`. -/
def eventsOf [DecidableEq ι] (p : ι) (tr : List (Label ι φ)) : List (Event φ) :=
  tr.flatMap fun l ↦ if l.input.proc = p then l.output else []

@[simp] theorem eventsOf_nil [DecidableEq ι] (p : ι) :
    eventsOf p ([] : List (Label ι φ)) = [] := rfl

theorem eventsOf_snoc [DecidableEq ι] (p : ι) (tr : List (Label ι φ)) (l : Label ι φ) :
    eventsOf p (tr ++ [l]) = eventsOf p tr ++ if l.input.proc = p then l.output else [] := by
  simp [eventsOf]

/-- Downs of the mutex less ups. -/
def balance (evs : List (Event φ)) : ℤ :=
  (evs.map fun
    | .down .mutex => 1
    | .up .mutex => -1
    | _ => 0).sum

@[simp] theorem balance_nil : balance ([] : List (Event φ)) = 0 := rfl

@[simp] theorem balance_append (evs evs' : List (Event φ)) :
    balance (evs ++ evs') = balance evs + balance evs' := by simp [balance]

@[simp] theorem balance_event (n : Next φ) : balance n.event = 0 := by cases n <;> rfl

/-- How often `p` has downed the mutex and not upped it again. -/
def held [DecidableEq ι] (p : ι) (tr : List (Label ι φ)) : ℤ := balance (eventsOf p tr)

theorem held_snoc [DecidableEq ι] (p : ι) (tr : List (Label ι φ)) (l : Label ι φ) :
    held p (tr ++ [l]) = held p tr + if l.input.proc = p then balance l.output else 0 := by
  rw [held, eventsOf_snoc, balance_append, held]
  split <;> simp

/-! ## Control points in a critical section -/

/-- Between a successful down of the mutex and the matching up. -/
def Pc.holds : Pc φ → Bool
  | .fifoOpen .count _ _ | .fifoOpen .test _ _ | .fifoOpen .undo _ _ => true
  | .fifoRelease .count _ _ | .fifoRelease .reset _ _ => true
  | .fifoRead .test _ _ | .fifoRead (.unlock _) _ _ => true
  | .fifoWrite .enter _ _ | .fifoWrite .test _ _ | .fifoWrite .unlock _ _ => true
  | .condWait .intrDec _ => true
  | .broadcast _ => true
  | _ => false

/-- Nobody holds the mutex at a down. -/
theorem Pc.holds_of_awaits {pc : Pc φ} {sem : Sem} (h : pc.awaits = some sem) :
    pc.holds = false := by
  unfold Pc.awaits at h
  split at h <;> first | rfl | cases h

/-- A step moves the mutex and the process together. -/
theorem Fires.mutex {d : Driver} {pc : Pc φ} {a : Act} {o : Outcome φ} (h : Fires d pc a o) :
    (o.drv.mutex : ℤ) + balance o.events = d.mutex ∧
      (pc.holds.toNat : ℤ) + balance o.events = o.next.pc.holds.toNat := by
  cases h
  case writeEpipe hloc _ | writeSleep hloc _ _ | writeInsert hloc _ _ _ =>
    rcases hloc with rfl | rfl <;> simp [balance, upMutex, enterWait, Pc.holds]
  case intrDec w | relockIntr w => cases w <;> simp [balance, Waiter.handler, Pc.holds]
  case relock w hm => cases w <;> simp [balance, Waiter.resume, Pc.holds] <;> omega
  case castEnd b _ => cases b <;> simp [Caster.next, Pc.holds]
  all_goals simp [balance, upMutex, enterWait, Pc.holds]
  all_goals omega

/-- A step that ups the mutex is taken by a process that holds it. -/
theorem Fires.holds_of_up {d : Driver} {pc : Pc φ} {a : Act} {o : Outcome φ} (h : Fires d pc a o)
    (hup : Event.up .mutex ∈ o.events) : pc.holds = true := by
  cases h
  case writeEpipe hloc _ | writeSleep hloc _ _ | writeInsert hloc _ _ _ =>
    rcases hloc with rfl | rfl <;> rfl
  all_goals first | rfl | simp at hup

/-- **What the mutex protects.**  A step of a process that does not hold it leaves the
counters and the buffer alone. -/
theorem Fires.frame {d : Driver} {pc : Pc φ} {a : Act} {o : Outcome φ} (h : Fires d pc a o)
    (hpc : pc.holds = false) :
    o.drv.num = d.num ∧ o.drv.numBloq = d.numBloq ∧ o.drv.cbuffer = d.cbuffer := by
  cases h
  case writeEpipe hloc _ | writeSleep hloc _ _ | writeInsert hloc _ _ _ =>
    rcases hloc with rfl | rfl <;> cases hpc
  all_goals first | exact ⟨rfl, rfl, rfl⟩ | cases hpc

/-- Only downs are interrupted, and only a down takes a semaphore. -/
theorem Fires.awaits_of_down {d : Driver} {pc : Pc φ} {a : Act} {o : Outcome φ} {sem : Sem}
    (h : Fires d pc a o) (hdown : .down sem ∈ o.events ∨ .interrupted sem ∈ o.events) :
    pc.awaits = some sem := by
  cases h
  all_goals simp [enterWait] at hdown
  all_goals subst hdown; rfl

/-! ## The invariant -/

section

variable [Fintype ι] [DecidableEq ι] [DecidableEq φ]

/-- The history and the control points agree on who holds the mutex, and the
semaphore counts the others. -/
structure Holding (tr : List (Label ι φ)) (s : State ι φ) : Prop where
  held_eq : ∀ p, held p tr = (s.pc p).holds.toNat
  mutex_add : s.drv.mutex + count Pc.holds s.pc = 1

omit [Fintype ι] [DecidableEq ι] in
/-- A call begins outside the critical section. -/
theorem Enters.holds_eq_false {s : State ι φ} {c : Call φ} {files : φ → Option Side} {pc : Pc φ}
    (h : Enters s c files pc) : pc.holds = false := by cases h <;> rfl

theorem Holding.step {tr : List (Label ι φ)} {s t : State ι φ} {l : Label ι φ}
    (h : Holding tr s) (hst : (fifo ι φ).Step s l t) : Holding (tr ++ [l]) t := by
  obtain ⟨hheld, hmutex⟩ := h
  rcases step_cases hst with ⟨c, files, pc, -, hidle, he, rfl, hout⟩ | ⟨a, o, -, hf, rfl, hout⟩
  · have hpc := he.holds_eq_false
    have hcount := count_update Pc.holds s.pc l.input.proc pc
    rw [hidle, hpc] at hcount
    have hnone : (Pc.idle : Pc φ).holds = false := rfl
    rw [hnone] at hcount
    refine ⟨fun p ↦ ?_, by simp only; omega⟩
    rw [held_snoc, hheld, hout]
    by_cases hp : l.input.proc = p
    · subst hp
      simp [hidle, hpc, hnone, balance]
    · simp [hp, update_of_ne (Ne.symm hp)]
  · obtain ⟨hm, hb⟩ := hf.mutex
    have hcount := count_update Pc.holds s.pc l.input.proc o.next.pc
    refine ⟨fun p ↦ ?_, by simp only; omega⟩
    rw [held_snoc, hheld, hout, balance_append, balance_event, add_zero]
    by_cases hp : l.input.proc = p
    · subst hp
      simpa using hb
    · simp [hp, update_of_ne (Ne.symm hp)]

theorem holding_of_run {P : State ι φ → Label ι φ → Prop} {tr : List (Label ι φ)}
    {s : State ι φ} (h : (fifo ι φ).Run P tr s) : Holding tr s := by
  refine Run.induction (J := Holding) ?_ (fun _ _ _ _ _ hJ _ hst ↦ hJ.step hst) h
  rintro s ⟨data, -, rfl⟩
  exact ⟨fun p ↦ rfl, by rw [initial, count_const_false rfl]; rfl⟩

omit [DecidableEq φ] in
/-- At most one process holds the mutex. -/
theorem Holding.unique {tr : List (Label ι φ)} {s : State ι φ} (h : Holding tr s) {p q : ι}
    (hp : (s.pc p).holds = true) (hq : (s.pc q).holds = true) : p = q := by
  by_contra hne
  have := two_le_count hne hp hq
  have := h.mutex_add
  omega

omit [DecidableEq φ] in
/-- While a process holds the mutex, no other does. -/
theorem Holding.holds_eq_false_of_ne {tr : List (Label ι φ)} {s : State ι φ} (h : Holding tr s)
    {p q : ι} (hp : (s.pc p).holds = true) (hne : q ≠ p) : (s.pc q).holds = false := by
  by_contra hq
  exact hne (h.unique (Bool.eq_true_of_not_eq_false hq) hp)

omit [DecidableEq φ] in
/-- Nobody holds the mutex while it is free. -/
theorem Holding.holds_eq_false {tr : List (Label ι φ)} {s : State ι φ} (h : Holding tr s)
    (hm : 0 < s.drv.mutex) (p : ι) : (s.pc p).holds = false := by
  have := h.mutex_add
  exact count_eq_zero.mp (by omega) p

/-- A call that has returned holds nothing. -/
theorem idle_of_ret {s t : State ι φ} {l : Label ι φ} {f : Fn} {v : ℤ}
    (hst : (fifo ι φ).Step s l t) (hr : Event.ret f v ∈ l.output) :
    t.pc l.input.proc = .idle := by
  rcases step_cases hst with ⟨c, files, pc, -, -, -, -, hout⟩ | ⟨a, o, -, hf, rfl, hout⟩
  · simp [hout] at hr
  · rw [hout, List.mem_append] at hr
    rcases hr with hr | hr
    · exact absurd hr hf.ret_notMem
    · obtain ⟨f, v, hn, -⟩ := Next.mem_event.mp hr
      simp [hn]

/-- **Mutex discipline.**  At any time the semaphore and the processes between a
successful down of the mutex and the matching up add up to one.  So at most one
process is in a critical section; only a process that holds the mutex ups it; nobody
who waits at a down, of the mutex or of a queue, holds it; and no call returns with it,
on any of its paths. -/
theorem mutex_discipline {tr : List (Label ι φ)} {s : State ι φ}
    (h : (fifo ι φ).Run anyStep tr s) :
    s.drv.mutex + (Finset.univ.filter fun p ↦ held p tr = 1).card = 1 ∧
      (∀ p, held p tr = 0 ∨ held p tr = 1) ∧
      (∀ p q, held p tr = 1 → held q tr = 1 → p = q) ∧
      (∀ l t, (fifo ι φ).Step s l t → Event.up .mutex ∈ l.output →
        held l.input.proc tr = 1) ∧
      (∀ p sem, (s.pc p).awaits = some sem → held p tr = 0) ∧
      (∀ l t sem, (fifo ι φ).Step s l t →
        Event.down sem ∈ l.output ∨ Event.interrupted sem ∈ l.output →
          held l.input.proc tr = 0) ∧
      ∀ l t f v, (fifo ι φ).Step s l t → Event.ret f v ∈ l.output →
        held l.input.proc (tr ++ [l]) = 0 := by
  have hJ := holding_of_run h
  have hiff : ∀ p, held p tr = 1 ↔ (s.pc p).holds = true := fun p ↦ by
    rw [hJ.held_eq]
    cases (s.pc p).holds <;> simp
  have hfree : ∀ p sem, (s.pc p).awaits = some sem → held p tr = 0 := fun p sem hw ↦ by
    rw [hJ.held_eq, Pc.holds_of_awaits hw]
    rfl
  refine ⟨?_, fun p ↦ ?_, fun p q hp hq ↦ hJ.unique ((hiff p).mp hp) ((hiff q).mp hq), ?_,
    hfree, ?_, ?_⟩
  · rw [← hJ.mutex_add]
    simp only [count, hiff]
  · rw [hJ.held_eq]
    cases (s.pc p).holds <;> simp
  · intro l t hst hup
    rcases step_cases hst with ⟨c, files, pc, -, -, -, -, hout⟩ | ⟨a, o, -, hf, -, hout⟩
    · simp [hout] at hup
    · exact (hiff _).mpr (hf.holds_of_up (by simpa [hout] using hup))
  · intro l t sem hst hd
    rcases step_cases hst with ⟨c, files, pc, -, -, -, -, hout⟩ | ⟨a, o, -, hf, -, hout⟩
    · simp [hout] at hd
    · exact hfree _ sem (hf.awaits_of_down (by simpa [hout] using hd))
  · intro l t f v hst hr
    rw [(hJ.step hst).held_eq, idle_of_ret hst hr]
    rfl

end

/-- Process 1 is in the critical section of its write, process 0 at the mutex. -/
theorem mutex_discipline_meeting :
    ∃ (tr : List (Label (Fin 2) (Fin 2))) (s : State (Fin 2) (Fin 2)),
      (fifo (Fin 2) (Fin 2)).Run anyStep tr s ∧ (s.pc 0).awaits = some .mutex ∧
        s.drv.mutex + (Finset.univ.filter fun p ↦ held p tr = 1).card = 1 ∧ held 0 tr = 0 := by
  obtain ⟨tr, s, hr, hg⟩ := exists_run (ι := Fin 2) (φ := Fin 2) anyStep
    (meeting ++ writing 1 [7] ++ [go 0]) (fun s ↦ (s.pc 0).awaits = some .mutex) (by decide +kernel)
  have hw : (s.pc 0).awaits = some .mutex := by simpa using hg
  obtain ⟨hone, -, -, -, hfree, -, -⟩ := mutex_discipline hr
  exact ⟨tr, s, hr, hw, hone, hfree 0 _ hw⟩

end DsoFifo.Fifo
