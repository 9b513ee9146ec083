import DsoFifo.Fifo.Queues

/-!
# The broadcast loops

`while (num_bloq_x) { num_bloq_x--; up(cola_x); }` is executed with the mutex held, so
nobody else changes the counter meanwhile and the loop takes it down to zero, one
signal for each process counted — provided that the counter is not negative when the
loop begins.

It can be.  A process whose sleep is interrupted takes itself off the counter only when
it has the mutex again; a broadcast that comes first has already taken it off, and the
second time the counter goes from 0 to -1 (`numBloq_cons_neg`).  The signal sent to the
process that was leaving stays pending.  `Unraced` excludes just that: signals without a
sleeper to take them.
-/

namespace DsoFifo.Fifo

open DsoFifo.LTS DsoFifo.Pool Function

variable {ι φ : Type}

/-! ## Races -/

/-- The queue on which a step needs a sleeper who has no signal yet: a signal is meant
for one, and an interruption strikes one. -/
def Pc.needsSleeper (d : Driver) : Pc φ → Choice φ → Option Side
  | .broadcast b, .act .go => if d.numBloq b.queue ≠ 0 then some b.queue else none
  | .condWait .sleep w, .act .intr => some w.queue
  | _, _ => none

/-- A signal is sent, and a sleeper interrupted, only while the queue has more sleepers
than pending signals. -/
def Unraced [Fintype ι] (s : State ι φ) (l : Label ι φ) : Prop :=
  ∀ x ∈ (s.pc l.input.proc).needsSleeper s.drv l.input.choice,
    s.drv.cola x < count (Pc.asleep x) s.pc

instance [Fintype ι] (s : State ι φ) (l : Label ι φ) : Decidable (Unraced s l) :=
  inferInstanceAs (Decidable (∀ x ∈ (s.pc l.input.proc).needsSleeper s.drv l.input.choice,
    s.drv.cola x < count (Pc.asleep x) s.pc))

/-- The signals and the interruptions among the operations on a queue come from the
steps that need a sleeper there. -/
theorem Fires.needsSleeper {d : Driver} {pc : Pc φ} {a : Act} {o : Outcome φ}
    (h : Fires d pc a o) {x : Side}
    (hop : CondQueue.Op.signal ∈ condOps x o.events ∨ .interrupt ∈ condOps x o.events) :
    pc.needsSleeper d (.act a) = some x := by
  cases h
  case signal b hb =>
    obtain rfl : b.queue = x := by simpa [condOps] using hop
    simp [Pc.needsSleeper, hb]
  case sleepIntr w =>
    obtain rfl : w.queue = x := by simpa [condOps] using hop
    rfl
  all_goals simp [condOps, enterWait] at hop

section

variable [Fintype ι] [DecidableEq ι] [DecidableEq φ]

/-- In a run without races the counters are not negative. -/
theorem numBloq_nonneg {tr : List (Label ι φ)} {s : State ι φ}
    (h : (fifo ι φ).Run Unraced tr s) (x : Side) : 0 ≤ s.drv.numBloq x := by
  refine CondQueue.count_nonneg_of_run (q := queueOf x s)
    (queueOf_run (fun s l t hst hP op hop ↦ ?_) h)
  rcases step_cases hst with ⟨c, files, pc, -, -, -, -, hout⟩ | ⟨a, o, ha, hf, -, hout⟩
  · simp [hout, condOps] at hop
  · rw [hout, condOps_append, condOps_event, List.append_nil] at hop
    cases op with
    | signal => exact hP x (by rw [ha]; exact hf.needsSleeper (.inl hop))
    | interrupt => exact hP x (by rw [ha]; exact hf.needsSleeper (.inr hop))
    | _ => trivial

/-! ## Loops -/

/-- The iterations of the broadcast loop of `p` along `tr`. -/
def iterations (p : ι) (b : Caster φ) (tr : List (Label ι φ)) : ℕ :=
  (eventsOf p tr).count (.up (.cola b.queue))

/-- The steps of `p` along `tr`. -/
def turns (p : ι) (tr : List (Label ι φ)) : ℕ := tr.countP fun l ↦ l.input.proc = p

/-- How far `p` is with its broadcast loop, at the end of `tr`, when the counter was
`n` at the start: still in it, with every step an iteration and the others to come, or
just out of it, with one iteration for each process counted. -/
def LoopAt (p : ι) (b : Caster φ) (n : ℤ) (tr : List (Label ι φ)) (t : State ι φ) : Prop :=
  (t.pc p = .broadcast b ∧ turns p tr = iterations p b tr ∧ 0 ≤ t.drv.numBloq b.queue ∧
      (iterations p b tr : ℤ) + t.drv.numBloq b.queue = n) ∨
    (t.pc p = b.next ∧ turns p tr = iterations p b tr + 1 ∧ (iterations p b tr : ℤ) = n)

/-- One step of anybody while `p` is in its loop: the others do not touch the counter,
and `p` takes one off it or, when there is none left, ends the loop. -/
theorem LoopAt.snoc {tr₀ tr : List (Label ι φ)} {s t : State ι φ} {l : Label ι φ} {p : ι}
    {b : Caster φ} {n : ℤ} (hJ : Holding tr₀ s) (h : LoopAt p b n tr s)
    (hp : s.pc p = .broadcast b) (hst : (fifo ι φ).Step s l t) : LoopAt p b n (tr ++ [l]) t := by
  have hnext : b.next ≠ .broadcast b := by cases b <;> simp [Caster.next]
  obtain ⟨-, hturns, hpos, hn⟩ := h.resolve_right fun hend ↦ hnext (hend.1.symm.trans hp)
  have hits : iterations p b (tr ++ [l]) = iterations p b tr +
      (if l.input.proc = p then l.output else []).count (.up (.cola b.queue)) := by
    rw [iterations, eventsOf_snoc, List.count_append]
    rfl
  by_cases hlp : l.input.proc = p
  · subst hlp
    have hturn : turns l.input.proc (tr ++ [l]) = turns l.input.proc tr + 1 := by simp [turns]
    rcases step_cases hst with ⟨c, files, pc, -, hidle, -⟩ | ⟨a, o, -, hf, rfl, hout⟩
    · rw [hp] at hidle
      cases hidle
    · rw [LoopAt, hturn, hits, if_pos rfl, hout]
      rw [hp] at hf
      cases hf with
      | signal hb =>
          refine .inl ⟨by simp, by simp [Next.event, hturns], ?_, ?_⟩
          · simp only [update_self]; omega
          · simp only [update_self, Next.event, List.append_nil, List.count_singleton_self]
            push_cast
            omega
      | castEnd hb =>
          refine .inr ⟨by simp, by simp [Next.event, hturns], ?_⟩
          simp only [Next.event, List.append_nil, List.count_nil, add_zero]
          omega
  · have hne : p ≠ l.input.proc := Ne.symm hlp
    have hturn : turns p (tr ++ [l]) = turns p tr := by simp [turns, hlp]
    rw [if_neg hlp, List.count_nil, add_zero] at hits
    rw [LoopAt, hturn, hits]
    rcases step_cases hst with ⟨c, files, pc, -, -, -, rfl, -⟩ | ⟨a, o, -, hf, rfl, -⟩
    · exact .inl ⟨by simpa [update_of_ne hne] using hp, hturns, hpos, hn⟩
    · have hholds : (s.pc p).holds = true := by rw [hp]; rfl
      obtain ⟨-, hbloq, -⟩ := hf.frame (hJ.holds_eq_false_of_ne hholds hlp)
      exact .inl ⟨by simpa [update_of_ne hne] using hp, hturns, by simpa [hbloq] using hpos,
        by simpa [hbloq] using hn⟩

/-- A loop that begins with a counter that is not negative. -/
theorem loopAt_of_path {P : State ι φ → Label ι φ → Prop} {tr tr' : List (Label ι φ)}
    {s t : State ι φ} {p : ι} {b : Caster φ} (h : (fifo ι φ).Run P tr s)
    (hp : s.pc p = .broadcast b) (hpos : 0 ≤ s.drv.numBloq b.queue)
    (hpath : (fifo ι φ).Path (fun u _ ↦ u.pc p = .broadcast b) s tr' t) :
    LoopAt p b (s.drv.numBloq b.queue) tr' t := by
  induction hpath with
  | nil => exact .inl ⟨hp, rfl, hpos, by simp [iterations]⟩
  | snoc hpath hloop hst ih =>
      have hrun := h.free.append (hpath.mono fun _ _ _ ↦ trivial)
      exact ih.snoc (holding_of_run hrun) hloop hst

/-- A process in a broadcast loop can always go on. -/
theorem step_broadcast {s : State ι φ} {p : ι} {b : Caster φ} (hp : s.pc p = .broadcast b) :
    ∃ t evs, (fifo ι φ).Step s ⟨go p, evs⟩ t := by
  refine step_go ?_
  simp only [hp, Pc.run, broadcast]
  split <;> rfl

/-- **The blocked counters count.**  In a run in which every signal and every
interruption finds a sleeper without a signal, the counters are never negative, and
every broadcast loop ends after as many iterations as processes were counted: while it
goes on, every step of its process is an iteration, there are no more of them than
that, and the next step is possible; when it is over, there were just that many. -/
theorem broadcast_ends {tr : List (Label ι φ)} {s : State ι φ}
    (h : (fifo ι φ).Run Unraced tr s) :
    (∀ x, 0 ≤ s.drv.numBloq x) ∧
      ∀ p b tr' t, s.pc p = .broadcast b →
        (fifo ι φ).Path (fun u _ ↦ u.pc p = .broadcast b) s tr' t →
        (t.pc p = .broadcast b ∧ turns p tr' = iterations p b tr' ∧
            (iterations p b tr' : ℤ) ≤ s.drv.numBloq b.queue ∧
            ∃ u evs, (fifo ι φ).Step t ⟨go p, evs⟩ u) ∨
          (t.pc p = b.next ∧ turns p tr' = iterations p b tr' + 1 ∧
            (iterations p b tr' : ℤ) = s.drv.numBloq b.queue) := by
  refine ⟨numBloq_nonneg h, fun p b tr' t hp hpath ↦ ?_⟩
  rcases loopAt_of_path h hp (numBloq_nonneg h _) hpath with ⟨hpc, hturns, hpos, hn⟩ | hend
  · exact .inl ⟨hpc, hturns, by omega, step_broadcast hpc⟩
  · exact .inr hend

end

/-- Process 1 is about to wake process 0, which sleeps in its open. -/
theorem broadcast_ends_meeting :
    ∃ (tr : List (Label (Fin 2) (Fin 2))) (s : State (Fin 2) (Fin 2)),
      (fifo (Fin 2) (Fin 2)).Run Unraced tr s ∧ s.pc 1 = .broadcast (.fifoOpen 1 .prod) ∧
        s.drv.numBloq .cons = 1 ∧ 0 ≤ s.drv.numBloq .cons := by
  obtain ⟨tr, s, hr, hg⟩ := exists_run (ι := Fin 2) (φ := Fin 2) Unraced
    (call 0 (.fifoOpen 0 .cons) :: gos 4 0 ++ call 1 (.fifoOpen 1 .prod) :: gos 2 1)
    (fun s ↦ s.pc 1 = .broadcast (.fifoOpen 1 .prod) && s.drv.numBloq .cons = 1)
    (by decide +kernel)
  simp only [Bool.and_eq_true, decide_eq_true_eq] at hg
  exact ⟨tr, s, hr, hg.1, hg.2, (broadcast_ends hr).1 .cons⟩

/-- **A counter goes negative.**  Process 0 sleeps in its open and is interrupted; before
it has the mutex, process 1 opens the other side and broadcasts. -/
theorem numBloq_cons_neg :
    ∃ (tr : List (Label (Fin 2) (Fin 2))) (s : State (Fin 2) (Fin 2)),
      (fifo (Fin 2) (Fin 2)).Run Blocking tr s ∧ s.drv.numBloq .cons < 0 := by
  obtain ⟨tr, s, hr, hg⟩ := exists_run (ι := Fin 2) (φ := Fin 2) Blocking
    (call 0 (.fifoOpen 0 .cons) :: gos 4 0 ++ intr 0 :: call 1 (.fifoOpen 1 .prod) :: gos 5 1 ++
      gos 2 0)
    (fun s ↦ s.drv.numBloq .cons < 0) (by decide +kernel)
  exact ⟨tr, s, hr, of_decide_eq_true hg⟩

end DsoFifo.Fifo
