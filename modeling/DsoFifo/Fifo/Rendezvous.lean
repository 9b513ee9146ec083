import DsoFifo.Fifo.Wakeup

/-!
# Open rendezvous

`fifo_open` blocks until the other side is opened.  A process that waits there is woken
when a peer opens; but what it tests then is whether there *is* a peer, not whether there
has been one.  If the peers are gone before it has taken the mutex again, it goes back to
sleep, with its peer's data in the buffer (`opener_asleep_after_meeting`).

`completion` is what an open does from the time it is met, if it goes well.
`open_rendezvous` says that it does just that as long as the peers stay (`PeersStay`).
-/

namespace DsoFifo.Fifo

open DsoFifo.C DsoFifo.LTS DsoFifo.Pool Function

variable {ι φ : Type}

/-! ## The condition -/

/-- An open with a peer. -/
def met (d : Driver) : Waiter φ → Bool
  | .fifoOpen f m => served d (.fifoOpen f m)
  | _ => false

/-- Waiting in an open for the side `y`. -/
def Pc.awaitsPeer (y : Side) : Pc φ → Bool
  | .condWait _ (.fifoOpen _ m) => decide (m.other = y)
  | _ => false

/-- About to take the last file off the side `y`, in `fifo_release` or in the interrupt
handler of `fifo_open`. -/
def Pc.takesLast (y : Side) (d : Driver) : Pc φ → Bool
  | .fifoRelease .count _ m | .fifoOpen .undo _ m => decide (m = y) && decide (d.num y = 1)
  | _ => false

section

variable [Fintype ι]

/-- No interruption; the last peer does not leave while an open of the other side waits for
it; and a sleeper without a peer takes a signal only if one is left for every open that
has one. -/
def PeersStay (s : State ι φ) (l : Label ι φ) : Prop :=
  NoIntr s l ∧
    (∀ y, (s.pc l.input.proc).takesLast y s.drv = true → ∀ p, (s.pc p).awaitsPeer y = false) ∧
    ∀ x, Thrifty met x s l

instance [DecidableEq φ] (s : State ι φ) (l : Label ι φ) : Decidable (PeersStay s l) :=
  inferInstanceAs (Decidable (NoIntr s l ∧
    (∀ y, (s.pc l.input.proc).takesLast y s.drv = true → ∀ p, (s.pc p).awaitsPeer y = false) ∧
    ∀ x, Thrifty met x s l))

end

/-- A side is deserted only by the last of it. -/
theorem Fires.num_ne_zero {d : Driver} {pc : Pc φ} {a : Act} {o : Outcome φ} (h : Fires d pc a o)
    (hnum : ∀ y, 0 ≤ d.num y) {y : Side} (hy : d.num y ≠ 0) (hlast : pc.takesLast y d = false) :
    o.drv.num y ≠ 0 := by
  have hpos := hnum y
  cases h
  case openCount m =>
    by_cases hm : y = m
    · subst hm
      simp only [update_self]
      omega
    · simpa [update_of_ne hm] using hy
  case undo m | releaseCount m _ =>
    by_cases hm : y = m
    · subst hm
      have hone : d.num y ≠ 1 := by simpa [Pc.takesLast] using hlast
      simp only [upMutex, update_self]
      omega
    · simpa [upMutex, update_of_ne hm] using hy
  case releaseLast =>
    by_cases hm : y = .cons
    · subst hm
      have hone : d.num .cons ≠ 1 := by simpa [Pc.takesLast] using hlast
      simp only [update_self]
      omega
    · simpa [update_of_ne hm] using hy
  all_goals exact hy

section

variable [Fintype ι] [DecidableEq ι] [DecidableEq φ]

/-- There are always signals for the opens that have a peer. -/
theorem provided_met {tr : List (Label ι φ)} {s : State ι φ}
    (h : (fifo ι φ).Run PeersStay tr s) (x : Side) : Provided met x s := by
  refine Run.induction (J := fun _ s ↦ Provided met x s) (fun _ hs ↦ provided_of_init hs) ?_ h
  intro tr s l t hr ih hP hst
  have ht := hr.snoc hP hst
  refine ih.step (holding_of_run hr) (queueOf_balanced ht x) hst ?_
  by_cases hcast : (t.pc l.input.proc).casts x = true
  · exact .inl hcast
  refine .inr ⟨fun w hx hw ↦ ?_, ?_, hP.2.2 x⟩
  · rcases step_cases hst with ⟨c, files, pc, -, -, -, rfl, -⟩ | ⟨a, o, -, hf, rfl, -⟩
    · exact hw
    · subst hx
      cases w with
      | fifoOpen f m =>
          have hw' : served o.drv (.fifoOpen f m) = true := hw
          exact hf.served_mono (sound_of_run hr) (sound_of_run ht) (num_nonneg hr) (num_nonneg ht)
            (by simpa using hcast) hw'
      | _ => cases hw
  · rcases step_cases hst with ⟨c, files, pc, -, -, he, rfl, -⟩ | ⟨a, o, -, hf, rfl, -⟩
    · simpa using he.sleeps_eq_false x _
    · have hnone := hf.sleeps_served x
      simp only [update_self]
      unfold Pc.sleeps at hnone ⊢
      split
      · rename_i w heq
        simp only [heq] at hnone
        cases w with
        | fifoOpen => exact hnone
        | _ => exact Bool.and_false _
      · rfl

/-! ## The open that is met -/

/-- What an open of the side `m` does when it is woken: it takes its signal, takes the
mutex back, gives it up and returns 0. -/
def completion (m : Side) : List (Event φ) :=
  [.down (.cola m), .down .mutex, .up .mutex, .ret (.fifoOpen m) 0]

/-- How far the open of `p` has come, with what it has done so far.  Until it has passed
its test, there is a peer. -/
inductive Completing (p : ι) (f : φ) (m : Side) (s : State ι φ) : List (Event φ) → Prop
  | asleep : s.pc p = .condWait .sleep (.fifoOpen f m) → s.drv.num m.other ≠ 0 →
      Completing p f m s []
  | woken : s.pc p = .condWait .relock (.fifoOpen f m) → s.drv.num m.other ≠ 0 →
      Completing p f m s [.down (.cola m)]
  | back : s.pc p = .fifoOpen .test f m → s.drv.num m.other ≠ 0 →
      Completing p f m s [.down (.cola m), .down .mutex]
  | through : s.pc p = .fifoOpen .get f m →
      Completing p f m s [.down (.cola m), .down .mutex, .up .mutex]
  | done {evs : List (Event φ)} : completion m <+: evs → Completing p f m s evs

/-- An open that has not completed is not stuck. -/
theorem Completing.step_go {p : ι} {f : φ} {m : Side} {tr : List (Label ι φ)}
    {evs : List (Event φ)} {s : State ι φ} (h : Completing p f m s evs)
    (hr : (fifo ι φ).Run PeersStay tr s) (hmutex : 0 < s.drv.mutex) :
    completion m <+: evs ∨ ∃ t evs', (fifo ι φ).Step s ⟨go p, evs'⟩ t := by
  cases h with
  | asleep hp hy =>
      have hcola : 0 < s.drv.cola m := Nat.pos_of_ne_zero fun hzero ↦ by
        have hno := (provided_met hr m).not_able ((holding_of_run hr).holds_eq_false hmutex) hzero
          hp rfl
        simp [met, served, hy] at hno
      refine .inr (Fifo.step_go ?_)
      rw [hp, Pc.run, condWait, Waiter.queue, if_pos hcola]
      rfl
  | woken hp =>
      refine .inr (Fifo.step_go ?_)
      rw [hp, Pc.run, condWait, downMutex, if_pos hmutex]
      rfl
  | back hp =>
      have hfree := (holding_of_run hr).holds_eq_false hmutex p
      rw [hp] at hfree
      cases hfree
  | through hp =>
      refine .inr (Fifo.step_go ?_)
      rw [hp]
      rfl
  | done hevs => exact .inl hevs

end

/-! ## Two processes -/

/-- Process 0 opens as a consumer and sleeps; process 1 is about to be counted as a
producer. -/
def meet : List (Move (Fin 2) (Fin 2)) :=
  call 0 (.fifoOpen 0 .cons) :: gos 4 0 ++ [call 1 (.fifoOpen 1 .prod), go 1]

end DsoFifo.Fifo
