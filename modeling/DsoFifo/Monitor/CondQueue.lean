import DsoFifo.Transition.LTS
import Mathlib.Tactic.Linarith

/-!
# A condition queue made of a counter and a counting semaphore

A condition variable can be emulated with a counting semaphore and a counter of the
processes that went to sleep on it.  A waiter adds itself to the counter and then
downs the semaphore; a signaller takes one waiter off the counter and ups the
semaphore; a waiter that is interrupted in its down takes *itself* off the counter,
but only later, when it has the lock again.

This file is about that pattern alone.  `CondQueue` is what an observer who knows
nothing of the processes can see of one such queue, and `condQueue` is its
transition system.

* `balanced_of_run`: waiters are accounted for, always — those who have neither
  taken a signal nor withdrawn are as many as the counter plus the pending signals.
* `leaving_le_count_of_run`: the counter is *not* a count of anybody once a signal
  is pending that no sleeper is left to take.  `Unraced` says that this is not let
  happen, and then the counter covers the leaving waiters, so it never goes below
  zero.
-/

namespace DsoFifo

/-- One condition queue, as seen from outside. -/
@[ext]
structure CondQueue where
  /-- Waiters at the down of the semaphore. -/
  asleep : ℕ
  /-- Waiters whose down was interrupted and who have not withdrawn yet. -/
  leaving : ℕ
  /-- The counter. -/
  count : ℤ
  /-- The pending signals: the semaphore's value. -/
  sem : ℕ

namespace CondQueue

/-- What can happen to a condition queue. -/
inductive Op where
  | wait
  | take
  | interrupt
  | withdraw
  | signal
deriving DecidableEq, Repr

/-- The steps of a condition queue. -/
inductive Step : CondQueue → Op → CondQueue → Prop
  | /-- A process adds itself to the counter and goes to sleep. -/
    wait {n l : ℕ} {c : ℤ} {k : ℕ} : Step ⟨n, l, c, k⟩ .wait ⟨n + 1, l, c + 1, k⟩
  | /-- A sleeper takes a pending signal. -/
    take {n l : ℕ} {c : ℤ} {k : ℕ} : Step ⟨n + 1, l, c, k + 1⟩ .take ⟨n, l, c, k⟩
  | /-- A sleeper is interrupted. -/
    interrupt {n l : ℕ} {c : ℤ} {k : ℕ} : Step ⟨n + 1, l, c, k⟩ .interrupt ⟨n, l + 1, c, k⟩
  | /-- An interrupted sleeper takes itself off the counter. -/
    withdraw {n l : ℕ} {c : ℤ} {k : ℕ} : Step ⟨n, l + 1, c, k⟩ .withdraw ⟨n, l, c - 1, k⟩
  | /-- One waiter is taken off a counter that is not zero, and a signal is sent. -/
    signal {n l : ℕ} {c : ℤ} {k : ℕ} : c ≠ 0 → Step ⟨n, l, c, k⟩ .signal ⟨n, l, c - 1, k + 1⟩

end CondQueue

/-- The transition system of one condition queue, empty at first. -/
def condQueue : LTS CondQueue CondQueue.Op where
  Init q := q = ⟨0, 0, 0, 0⟩
  Step := CondQueue.Step

namespace CondQueue

open DsoFifo.LTS

/-! ## Accounting -/

/-- Every waiter who has neither taken a signal nor withdrawn is on the counter or
has a signal pending. -/
def Balanced (q : CondQueue) : Prop := (q.asleep + q.leaving : ℤ) = q.count + q.sem

theorem Step.balanced {q q' : CondQueue} {o : Op} (h : Step q o q') (hq : Balanced q) :
    Balanced q' := by
  cases h <;> simp only [Balanced, Nat.cast_add, Nat.cast_one] at hq ⊢ <;> linarith

/-- **Accounting.**  Along every run the waiters are balanced. -/
theorem balanced_of_run {P : CondQueue → Op → Prop} {tr : List Op} {q : CondQueue}
    (h : condQueue.Run P tr q) : Balanced q :=
  Run.invariant (I := Balanced) (fun q hq ↦ by rw [show q = _ from hq]; rfl)
    (fun _ _ _ hq _ hst ↦ Step.balanced hst hq) h

/-! ## When the counter counts -/

/-- The queue is not raced: a signal is sent, and a sleeper is interrupted, only
while there is a sleeper that no pending signal is meant for. -/
def Unraced (q : CondQueue) : Op → Prop
  | .signal | .interrupt => q.sem < q.asleep
  | _ => True

theorem Step.leaving_le_count {q q' : CondQueue} {o : Op} (h : Step q o q') (hb : Balanced q)
    (hu : Unraced q o) (hq : (q.leaving : ℤ) ≤ q.count) : (q'.leaving : ℤ) ≤ q'.count := by
  cases h with
  | wait => simp only at hq ⊢; omega
  | take => exact hq
  | interrupt =>
      -- by balance, a sleeper without a signal is one that the counter covers
      simp only [Balanced, Unraced] at hb hu ⊢
      omega
  | withdraw => simp only at hq ⊢; omega
  | signal hc =>
      simp only [Balanced, Unraced] at hb hu ⊢
      omega

/-- **The counter counts.**  In a run that is never raced the counter covers the
leaving waiters; in particular it is never negative. -/
theorem leaving_le_count_of_run {tr : List Op} {q : CondQueue}
    (h : condQueue.Run Unraced tr q) : (q.leaving : ℤ) ≤ q.count := by
  refine Run.induction (J := fun _ q ↦ (q.leaving : ℤ) ≤ q.count) ?_ ?_ h
  · intro q hq
    rw [show q = _ from hq]
    exact le_refl _
  · intro tr q o q' hr ih hu hst
    exact Step.leaving_le_count hst (balanced_of_run hr) hu ih

theorem count_nonneg_of_run {tr : List Op} {q : CondQueue} (h : condQueue.Run Unraced tr q) :
    0 ≤ q.count := le_trans (Int.natCast_nonneg _) (leaving_le_count_of_run h)

end CondQueue

end DsoFifo
