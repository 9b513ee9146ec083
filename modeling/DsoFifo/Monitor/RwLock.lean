import DsoFifo.Transition.Pool

/-!
# Locks with shared and exclusive holders

A lock that one process can hold exclusively or several can share, and does not know
who they are.  A spin lock is one that is never shared.

`Guards` says that the lock counts its holders.  Every acquisition and release keeps it,
and it excludes everybody else while somebody is the exclusive holder
(`Guards.eq_none`).
-/

universe u

namespace DsoFifo

open Function

/-- The ways to hold the lock. -/
inductive Mode where
  | exclusive
  | shared
deriving DecidableEq, Repr

/-- What the lock knows. -/
structure RwLock where
  writer : Bool
  readers : ℕ
deriving DecidableEq, Repr

namespace RwLock

/-- Nobody holds the lock. -/
def free : RwLock := { writer := false, readers := 0 }

/-- Take the lock; `none` while it has to be waited for. -/
def acquire (lock : RwLock) : Mode → Option RwLock
  | .exclusive =>
    if lock.writer = false ∧ lock.readers = 0 then some { lock with writer := true } else none
  | .shared =>
    if lock.writer = false then some { lock with readers := lock.readers + 1 } else none

/-- Give the lock back. -/
def release (lock : RwLock) : Mode → RwLock
  | .exclusive => { lock with writer := false }
  | .shared => { lock with readers := lock.readers - 1 }

variable {ι : Type u} [Fintype ι]

/-- The lock is held as `holds` says. -/
structure Guards (holds : ι → Option Mode) (lock : RwLock) : Prop where
  writer_eq : Pool.count (· = some .exclusive) holds = lock.writer.toNat
  readers_eq : Pool.count (· = some .shared) holds = lock.readers
  not_both : lock.writer = true → lock.readers = 0

theorem guards_free : Guards (fun _ : ι ↦ none) free where
  writer_eq := Pool.count_const_false rfl
  readers_eq := Pool.count_const_false rfl
  not_both := fun h ↦ absurd h (by decide)

variable [DecidableEq ι] {holds : ι → Option Mode} {lock lock' : RwLock} {m : Mode} {p q : ι}

/-- The lock is taken. -/
theorem Guards.acquire (h : Guards holds lock) (hp : holds p = none)
    (hl : lock.acquire m = some lock') : Guards (update holds p (some m)) lock' := by
  have hx := Pool.count_update (· = some Mode.exclusive) holds p (some m)
  have hs := Pool.count_update (· = some Mode.shared) holds p (some m)
  obtain ⟨hwriter, hreaders, hboth⟩ := h
  simp only [hp] at hx hs
  cases m with
  | exclusive =>
      obtain ⟨⟨hfree, hnone⟩, rfl⟩ := by simpa [RwLock.acquire] using hl
      refine ⟨?_, ?_, fun _ ↦ hnone⟩
      · simpa [hwriter, hfree] using hx
      · simpa [hreaders] using hs
  | shared =>
      obtain ⟨hfree, rfl⟩ := by simpa [RwLock.acquire] using hl
      refine ⟨?_, ?_, fun hw ↦ absurd hw (by simp [hfree])⟩
      · simpa [hwriter] using hx
      · simpa [hreaders] using hs

omit [DecidableEq ι] in
/-- The lock is not taken from an exclusive holder. -/
theorem Guards.ne_exclusive (h : Guards holds lock) (hl : lock.acquire m = some lock') (p : ι) :
    holds p ≠ some .exclusive := fun hp ↦ by
  have hfree : lock.writer = false := by
    cases m with
    | exclusive =>
        obtain ⟨⟨hfree, -⟩, -⟩ := by simpa [RwLock.acquire] using hl
        exact hfree
    | shared =>
        obtain ⟨hfree, -⟩ := by simpa [RwLock.acquire] using hl
        exact hfree
  have hnone := h.writer_eq
  rw [hfree, Bool.toNat_false, Pool.count_eq_zero] at hnone
  simpa [hp] using hnone p

/-- The lock is given back. -/
theorem Guards.release (h : Guards holds lock) (hp : holds p = some m) :
    Guards (update holds p none) (lock.release m) := by
  have hx := Pool.count_update (· = some Mode.exclusive) holds p none
  have hs := Pool.count_update (· = some Mode.shared) holds p none
  obtain ⟨hwriter, hreaders, hboth⟩ := h
  simp only [hp, hwriter, hreaders] at hx hs
  cases m with
  | exclusive =>
      refine ⟨?_, ?_, fun hw ↦ absurd hw (by simp [RwLock.release])⟩
      · have hle := Bool.toNat_le lock.writer
        simp only [decide_true, Bool.toNat_true, reduceCtorEq, decide_false, Bool.toNat_false] at hx
        simp only [RwLock.release, Bool.toNat_false]
        omega
      · simpa [RwLock.release] using hs
  | shared =>
      simp only [decide_true, Bool.toNat_true, reduceCtorEq, decide_false, Bool.toNat_false] at hs
      refine ⟨?_, ?_, fun hw ↦ ?_⟩
      · simpa [RwLock.release] using hx
      · simp only [RwLock.release]
        omega
      · simp only [RwLock.release, hboth hw]

/-- **Exclusion.** -/
theorem Guards.eq_none (h : Guards holds lock) (hp : holds p = some .exclusive) (hq : q ≠ p) :
    holds q = none := by
  obtain ⟨hwriter, hreaders, hboth⟩ := h
  have hw : lock.writer = true := by
    by_contra hw
    rw [Bool.not_eq_true] at hw
    rw [hw, Bool.toNat_false, Pool.count_eq_zero] at hwriter
    simpa [hp] using hwriter p
  cases hmode : holds q with
  | none => rfl
  | some m =>
    cases m with
    | exclusive =>
        have htwo : 2 ≤ Pool.count (· = some Mode.exclusive) holds :=
          Pool.two_le_count hq (by simp [hmode]) (by simp [hp])
        have hle := Bool.toNat_le lock.writer
        omega
    | shared =>
        rw [hboth hw, Pool.count_eq_zero] at hreaders
        simpa [hmode] using hreaders q

end RwLock

end DsoFifo
