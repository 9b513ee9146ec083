import Mathlib.Data.Fintype.Card
import Mathlib.Algebra.BigOperators.Ring.Finset

/-!
# Counting in a pool of processes

A pool is a family `f : ι → L` of local states, one for each process of a finite
type `ι`.  An interleaving step changes the local state of one process, so it acts
on the pool as `Function.update`, and every invariant that speaks about "the number
of processes at such and such a point" needs one fact: how that number changes when
one process moves.  `count_update` is that fact, stated additively so that `omega`
can use it without subtraction.
-/

universe u v w

namespace DsoFifo.Pool

open Finset

variable {ι : Type u} {L : Type v} [Fintype ι]

/-- The number of processes whose local state satisfies `P`. -/
def count (P : L → Bool) (f : ι → L) : ℕ := (univ.filter fun i ↦ P (f i) = true).card

/-- Counting as a sum of indicators. -/
theorem count_eq_sum (P : L → Bool) (f : ι → L) : count P f = ∑ i, (P (f i)).toNat := by
  rw [count, card_filter]
  refine sum_congr rfl fun i _ ↦ ?_
  cases P (f i) <;> rfl

/-- **One process moves.**  Its old local state is counted out, its new one in. -/
theorem count_update [DecidableEq ι] (P : L → Bool) (f : ι → L) (i : ι) (a : L) :
    count P (Function.update f i a) + (P (f i)).toNat = count P f + (P a).toNat := by
  rw [count_eq_sum, count_eq_sum, ← add_sum_erase univ _ (mem_univ i),
    ← add_sum_erase univ (fun j ↦ (P (f j)).toNat) (mem_univ i)]
  have hrest : ∑ j ∈ univ.erase i, (P (Function.update f i a j)).toNat =
      ∑ j ∈ univ.erase i, (P (f j)).toNat :=
    sum_congr rfl fun j hj ↦ by rw [Function.update_of_ne (ne_of_mem_erase hj)]
  rw [hrest, Function.update_self]
  omega

/-- A count, split into one process and the others; `z` stands for a process that is
not counted. -/
theorem count_eq_add [DecidableEq ι] {P : L → Bool} (f : ι → L) (i : ι) {z : L}
    (hz : P z = false) : count P f = count P (Function.update f i z) + (P (f i)).toNat := by
  have h := count_update P f i z
  rw [hz] at h
  simpa using h.symm

/-- A count is zero exactly when no process is counted. -/
theorem count_eq_zero {P : L → Bool} {f : ι → L} : count P f = 0 ↔ ∀ i, P (f i) = false := by
  simp [count, filter_eq_empty_iff]

theorem count_le_card (P : L → Bool) (f : ι → L) : count P f ≤ Fintype.card ι := card_filter_le ..

/-- Counting is monotone in the predicate, on the local states that occur. -/
theorem count_le_count {P Q : L → Bool} {f : ι → L} (h : ∀ i, P (f i) = true → Q (f i) = true) :
    count P f ≤ count Q f :=
  card_le_card fun i hi ↦ mem_filter.mpr ⟨mem_univ i, h i (mem_filter.mp hi).2⟩

/-- A pool in which nobody is counted. -/
theorem count_const_false {P : L → Bool} {a : L} (h : P a = false) :
    count P (fun _ : ι ↦ a) = 0 := count_eq_zero.mpr fun _ ↦ h

/-- Counting two exclusive predicates. -/
theorem count_or {P Q : L → Bool} (f : ι → L) (h : ∀ a, P a = true → Q a = false) :
    count (fun a ↦ P a || Q a) f = count P f + count Q f := by
  rw [count_eq_sum, count_eq_sum, count_eq_sum, ← sum_add_distrib]
  refine sum_congr rfl fun i _ ↦ ?_
  cases hP : P (f i) with
  | false => simp
  | true => simp [h _ hP]

/-- Two different counted processes make the count at least two. -/
theorem two_le_count [DecidableEq ι] {P : L → Bool} {f : ι → L} {i j : ι} (hij : i ≠ j)
    (hi : P (f i) = true) (hj : P (f j) = true) : 2 ≤ count P f := by
  rw [← card_pair hij]
  refine card_le_card fun k hk ↦ ?_
  rcases mem_insert.mp hk with rfl | hk
  · exact mem_filter.mpr ⟨mem_univ _, hi⟩
  · rw [mem_singleton.mp hk]
    exact mem_filter.mpr ⟨mem_univ _, hj⟩

/-- A sum over a pool, when one process has moved. -/
theorem sum_update {M : Type w} [AddCommMonoid M] [DecidableEq ι] (g : L → M) (f : ι → L) (i : ι)
    (a : L) :
    ∑ j, g (Function.update f i a j) = g a + ∑ j ∈ univ.erase i, g (f j) := by
  rw [← add_sum_erase univ _ (mem_univ i), Function.update_self]
  congr 1
  exact sum_congr rfl fun j hj ↦ by rw [Function.update_of_ne (ne_of_mem_erase hj)]

omit [Fintype ι] in
/-- What is true of everybody who stays and of the one who moves is true of everybody. -/
theorem rel_update [DecidableEq ι] {R : L → L → Prop} (hrefl : ∀ a, R a a)
    (f : ι → L) {i : ι} {a : L} (h : R (f i) a) (j : ι) : R (f j) (Function.update f i a j) := by
  by_cases hj : j = i
  · subst hj
    rwa [Function.update_self]
  · rw [Function.update_of_ne hj]
    exact hrefl _

end DsoFifo.Pool
