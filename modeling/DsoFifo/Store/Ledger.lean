import Mathlib.Algebra.BigOperators.Group.Finset.Basic
import Mathlib.Algebra.Order.BigOperators.Group.Finset
import Mathlib.Data.Fintype.BigOperators
import Mathlib.Data.List.Count

/-!
# Who has which node

Nodes are allocated, handed from one owner to another and freed.  The owners are a shared
list and the processes of a pool, each with a list of its own.

`Ledger` is the account: a node that is allocated is in one of the lists, and there once;
one that is not is in none.  Each of the steps that processes take keeps it, by one
equation between counts.
-/

universe u v

namespace DsoFifo

open Function Finset

variable {ι : Type u} {ν : Type v} [Fintype ι] [DecidableEq ν]

/-- The account of the nodes: `live` are allocated, `shared` are in the shared list, and
`own p` in the hands of `p`. -/
def Ledger (live : ν → Bool) (shared : List ν) (own : ι → List ν) : Prop :=
  ∀ n, shared.count n + ∑ p, (own p).count n = (live n).toNat

namespace Ledger

variable {live live' : ν → Bool} {shared shared' : List ν} {own : ι → List ν} {n : ν} {p q : ι}
  {a : List ν}

theorem empty : Ledger (fun _ : ν ↦ false) [] fun _ : ι ↦ [] := fun n ↦ by simp

/-! ## Steps -/

section

variable [DecidableEq ι]

/-- What one process owns changes. -/
theorem sum_update (own : ι → List ν) (p : ι) (a : List ν) (n : ν) :
    ∑ q, (update own p a q).count n + (own p).count n = ∑ q, (own q).count n + a.count n := by
  rw [← add_sum_erase univ (fun q ↦ (update own p a q).count n) (mem_univ p),
    ← add_sum_erase univ (fun q ↦ (own q).count n) (mem_univ p)]
  have hrest : ∑ q ∈ univ.erase p, (update own p a q).count n = ∑ q ∈ univ.erase p, (own q).count n :=
    sum_congr rfl fun q hq ↦ by rw [update_of_ne (ne_of_mem_erase hq)]
  rw [hrest, update_self]
  omega

/-- **A step**: what is counted in is counted out. -/
theorem step (h : Ledger live shared own)
    (hstep : ∀ n, shared'.count n + a.count n + (live n).toNat =
      shared.count n + (own p).count n + (live' n).toNat) :
    Ledger live' shared' (update own p a) := fun n ↦ by
  have hsum := sum_update own p a n
  have hn := h n
  have hsn := hstep n
  omega

/-- Nodes are handed from the shared list to a process, or the other way. -/
theorem hand (h : Ledger live shared own) (hperm : (shared' ++ a).Perm (shared ++ own p)) :
    Ledger live shared' (update own p a) :=
  h.step fun n ↦ by
    have hn := hperm.count_eq n
    rw [List.count_append, List.count_append] at hn
    omega

/-- A node is allocated. -/
theorem alloc (h : Ledger live shared own) (hn : live n = false) :
    Ledger (update live n true) shared (update own p (n :: own p)) :=
  h.step fun m ↦ by
    by_cases hm : m = n
    · subst hm
      simp [hn]
      omega
    · simp [hm, Ne.symm hm]

/-- A node is freed. -/
theorem release (h : Ledger live shared own) (hn : live n = true)
    (hperm : (n :: a).Perm (own p)) : Ledger (update live n false) shared (update own p a) :=
  h.step fun m ↦ by
    rw [← hperm.count_eq m]
    by_cases hm : m = n
    · subst hm
      simp [hn]
      omega
    · simp [hm, Ne.symm hm]

end

/-! ## What the account says -/

/-- A process is one of those that are counted. -/
theorem count_own_le (own : ι → List ν) (p : ι) (n : ν) :
    (own p).count n ≤ ∑ q, (own q).count n :=
  single_le_sum (f := fun q ↦ (own q).count n) (fun _ _ ↦ Nat.zero_le _) (mem_univ p)

theorem nodup_shared (h : Ledger live shared own) : shared.Nodup :=
  List.nodup_iff_count_le_one.mpr fun n ↦ by
    have hn := h n
    have hle := Bool.toNat_le (live n)
    omega

theorem nodup_own (h : Ledger live shared own) (p : ι) : (own p).Nodup :=
  List.nodup_iff_count_le_one.mpr fun n ↦ by
    have hn := h n
    have hle := Bool.toNat_le (live n)
    have hp := count_own_le own p n
    omega

theorem live_of_mem_shared (h : Ledger live shared own) (hn : n ∈ shared) : live n = true := by
  have hcount := List.count_pos_iff.mpr hn
  have hacc := h n
  cases hl : live n with
  | true => rfl
  | false =>
      rw [hl, Bool.toNat_false] at hacc
      omega

theorem live_of_mem_own (h : Ledger live shared own) (hn : n ∈ own p) : live n = true := by
  have hcount := List.count_pos_iff.mpr hn
  have hle := count_own_le own p n
  have hacc := h n
  cases hl : live n with
  | true => rfl
  | false =>
      rw [hl, Bool.toNat_false] at hacc
      omega

/-- What a process owns is not in the shared list. -/
theorem notMem_shared (h : Ledger live shared own) (hn : n ∈ own p) : n ∉ shared := fun hs ↦ by
  have hshared := List.count_pos_iff.mpr hs
  have hown := List.count_pos_iff.mpr hn
  have hle := count_own_le own p n
  have hacc := h n
  have hlive := Bool.toNat_le (live n)
  omega

/-- Two processes do not own the same node. -/
theorem eq_of_mem_own [DecidableEq ι] (h : Ledger live shared own) (hp : n ∈ own p)
    (hq : n ∈ own q) : p = q := by
  by_contra hpq
  have hcp := List.count_pos_iff.mpr hp
  have hcq := List.count_pos_iff.mpr hq
  have hacc := h n
  have hlive := Bool.toNat_le (live n)
  have hsum := sum_update own p [] n
  have hle := count_own_le (update own p []) q n
  rw [update_of_ne (Ne.symm hpq)] at hle
  rw [List.count_nil] at hsum
  omega

end Ledger

end DsoFifo
