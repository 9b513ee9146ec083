import Mathlib.Data.List.TakeWhile

/-!
# Walking along a linked list

A loop over a linked list has a pointer to the node it is at, and when it may take nodes
out of the list it keeps a pointer to the next one, which it has read before.  `none` is
the pointer back to the head of the list.

`Cursor` says what the pointers of such a loop mean, the nodes behind it and the nodes
before it, and there is one lemma for each way to go on: the node stays (`Cursor.keep`) or
is taken out (`Cursor.erase`).
-/

universe u

namespace DsoFifo

variable {ν : Type u} [DecidableEq ν] {l visited rest : List ν} {n : ν} {elem aux : Option ν}

/-- The node after `n` in a list. -/
def next (l : List ν) (n : ν) : Option ν := (l.dropWhile (· ≠ n)).tail.head?

theorem next_append (h : n ∉ visited) : next (visited ++ n :: rest) n = rest.head? := by
  have hall : ∀ m ∈ visited, decide (m ≠ n) = true := fun m hm ↦
    decide_eq_true fun heq ↦ h (heq ▸ hm)
  rw [next, List.dropWhile_append_of_pos hall, List.dropWhile_cons_of_neg (by simp), List.tail_cons]

/-- The loop has left `visited` behind, is at the first node of `rest`, and has read which
one comes next. -/
structure Cursor (l visited rest : List ν) (elem aux : Option ν) : Prop where
  eq_append : l = visited ++ rest
  elem_eq : elem = rest.head?
  aux_eq : aux = rest.tail.head?

namespace Cursor

omit [DecidableEq ν] in
theorem notMem_visited (h : Cursor l visited (n :: rest) elem aux) (hl : l.Nodup) :
    n ∉ visited := fun hn ↦ by
  rw [h.eq_append] at hl
  exact (List.nodup_append.mp hl).2.2 n hn n List.mem_cons_self rfl

/-- A loop that has left `visited` behind can read its pointers. -/
theorem of_append (hl : l.Nodup) (heq : l = visited ++ rest) :
    Cursor l visited rest rest.head? (rest.head?.bind (next l)) where
  eq_append := heq
  elem_eq := rfl
  aux_eq := by
    cases rest with
    | nil => rfl
    | cons n rest =>
        have h : Cursor l visited (n :: rest) _ _ := ⟨heq, rfl, rfl⟩
        rw [heq]
        exact next_append (h.notMem_visited hl)

/-- The loop begins. -/
theorem start (hl : l.Nodup) : Cursor l [] l l.head? (l.head?.bind (next l)) :=
  of_append hl rfl

/-- The loop goes on, and the node stays. -/
theorem keep (h : Cursor l visited (n :: rest) elem aux) (hl : l.Nodup) :
    Cursor l (visited ++ [n]) rest aux (aux.bind (next l)) := by
  rw [h.aux_eq]
  exact of_append hl (by rw [h.eq_append, List.append_assoc, List.singleton_append])

/-- The loop goes on after the node was taken out of the list. -/
theorem erase (h : Cursor l visited (n :: rest) elem aux) (hl : l.Nodup) :
    Cursor (l.erase n) visited rest aux (aux.bind (next (l.erase n))) := by
  have hnot := h.notMem_visited hl
  rw [h.aux_eq]
  refine of_append (hl.erase n) ?_
  rw [h.eq_append, List.erase_append_right _ hnot, List.erase_cons_head]

omit [DecidableEq ν] in
/-- The node that the loop is at. -/
theorem exists_cons (h : Cursor l visited rest (some n) aux) : ∃ rest', rest = n :: rest' := by
  obtain ⟨rest', hrest⟩ := List.head?_eq_some_iff.mp h.elem_eq.symm
  exact ⟨rest', hrest⟩

omit [DecidableEq ν] in
/-- The node that the loop is at is in the list. -/
theorem mem (h : Cursor l visited rest (some n) aux) : n ∈ l := by
  obtain ⟨rest', rfl⟩ := h.exists_cons
  rw [h.eq_append]
  exact List.mem_append_right _ List.mem_cons_self

omit [DecidableEq ν] in
/-- The loop is at its end. -/
theorem eq_nil (h : Cursor l visited rest none aux) : rest = [] :=
  List.head?_eq_none_iff.mp h.elem_eq.symm

end Cursor

end DsoFifo
