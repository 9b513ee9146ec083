import Mathlib.Data.List.DropRight

/-!
# A queue that forgets its oldest items

A queue with room for `m` items that never refuses one: `push` adds a block at the
end and keeps the last `m` items of what there is then.
-/

universe u

namespace DsoFifo.BoundedQueue

variable {α : Type u}

/-- The block `xs` goes in at the end of a queue with room for `m`. -/
def push (m : ℕ) (q xs : List α) : List α := (q ++ xs).rtake m

variable {m : ℕ} {q xs : List α}

/-- Nothing is forgotten while there is room. -/
theorem push_of_le (h : q.length + xs.length ≤ m) : push m q xs = q ++ xs := by
  rw [push, List.rtake, List.length_append, Nat.sub_eq_zero_of_le h, List.drop_zero]

/-- Without the room, the oldest items go, as many as there are too many. -/
theorem push_of_lt (h : m < q.length + xs.length) (hx : xs.length ≤ m) :
    push m q xs = q.drop (q.length + xs.length - m) ++ xs := by
  rw [push, List.rtake, List.length_append, List.drop_append_of_le_length (by omega)]

end DsoFifo.BoundedQueue
