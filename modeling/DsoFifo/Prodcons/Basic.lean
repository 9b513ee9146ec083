import DsoFifo.C.Integer
import DsoFifo.Cbuffer.Pointers
import DsoFifo.Store.Mailbox
import DsoFifo.Transition.Processes

/-!
# Producers and consumers

What `prodcons1.c` and `prodcons2.c` share: the front of `prodcons_write`, which makes a number
of what the user writes, the text that `prodcons_read` makes of one, the circular buffer of
pointers with the memory that the numbers are in, and the calls.  The two versions differ in
their semaphores.

`vmalloc` may find no memory.  Neither version looks at the pointer, and `*item=val` is then a
fault.
-/

namespace DsoFifo.Prodcons

open DsoFifo.C DsoFifo.LTS Function

/-- `MAX_ITEMS_CBUF`. -/
def maxItemsCbuf : ℕ := 5

/-- `MAX_CHARS_KBUF`. -/
def maxCharsKbuf : ℕ := 10

/-- `EINTR`. -/
def eintr : ℤ := 4

/-- `EFAULT`. -/
def efault : ℤ := 14

/-- `EINVAL`. -/
def einval : ℤ := 22

/-- `ENOSPC`. -/
def enospc : ℤ := 28

/-! ## Numbers as text -/

/-- `kbuf` of `prodcons_write`, when `bufferusuario` is what can be read of the user's memory. -/
def kbufOf (bufferusuario : List Byte) (longitud : ℕ) : List Byte :=
  (blit (List.replicate (maxCharsKbuf + 1) 0) 0 (bufferusuario.take longitud)).set longitud 0

/-- The front of `prodcons_write`: the number, or the error that it returns. -/
def scanWrite (bufferusuario : List Byte) (longitud : ℕ) : Except ℤ CInt :=
  if longitud > maxCharsKbuf then .error (-enospc)
  else if bufferusuario.length < longitud then .error (-efault)
  else
    match sscanfInteger (cut (maxCharsKbuf + 1) (kbufOf bufferusuario longitud)) with
    | some val => .ok val
    | none => .error (-einval)

/-- What `prodcons_read` prints of a number. -/
def text (val : CInt) : List Byte := decimal val.1 ++ [newline]

variable {buffer : List Byte} {longitud : ℕ}

/-- What `sscanf` sees of `kbuf`. -/
theorem cut_kbufOf (hlen : longitud ≤ maxCharsKbuf) (hbuf : longitud ≤ buffer.length) :
    cut (maxCharsKbuf + 1) (kbufOf buffer longitud) = cut longitud buffer := by
  have htake : (buffer.take longitud).length = longitud := List.length_take_of_le hbuf
  have hpad : kbufOf buffer longitud = pad (maxCharsKbuf + 1) (buffer.take longitud) := by
    simp only [kbufOf, blit, pad, htake, List.take_zero, List.nil_append, Nat.zero_add,
      List.drop_replicate]
    rw [List.set_append_right _ _ htake.le, List.set_replicate_self]
  have hle : (buffer.take longitud).length ≤ maxCharsKbuf + 1 := by omega
  rw [hpad, cut_pad_of_length_le hle, cut, cut, List.take_take, Nat.min_eq_right (by omega)]

theorem zero_notMem_text (val : CInt) : 0 ∉ text val := fun h ↦ by
  rcases List.mem_append.mp h with h | h
  · rcases eq_minus_or_isDigit h with h | h <;> exact absurd h (by decide)
  · exact absurd (List.mem_singleton.mp h) (by decide)

/-- The errors of `prodcons_write`, before it is interrupted. -/
theorem eq_of_scanWrite_eq_error {e : ℤ} (h : scanWrite buffer longitud = .error e) :
    e = -enospc ∨ e = -efault ∨ e = -einval := by
  unfold scanWrite at h
  split at h
  · exact .inl (Except.error.inj h).symm
  · split at h
    · exact .inr (.inl (Except.error.inj h).symm)
    · split at h
      · cases h
      · exact .inr (.inr (Except.error.inj h).symm)

/-- **What is read can be written again**, and is the same number, if it is not too long for
`kbuf`. -/
theorem scanWrite_text (val : CInt) : scanWrite (text val) (text val).length =
    if (text val).length ≤ maxCharsKbuf then .ok val else .error (-enospc) := by
  unfold scanWrite
  split
  · rw [if_neg (by omega)]
  · rename_i hlen
    have hcut : cut (text val).length (text val) = text val := by
      rw [cut, List.take_length, List.takeWhile_eq_self_iff]
      intro c hc
      exact decide_eq_true fun hz ↦ zero_notMem_text val (hz ▸ hc)
    rw [if_neg (by omega), if_pos (by omega), cut_kbufOf (by omega) le_rfl, hcut, text,
      sscanfInteger_decimal val stops_newline]

/-! ## The memory -/

variable {ι ν : Type}

/-- `cbuf`, and the items that are allocated, with their values.  A pointer is an item, or
`NULL`. -/
structure Memory (ν : Type) where
  cbuf : Pointers.Cbuffer (Option ν)
  heap : ν → Option CInt

/-- After `create_cbuffer_t(MAX_ITEMS_CBUF)`. -/
def Memory.created (garbage : Fin maxItemsCbuf → Option ν) : Memory ν where
  cbuf := Pointers.createCbuffer maxItemsCbuf (List.ofFn garbage)
  heap := fun _ ↦ none

/-- What a step does that others can see. -/
inductive Event (ν : Type) where
  | vmalloc (item : ν)
  | vfree (item : ν)
  | /-- `prodcons_write` returns, and its variable was the only pointer to the item. -/
    lost (item : ν)
  | /-- `insert_cbuffer_t`, of an item with this value. -/ insert (val : CInt)
  | /-- `remove_cbuffer_t`; the item had this value, if it was allocated. -/
    remove (val : Option CInt)
  | /-- `sprintf`, which leaves `text val` in the reader's buffer. -/ sprintf (val : CInt)
  | wrote (ret : ℤ)
  | read (len : ℤ)
  | /-- A pointer is used or freed that is `NULL`, or an item that is not allocated. -/
    fault (item : Option ν)
deriving DecidableEq

/-- The operation on the mailbox. -/
def Event.op : Event ν → Option (Mailbox.Op ν CInt)
  | .vmalloc item => some (.alloc item)
  | .vfree item => some (.free item)
  | .lost item => some (.lose item)
  | .insert val => some (.put val)
  | .remove val => some (.take val)
  | .sprintf val => some (.use val)
  | .fault (some _) => some .fault
  | .wrote _ | .read _ | .fault none => none

/-- The operations of a step. -/
abbrev ops (evs : List (Event ν)) : List (Mailbox.Op ν CInt) := evs.filterMap Event.op

/-- The buffer as both modules need it: nobody finds a `NULL` in it. -/
structure Memory.Wf (s : Memory ν) : Prop where
  cbuf : s.cbuf.Wf
  maxSize_eq : s.cbuf.maxSize = maxItemsCbuf
  ne_null : none ∉ s.cbuf.content

theorem Memory.wf_created (garbage : Fin maxItemsCbuf → Option ν) : (Memory.created garbage).Wf :=
  ⟨Pointers.Cbuffer.wf_createCbuffer (List.length_ofFn) (by decide) (by decide), rfl,
    List.not_mem_nil⟩

/-- An item goes in where there is room. -/
theorem Memory.Wf.insert {s : Memory ν} (hwf : s.Wf) {n : ν} (hroom : s.cbuf.size < maxItemsCbuf)
    {cbuf : Pointers.Cbuffer (Option ν)}
    (hins : Pointers.insertCbuffer s.cbuf (some n) = some cbuf) :
    cbuf.content = s.cbuf.content ++ [some n] ∧ cbuf.size = s.cbuf.size + 1 ∧ cbuf.Wf ∧
      cbuf.maxSize = maxItemsCbuf := by
  obtain ⟨b, hb, hb', hm, hc⟩ := hwf.cbuf.insertCbuffer_eq (some n)
  obtain rfl := Option.some.inj (hb.symm.trans hins)
  have hcontent : b.content = s.cbuf.content ++ [some n] := by
    rw [hc, BoundedQueue.push_of_le]
    rw [Pointers.Cbuffer.length_content, List.length_singleton, hwf.maxSize_eq]
    exact hroom
  refine ⟨hcontent, ?_, hb', hm.trans hwf.maxSize_eq⟩
  rw [← Pointers.Cbuffer.length_content b, hcontent, List.length_append,
    Pointers.Cbuffer.length_content, List.length_singleton]

theorem Memory.Wf.remove {s : Memory ν} (hwf : s.Wf) {cbuf : Pointers.Cbuffer (Option ν)}
    (hrem : Pointers.removeCbuffer s.cbuf = some cbuf) :
    cbuf.content = s.cbuf.content.tail ∧ cbuf.size = s.cbuf.size - 1 ∧ cbuf.Wf ∧
      cbuf.maxSize = maxItemsCbuf := by
  obtain ⟨b, hb, hb', hm, hc⟩ := hwf.cbuf.removeCbuffer_eq
  obtain rfl := Option.some.inj (hb.symm.trans hrem)
  refine ⟨hc, ?_, hb', hm.trans hwf.maxSize_eq⟩
  rw [← Pointers.Cbuffer.length_content b, hc, List.length_tail, Pointers.Cbuffer.length_content]

/-! ## The calls -/

/-- The two sides. -/
inductive Side where
  | prod
  | cons
deriving DecidableEq, Repr

/-- What a side waits for, in a buffer with `size` elements. -/
def Side.avail (size : ℕ) : Side → ℕ
  | .prod => maxItemsCbuf - size
  | .cons => size

/-- Who waits, with what the function needs when it goes on. -/
inductive Role (ν : Type) where
  | write (item : ν) (val : CInt) (longitud : ℕ)
  | read
deriving DecidableEq

/-- Who has changed the buffer. -/
inductive Done (ν : Type) where
  | write (longitud : ℕ)
  | read (item : Option ν)
deriving DecidableEq

/-- The side that a process is of. -/
def Role.side : Role ν → Side
  | .write _ _ _ => .prod
  | .read => .cons

/-- The side that can go on when a process is done. -/
def Done.side : Done ν → Side
  | .write _ => .cons
  | .read _ => .prod

/-- What a process has while it waits. -/
def Role.hand : Role ν → Hand ν CInt
  | .write item val _ => .fresh item val
  | .read => .empty

/-- What a process has when it has changed the buffer. -/
def Done.hand : Done ν → Hand ν CInt
  | .read (some item) => .taken item
  | _ => .empty

/-- What a process does next: it goes on, its `down_interruptible` is interrupted, its
`vmalloc` gives it this item, or its `vmalloc` finds no memory. -/
inductive Act (ν : Type) where
  | go
  | intr
  | vmalloc (item : ν)
  | nomem
deriving DecidableEq

/-- The calls of a module; `bufferusuario` is what can be read there. -/
inductive Call where
  | prodconsWrite (bufferusuario : List Byte) (longitud : ℕ)
  | prodconsRead (offset : ℤ)

/-- The beginning of a call: an error or the end, the `vmalloc` of `prodcons_write`, or the
first `down` of `prodcons_read`. -/
def Call.enter {κ : Type} (idle : κ) (vmalloc : CInt → ℕ → κ) (read : κ) :
    Call → κ × List (Event ν)
  | .prodconsWrite bufferusuario longitud =>
    match scanWrite bufferusuario longitud with
    | .ok val => (vmalloc val longitud, [])
    | .error e => (idle, [.wrote e])
  | .prodconsRead offset => if offset > 0 then (idle, [.read 0]) else (read, [])

/-- A call begins in the same way, whatever its places are called. -/
theorem Call.enter_map {κ κ' : Type} (f : κ → κ') (idle : κ) (vmalloc : CInt → ℕ → κ) (read : κ)
    (c : Call) : f (c.enter (ν := ν) idle vmalloc read).1 =
        (c.enter (ν := ν) (f idle) (fun val longitud ↦ f (vmalloc val longitud)) (f read)).1 ∧
      (c.enter (ν := ν) idle vmalloc read).2 =
        (c.enter (f idle) (fun val longitud ↦ f (vmalloc val longitud)) (f read)).2 := by
  cases c with
  | prodconsWrite buffer longitud => cases hscan : scanWrite buffer longitud <;> simp [enter, hscan]
  | prodconsRead offset => by_cases hoff : offset > 0 <;> simp [enter, hoff]

/-- A call begins in one of three places, with nothing done to the memory. -/
theorem Call.enter_cases {κ : Type} (idle : κ) (vmalloc : CInt → ℕ → κ) (read : κ) (c : Call) :
    ((∃ val longitud, (c.enter (ν := ν) idle vmalloc read).1 = vmalloc val longitud) ∨
      (c.enter (ν := ν) idle vmalloc read).1 = idle ∨
      (c.enter (ν := ν) idle vmalloc read).1 = read) ∧
    ops (c.enter (ν := ν) idle vmalloc read).2 = [] := by
  cases c with
  | prodconsWrite buffer longitud =>
      cases hscan : scanWrite buffer longitud with
      | ok val => exact ⟨.inl ⟨val, longitud, by simp only [enter, hscan]⟩, by simp [enter, hscan]⟩
      | error e =>
          exact ⟨.inr (.inl (by simp only [enter, hscan])), by simp [enter, hscan, Event.op]⟩
  | prodconsRead offset =>
      by_cases hoff : offset > 0
      · exact ⟨.inr (.inl (by rw [enter, if_pos hoff])), by rw [enter, if_pos hoff]; rfl⟩
      · exact ⟨.inr (.inr (by rw [enter, if_neg hoff])), by rw [enter, if_neg hoff]; rfl⟩

end DsoFifo.Prodcons
