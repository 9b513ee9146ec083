import DsoFifo.C.Decimal

/-!
# The list module

`modlist.c`: a list of `int`s behind an entry of `/proc`.  Reading the entry prints the
list, one number a line; writing `add`, `remove` or `cleanup` to it changes the list.

Here the list is the list of its values, and every function runs on its own; the nodes and
the lock come later.  `int` arithmetic that overflows has no meaning in C, and neither has
a write outside the buffer: `procfileRead` returns `none` for them.
-/

namespace DsoFifo.Modlist

open DsoFifo.C

/-! ## The functions of the list -/

/-- `add_item_list`. -/
def addItemList (l : List CInt) (data : CInt) : List CInt := data :: l

/-- The loop that `remove_items_list` and `safe_clear_list` have: the items that pass the
test go to the bin, each to the front of it.  It returns the list and the bin. -/
def moveItems (test : CInt → Bool) : List CInt → List CInt → List CInt × List CInt
  | [], bin => ([], bin)
  | data :: l, bin =>
    if test data then moveItems test l (data :: bin)
    else
      let (l, bin) := moveItems test l bin
      (data :: l, bin)

/-- `remove_items_list`; the bin is freed. -/
def removeItemsList (l : List CInt) (data : CInt) : List CInt := (moveItems (· = data) l []).1

/-- `safe_clear_list`; the bin is freed. -/
def safeClearList (l : List CInt) : List CInt := (moveItems (fun _ ↦ true) l []).1

/-! ## Reading -/

/-- What `procfile_read` prints of an item: `"%d\n"`. -/
def line (data : CInt) : List Byte := decimal data.1 ++ [newline]

/-- `snprintf(buffer + used, size, …)` of this text.  A size that is negative as an `int` is
rejected; otherwise as much is written as there is room for, with a NUL after it, and the
length of the whole text is returned. -/
def snprintf (buffer : List Byte) (used size : ℤ) (text : List Byte) : Option (List Byte × ℤ) :=
  if size < 0 then some (buffer, 0)
  else if size = 0 then some (buffer, text.length)
  else
    let written := text.take (size.toNat - 1) ++ [0]
    (memcpy buffer used written 0 written.length).map fun buffer ↦ (buffer, text.length)

/-- What `procfile_read` keeps while it loops. -/
structure Reading where
  buffer : List Byte
  used : ℤ
  /-- The sizes that `snprintf` was called with, the last one first. -/
  sizes : List ℤ
deriving DecidableEq

/-- The body of the loop. -/
def Reading.print (bufferLen : CInt) (r : Reading) (data : CInt) : Option Reading :=
  let size := bufferLen.1 - r.used
  (snprintf r.buffer r.used size (line data)).bind fun (buffer, n) ↦
    if IsInt (r.used + n) then
      some { buffer := buffer, used := r.used + n, sizes := size :: r.sizes }
    else none

/-- `list_for_each_entry` with the body of `procfile_read`. -/
def readLoop (bufferLen : CInt) : Reading → List CInt → Option Reading
  | r, [] => some r
  | r, data :: l =>
    if bufferLen.1 - r.used = 0 then some r
    else (r.print bufferLen data).bind fun r ↦ readLoop bufferLen r l

/-- `procfile_read`: what is in the buffer at the end, and how much of it is said to be
used. -/
def procfileRead (buffer : List Byte) (bufferLen : CInt) (l : List CInt) : Option Reading :=
  readLoop bufferLen { buffer := buffer, used := 0, sizes := [] } l

/-! ## Writing -/

/-- `streq`, which reads the strings as far as it has to; `none` when that is too far. -/
def streq : List Byte → List Byte → Option Bool
  | [], _ => none
  | a :: as, bs =>
    if a = 0 then some true
    else
      match bs with
      | [] => none
      | b :: bs => if b = 0 then some true else if a = b then streq as bs else some false

/-- `"add"`. -/
def addWord : List Byte := ascii ['a', 'd', 'd']

/-- `"remove"`. -/
def removeWord : List Byte := ascii ['r', 'e', 'm', 'o', 'v', 'e']

/-- `"cleanup"`. -/
def cleanup : CString := ⟨ascii ['c', 'l', 'e', 'a', 'n', 'u', 'p'], by decide +kernel⟩

/-- The number of bytes that `procfile_write` takes. -/
def taken (count : ℕ) : ℕ := min count 24

/-- `line` of `procfile_write`, when `buffer` is what can be read of the user's buffer. -/
def lineOf (buffer : List Byte) (count : ℕ) : List Byte :=
  (blit (List.replicate 25 0) 0 (buffer.take (taken count))).set (taken count) 0

/-- `procfile_write`: the list after it, and the number of bytes it returns. -/
def procfileWrite (l : List CInt) (buffer : List Byte) (count : ℕ) : Option (List CInt × ℕ) :=
  let str := cut 25 (lineOf buffer count)
  match vsscanf (wordInt addWord) str, vsscanf (wordInt removeWord) str with
  | num :: _, _ => some (addItemList l num, taken count)
  | [], num :: _ => some (removeItemsList l num, taken count)
  | [], [] =>
    (streq (lineOf buffer count) cleanup.mem).map fun eq ↦
      (if eq then safeClearList l else l, taken count)

/-! ## What the functions do -/

variable {l : List CInt} {data : CInt}

/-- The loop keeps the order of the items that stay. -/
theorem moveItems_eq (test : CInt → Bool) (l bin : List CInt) :
    moveItems test l bin = (l.filter (!test ·), (l.filter test).reverse ++ bin) := by
  induction l generalizing bin with
  | nil => rfl
  | cons data l ih => by_cases h : test data <;> simp [moveItems, ih, h]

theorem removeItemsList_eq : removeItemsList l data = l.filter (· ≠ data) := by
  simp [removeItemsList, moveItems_eq]

theorem safeClearList_eq : safeClearList l = [] := by
  simp [safeClearList, moveItems_eq]

/-- The text of a list. -/
def text (l : List CInt) : List Byte := l.flatMap line

@[simp] theorem text_nil : text [] = [] := rfl

@[simp] theorem text_cons : text (data :: l) = line data ++ text l := List.flatMap_cons

/-- Nothing but the sign, digits and the newline is printed. -/
theorem eq_newline_of_mem_line {c : Byte} (h : c ∈ line data) :
    c = newline ∨ c = minus ∨ isDigit c = true := by
  rcases List.mem_append.mp h with h | h
  · exact .inr (eq_minus_or_isDigit h)
  · exact .inl (List.mem_singleton.mp h)

theorem zero_notMem_line : 0 ∉ line data := fun h ↦ by
  rcases eq_newline_of_mem_line h with h | h | h <;> exact absurd h (by decide)

theorem newline_notMem_decimal : newline ∉ decimal data.1 := fun h ↦ by
  rcases eq_minus_or_isDigit h with h | h <;> exact absurd h (by decide)

/-! ## The line that is written -/

variable {buffer input : List Byte} {count : ℕ}

/-- When no more can be read than is taken, the line is what can be read. -/
theorem lineOf_eq (h : buffer.length ≤ taken count) : lineOf buffer count = pad 25 buffer := by
  have htaken : taken count ≤ 24 := min_le_right _ _
  have hblit : blit (List.replicate 25 0) 0 (buffer.take (taken count)) = pad 25 buffer := by
    simp only [blit, pad, List.take_zero, List.nil_append, Nat.zero_add, List.drop_replicate,
      List.take_of_length_le h]
  rw [lineOf, hblit, pad, List.set_append_right _ _ h, List.set_replicate_self]

/-- What `sscanf` sees of it. -/
theorem cut_lineOf (h : buffer.length ≤ taken count) :
    cut 25 (lineOf buffer count) = cut 25 buffer := by
  have htaken : taken count ≤ 24 := min_le_right _ _
  rw [lineOf_eq h, cut_pad_of_length_le (by omega)]

/-- A command of at most 24 bytes without NULs is the whole string. -/
theorem cut_lineOf_input (hlen : input.length ≤ 24) (hnul : 0 ∉ input) :
    cut 25 (lineOf input input.length) = input := by
  rw [lineOf_eq (le_min le_rfl hlen)]
  exact cut_pad (by omega) fun c hc hz ↦ hnul (hz ▸ hc)

/-- The line is a string, however much of it could be read. -/
theorem exists_lineOf_eq (buffer : List Byte) (count : ℕ) :
    ∃ ys, lineOf buffer count = cut 25 (lineOf buffer count) ++ 0 :: ys := by
  have htaken : taken count ≤ 24 := min_le_right _ _
  have hlen : (blit (List.replicate 25 0) 0 (buffer.take (taken count))).length = 25 := by
    rw [length_blit (by simp; omega), List.length_replicate]
  refine exists_eq_cut_append ?_
  rw [List.take_of_length_le (by rw [lineOf, List.length_set, hlen]), lineOf]
  exact List.mem_set (by omega) 0

end DsoFifo.Modlist
