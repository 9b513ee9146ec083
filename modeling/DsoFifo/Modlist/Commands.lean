import DsoFifo.Modlist.Reading
import Mathlib.Data.List.Infix

/-!
# The commands

`procfile_write` tries `add %d`, then `remove %d`, then `cleanup`, the last of which is
compared with `streq`.  That loop stops at the end of either string and then says that they
are equal: `streq_eq` is what it computes, and `procfileWrite_eq_perform_iff` which
inputs get something else than they ask for.

`read_replay` puts the two directions of the entry together: what has been read can be
written back.
-/

namespace DsoFifo.Modlist

open DsoFifo.C

variable {l : List CInt} {input : List Byte}

/-! ## What is done -/

/-- **`streq` compares prefixes**: it finds two strings equal when one of them is the
beginning of the other. -/
theorem streq_eq {a b : List Byte} (ha : 0 ∉ a) (hb : 0 ∉ b) (x y : List Byte) :
    streq (a ++ 0 :: x) (b ++ 0 :: y) = some (decide (a <+: b ∨ b <+: a)) := by
  induction a generalizing b with
  | nil => simp [streq]
  | cons c a ih =>
      rw [List.mem_cons, not_or] at ha
      cases b with
      | nil => simp [streq, Ne.symm ha.1]
      | cons d b =>
          rw [List.mem_cons, not_or] at hb
          by_cases hcd : c = d
          · subst hcd
            simp [streq, Ne.symm ha.1, ih ha.2 hb.2, List.cons_prefix_cons]
          · simp [streq, Ne.symm ha.1, Ne.symm hb.1, hcd, Ne.symm hcd, List.cons_prefix_cons]

/-- The commands, when `isCleanup` says what counts as `cleanup`. -/
def perform (isCleanup : List Byte → Bool) (l : List CInt) (input : List Byte) : List CInt :=
  match vsscanf (wordInt addWord) input, vsscanf (wordInt removeWord) input with
  | num :: _, _ => num :: l
  | [], num :: _ => l.filter (· ≠ num)
  | [], [] => if isCleanup input then [] else l

/-- What `procfile_write` takes for `cleanup`. -/
def likeCleanup (input : List Byte) : Bool :=
  input <+: cleanup.bytes ∨ cleanup.bytes <+: input

/-- What is `cleanup`. -/
def isCleanup (input : List Byte) : Bool :=
  input = cleanup.bytes ∨ input = cleanup.bytes ++ [newline]

/-- What `procfile_write` does with what has become of a line. -/
theorem procfileWrite_eq_some (l : List CInt) (buffer : List Byte) (count : ℕ) :
    procfileWrite l buffer count =
      some (perform likeCleanup l (cut 25 (lineOf buffer count)), taken count) := by
  have hstreq : streq (lineOf buffer count) cleanup.mem =
      some (likeCleanup (cut 25 (lineOf buffer count))) := by
    obtain ⟨ys, hys⟩ := exists_lineOf_eq buffer count
    conv_lhs => rw [hys]
    exact streq_eq (fun h ↦ ne_zero_of_mem_cut h rfl) (fun h ↦ cleanup.ne_zero 0 h rfl) _ _
  simp only [procfileWrite, hstreq, perform, addItemList, removeItemsList_eq, safeClearList_eq]
  cases vsscanf (wordInt addWord) (cut 25 (lineOf buffer count)) with
  | cons num nums => rfl
  | nil => cases vsscanf (wordInt removeWord) (cut 25 (lineOf buffer count)) <;> rfl

/-- What `procfile_write` does with an input that it takes as a whole. -/
theorem procfileWrite_eq (l : List CInt) (hlen : input.length ≤ 24) (hnul : 0 ∉ input) :
    procfileWrite l input input.length = some (perform likeCleanup l input, input.length) := by
  have htaken : taken input.length = input.length := min_eq_left hlen
  rw [procfileWrite_eq_some, cut_lineOf_input hlen hnul, htaken]

/-! ## What is asked for -/

/-- When it matters what counts as `cleanup`. -/
theorem perform_eq_iff {p q : List Byte → Bool} :
    perform p l input = perform q l input ↔ vsscanf (wordInt addWord) input ≠ [] ∨
      vsscanf (wordInt removeWord) input ≠ [] ∨ l = [] ∨ p input = q input := by
  unfold perform
  cases vsscanf (wordInt addWord) input with
  | cons num nums => simp
  | nil =>
      cases vsscanf (wordInt removeWord) input with
      | cons num nums => simp
      | nil => cases p input <;> cases q input <;> simp [eq_comm]

theorem likeCleanup_eq_isCleanup_iff :
    likeCleanup input = isCleanup input ↔ isCleanup input = true ∨ likeCleanup input = false := by
  have himp : isCleanup input = true → likeCleanup input = true := by
    simp only [isCleanup, likeCleanup, decide_eq_true_eq]
    rintro (rfl | rfl)
    · exact .inl List.prefix_rfl
    · exact .inr (List.prefix_append _ _)
  cases hi : isCleanup input with
  | true => simp [himp hi]
  | false => simp

/-- **When `procfile_write` does what it is asked to.**  Otherwise the input is no command,
but the beginning of `cleanup` or something that begins with it, and the list is lost. -/
theorem procfileWrite_eq_perform_iff (l : List CInt) (hlen : input.length ≤ 24)
    (hnul : 0 ∉ input) :
    procfileWrite l input input.length = some (perform isCleanup l input, input.length) ↔
      vsscanf (wordInt addWord) input ≠ [] ∨ vsscanf (wordInt removeWord) input ≠ [] ∨ l = [] ∨
        isCleanup input = true ∨ likeCleanup input = false := by
  rw [procfileWrite_eq l hlen hnul, Option.some.injEq, Prod.mk.injEq, and_iff_left rfl,
    perform_eq_iff, likeCleanup_eq_isCleanup_iff]

/-- `"clear\n"`, which is no command, changes nothing. -/
theorem procfileWrite_eq_perform_iff_clear :
    let input := ascii ['c', 'l', 'e', 'a', 'r', '\n']
    procfileWrite [.ofInt 5] input 6 = some (perform isCleanup [.ofInt 5] input, 6) ↔
      vsscanf (wordInt addWord) input ≠ [] ∨ vsscanf (wordInt removeWord) input ≠ [] ∨
        [CInt.ofInt 5] = [] ∨ isCleanup input = true ∨ likeCleanup input = false :=
  procfileWrite_eq_perform_iff [.ofInt 5] (by decide) (by decide)

/-- **The list is lost** by writing nothing, or `"cle"`, or `"cleanupXYZ"`. -/
theorem procfileWrite_nil :
    procfileWrite [.ofInt 5] [] 0 = some ([], 0) ∧
      perform isCleanup [.ofInt 5] [] = [.ofInt 5] ∧
      procfileWrite [.ofInt 5] (ascii ['c', 'l', 'e']) 3 = some ([], 3) ∧
      procfileWrite [.ofInt 5] (ascii ['c', 'l', 'e', 'a', 'n', 'u', 'p', 'X', 'Y', 'Z']) 10 =
        some ([], 10) := by
  decide +kernel

/-! ## Reading and writing back -/

/-- The lines of a text, without the newlines at their ends. -/
def lines (text : List Byte) : List (List Byte) := (text.splitOn newline).dropLast

/-- A list is printed one number a line. -/
theorem lines_text (l : List CInt) : lines (text l) = l.map fun data ↦ decimal data.1 := by
  have hsplit : (text l).splitOn newline = l.map (fun data ↦ decimal data.1) ++ [[]] := by
    induction l with
    | nil => rfl
    | cons data l ih =>
        rw [text_cons, line, List.append_assoc, List.singleton_append,
          List.splitOn_append_cons_self_of_not_mem newline_notMem_decimal, ih]
        rfl
  rw [lines, hsplit, List.dropLast_concat]

/-- A command with a line of the text. -/
def command (word ln : List Byte) : List Byte := word ++ 32 :: (ln ++ [newline])

/-- Write `add` commands with the lines of a text, from the last one to the first. -/
def replay (text : List Byte) : Option (List CInt) :=
  (lines text).foldr (fun ln l ↦ l.bind fun l ↦
    (procfileWrite l (command addWord ln) (command addWord ln).length).map Prod.fst) (some [])

/-- A command with a number is scanned. -/
theorem vsscanf_command (word : List Byte) (num : CInt) :
    vsscanf (wordInt word) (command word (decimal num.1)) = [num] :=
  vsscanf_wordInt word num fun c hc ↦ by
    obtain rfl := Option.mem_some_iff.mp hc
    rfl

/-- A command with a short word and a number is taken as a whole. -/
theorem length_command_le {word : List Byte} (hword : word.length ≤ 11) (num : CInt) :
    (command word (decimal num.1)).length ≤ 24 := by
  have h := length_decimal_le num
  simp only [command, List.length_append, List.length_cons, List.length_nil]
  omega

theorem zero_notMem_command {word : List Byte} (hword : 0 ∉ word) (num : CInt) :
    0 ∉ command word (decimal num.1) := by
  simp only [command, List.mem_append, List.mem_cons, not_or]
  exact ⟨hword, by decide, fun h ↦ zero_notMem_line (List.mem_append.mpr (.inl h)), by decide,
    List.not_mem_nil⟩

/-- `add` with a line of the text. -/
theorem procfileWrite_add (l : List CInt) (num : CInt) :
    procfileWrite l (command addWord (decimal num.1)) (command addWord (decimal num.1)).length =
      some (num :: l, (command addWord (decimal num.1)).length) := by
  rw [procfileWrite_eq l (length_command_le (by decide) num) (zero_notMem_command (by decide) num),
    perform, vsscanf_command]

/-- `remove` with a line of the text. -/
theorem procfileWrite_remove (l : List CInt) (num : CInt) :
    procfileWrite l (command removeWord (decimal num.1))
        (command removeWord (decimal num.1)).length =
      some (l.filter (· ≠ num), (command removeWord (decimal num.1)).length) := by
  have hadd : vsscanf (wordInt addWord) (command removeWord (decimal num.1)) = [] := rfl
  rw [procfileWrite_eq l (length_command_le (by decide) num) (zero_notMem_command (by decide) num),
    perform, vsscanf_command, hadd]

theorem replay_text (l : List CInt) : replay (text l) = some l := by
  rw [replay, lines_text]
  induction l with
  | nil => rfl
  | cons data l ih =>
      rw [List.map_cons, List.foldr_cons, ih, Option.bind_some, procfileWrite_add, Option.map_some]

/-- **What has been read can be written back.**  Into a buffer that is larger than the text,
one line is printed for each number; adding the lines to an empty list, from the last one to
the first, makes the same list; and removing the line of a number removes the number. -/
theorem read_replay {l : List CInt} {bufferLen : CInt} {buffer : List Byte}
    (hbuffer : bufferLen.1 ≤ buffer.length) (hfits : (text l).length < bufferLen.1) :
    (∃ r, procfileRead buffer bufferLen l = some r ∧ r.used = (text l).length ∧
      lines (r.buffer.take r.used.toNat) = l.map (fun data ↦ decimal data.1) ∧
      replay (r.buffer.take r.used.toNat) = some l) ∧
    ∀ (l' : List CInt) (num : CInt),
      procfileWrite l' (command removeWord (decimal num.1))
          (command removeWord (decimal num.1)).length =
        some (l'.filter (· ≠ num), (command removeWord (decimal num.1)).length) := by
  obtain ⟨r, hr, hused, htake, -⟩ := procfileRead_of_fits hbuffer hfits
  refine ⟨⟨r, hr, hused, ?_⟩, procfileWrite_remove⟩
  rw [hused, Int.toNat_natCast, htake]
  exact ⟨lines_text l, replay_text l⟩

/-- The smallest number, a 7 and the largest number. -/
theorem read_replay_extremes :
    let l : List CInt := [.ofInt (-2147483648), .ofInt 7, .ofInt 2147483647]
    (∃ r, procfileRead (List.replicate 30 0) (.ofInt 30) l = some r ∧ r.used = (text l).length ∧
      lines (r.buffer.take r.used.toNat) = l.map (fun data ↦ decimal data.1) ∧
      replay (r.buffer.take r.used.toNat) = some l) ∧
    ∀ (l' : List CInt) (num : CInt),
      procfileWrite l' (command removeWord (decimal num.1))
          (command removeWord (decimal num.1)).length =
        some (l'.filter (· ≠ num), (command removeWord (decimal num.1)).length) :=
  read_replay (by decide) (by decide +kernel)

end DsoFifo.Modlist
