import DsoFifo.Modlist.Commands

/-!
# Writing from memory that cannot be read

`procfile_write` does not look at what `copy_from_user` returns.  When the user's memory
ends within the line, the rest of the line is zero, and what has been copied is taken for a
command of its own: a part of `add 12` may be `add 1`, and a part of `add 1` may be nothing,
which `streq` finds equal to `cleanup`.

`procfileWrite_fault_iff` says which parts leave the list as it was.
-/

namespace DsoFifo.Modlist

open DsoFifo.C

variable {l : List CInt} {str : List Byte}

/-- When a command changes nothing. -/
theorem perform_eq_self_iff {p : List Byte → Bool} :
    perform p l str = l ↔ vsscanf (wordInt addWord) str = [] ∧
      (∀ num nums, vsscanf (wordInt removeWord) str = num :: nums → num ∉ l) ∧
      (vsscanf (wordInt removeWord) str = [] → p str = true → l = []) := by
  unfold perform
  cases vsscanf (wordInt addWord) str with
  | cons num nums => simp
  | nil =>
      cases vsscanf (wordInt removeWord) str with
      | nil => cases p str <;> simp [eq_comm]
      | cons num nums =>
          have hfilter : l.filter (· ≠ num) = l ↔ num ∉ l := by
            rw [List.filter_eq_self]
            constructor
            · intro h hmem
              simpa using h num hmem
            · intro h data hdata
              exact decide_eq_true fun heq ↦ h (heq ▸ hdata)
          simpa using hfilter

/-- **When a write that faults leaves the list as it was.**  What could be read of the line,
up to a NUL, must not begin with `add` and a number, nor with `remove` and a number that is in
the list; and when it is no `remove` and the list is not empty, it must be neither the
beginning of `cleanup` nor begin with it. -/
theorem procfileWrite_fault_iff (l : List CInt) {buffer : List Byte} {count : ℕ}
    (hfault : buffer.length < taken count) :
    (∃ n, procfileWrite l buffer count = some (l, n)) ↔
      vsscanf (wordInt addWord) (cut 25 buffer) = [] ∧
      (∀ num nums, vsscanf (wordInt removeWord) (cut 25 buffer) = num :: nums → num ∉ l) ∧
      (vsscanf (wordInt removeWord) (cut 25 buffer) = [] →
        cut 25 buffer <+: cleanup.bytes ∨ cleanup.bytes <+: cut 25 buffer → l = []) := by
  have hlike : likeCleanup (cut 25 buffer) = true ↔
      cut 25 buffer <+: cleanup.bytes ∨ cleanup.bytes <+: cut 25 buffer := decide_eq_true_iff
  rw [procfileWrite_eq_some, cut_lineOf hfault.le, ← hlike, ← perform_eq_self_iff]
  constructor
  · rintro ⟨n, hn⟩
    exact congrArg Prod.fst (Option.some.inj hn)
  · intro hself
    exact ⟨taken count, by rw [hself]⟩

/-- `"add "`, from a page that ends before the number. -/
theorem procfileWrite_fault_iff_add :
    let buffer := ascii ['a', 'd', 'd', ' ']
    (∃ n, procfileWrite [.ofInt 5] buffer 7 = some ([.ofInt 5], n)) ↔
      vsscanf (wordInt addWord) (cut 25 buffer) = [] ∧
      (∀ num nums, vsscanf (wordInt removeWord) (cut 25 buffer) = num :: nums →
        num ∉ [CInt.ofInt 5]) ∧
      (vsscanf (wordInt removeWord) (cut 25 buffer) = [] →
        cut 25 buffer <+: cleanup.bytes ∨ cleanup.bytes <+: cut 25 buffer →
          [CInt.ofInt 5] = []) :=
  procfileWrite_fault_iff [.ofInt 5] (by decide)

/-- When nothing at all can be read, the list is lost. -/
theorem procfileWrite_unreadable (l : List CInt) (count : ℕ) :
    procfileWrite l [] count = some ([], taken count) := by
  rw [procfileWrite_eq_some, cut_lineOf (Nat.zero_le _), cut_nil]
  rfl

/-- **The list is lost** when nothing at all can be read, `remove 51` removes the 5 when all
but its last digit can be read, and `add 12` adds a 1. -/
theorem procfileWrite_fault :
    0 < taken 1 ∧ procfileWrite [.ofInt 5] [] 1 = some ([], 1) ∧
      procfileWrite [.ofInt 5] (ascii ['r', 'e', 'm', 'o', 'v', 'e', ' ', '5']) 9 =
        some ([], 9) ∧
      procfileWrite [.ofInt 5] (ascii ['a', 'd', 'd', ' ', '1']) 6 =
        some ([.ofInt 1, .ofInt 5], 6) := by
  decide +kernel

end DsoFifo.Modlist
