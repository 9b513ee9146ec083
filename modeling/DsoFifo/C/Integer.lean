import DsoFifo.C.Decimal

/-!
# Numbers of any base

`%i`, as `sscanf` of the kernel's `lib/vsprintf.c` has it: spaces, a sign, and a number that
is hexadecimal after `0x`, octal after `0` and decimal otherwise.  The conversion itself
neither fails nor saturates; the number is cut down to an `int`.

What `%d` prints has no superfluous `0` in front, so `%i` finds the number again
(`sscanfInteger_decimal`).
-/

namespace DsoFifo.C

/-- `_tolower`. -/
def tolower (c : Byte) : Byte := c ||| 32

/-- The value of a hexadecimal digit. -/
def digitValue (c : Byte) : Option ℕ :=
  if isDigit c then some (c.toNat - 48)
  else if 97 ≤ tolower c && tolower c ≤ 102 then some ((tolower c).toNat - 87)
  else none

/-- The string begins with `0x` and a digit. -/
def isHexadecimal : List Byte → Bool
  | c :: x :: d :: _ => c = 48 && tolower x = 120 && (digitValue d).isSome
  | _ => false

/-- `_parse_integer_fixup_radix`, when the base is left open: the base, and where the number
begins. -/
def fixupRadix (str : List Byte) : ℕ × List Byte :=
  if isHexadecimal str then (16, str.drop 2)
  else if str.head? = some 48 then (8, str)
  else (10, str)

/-- `_parse_integer`, up to the first character that is no digit. -/
def parseInteger (base : ℕ) : ℕ → List Byte → ℕ
  | res, [] => res
  | res, c :: str =>
    match digitValue c with
    | some value => if value < base then parseInteger base (res * base + value) str else res
    | none => res

/-- `simple_strtoull` with base 0. -/
def simpleStrtoull (str : List Byte) : ℕ := parseInteger (fixupRadix str).1 0 (fixupRadix str).2

/-- `simple_strtol` with base 0, on its way to an `int`. -/
def simpleStrtol : List Byte → CInt
  | [] => .ofInt 0
  | c :: str =>
    if c = minus then .ofInt (-(simpleStrtoull str : ℤ)) else .ofInt (simpleStrtoull (c :: str))

/-- The character that decides whether there is a number. -/
def leading : List Byte → Option Byte
  | [] => none
  | c :: str => if c = minus then str.head? else some c

/-- `sscanf(str, "%i", …)`: the number, if one is converted. -/
def sscanfInteger (str : List Byte) : Option CInt :=
  if (leading (str.dropWhile isSpace)).any isDigit then some (simpleStrtol (str.dropWhile isSpace))
  else none

/-! ## What is printed is found again -/

variable {n : ℕ} {c : Byte} {rest : List Byte}

/-- A number ends before this text. -/
def Stops (rest : List Byte) : Prop := ∀ c ∈ rest.head?, digitValue c = none ∧ tolower c ≠ 120

theorem stops_newline : Stops [newline] := fun c hc ↦ by
  obtain rfl : c = newline := (Option.some.inj hc).symm
  decide


theorem parseInteger_of_stops (h : Stops rest) (base res : ℕ) :
    parseInteger base res rest = res := by
  cases rest with
  | nil => rfl
  | cons c rest =>
      rw [parseInteger, (h c rfl).1]

/-- Digits are converted as `ofDigits` does it. -/
theorem parseInteger_append (h : Stops rest) (cs : List Byte) (hcs : ∀ c ∈ cs, isDigit c = true)
    (res : ℕ) : parseInteger 10 res (cs ++ rest) =
      cs.foldl (fun n c ↦ 10 * n + (c.toNat - 48)) res := by
  induction cs generalizing res with
  | nil => exact parseInteger_of_stops h 10 res
  | cons c cs ih =>
      obtain ⟨hc, hcs⟩ := List.forall_mem_cons.mp hcs
      have hle : c.toNat - 48 < 10 := by
        simp only [isDigit, Bool.and_eq_true, decide_eq_true_eq, UInt8.le_iff_toNat_le] at hc
        have : c.toNat ≤ 57 := hc.2
        omega
      rw [List.cons_append, parseInteger, digitValue, if_pos hc, List.foldl_cons, ← ih hcs]
      simp only [hle, if_true, Nat.mul_comm]

/-- A number other than 0 does not begin with a `0`. -/
theorem head_digits_ne (hn : 0 < n) : ∀ c ∈ (digits n).head?, c ≠ 48 := by
  induction n using Nat.strongRecOn with
  | ind n ih =>
      intro c hc
      rw [digits, ascii, Nat.toDigits_eq_if (by decide)] at hc
      split at hc
      · -- a single digit
        obtain rfl := Option.some.inj hc
        have hdigit : n.digitChar.isDigit = true := by
          rw [Nat.isDigit_digitChar]
          exact decide_eq_true ‹n < 10›
        intro hzero
        have hnat : n.digitChar.toNat = 48 :=
          (toNat_digit hdigit).1.symm.trans (congrArg UInt8.toNat hzero)
        have hchar : n.digitChar = '0' := Char.toNat_inj.mp hnat
        rw [Nat.digitChar_eq_zero] at hchar
        omega
      · have hdiv : 0 < n / 10 := Nat.div_pos (by omega) (by decide)
        refine ih (n / 10) (by omega) hdiv c ?_
        rwa [List.map_append, List.head?_append_of_ne_nil _ (by simp)] at hc

theorem simpleStrtoull_digits (h : Stops rest) (n : ℕ) :
    simpleStrtoull (digits n ++ rest) = n := by
  have hall : ∀ c ∈ digits n, isDigit c = true := fun _ ↦ isDigit_of_mem_digits
  rcases Nat.eq_zero_or_pos n with rfl | hn
  · -- `0` is octal
    have hhex : isHexadecimal (48 :: rest) = false := by
      match rest, h with
      | [], _ | [_], _ => rfl
      | x :: d :: rest, h => simp [isHexadecimal, (h x rfl).2]
    have hfix : fixupRadix (48 :: rest) = (8, 48 :: rest) := by
      rw [fixupRadix, hhex, if_neg (by decide), List.head?_cons, if_pos rfl]
    have hzero : digitValue 48 = some 0 := by decide
    rw [show digits 0 = [48] from rfl, List.singleton_append, simpleStrtoull, hfix, parseInteger,
      hzero]
    exact parseInteger_of_stops h 8 0
  · obtain ⟨d, ds, hd⟩ := List.exists_cons_of_ne_nil (digits_ne_nil (n := n))
    have hne : d ≠ 48 := head_digits_ne hn d (by rw [hd]; rfl)
    have hhex : isHexadecimal (d :: (ds ++ rest)) = false := by
      unfold isHexadecimal
      split
      · rename_i heq
        obtain ⟨rfl, -⟩ := List.cons.inj heq
        simp [hne]
      · rfl
    have hfix : fixupRadix (digits n ++ rest) = (10, digits n ++ rest) := by
      rw [hd, List.cons_append, fixupRadix, hhex, if_neg (by decide), List.head?_cons,
        if_neg (by simpa using hne)]
    rw [simpleStrtoull, hfix]
    exact (parseInteger_append h _ hall 0).trans (ofDigits_digits n)

/-- **The round trip**: `%i` finds the number that `%d` printed. -/
theorem sscanfInteger_decimal (x : CInt) (h : Stops rest) :
    sscanfInteger (decimal x.1 ++ rest) = some x := by
  unfold sscanfInteger
  rw [dropWhile_isSpace_decimal]
  unfold decimal
  obtain ⟨d, ds, hd⟩ := List.exists_cons_of_ne_nil (digits_ne_nil (n := x.1.natAbs))
  have hdigit : isDigit d = true := isDigit_of_mem_digits (n := x.1.natAbs) (by
    rw [hd]
    exact List.mem_cons_self)
  have hval := simpleStrtoull_digits h x.1.natAbs
  split
  · have hneg : -(x.1.natAbs : ℤ) = x.1 := by omega
    rw [List.cons_append, simpleStrtol, if_pos rfl, hval, hneg, CInt.ofInt_val, if_pos]
    rw [leading, if_pos rfl, hd]
    exact hdigit
  · have hpos : (x.1.natAbs : ℤ) = x.1 := by omega
    have hne : d ≠ minus := by
      rintro rfl
      exact absurd hdigit (by decide)
    rw [hd, List.cons_append] at hval ⊢
    rw [simpleStrtol, if_neg hne, hval, hpos, CInt.ofInt_val, if_pos]
    rw [leading, if_neg hne]
    exact hdigit

end DsoFifo.C
