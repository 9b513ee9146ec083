import DsoFifo.C.Strings

/-!
# Decimal numbers

`%d` in the two directions, as `snprintf` and `sscanf` of the kernel's `lib/vsprintf.c`
have it.  What is printed is the sign and the digits; what is scanned may have spaces in
front, ends before the first character that is no digit, and is converted to an `int`.

`vsscanf_wordInt` is the round trip: a word and a number are found again in what was
printed, whatever comes after the number, unless it begins with a digit.
-/

namespace DsoFifo.C

/-! ## Integers of C -/

theorem isInt_toInt (x : ℤ) : IsInt (toInt x) := by
  unfold IsInt toInt
  omega

instance (x : ℤ) : Decidable (IsInt x) := inferInstanceAs (Decidable (_ ∧ _))

/-- The values of an `int`. -/
abbrev CInt : Type := {x : ℤ // IsInt x}

/-- A number converted to an `int`. -/
def CInt.ofInt (x : ℤ) : CInt := ⟨toInt x, isInt_toInt x⟩

@[simp] theorem CInt.ofInt_val (x : CInt) : CInt.ofInt x.1 = x :=
  Subtype.ext (toInt_of_isInt x.2)

/-! ## Printing -/

/-- The digits of a number. -/
def digits (n : ℕ) : List Byte := ascii (Nat.toDigits 10 n)

/-- `'-'`. -/
def minus : Byte := 45

/-- `'\n'`. -/
def newline : Byte := 10

/-- What `%d` prints. -/
def decimal (x : ℤ) : List Byte :=
  if x < 0 then minus :: digits x.natAbs else digits x.natAbs

/-! ## Scanning -/

/-- `isdigit`. -/
def isDigit (c : Byte) : Bool := 48 ≤ c && c ≤ 57

/-- `isspace`, with the no-break space of Latin-1, which the kernel's table has. -/
def isSpace (c : Byte) : Bool := c = 32 || (9 ≤ c && c ≤ 13) || c = 160

/-- The number that has these digits. -/
def ofDigits (cs : List Byte) : ℕ := cs.foldl (fun n c ↦ 10 * n + (c.toNat - 48)) 0

/-- The number at the beginning of a string, and what comes after it. -/
def scanDigits (str : List Byte) : Option (ℕ × List Byte) :=
  if str.takeWhile isDigit = [] then none
  else some (ofDigits (str.takeWhile isDigit), str.dropWhile isDigit)

/-- The same with a sign. -/
def scanInt : List Byte → Option (CInt × List Byte)
  | [] => none
  | c :: str =>
    if c = minus then (scanDigits str).map fun (n, rest) ↦ (.ofInt (-n), rest)
    else (scanDigits (c :: str)).map fun (n, rest) ↦ (.ofInt n, rest)

/-- What a format is made of. -/
inductive Directive where
  | /-- This character, as it is. -/ char (c : Byte)
  | /-- Any number of spaces. -/ space
  | /-- `%d`. -/ int
deriving DecidableEq, Repr

/-- `sscanf`: the numbers that were converted; it returns how many there are.  It stops
where the string does not match, and at the end of the string. -/
def vsscanf : List Directive → List Byte → List CInt
  | [], _ => []
  | _ :: _, [] => []
  | .char c :: fmt, d :: str => if c = d then vsscanf fmt str else []
  | .space :: fmt, d :: str => vsscanf fmt ((d :: str).dropWhile isSpace)
  | .int :: fmt, d :: str =>
    match scanInt ((d :: str).dropWhile isSpace) with
    | some (x, rest) => x :: vsscanf fmt rest
    | none => []

/-- The format of a word, a space and `%d`. -/
def wordInt (word : List Byte) : List Directive := word.map .char ++ [.space, .int]

/-! ## The characters that are printed -/

variable {c : Byte} {n : ℕ} {x : ℤ} {rest word : List Byte}

/-- A digit is its code. -/
theorem toNat_digit {d : Char} (h : d.isDigit) :
    d.toNat.toUInt8.toNat = d.toNat ∧ 48 ≤ d.toNat ∧ d.toNat ≤ 57 := by
  simp only [Char.isDigit, Bool.and_eq_true, decide_eq_true_eq, ge_iff_le,
    UInt32.le_iff_toNat_le] at h
  have hd : 48 ≤ d.toNat ∧ d.toNat ≤ 57 := h
  refine ⟨?_, hd⟩
  simp only [Nat.toUInt8, UInt8.toNat_ofNat']
  omega

theorem isDigit_of_mem_digits (h : c ∈ digits n) : isDigit c = true := by
  obtain ⟨d, hd, rfl⟩ := List.mem_map.mp h
  obtain ⟨hcode, hle⟩ := toNat_digit (Nat.isDigit_of_mem_toDigits (by omega) (by omega) hd)
  simpa [isDigit, UInt8.le_iff_toNat_le, hcode] using hle

theorem digits_ne_nil : digits n ≠ [] := by simp [digits, ascii]

/-- The digits are those of the number. -/
theorem ofDigits_digits (n : ℕ) : ofDigits (digits n) = n := by
  have hcode : ∀ a, ∀ d ∈ Nat.toDigits 10 n,
      10 * a + (d.toNat.toUInt8.toNat - 48) = 10 * a + (d.toNat - '0'.toNat) := fun a d hd ↦ by
    rw [(toNat_digit (Nat.isDigit_of_mem_toDigits (by omega) (by omega) hd)).1]
    rfl
  rw [ofDigits, digits, ascii, List.foldl_map, List.foldl_ext _ _ 0 hcode,
    ← Nat.ofDigitChars_eq_foldl, Nat.ofDigitChars_ten_toDigits]

/-- Only the sign and digits are printed. -/
theorem eq_minus_or_isDigit (h : c ∈ decimal x) : c = minus ∨ isDigit c = true := by
  unfold decimal at h
  split at h
  · exact (List.mem_cons.mp h).imp_right isDigit_of_mem_digits
  · exact .inr (isDigit_of_mem_digits h)

/-- `%d` takes eleven characters at most. -/
theorem length_decimal_le (x : CInt) : (decimal x.1).length ≤ 11 := by
  have hlen : (digits x.1.natAbs).length ≤ 10 := by
    rw [digits, ascii, List.length_map, Nat.length_toDigits_le_iff (by omega) (by omega)]
    have := x.2
    unfold IsInt at this
    omega
  unfold decimal
  split
  · rw [List.length_cons]
    omega
  · omega

/-! ## The round trip -/

theorem scanDigits_digits (h : ∀ c ∈ rest.head?, isDigit c = false) :
    scanDigits (digits n ++ rest) = some (n, rest) := by
  have hall : ∀ c ∈ digits n, isDigit c = true := fun _ ↦ isDigit_of_mem_digits
  have htake : rest.takeWhile isDigit = [] := by
    cases rest with
    | nil => rfl
    | cons c rest => simpa using h c rfl
  have hdrop : rest.dropWhile isDigit = rest := by
    cases rest with
    | nil => rfl
    | cons c rest => simpa using h c rfl
  rw [scanDigits, List.takeWhile_append_of_pos hall, List.dropWhile_append_of_pos hall, htake,
    hdrop, List.append_nil, if_neg digits_ne_nil, ofDigits_digits]

/-- What `%d` prints is scanned as the number. -/
theorem scanInt_decimal (x : CInt) (h : ∀ c ∈ rest.head?, isDigit c = false) :
    scanInt (decimal x.1 ++ rest) = some (x, rest) := by
  unfold decimal
  split
  · rename_i hneg
    have hval : -(x.1.natAbs : ℤ) = x.1 := by omega
    rw [List.cons_append, scanInt, if_pos rfl, scanDigits_digits h, Option.map_some]
    simp only [hval, CInt.ofInt_val]
  · rename_i hpos
    obtain ⟨d, ds, hd⟩ := List.exists_cons_of_ne_nil (digits_ne_nil (n := x.1.natAbs))
    have hdig : isDigit d = true :=
      isDigit_of_mem_digits (n := x.1.natAbs) (by rw [hd]; exact List.mem_cons_self)
    have hval : (x.1.natAbs : ℤ) = x.1 := by omega
    have hscan := scanDigits_digits (n := x.1.natAbs) h
    rw [hd, List.cons_append] at hscan ⊢
    rw [scanInt, if_neg (by rintro rfl; exact absurd hdig (by decide)), hscan,
      Option.map_some]
    simp only [hval, CInt.ofInt_val]

theorem isSpace_eq_false {c : Byte} (h : c = minus ∨ isDigit c = true) : isSpace c = false := by
  rcases h with rfl | h
  · rfl
  · simp only [isDigit, Bool.and_eq_true, decide_eq_true_eq, UInt8.le_iff_toNat_le,
      UInt8.reduceToNat] at h
    simp only [isSpace, Bool.or_eq_false_iff, Bool.and_eq_false_iff, decide_eq_false_iff_not,
      UInt8.le_iff_toNat_le, ← UInt8.toNat_inj, UInt8.reduceToNat]
    omega

theorem decimal_ne_nil : decimal x ≠ [] := by
  unfold decimal
  split
  · exact List.cons_ne_nil _ _
  · exact digits_ne_nil

/-- No space is skipped before a number. -/
theorem dropWhile_isSpace_decimal (x : ℤ) :
    (decimal x ++ rest).dropWhile isSpace = decimal x ++ rest := by
  obtain ⟨c, cs, hc⟩ := List.exists_cons_of_ne_nil (decimal_ne_nil (x := x))
  have hspace := isSpace_eq_false
    (eq_minus_or_isDigit (x := x) (by rw [hc]; exact List.mem_cons_self))
  rw [hc, List.cons_append, List.dropWhile_cons_of_neg (by simp [hspace])]

theorem vsscanf_char (fmt : List Directive) (str : List Byte) :
    vsscanf (word.map .char ++ fmt) (word ++ str) = vsscanf fmt str := by
  induction word with
  | nil => rfl
  | cons c word ih => simpa [vsscanf] using ih

/-- **The round trip**: a word, a space and what `%d` prints is scanned as the number. -/
theorem vsscanf_wordInt (word : List Byte) (x : CInt) (h : ∀ c ∈ rest.head?, isDigit c = false) :
    vsscanf (wordInt word) (word ++ 32 :: (decimal x.1 ++ rest)) = [x] := by
  have hspace : (32 :: (decimal x.1 ++ rest)).dropWhile isSpace = decimal x.1 ++ rest := by
    rw [List.dropWhile_cons_of_pos rfl, dropWhile_isSpace_decimal]
  obtain ⟨c, cs, hc⟩ := List.exists_cons_of_ne_nil (decimal_ne_nil (x := x.1))
  have hscan := scanInt_decimal x h
  have hdrop : (decimal x.1 ++ rest).dropWhile isSpace = decimal x.1 ++ rest :=
    dropWhile_isSpace_decimal x.1
  rw [wordInt, vsscanf_char, vsscanf, hspace]
  rw [hc, List.cons_append] at hscan hdrop ⊢
  rw [vsscanf, hdrop, hscan]
  rfl

end DsoFifo.C
