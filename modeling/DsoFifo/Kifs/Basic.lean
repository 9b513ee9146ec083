import DsoFifo.C.Strings
import DsoFifo.Store.BoundedMap
import Mathlib.Data.List.FinRange

/-!
# The registry of kifs entries

`kifs.c`: ten entries in an array, each of them in one of two lists, `entry_list` of the
entries in use and `free_list` of the others.  The lists of `list.h` are lists of slots,
the indices of the array; what the pointer `free_list.next` points to is the head of one.

The callbacks and the data of an entry are pointers that the registry only stores, so
their types `ρ`, `ω` and `δ` are arbitrary; `none` is `NULL`.  A function returns `none`
when it would read a name beyond its end.
-/

namespace DsoFifo.Kifs

open DsoFifo.C Function

/-- `MAX_KIFS_ENTRY_NAME_SIZE`. -/
def maxKifsEntryNameSize : ℕ := 50

/-- `MAX_KIFS_ENTRY`. -/
def maxKifsEntry : ℕ := 10

/-- `EPERM`. -/
def eperm : ℤ := 1

/-- `ENOMEM`. -/
def enomem : ℤ := 12

/-- `EINVAL`. -/
def einval : ℤ := 22

/-- `ENOSPC`. -/
def enospc : ℤ := 28

/-- The elements of `entry_buff`. -/
abbrev Slot : Type := Fin maxKifsEntry

/-- What a name is registered with. -/
structure Binding (ρ ω δ : Type) where
  readKifs : Option ρ
  writeKifs : Option ω
  data : Option δ
deriving DecidableEq

/-- `kifs_entry_t`, without its links. -/
structure KifsEntry (ρ ω δ : Type) extends Binding ρ ω δ where
  /-- An array of `MAX_KIFS_ENTRY_NAME_SIZE` bytes. -/
  entryname : List Byte
deriving DecidableEq

/-- The globals of the registry. -/
structure Registry (ρ ω δ : Type) where
  entryBuff : Slot → KifsEntry ρ ω δ
  entryList : List Slot
  freeList : List Slot
  numEntry : ℕ

variable {ρ ω δ : Type}

/-! ## Lists -/

/-- `list_add`. -/
def listAdd (x : Slot) (head : List Slot) : List Slot := x :: head

/-- `list_del`. -/
def listDel (x : Slot) (head : List Slot) : List Slot := head.erase x

/-- `list_for_each_entry(elem, …) if (test(elem->entryname) == 0) …`: the first entry that
passes the test. -/
def firstMatch (entryBuff : Slot → KifsEntry ρ ω δ) (test : List Byte → Option ℤ) :
    List Slot → Option (Option Slot)
  | [] => some none
  | e :: es =>
    (test (entryBuff e).entryname).bind fun r ↦
      if r = 0 then some (some e) else firstMatch entryBuff test es

/-! ## The functions of the registry -/

/-- `create_kifs_entry`; it returns the new entry or `NULL`. -/
def createKifsEntry (s : Registry ρ ω δ) (entryname : List Byte) (b : Binding ρ ω δ) :
    Option (Registry ρ ω δ × Option Slot) :=
  match s.freeList with
  | [] => some (s, none)
  | e :: _ =>
    (firstMatch s.entryBuff (strncmp · entryname maxKifsEntryNameSize) s.entryList).bind fun
      | some _ => some (s, none)  -- the name exists
      | none =>
        (strncpy entryname maxKifsEntryNameSize).map fun name ↦
          ({ entryBuff := update s.entryBuff e { b with entryname := name }
             entryList := listAdd e s.entryList
             freeList := listDel e s.freeList
             numEntry := toUnsigned (s.numEntry + 1) }, some e)

/-- `remove_kifs_entry`. -/
def removeKifsEntry (s : Registry ρ ω δ) (entryName : List Byte) : Option (Registry ρ ω δ × ℤ) :=
  (firstMatch s.entryBuff (strncmp entryName · maxKifsEntryNameSize) s.entryList).map fun
    | some e =>
      ({ s with
        entryList := listDel e s.entryList
        freeList := listAdd e s.freeList
        numEntry := toUnsigned (s.numEntry - 1) }, 0)
    | none => (s, -einval)

/-- `kbuff` of `sys_kifs`: NULs, and then what `strncpy_from_user` has copied. -/
def kbuff (entryName : List Byte) : List Byte :=
  blit (List.replicate maxKifsEntryNameSize 0) 0 (strncpyFromUser entryName maxKifsEntryNameSize)

/-- What `sys_kifs` does under the lock: it looks for the entry of that name. -/
def lookupKifs (s : Registry ρ ω δ) (entryName : List Byte) : Option (Option Slot) :=
  firstMatch s.entryBuff (strncmp · (kbuff entryName) maxKifsEntryNameSize) s.entryList

/-- The callbacks that `kifs.c` registers for its own entries. -/
structure Builtin (ρ ω : Type) where
  listKifs : ρ
  clipboardKifsRead : ρ
  clipboardKifsWrite : ω

/-- `"list"`. -/
def listName : CString := ⟨ascii ['l', 'i', 's', 't'], by decide +kernel⟩

/-- `"clipboard"`. -/
def clipboardName : CString :=
  ⟨ascii ['c', 'l', 'i', 'p', 'b', 'o', 'a', 'r', 'd'], by decide +kernel⟩

/-- What `"list"` is registered with. -/
def Builtin.list (c : Builtin ρ ω) : Binding ρ ω δ := ⟨some c.listKifs, none, none⟩

/-- What `"clipboard"` is registered with. -/
def Builtin.clipboard (c : Builtin ρ ω) : Binding ρ ω δ :=
  ⟨some c.clipboardKifsRead, some c.clipboardKifsWrite, none⟩

/-- The registry in `init_kifs_entry_set`, before the two entries are created. -/
def zeroed : Registry ρ ω δ where
  entryBuff := fun _ ↦
    { entryname := List.replicate maxKifsEntryNameSize 0
      readKifs := none
      writeKifs := none
      data := none }
  entryList := []
  freeList := (List.finRange maxKifsEntry).foldl (fun head x ↦ listAdd x head) []
  numEntry := 0

/-- `init_kifs_entry_set`. -/
def initKifsEntrySet (c : Builtin ρ ω) : Option (Registry ρ ω δ) :=
  (createKifsEntry zeroed listName.mem c.list).bind fun (s, _) ↦
    (createKifsEntry s clipboardName.mem c.clipboard).map fun (s, _) ↦ s

end DsoFifo.Kifs
