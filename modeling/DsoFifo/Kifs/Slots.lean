import DsoFifo.Kifs.Basic
import DsoFifo.Transition.Execute

/-!
# Slots

Every slot is in one of the two lists, once; the counter counts the entries in use, and
no two of these have the same name.  `Sound` is that invariant.  `creates` and `removes`
say once and for all which ways the two functions that change the registry can go.
-/

namespace DsoFifo.Kifs

open DsoFifo.C Function

variable {ρ ω δ : Type}

/-- What the registry distinguishes of a name: its first 50 bytes. -/
def nameKey (name : CString) : List Byte := name.bytes.take maxKifsEntryNameSize

/-- The name in a slot. -/
def KifsEntry.key (x : KifsEntry ρ ω δ) : List Byte := cut maxKifsEntryNameSize x.entryname

/-- The name in a slot. -/
def Registry.key (s : Registry ρ ω δ) (e : Slot) : List Byte := (s.entryBuff e).key

/-- What is registered in a slot. -/
def Registry.binding (s : Registry ρ ω δ) (e : Slot) : Binding ρ ω δ := (s.entryBuff e).toBinding

theorem cut_name (name : CString) : cut maxKifsEntryNameSize name.mem = nameKey name :=
  name.cut_mem

theorem length_nameKey_le (name : CString) : (nameKey name).length ≤ maxKifsEntryNameSize :=
  List.length_take_le ..

/-- The representation invariant. -/
structure Sound (s : Registry ρ ω δ) : Prop where
  perm : (s.entryList ++ s.freeList).Perm (List.finRange maxKifsEntry)
  numEntry_eq : s.numEntry = s.entryList.length
  length_entryname : ∀ e, (s.entryBuff e).entryname.length = maxKifsEntryNameSize
  nodup_key : (s.entryList.map s.key).Nodup

theorem Sound.length_le {s : Registry ρ ω δ} (h : Sound s) :
    s.entryList.length + s.freeList.length = maxKifsEntry := by
  rw [← List.length_append, h.perm.length_eq, List.length_finRange]

theorem Sound.bounded {s : Registry ρ ω δ} (h : Sound s) (e : Slot) :
    Bounded maxKifsEntryNameSize (s.entryBuff e).entryname := .inl (h.length_entryname e).ge

/-! ## Going through the list -/

/-- The loop finds the first entry that passes. -/
theorem firstMatch_eq {entryBuff : Slot → KifsEntry ρ ω δ} {test : List Byte → Option ℤ}
    {p : Slot → Bool} {es : List Slot}
    (h : ∀ e ∈ es, ∃ r, test (entryBuff e).entryname = some r ∧ (r = 0 ↔ p e = true)) :
    firstMatch entryBuff test es = some (es.find? p) := by
  induction es with
  | nil => rfl
  | cons e es ih =>
      obtain ⟨r, hr, hiff⟩ := h e List.mem_cons_self
      rw [firstMatch, hr, Option.bind_some, List.find?_cons]
      cases hp : p e with
      | true => rw [if_pos (hiff.mpr hp)]
      | false =>
          rw [if_neg fun hz ↦ by rw [hiff.mp hz] at hp; cases hp]
          exact ih fun e' he' ↦ h e' (List.mem_cons_of_mem e he')

/-- The three comparisons of names, stored against given, given against stored, and stored
against `kbuff`, all find the entry with the key. -/
theorem Sound.firstMatch_create {s : Registry ρ ω δ} (h : Sound s) (name : CString) :
    firstMatch s.entryBuff (strncmp · name.mem maxKifsEntryNameSize) s.entryList =
      some (s.entryList.find? fun e ↦ s.key e = nameKey name) := by
  refine firstMatch_eq fun e _ ↦ ?_
  obtain ⟨r, hr, hiff⟩ := strncmp_eq_zero_iff (h.bounded e) name.bounded_mem
  rw [cut_name] at hiff
  exact ⟨r, hr, hiff.trans decide_eq_true_iff.symm⟩

theorem Sound.firstMatch_remove {s : Registry ρ ω δ} (h : Sound s) (name : CString) :
    firstMatch s.entryBuff (strncmp name.mem · maxKifsEntryNameSize) s.entryList =
      some (s.entryList.find? fun e ↦ s.key e = nameKey name) := by
  refine firstMatch_eq fun e _ ↦ ?_
  obtain ⟨r, hr, hiff⟩ := strncmp_eq_zero_iff name.bounded_mem (h.bounded e)
  rw [cut_name] at hiff
  exact ⟨r, hr, hiff.trans (eq_comm.trans decide_eq_true_iff.symm)⟩

theorem Sound.lookupKifs_eq {s : Registry ρ ω δ} (h : Sound s) (entryName : List Byte) :
    lookupKifs s entryName =
      some (s.entryList.find? fun e ↦ s.key e = cut maxKifsEntryNameSize entryName) := by
  refine firstMatch_eq fun e _ ↦ ?_
  have hbuff : Bounded maxKifsEntryNameSize
      (pad maxKifsEntryNameSize (cut maxKifsEntryNameSize entryName)) := bounded_pad length_cut_le
  rw [kbuff, strncpyFromUser_eq]
  obtain ⟨r, hr, hiff⟩ := strncmp_eq_zero_iff (h.bounded e) hbuff
  rw [cut_pad_cut] at hiff
  exact ⟨r, hr, hiff.trans decide_eq_true_iff.symm⟩

/-! ## Creating and removing -/

/-- The registry after the slot `e`, the first of `e :: free`, is taken for a name. -/
def Registry.register (s : Registry ρ ω δ) (e : Slot) (free : List Slot) (name : CString)
    (b : Binding ρ ω δ) : Registry ρ ω δ where
  entryBuff := update s.entryBuff e
    { b with entryname := pad maxKifsEntryNameSize (nameKey name) }
  entryList := e :: s.entryList
  freeList := free
  numEntry := s.numEntry + 1

/-- The registry after the slot `e` is given back. -/
def Registry.unregister (s : Registry ρ ω δ) (e : Slot) : Registry ρ ω δ where
  entryBuff := s.entryBuff
  entryList := s.entryList.erase e
  freeList := e :: s.freeList
  numEntry := s.numEntry - 1

/-- Every way `create_kifs_entry` goes. -/
inductive Creates (s : Registry ρ ω δ) (name : CString) (b : Binding ρ ω δ) :
    Registry ρ ω δ × Option Slot → Prop
  | full : s.freeList = [] → Creates s name b (s, none)
  | taken {e : Slot} : e ∈ s.entryList → s.key e = nameKey name → Creates s name b (s, none)
  | fresh {e : Slot} {free : List Slot} : s.freeList = e :: free →
      (∀ e' ∈ s.entryList, s.key e' ≠ nameKey name) →
      Creates s name b (s.register e free name b, some e)

/-- Every way `remove_kifs_entry` goes. -/
inductive Removes (s : Registry ρ ω δ) (name : CString) : Registry ρ ω δ × ℤ → Prop
  | absent : (∀ e ∈ s.entryList, s.key e ≠ nameKey name) → Removes s name (s, -einval)
  | found {e : Slot} : e ∈ s.entryList → s.key e = nameKey name →
      Removes s name (s.unregister e, 0)

theorem Sound.creates {s : Registry ρ ω δ} (h : Sound s) (name : CString) (b : Binding ρ ω δ) :
    ∃ r, createKifsEntry s name.mem b = some r ∧ Creates s name b r := by
  unfold createKifsEntry
  cases hfree : s.freeList with
  | nil => exact ⟨_, rfl, .full hfree⟩
  | cons e free =>
      dsimp only
      rw [h.firstMatch_create, Option.bind_some]
      cases hf : s.entryList.find? fun e ↦ s.key e = nameKey name with
      | some e' =>
          exact ⟨_, rfl, .taken (List.mem_of_find?_eq_some hf) (by simpa using List.find?_some hf)⟩
      | none =>
          have hcount := h.length_le
          have hnum : toUnsigned ((s.numEntry : ℤ) + 1) = s.numEntry + 1 := by
            have := h.numEntry_eq
            unfold maxKifsEntry at hcount
            unfold toUnsigned
            omega
          refine ⟨_, ?_, .fresh hfree fun e' he' ↦ ?_⟩
          · simp only [strncpy_eq name.bounded_mem, Option.map_some, cut_name, hnum, listAdd,
              listDel, List.erase_cons_head]
            rfl
          · simpa using List.find?_eq_none.mp hf e' he'

theorem Sound.removes {s : Registry ρ ω δ} (h : Sound s) (name : CString) :
    ∃ r, removeKifsEntry s name.mem = some r ∧ Removes s name r := by
  unfold removeKifsEntry
  rw [h.firstMatch_remove, Option.map_some]
  cases hf : s.entryList.find? fun e ↦ s.key e = nameKey name with
  | some e =>
      have he := List.mem_of_find?_eq_some hf
      have hcount := h.length_le
      have hpos := List.length_pos_of_mem he
      have hnum : toUnsigned ((s.numEntry : ℤ) - 1) = s.numEntry - 1 := by
        have := h.numEntry_eq
        unfold maxKifsEntry at hcount
        unfold toUnsigned
        omega
      refine ⟨_, ?_, .found he (by simpa using List.find?_some hf)⟩
      simp only [hnum]
      rfl
  | none => exact ⟨_, rfl, .absent fun e he ↦ by simpa using List.find?_eq_none.mp hf e he⟩

/-! ## The invariant -/

theorem Sound.notMem_of_free {s : Registry ρ ω δ} (h : Sound s) {e : Slot} (he : e ∈ s.freeList) :
    e ∉ s.entryList := by
  have hnodup := h.perm.nodup_iff.mpr (List.nodup_finRange _)
  exact fun he' ↦ (List.nodup_append.mp hnodup).2.2 e he' e he rfl

theorem Registry.key_register_self (s : Registry ρ ω δ) (e : Slot) (free : List Slot)
    (name : CString) (b : Binding ρ ω δ) : (s.register e free name b).key e = nameKey name := by
  simp only [Registry.key, Registry.register, update_self, KifsEntry.key]
  exact cut_pad (length_nameKey_le name) fun c hc ↦ name.ne_zero c (List.mem_of_mem_take hc)

theorem Registry.binding_register_self (s : Registry ρ ω δ) (e : Slot) (free : List Slot)
    (name : CString) (b : Binding ρ ω δ) : (s.register e free name b).binding e = b := by
  simp only [Registry.binding, Registry.register, update_self]

theorem Registry.entryBuff_register_of_ne (s : Registry ρ ω δ) {e e' : Slot} (free : List Slot)
    (name : CString) (b : Binding ρ ω δ) (hne : e' ≠ e) :
    (s.register e free name b).entryBuff e' = s.entryBuff e' := update_of_ne hne _ _

theorem Registry.key_register_of_ne (s : Registry ρ ω δ) {e e' : Slot} (free : List Slot)
    (name : CString) (b : Binding ρ ω δ) (hne : e' ≠ e) :
    (s.register e free name b).key e' = s.key e' :=
  congrArg KifsEntry.key (s.entryBuff_register_of_ne free name b hne)

theorem Registry.binding_register_of_ne (s : Registry ρ ω δ) {e e' : Slot} (free : List Slot)
    (name : CString) (b : Binding ρ ω δ) (hne : e' ≠ e) :
    (s.register e free name b).binding e' = s.binding e' :=
  congrArg KifsEntry.toBinding (s.entryBuff_register_of_ne free name b hne)

theorem Sound.register {s : Registry ρ ω δ} (h : Sound s) {e : Slot} {free : List Slot}
    (hfree : s.freeList = e :: free) {name : CString}
    (hfresh : ∀ e' ∈ s.entryList, s.key e' ≠ nameKey name) (b : Binding ρ ω δ) :
    Sound (s.register e free name b) := by
  have hnot : e ∉ s.entryList := h.notMem_of_free (by rw [hfree]; exact List.mem_cons_self)
  refine ⟨?_, ?_, fun e' ↦ ?_, ?_⟩
  · have hperm := h.perm
    rw [hfree] at hperm
    exact List.perm_middle.symm.trans hperm
  · simp [Registry.register, h.numEntry_eq]
  · by_cases he' : e' = e
    · subst he'
      simpa [Registry.register] using length_pad (length_nameKey_le name)
    · rw [s.entryBuff_register_of_ne free name b he']
      exact h.length_entryname e'
  · have hmap : s.entryList.map (s.register e free name b).key = s.entryList.map s.key :=
      List.map_congr_left fun e' he' ↦
        s.key_register_of_ne free name b fun heq ↦ hnot (heq ▸ he')
    rw [show (s.register e free name b).entryList = e :: s.entryList from rfl, List.map_cons, hmap,
      s.key_register_self, List.nodup_cons]
    refine ⟨fun hmem ↦ ?_, h.nodup_key⟩
    obtain ⟨e', he', heq⟩ := List.mem_map.mp hmem
    exact hfresh e' he' heq

theorem Sound.unregister {s : Registry ρ ω δ} (h : Sound s) {e : Slot} (he : e ∈ s.entryList) :
    Sound (s.unregister e) := by
  refine ⟨?_, ?_, h.length_entryname, h.nodup_key.sublist (List.Sublist.map _ List.erase_sublist)⟩
  · have hperm : (s.entryList.erase e ++ e :: s.freeList).Perm (s.entryList ++ s.freeList) :=
      List.perm_middle.trans ((List.perm_cons_erase he).symm.append_right s.freeList)
    exact hperm.trans h.perm
  · simp [Registry.unregister, h.numEntry_eq, List.length_erase_of_mem he]

theorem Creates.sound {s : Registry ρ ω δ} {name : CString} {b : Binding ρ ω δ}
    {r : Registry ρ ω δ × Option Slot} (h : Creates s name b r) (hs : Sound s) : Sound r.1 := by
  cases h with
  | full | taken => exact hs
  | fresh hfree hfresh => exact hs.register hfree hfresh b

theorem Removes.sound {s : Registry ρ ω δ} {name : CString} {r : Registry ρ ω δ × ℤ}
    (h : Removes s name r) (hs : Sound s) : Sound r.1 := by
  cases h with
  | absent => exact hs
  | found he => exact hs.unregister he

theorem sound_zeroed : Sound (zeroed : Registry ρ ω δ) :=
  ⟨by simp only [zeroed]; decide, rfl, fun _ ↦ List.length_replicate, List.nodup_nil⟩

end DsoFifo.Kifs
