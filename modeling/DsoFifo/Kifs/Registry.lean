import DsoFifo.Kifs.Slots

/-!
# The registry as a finite map

From outside, the registry is a map from names to callbacks and data, with room for ten:
two names are the same if they agree on their first 50 bytes.  `Call.refer` is what the
calls mean on such a map, `kifs_refines_map` that the registry does just that, and
`slots_conserved` that it never loses a slot on the way.
-/

namespace DsoFifo.Kifs

open DsoFifo.C DsoFifo.BoundedMap Function

variable {ρ ω δ : Type}

/-- The calls of the registry. -/
inductive Call (ρ ω δ : Type) where
  | create (name : CString) (b : Binding ρ ω δ)
  | remove (name : CString)
  | /-- The lookup in `sys_kifs`. -/ lookup (name : CString)

/-- What a call returns: whether there is a new entry, the value of `remove_kifs_entry`,
and what the entry that was looked up holds. -/
inductive Answer (ρ ω δ : Type) where
  | created (ok : Bool)
  | removed (v : ℤ)
  | found (b : Option (Binding ρ ω δ))
deriving DecidableEq

/-- The call failed. -/
def Answer.Failed : Answer ρ ω δ → Prop
  | .created ok => ok = false
  | .removed v => v ≠ 0
  | .found _ => False

/-- A call of the registry. -/
def Call.run (s : Registry ρ ω δ) : Call ρ ω δ → Option (Registry ρ ω δ × Answer ρ ω δ)
  | .create name b => (createKifsEntry s name.mem b).map fun (t, e) ↦ (t, .created e.isSome)
  | .remove name => (removeKifsEntry s name.mem).map fun (t, v) ↦ (t, .removed v)
  | .lookup name => (lookupKifs s name.mem).map fun e ↦ (s, .found (e.map s.binding))

/-- What a call means. -/
def Call.refer (m : Map (List Byte) (Binding ρ ω δ)) :
    Call ρ ω δ → Map (List Byte) (Binding ρ ω δ) × Answer ρ ω δ
  | .create name b =>
    let (m', ok) := BoundedMap.create maxKifsEntry m (nameKey name) b
    (m', .created ok)
  | .remove name =>
    let (m', ok) := BoundedMap.remove m (nameKey name)
    (m', .removed (if ok then 0 else -einval))
  | .lookup name => (m, .found (m.lookup (nameKey name)))

/-- The map of the entries that `kifs.c` creates itself. -/
def builtinMap (c : Builtin ρ ω) : Map (List Byte) (Binding ρ ω δ) :=
  ((∅ : Map _ _).insert (nameKey listName) c.list).insert (nameKey clipboardName) c.clipboard

/-! ## One call -/

/-- The registry holds the entries of the map. -/
structure Holds (s : Registry ρ ω δ) (m : Map (List Byte) (Binding ρ ω δ)) : Prop where
  sound : Sound s
  represents : Represents s.entryList s.key s.binding m

variable {s : Registry ρ ω δ} {m : Map (List Byte) (Binding ρ ω δ)} {name : CString}

theorem Holds.create {b : Binding ρ ω δ} {r : Registry ρ ω δ × Option Slot} (h : Holds s m)
    (hr : Creates s name b r) :
    Holds r.1 (BoundedMap.create maxKifsEntry m (nameKey name) b).1 ∧
      r.2.isSome = (BoundedMap.create maxKifsEntry m (nameKey name) b).2 := by
  have hlen := h.sound.length_le
  have hcard := h.represents.card_keys
  unfold BoundedMap.create
  cases hr with
  | full hfree =>
      rw [hfree, List.length_nil] at hlen
      rw [if_neg fun hc ↦ by omega]
      exact ⟨h, rfl⟩
  | taken he hkey =>
      rw [if_neg fun hc ↦ hc.2 (h.represents.mem_iff.mpr ⟨_, he, hkey⟩)]
      exact ⟨h, rfl⟩
  | @fresh e free hfree hfresh =>
      have hnot : e ∉ s.entryList := h.sound.notMem_of_free (by rw [hfree]; exact List.mem_cons_self)
      have hnew : nameKey name ∉ m := fun hmem ↦ by
        obtain ⟨e', he', hkey⟩ := h.represents.mem_iff.mp hmem
        exact hfresh e' he' hkey
      rw [hfree, List.length_cons] at hlen
      rw [if_pos ⟨by omega, hnew⟩]
      refine ⟨⟨h.sound.register hfree hfresh b, ?_⟩, rfl⟩
      have hne : ∀ e' ∈ s.entryList, e' ≠ e := fun e' he' heq ↦ hnot (heq ▸ he')
      have hcons : Represents (e :: s.entryList) (s.register e free name b).key
          (s.register e free name b).binding (m.insert _ _) :=
        h.represents.cons (fun e' he' ↦ s.key_register_of_ne free name b (hne e' he'))
          (fun e' he' ↦ s.binding_register_of_ne free name b (hne e' he'))
          (by rwa [s.key_register_self])
      rwa [s.key_register_self, s.binding_register_self] at hcons

theorem Holds.remove {r : Registry ρ ω δ × ℤ} (h : Holds s m) (hr : Removes s name r) :
    Holds r.1 (BoundedMap.remove m (nameKey name)).1 ∧
      r.2 = if (BoundedMap.remove m (nameKey name)).2 then 0 else -einval := by
  unfold BoundedMap.remove
  cases hr with
  | absent hno =>
      rw [if_neg fun hmem ↦ by
        obtain ⟨e, he, hkey⟩ := h.represents.mem_iff.mp hmem
        exact hno e he hkey]
      exact ⟨h, rfl⟩
  | @found e he hkey =>
      rw [if_pos (h.represents.mem_iff.mpr ⟨e, he, hkey⟩), ← hkey]
      exact ⟨⟨h.sound.unregister he, h.represents.erase he⟩, rfl⟩

theorem Holds.lookup (h : Holds s m) (name : CString) :
    ∃ e, lookupKifs s name.mem = some e ∧ e.map s.binding = m.lookup (nameKey name) :=
  ⟨_, h.sound.lookupKifs_eq name.mem, by rw [cut_name, h.represents.lookup_eq]⟩

/-- **Every call** does to the registry what it means. -/
theorem lockstep_holds :
    Lockstep (Holds : Registry ρ ω δ → _ → Prop) Call.run Call.refer := by
  intro s m i h
  cases i with
  | create name b =>
      obtain ⟨r, hrun, hr⟩ := h.sound.creates name b
      obtain ⟨hh, hok⟩ := h.create hr
      exact ⟨r.1, by simp only [Call.run, hrun, Option.map_some, hok, Call.refer], hh⟩
  | remove name =>
      obtain ⟨r, hrun, hr⟩ := h.sound.removes name
      obtain ⟨hh, hv⟩ := h.remove hr
      exact ⟨r.1, by simp only [Call.run, hrun, Option.map_some, hv, Call.refer], hh⟩
  | lookup name =>
      obtain ⟨e, hrun, he⟩ := h.lookup name
      exact ⟨s, by simp only [Call.run, hrun, Option.map_some, he, Call.refer], h⟩

/-- A call that fails leaves the registry as it is. -/
theorem Sound.eq_of_failed {t : Registry ρ ω δ} {i : Call ρ ω δ} {o : Answer ρ ω δ}
    (h : Sound s) (hrun : i.run s = some (t, o)) (hfailed : o.Failed) : t = s := by
  cases i with
  | create name b =>
      obtain ⟨r, hr, hc⟩ := h.creates name b
      simp only [Call.run, hr, Option.map_some, Option.some.injEq, Prod.mk.injEq] at hrun
      obtain ⟨rfl, rfl⟩ := hrun
      cases hc with
      | full | taken => rfl
      | fresh => cases hfailed
  | remove name =>
      obtain ⟨r, hr, hc⟩ := h.removes name
      simp only [Call.run, hr, Option.map_some, Option.some.injEq, Prod.mk.injEq] at hrun
      obtain ⟨rfl, rfl⟩ := hrun
      cases hc with
      | absent => rfl
      | found => exact absurd rfl hfailed
  | lookup name =>
      simp only [Call.run, Option.map_eq_some_iff, Prod.mk.injEq] at hrun
      obtain ⟨e, -, rfl, rfl⟩ := hrun
      rfl

/-! ## Sequences of calls -/

theorem nameKey_listName_ne : nameKey clipboardName ≠ nameKey listName := by decide

theorem lookup_builtinMap {c : Builtin ρ ω} {k : List Byte} {b : Binding ρ ω δ}
    (h : (builtinMap c).lookup k = some b) :
    k = nameKey clipboardName ∧ b = c.clipboard ∨ k = nameKey listName ∧ b = c.list := by
  unfold builtinMap at h
  by_cases hclip : k = nameKey clipboardName
  · rw [hclip, Finmap.lookup_insert] at h
    exact .inl ⟨hclip, (Option.some.inj h).symm⟩
  · rw [Finmap.lookup_insert_of_ne _ hclip] at h
    by_cases hlist : k = nameKey listName
    · rw [hlist, Finmap.lookup_insert] at h
      exact .inr ⟨hlist, (Option.some.inj h).symm⟩
    · rw [Finmap.lookup_insert_of_ne _ hlist, Finmap.lookup_empty] at h
      cases h

/-- The registry that `init_kifs_entry_set` leaves. -/
theorem exists_holds_init (c : Builtin ρ ω) :
    ∃ s : Registry ρ ω δ, initKifsEntrySet c = some s ∧ Holds s (builtinMap c) := by
  have h₀ : Holds (zeroed : Registry ρ ω δ) ∅ := ⟨sound_zeroed, represents_empty⟩
  obtain ⟨r₁, hrun₁, hr₁⟩ := h₀.sound.creates listName c.list
  have h₁ := (h₀.create hr₁).1
  obtain ⟨r₂, hrun₂, hr₂⟩ := h₁.sound.creates clipboardName c.clipboard
  have h₂ := (h₁.create hr₂).1
  have hfst : (BoundedMap.create maxKifsEntry (∅ : Map (List Byte) (Binding ρ ω δ))
      (nameKey listName) c.list).1 = (∅ : Map _ _).insert (nameKey listName) c.list := by
    rw [BoundedMap.create, if_pos ⟨by simp [maxKifsEntry], Finmap.notMem_empty⟩]
  have hkeys : ((∅ : Map (List Byte) (Binding ρ ω δ)).insert (nameKey listName) c.list).keys =
      {nameKey listName} := by
    ext k
    simp [Finmap.mem_keys, Finmap.notMem_empty]
  rw [hfst, BoundedMap.create, if_pos ⟨by rw [hkeys]; decide, by
    simpa [Finmap.notMem_empty] using nameKey_listName_ne⟩] at h₂
  refine ⟨r₂.1, ?_, h₂⟩
  simp only [initKifsEntrySet, hrun₁, Option.bind_some, hrun₂, Option.map_some]

/-- **The registry refines a bounded finite map.**  After `init_kifs_entry_set`, every
sequence of creations, removals and lookups gets the answers that a map with room for ten
names gives; and a call that fails changes nothing. -/
theorem kifs_refines_map (c : Builtin ρ ω) (calls : List (Call ρ ω δ)) :
    ∃ s₀ s, initKifsEntrySet c = some s₀ ∧
      execute Call.run s₀ calls = some (s, (transduce Call.refer (builtinMap c) calls).2) ∧
      ∀ (i : Call ρ ω δ) t o, i.run s = some (t, o) → o.Failed → t = s := by
  obtain ⟨s₀, hinit, h₀⟩ : ∃ s : Registry ρ ω δ, _ ∧ Holds s _ := exists_holds_init c
  obtain ⟨s, hrun, h⟩ := lockstep_holds.execute_eq h₀ calls
  exact ⟨s₀, s, hinit, hrun, fun i t o ↦ h.sound.eq_of_failed⟩

/-- **Slots are conserved.**  After `init_kifs_entry_set` and any sequence of calls, every
slot is in one of the two lists and occurs there once, `num_entry` counts the entries, and
`strncmp` tells the names of any two of them apart. -/
theorem slots_conserved (c : Builtin ρ ω) (calls : List (Call ρ ω δ)) :
    ∃ s₀ s os, initKifsEntrySet c = some s₀ ∧ execute Call.run s₀ calls = some (s, os) ∧
      (∀ e, s.entryList.count e + s.freeList.count e = 1) ∧
      s.numEntry = s.entryList.length ∧
      s.entryList.Pairwise fun e e' ↦ ∃ r, strncmp (s.entryBuff e).entryname
        (s.entryBuff e').entryname maxKifsEntryNameSize = some r ∧ r ≠ 0 := by
  obtain ⟨s₀, hinit, h₀⟩ : ∃ s : Registry ρ ω δ, _ ∧ Holds s _ := exists_holds_init c
  obtain ⟨s, hrun, h, -⟩ := lockstep_holds.execute_eq h₀ calls
  refine ⟨s₀, s, _, hinit, hrun, fun e ↦ ?_, h.numEntry_eq, ?_⟩
  · rw [← List.count_append, h.perm.count_eq]
    exact List.count_eq_one_of_mem (List.nodup_finRange _) (List.mem_finRange e)
  · refine (List.pairwise_map.mp h.nodup_key).imp fun {e e'} hne ↦ ?_
    obtain ⟨r, hr, hiff⟩ := strncmp_eq_zero_iff (h.bounded e) (h.bounded e')
    exact ⟨r, hr, fun hz ↦ hne (hiff.mp hz)⟩

end DsoFifo.Kifs
