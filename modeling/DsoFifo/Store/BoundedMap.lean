import Mathlib.Data.Finmap
import Mathlib.Data.Finset.Card
import Mathlib.Data.List.Find

/-!
# Finite maps with a capacity, kept in cells

`create` and `remove` are what one can do to a finite map with room for `cap` keys: a key
is not created twice, and not when the map is full.

A program that keeps such a map in cells and finds a key by going through the list of the
cells in use *represents* it: `Represents es key val m`.  The lemmas say which operations
on the list of cells represent which operations on the map.
-/

universe u v w

namespace DsoFifo.BoundedMap

variable {ι : Type u} {κ : Type v} {ν : Type w} [DecidableEq κ]

/-- Finite maps from keys to values. -/
abbrev Map (κ : Type v) (ν : Type w) : Type (max v w) := Finmap fun _ : κ ↦ ν

/-- A new key, if there is room and it is not there. -/
def create (cap : ℕ) (m : Map κ ν) (k : κ) (v : ν) : Map κ ν × Bool :=
  if m.keys.card < cap ∧ k ∉ m then (m.insert k v, true) else (m, false)

/-- A key goes, if it is there. -/
def remove (m : Map κ ν) (k : κ) : Map κ ν × Bool :=
  if k ∈ m then (m.erase k, true) else (m, false)

/-! ## Maps in cells -/

/-- The cells `es`, with these keys and values, hold the entries of `m`. -/
structure Represents (es : List ι) (key : ι → κ) (val : ι → ν) (m : Map κ ν) : Prop where
  nodup : (es.map key).Nodup
  lookup_eq : ∀ k, m.lookup k = (es.find? fun e ↦ key e = k).map val

variable {es : List ι} {key : ι → κ} {val : ι → ν} {m : Map κ ν}

theorem represents_empty : Represents [] key val (∅ : Map κ ν) :=
  ⟨List.nodup_nil, fun _ ↦ rfl⟩

namespace Represents

theorem mem_iff (h : Represents es key val m) {k : κ} : k ∈ m ↔ ∃ e ∈ es, key e = k := by
  rw [← Finmap.lookup_isSome, h.lookup_eq, Option.isSome_map, List.find?_isSome]
  simp

/-- There are as many cells as keys. -/
theorem card_keys (h : Represents es key val m) : m.keys.card = es.length := by
  have hkeys : m.keys = (es.map key).toFinset := by
    ext k
    rw [Finmap.mem_keys, h.mem_iff]
    simp
  rw [hkeys, List.toFinset_card_of_nodup h.nodup, List.length_map]

/-- What is in a cell is what the map holds. -/
theorem lookup_key (h : Represents es key val m) {e : ι} (he : e ∈ es) :
    m.lookup (key e) = some (val e) := by
  rw [h.lookup_eq]
  obtain ⟨e', he', heq⟩ : ∃ e', es.find? (fun e' ↦ key e' = key e) = some e' ∧ e' = e := by
    cases hf : es.find? fun e' ↦ key e' = key e with
    | none => simpa using List.find?_eq_none.mp hf e he
    | some e' =>
        refine ⟨e', rfl, List.inj_on_of_nodup_map h.nodup (List.mem_of_find?_eq_some hf) he ?_⟩
        simpa using List.find?_some hf
  rw [he', heq]
  rfl

/-- **A fresh cell** in front. -/
theorem cons (h : Represents es key val m) {e : ι} {key' : ι → κ} {val' : ι → ν}
    (hkey : ∀ e' ∈ es, key' e' = key e') (hval : ∀ e' ∈ es, val' e' = val e')
    (hfresh : key' e ∉ m) : Represents (e :: es) key' val' (m.insert (key' e) (val' e)) := by
  have hmap : es.map key' = es.map key := List.map_congr_left hkey
  refine ⟨?_, fun k ↦ ?_⟩
  · rw [List.map_cons, hmap, List.nodup_cons]
    refine ⟨fun hmem ↦ hfresh (h.mem_iff.mpr ?_), h.nodup⟩
    simpa using hmem
  · rw [List.find?_cons]
    by_cases hk : key' e = k
    · subst hk
      simp
    · have hfind : es.find? (fun e' ↦ key' e' = k) = es.find? fun e' ↦ key e' = k :=
        List.find?_congr fun e' he' ↦ by rw [hkey e' he']
      simp only [hk, decide_false]
      rw [Finmap.lookup_insert_of_ne m (Ne.symm hk), h.lookup_eq, hfind]
      cases hf : es.find? fun e' ↦ key e' = k with
      | none => rfl
      | some e' => simp [hval e' (List.mem_of_find?_eq_some hf)]

/-- **A cell is taken out.** -/
theorem erase [DecidableEq ι] (h : Represents es key val m) {e : ι} (he : e ∈ es) :
    Represents (es.erase e) key val (m.erase (key e)) := by
  have hes : es.Nodup := h.nodup.of_map
  refine ⟨h.nodup.sublist (List.Sublist.map key List.erase_sublist), fun k ↦ ?_⟩
  by_cases hk : k = key e
  · subst hk
    rw [Finmap.lookup_erase]
    have hnone : (es.erase e).find? (fun e' ↦ key e' = key e) = none := by
      refine List.find?_eq_none.mpr fun e' he' ↦ ?_
      obtain ⟨hne, he'⟩ := hes.mem_erase_iff.mp he'
      simpa using fun heq ↦ hne (List.inj_on_of_nodup_map h.nodup he' he heq)
    rw [hnone]
    rfl
  · rw [Finmap.lookup_erase_ne hk, h.lookup_eq, hes.erase_eq_filter, List.find?_filter]
    refine congrArg _ (List.find?_congr fun e' _ ↦ ?_)
    by_cases heq : e' = e
    · simp [heq, Ne.symm hk]
    · simp [heq]

end Represents

end DsoFifo.BoundedMap
