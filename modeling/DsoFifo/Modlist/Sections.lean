import DsoFifo.Modlist.Reading
import DsoFifo.Modlist.Shared
import DsoFifo.Store.Ledger

/-!
# The sections of the list module

What each step of a process does to the lock, to the account of the nodes and to what the
other processes rely on.  A process in a section knows how far it is: `Pc.Local` says what
the list looks like from there, relative to the list `l` that the sections before it have
made.  It survives what the others do (`Pc.Local.frame`), because they leave a node alone
that is not theirs (`Runs.heap_eq`), and the list unless they hold the lock exclusively
(`Runs.mylist_eq`).
-/

namespace DsoFifo.Modlist

open DsoFifo.C Function

variable {ι ν : Type}

/-! ## What a process has -/

/-- The section that changes the list and that a process is in. -/
def Pc.updating : Pc ν → Option Update
  | .listAdd _ data | .addUnlock data => some (.add data)
  | .sweep c _ _ _ => some (.sweep c)
  | _ => none

/-- How a process holds the lock. -/
def Pc.mode (readMode : Mode) : Pc ν → Option Mode
  | .listAdd _ _ | .addUnlock _ | .sweep _ _ _ _ => some .exclusive
  | .read _ _ _ => some readMode
  | _ => none

/-- The node that a process has allocated and not yet linked. -/
def Pc.unlinked : Pc ν → Option ν
  | .setData item _ | .addLock item _ | .listAdd item _ => some item
  | _ => none

/-- The private bin of a process. -/
def Pc.bin : Pc ν → List ν
  | .sweep _ _ _ bin | .clear _ _ bin => bin
  | _ => []

/-- The nodes of a process. -/
def Pc.own (pc : Pc ν) : List ν := pc.unlinked.toList ++ pc.bin

/-- The list has these values. -/
def Shared.Shows (s : Shared ν) (l : List CInt) : Prop := s.mylist.map s.heap = l.map some

/-- The change that a section has made, once it is over. -/
def Event.change : Event ν → Option Update
  | .done u => some u
  | _ => none

/-- What a process knows, when the sections that are over have made the list `l`. -/
def Pc.Local (s : Shared ν) (l : List CInt) : Pc ν → Prop
  | .addLock item data => s.heap item = some data
  | .listAdd item data => s.heap item = some data ∧ s.Shows l
  | .addUnlock data => s.Shows (data :: l)
  | .sweep c elem aux _ => ∃ visited rest done todo, Cursor s.mylist visited rest elem aux ∧
      l = done ++ todo ∧ visited.map s.heap = (done.filter (!c.test ·)).map some ∧
      rest.map s.heap = todo.map some
  | .clear elem aux bin => Cursor bin [] bin elem aux
  | .read b elem r => ∃ visited rest todo, s.mylist = visited ++ rest ∧ elem = rest.head? ∧
      s.Shows l ∧ rest.map s.heap = todo.map some ∧
      readLoop b.len r todo = procfileRead b.mem b.len l
  | _ => True

variable {readMode : Mode} {s s' : Shared ν} {l l' : List CInt} {pc : Pc ν} {o : Outcome ν}

theorem map_heap_congr {ns : List ν} {vs : List (Option CInt)} (h : ns.map s.heap = vs)
    (hheap : ∀ n ∈ ns, s'.heap n = s.heap n) : ns.map s'.heap = vs := by
  rw [List.map_congr_left hheap, h]

theorem Shared.Shows.congr (h : s.Shows l) (hlist : s'.mylist = s.mylist)
    (hheap : ∀ n ∈ s.mylist, s'.heap n = s.heap n) : s'.Shows l := by
  rw [Shared.Shows, hlist]
  exact map_heap_congr h hheap

/-- **Frame.**  What a process knows stays true while the others leave its nodes alone, and
the list as long as it holds the lock. -/
theorem Pc.Local.frame (readMode : Mode) (h : pc.Local s l) (hown : ∀ n ∈ pc.own, s'.heap n = s.heap n)
    (hsec : pc.mode readMode = none ∨
      s'.mylist = s.mylist ∧ l' = l ∧ ∀ n ∈ s.mylist, s'.heap n = s.heap n) :
    pc.Local s' l' := by
  cases pc with
  | addLock item data => exact (hown item (by simp [Pc.own, Pc.unlinked])).trans h
  | listAdd item data =>
      obtain ⟨hlist, rfl, hheap⟩ := hsec.resolve_left (by simp [Pc.mode])
      exact ⟨(hown item (by simp [Pc.own, Pc.unlinked])).trans h.1, h.2.congr hlist hheap⟩
  | addUnlock data =>
      obtain ⟨hlist, rfl, hheap⟩ := hsec.resolve_left (by simp [Pc.mode])
      exact Shared.Shows.congr h hlist hheap
  | sweep c elem aux bin =>
      obtain ⟨hlist, rfl, hheap⟩ := hsec.resolve_left (by simp [Pc.mode])
      obtain ⟨visited, rest, done, todo, hcur, hl, hvisited, hrest⟩ := h
      rw [hcur.eq_append] at hheap
      exact ⟨visited, rest, done, todo, hlist ▸ hcur, hl,
        map_heap_congr hvisited fun n hn ↦ hheap n (List.mem_append_left _ hn),
        map_heap_congr hrest fun n hn ↦ hheap n (List.mem_append_right _ hn)⟩
  | clear elem aux bin => exact h
  | read b elem r =>
      obtain ⟨hlist, rfl, hheap⟩ := hsec.resolve_left (by simp [Pc.mode])
      obtain ⟨visited, rest, todo, happ, helem, hshows, hrest, hread⟩ := h
      refine ⟨visited, rest, todo, hlist.trans happ, helem, hshows.congr hlist hheap,
        map_heap_congr hrest fun n hn ↦ hheap n ?_, hread⟩
      rw [happ]
      exact List.mem_append_right _ hn
  | idle | vmalloc | setData | sweepLock | readLock => trivial

/-- The node that a process uses next is in the list or its own. -/
theorem Pc.Local.mem_of_uses (h : pc.Local s l) {n : ν} (hn : n ∈ pc.uses) :
    n ∈ s.mylist ∨ n ∈ pc.own := by
  cases pc with
  | setData item data =>
      obtain rfl := Option.mem_some_iff.mp hn
      exact .inr (by simp [Pc.own, Pc.unlinked])
  | sweep c elem aux bin =>
      obtain ⟨visited, rest, done, todo, hcur, -⟩ := h
      obtain rfl : elem = some n := hn
      exact .inl hcur.mem
  | clear elem aux bin =>
      obtain rfl : elem = some n := hn
      exact .inr (Cursor.mem h)
  | read b elem r =>
      obtain ⟨visited, rest, todo, happ, helem, -⟩ := h
      obtain rfl : elem = some n := hn
      rw [happ]
      exact .inl (List.mem_append_right _ (List.mem_of_mem_head? helem.symm))
  | _ => cases hn

variable [DecidableEq ν]

/-! ## What a step leaves alone -/

/-- A step changes no node that is allocated and not the process's own. -/
theorem Runs.heap_eq (h : Runs readMode s pc o) (hl : pc.Local s l) {n : ν} (hn : n ∉ pc.own)
    (hlive : s.heap n ≠ none) : o.1.heap n = s.heap n := by
  cases h with
  | vmalloc hdead =>
      refine update_of_ne ?_ _ _
      rintro rfl
      exact hlive hdead
  | setData hitem =>
      exact update_of_ne (fun heq ↦ hn (by simp [Pc.own, Pc.unlinked, heq])) _ _
  | @vfree m aux bin data hm =>
      refine update_of_ne (fun heq ↦ hn ?_) _ _
      rw [heq]
      exact Cursor.mem hl
  | _ => rfl

/-- A step changes the list, or ends a section that has, only under the lock. -/
theorem Runs.mylist_eq (h : Runs readMode s pc o) :
    o.1.mylist = s.mylist ∧ o.2.2.filterMap Event.change = [] ∨
      pc.mode readMode = some .exclusive := by
  cases h with
  | listAdd | addUnlock | move | pass | sweepUnlock => exact .inr rfl
  | _ => exact .inl ⟨rfl, rfl⟩

/-- A process gets into a section by taking the lock. -/
theorem Runs.acquires (h : Runs readMode s pc o) (hnone : pc.mode readMode = none)
    (hsome : o.2.1.mode readMode ≠ none) : ∃ m lock, s.lock.acquire m = some lock := by
  cases h with
  | addLock hlock => exact ⟨_, _, hlock⟩
  | sweepLock hlock => exact ⟨_, _, hlock⟩
  | readLock hlock => exact ⟨_, _, hlock⟩
  | listAdd | addUnlock | move | pass | sweepUnlock | print | readUnlock => cases hnone
  | vmalloc | setData | vfree | cleared => exact absurd rfl hsome

/-! ## What a step does -/

variable {ι : Type} [Fintype ι] [DecidableEq ι] {p : ι}

/-- The lock. -/
theorem Runs.guards (h : Runs readMode s pc o) {holds : ι → Option Mode}
    (hp : holds p = pc.mode readMode) (hg : RwLock.Guards holds s.lock) :
    RwLock.Guards (update holds p (o.2.1.mode readMode)) o.1.lock := by
  have hsame : ∀ m, holds p = m → RwLock.Guards (update holds p m) s.lock := fun m hm ↦ by
    rwa [← hm, update_eq_self]
  cases h with
  | addLock hlock => exact hg.acquire hp hlock
  | sweepLock hlock => exact hg.acquire hp hlock
  | readLock hlock => exact hg.acquire hp hlock
  | addUnlock => exact hg.release hp
  | sweepUnlock => exact hg.release hp
  | readUnlock => exact hg.release hp
  | _ => exact hsame _ hp

/-- An entry of the memory changes. -/
theorem isSome_update (heap : ν → Option CInt) (n : ν) (v : Option CInt) :
    (fun m ↦ (update heap n v m).isSome) = update (fun m ↦ (heap m).isSome) n v.isSome :=
  funext fun m ↦ by
    by_cases hm : m = n
    · rw [hm, update_self, update_self]
    · rw [update_of_ne hm, update_of_ne hm]

/-- The account of the nodes. -/
theorem Runs.ledger (h : Runs readMode s pc o) (hl : pc.Local s l) {own : ι → List ν}
    (hp : own p = pc.own) (hled : Ledger (fun n ↦ (s.heap n).isSome) s.mylist own) :
    Ledger (fun n ↦ (o.1.heap n).isSome) o.1.mylist (update own p o.2.1.own) := by
  have hsame : ∀ ns, own p = ns →
      Ledger (fun n ↦ (s.heap n).isSome) s.mylist (update own p ns) := fun ns hns ↦ by
    rwa [← hns, update_eq_self]
  cases h with
  | @vmalloc item data garbage hdead =>
      simp only [isSome_update, Option.isSome_some]
      have h := hled.alloc (n := item) (p := p) (by simp [hdead])
      rwa [hp] at h
  | @setData item data hitem =>
      have hlive : (s.heap item).isSome = true := Option.isSome_iff_ne_none.mpr hitem
      simp only [isSome_update, Option.isSome_some]
      rw [← hlive, update_eq_self]
      exact hsame _ hp
  | @listAdd item data =>
      refine hled.hand ?_
      rw [hp]
      simpa [Pc.own, Pc.unlinked, Pc.bin] using (List.perm_append_singleton item s.mylist).symm
  | @move c n aux bin data hn htest =>
      obtain ⟨visited, rest, done, todo, hcur, -⟩ := hl
      refine hled.hand ?_
      rw [hp]
      exact List.perm_middle.trans ((List.perm_cons_erase hcur.mem).symm.append_right bin)
  | @vfree n aux bin data hn =>
      simp only [isSome_update, Option.isSome_none]
      refine hled.release (by simp [hn]) ?_
      rw [hp]
      exact (List.perm_cons_erase (Cursor.mem hl)).symm
  | cleared =>
      obtain rfl := Cursor.eq_nil hl
      exact hsame _ hp
  | _ => exact hsame _ hp

/-- The list that the sections have made, when a step with these events comes after them. -/
def record (l : List CInt) (evs : List (Event ν)) : List CInt :=
  (evs.filterMap Event.change).foldl Update.apply l

omit [DecidableEq ν] in
/-- The loop is at a node with this value. -/
theorem exists_todo {n : ν} {rest : List ν} {todo : List CInt} {data : CInt}
    (h : (n :: rest).map s.heap = todo.map some) (hn : s.heap n = some data) :
    ∃ todo', todo = data :: todo' ∧ rest.map s.heap = todo'.map some := by
  cases todo with
  | nil => cases h
  | cons data' todo' =>
      rw [List.map_cons, List.map_cons, List.cons.injEq, hn, Option.some.injEq] at h
      exact ⟨todo', by rw [h.1], h.2⟩

/-- What the process knows after its step. -/
theorem Runs.local (h : Runs readMode s pc o) (hl : pc.Local s l) (hlist : s.mylist.Nodup)
    (hbin : pc.bin.Nodup)
    (hshows : pc.mode readMode = none → o.2.1.mode readMode ≠ none → s.Shows l) :
    o.2.1.Local o.1 (record l o.2.2) := by
  cases h with
  | setData => exact update_self _ _ _
  | addLock hlock => exact ⟨hl, hshows rfl (Option.some_ne_none _)⟩
  | listAdd =>
      obtain ⟨hdata, hsh⟩ := hl
      change s.heap _ :: s.mylist.map s.heap = some _ :: l.map some
      rw [hdata, hsh]
  | sweepLock hlock =>
      exact ⟨[], s.mylist, [], l, .start hlist, rfl, rfl, hshows rfl (Option.some_ne_none _)⟩
  | @move c n aux bin data hn htest =>
      obtain ⟨visited, rest, done, todo, hcur, hl, hvisited, hrest⟩ := hl
      obtain ⟨rest, rfl⟩ := hcur.exists_cons
      obtain ⟨todo, rfl, htodo⟩ := exists_todo hrest hn
      refine ⟨visited, rest, done ++ [data], todo, hcur.erase hlist, ?_, ?_, htodo⟩
      · rw [List.append_assoc, List.singleton_append]
        exact hl
      · rw [List.filter_append, List.filter_cons_of_neg (by simp [htest]), List.filter_nil,
          List.append_nil]
        exact hvisited
  | @pass c n aux bin data hn htest =>
      obtain ⟨visited, rest, done, todo, hcur, hl, hvisited, hrest⟩ := hl
      obtain ⟨rest, rfl⟩ := hcur.exists_cons
      obtain ⟨todo, rfl, htodo⟩ := exists_todo hrest hn
      refine ⟨visited ++ [n], rest, done ++ [data], todo, hcur.keep hlist, ?_, ?_, htodo⟩
      · rw [List.append_assoc, List.singleton_append]
        exact hl
      · rw [List.filter_append, List.filter_cons_of_pos (by simp [htest]), List.filter_nil,
          List.map_append, List.map_append, hvisited, List.map_singleton, hn, List.map_singleton]
  | sweepUnlock => exact .start hbin
  | @vfree n aux bin data hn =>
      obtain ⟨rest, hrest⟩ := Cursor.exists_cons hl
      have hcur : Cursor bin [] (n :: rest) (some n) aux := hrest ▸ hl
      have hnext := hcur.erase hbin
      rw [← hnext.eq_append.trans (List.nil_append rest)] at hnext
      exact hnext
  | readLock hlock =>
      have hsh := hshows rfl (Option.some_ne_none _)
      exact ⟨[], s.mylist, l, rfl, rfl, hsh, hsh, rfl⟩
  | @print b n r r' data hfull hn hprint =>
      obtain ⟨visited, rest, todo, happ, helem, hsh, hrest, hread⟩ := hl
      obtain ⟨rest, rfl⟩ := List.head?_eq_some_iff.mp helem.symm
      obtain ⟨todo, rfl, htodo⟩ := exists_todo hrest hn
      rw [readLoop, if_neg hfull, hprint, Option.bind_some] at hread
      exact ⟨visited ++ [n], rest, todo, by simp [happ], (Cursor.of_append hlist happ).aux_eq, hsh,
        htodo, hread⟩
  | vmalloc | addUnlock | cleared | readUnlock => trivial

/-! ## What can be seen of it -/

theorem apply_sweep (l : List CInt) (c : Sweep) :
    Update.apply l (.sweep c) = l.filter (!c.test ·) := by
  cases c with
  | remove data => simp [Update.apply, Sweep.test]
  | clear => simp [Update.apply, Sweep.test]

/-- The list, when the process that takes the step changes nothing or is done. -/
theorem Runs.shows (h : Runs readMode s pc o) (hl : pc.Local s l)
    (hnew : o.2.1.updating = none) (hold : pc.updating = none → s.Shows l)
    (hheap : ∀ n ∈ s.mylist, o.1.heap n = s.heap n) : o.1.Shows (record l o.2.2) := by
  cases h with
  | addUnlock => exact hl
  | sweepUnlock =>
      obtain ⟨visited, rest, done, todo, hcur, rfl, hvisited, hrest⟩ := hl
      obtain rfl := hcur.eq_nil
      obtain rfl : todo = [] := List.map_eq_nil_iff.mp hrest.symm
      change s.mylist.map s.heap = (Update.apply (done ++ []) _).map some
      rw [hcur.eq_append, List.append_nil, List.append_nil, hvisited, apply_sweep]
  | addLock | listAdd | sweepLock | move | pass => cases hnew
  | vmalloc | setData | vfree | cleared | readLock | print | readUnlock =>
      exact (hold rfl).congr rfl hheap

/-- How far a section has come: from the list `l` to the list `l'`. -/
def Update.Stage (l l' : List CInt) : Update → Prop
  | .add data => l' = l ∨ l' = data :: l
  | .sweep c => ∃ done todo, l = done ++ todo ∧ l' = done.filter (!c.test ·) ++ todo

omit [DecidableEq ν] in
/-- The list in a section that changes it. -/
theorem Pc.Local.stage (h : pc.Local s l) {u : Update} (hu : pc.updating = some u) :
    ∃ l', s.Shows l' ∧ u.Stage l l' := by
  cases pc with
  | listAdd item data =>
      obtain rfl := Option.some.inj hu
      exact ⟨l, h.2, .inl rfl⟩
  | addUnlock data =>
      obtain rfl := Option.some.inj hu
      exact ⟨data :: l, h, .inr rfl⟩
  | sweep c elem aux bin =>
      obtain rfl := Option.some.inj hu
      obtain ⟨visited, rest, done, todo, hcur, hl, hvisited, hrest⟩ := h
      refine ⟨_, ?_, done, todo, hl, rfl⟩
      rw [Shared.Shows, hcur.eq_append, List.map_append, List.map_append, hvisited, hrest]
  | _ => cases hu

/-- What `procfile_read` returns is the text of the list. -/
theorem Runs.text (h : Runs readMode s pc o) (hl : pc.Local s l) {b : Buffer} {r : Reading}
    (ht : .text b r ∈ o.2.2) : s.Shows l ∧ procfileRead b.mem b.len l = some r := by
  cases h with
  | @readUnlock b' elem r' hend =>
      obtain ⟨rfl, rfl⟩ : b = b' ∧ r = r' := by simpa using ht
      obtain ⟨visited, rest, todo, happ, helem, hsh, hrest, hread⟩ := hl
      refine ⟨hsh, ?_⟩
      rw [← hread]
      rcases hend with rfl | hfull
      · obtain rfl := List.head?_eq_none_iff.mp helem.symm
        obtain rfl : todo = [] := List.map_eq_nil_iff.mp hrest.symm
        rfl
      · exact readLoop_of_full (by omega)
  | _ => simp at ht

omit [Fintype ι] [DecidableEq ι] in
theorem Runs.ne_fault (h : Runs readMode s pc o) : .fault ∉ o.2.2 := by
  cases h <;> simp

end DsoFifo.Modlist
