import DsoFifo.Modlist.Basic
import DsoFifo.Monitor.RwLock
import DsoFifo.Store.Cursor
import DsoFifo.Transition.LTS

/-!
# The list module, shared by processes

`modlist.c` again, now with the nodes of the list, the memory they are allocated in and the
lock, as a system of processes that call `add_item_list`, `remove_items_list`,
`safe_clear_list` and `procfile_read`.

A step is an allocation, an assignment to a node, an operation on the lock or an iteration
of a loop.  A node is an element of `ν`, and one that was freed can be allocated again.  A
process that uses or frees a node which is not allocated is at fault, and there is an
event for that; where `int` arithmetic overflows there is no step.

The module of `parteA` has a spin lock and the one of `opcional1` a read-write lock; they
differ only in how `procfile_read` takes it, which is a parameter.
-/

namespace DsoFifo.Modlist

open DsoFifo.C Function

variable {ι ν : Type}

/-! ## The state -/

/-- `mutex_list`, `mylist` and the memory: the `data` of the nodes that are allocated. -/
structure Shared (ν : Type) where
  lock : RwLock
  mylist : List ν
  heap : ν → Option CInt

/-- The calls that take items out of the list. -/
inductive Sweep where
  | remove (data : CInt)
  | clear
deriving DecidableEq

/-- The items that they take out. -/
def Sweep.test : Sweep → CInt → Bool
  | .remove data, x => x = data
  | .clear, _ => true

/-- The buffer of `procfile_read`, which has room for `buffer_len` bytes. -/
structure Buffer where
  mem : List Byte
  len : CInt
  len_le : len.1 ≤ mem.length
deriving DecidableEq

/-- Where a process is. -/
inductive Pc (ν : Type) where
  | idle
  | /-- `add_item_list`, at `vmalloc`. -/ vmalloc (data : CInt)
  | /-- At `item->data = data`. -/ setData (item : ν) (data : CInt)
  | addLock (item : ν) (data : CInt)
  | listAdd (item : ν) (data : CInt)
  | addUnlock (data : CInt)
  | /-- `remove_items_list` or `safe_clear_list`, at the lock. -/ sweepLock (c : Sweep)
  | /-- In the loop. -/ sweep (c : Sweep) (elem aux : Option ν) (bin : List ν)
  | /-- In the loop of `_unsafe_clear_list`. -/ clear (elem aux : Option ν) (bin : List ν)
  | /-- `procfile_read`, at the lock. -/ readLock (b : Buffer)
  | /-- In the loop. -/ read (b : Buffer) (elem : Option ν) (r : Reading)
deriving DecidableEq

/-- What a process does next; `vmalloc` gives it a node, with what is in the memory. -/
inductive Act (ν : Type) where
  | go
  | vmalloc (item : ν) (garbage : CInt)

/-- What a section under the lock does to the list. -/
inductive Update where
  | add (data : CInt)
  | sweep (c : Sweep)
deriving DecidableEq

/-- The sequential specification. -/
def Update.apply (l : List CInt) : Update → List CInt
  | .add data => data :: l
  | .sweep (.remove data) => l.filter (· ≠ data)
  | .sweep .clear => []

/-- What a step does that others can see. -/
inductive Event (ν : Type) where
  | vmalloc (item : ν)
  | vfree (item : ν)
  | /-- A section that changes the list is over. -/ done (u : Update)
  | /-- `procfile_read` returns. -/ text (b : Buffer) (r : Reading)
  | /-- A node is used that is not allocated. -/ fault
deriving DecidableEq

/-! ## Steps -/

/-- The nodes and the lock, the process and its events after a step. -/
abbrev Outcome (ν : Type) : Type := Shared ν × Pc ν × List (Event ν)

/-- Use of a node that is not allocated. -/
def fault (s : Shared ν) : Outcome ν := (s, .idle, [.fault])

variable [DecidableEq ν]

/-- The iteration of `remove_items_list` and `safe_clear_list` on a node. -/
def sweepItem (s : Shared ν) (c : Sweep) (n : ν) (aux : Option ν) (bin : List ν) : Outcome ν :=
  match s.heap n with
  | some data =>
    if c.test data then
      let mylist := s.mylist.erase n
      ({ s with mylist := mylist }, .sweep c aux (aux.bind (next mylist)) (n :: bin), [])
    else (s, .sweep c aux (aux.bind (next s.mylist)) bin, [])
  | none => fault s

/-- The iteration of `_unsafe_clear_list`: `list_del` and `vfree`. -/
def clearItem (s : Shared ν) (n : ν) (aux : Option ν) (bin : List ν) : Outcome ν :=
  match s.heap n with
  | some _ =>
    let bin := bin.erase n
    ({ s with heap := update s.heap n none }, .clear aux (aux.bind (next bin)) bin, [.vfree n])
  | none => fault s

/-- The iteration of `procfile_read`. -/
def readItem (s : Shared ν) (b : Buffer) (n : ν) (r : Reading) : Option (Outcome ν) :=
  match s.heap n with
  | some data => (r.print b.len data).map fun r ↦ (s, .read b (next s.mylist n) r, [])
  | none => some (fault s)

/-- A step of a process; `procfile_read` takes the lock as `readMode` says. -/
def Pc.run (readMode : Mode) (s : Shared ν) : Pc ν → Act ν → Option (Outcome ν)
  | .vmalloc data, .vmalloc item garbage =>
    if (s.heap item).isNone then
      some ({ s with heap := update s.heap item (some garbage) }, .setData item data, [.vmalloc item])
    else none
  | .setData item data, .go =>
    if (s.heap item).isNone then some (fault s)
    else some ({ s with heap := update s.heap item (some data) }, .addLock item data, [])
  | .addLock item data, .go =>
    (s.lock.acquire .exclusive).map fun lock ↦ ({ s with lock := lock }, .listAdd item data, [])
  | .listAdd item data, .go => some ({ s with mylist := item :: s.mylist }, .addUnlock data, [])
  | .addUnlock data, .go =>
    some ({ s with lock := s.lock.release .exclusive }, .idle, [.done (.add data)])
  | .sweepLock c, .go =>
    (s.lock.acquire .exclusive).map fun lock ↦
      ({ s with lock := lock },
        .sweep c s.mylist.head? (s.mylist.head?.bind (next s.mylist)) [], [])
  | .sweep c none _ bin, .go =>
    some ({ s with lock := s.lock.release .exclusive },
      .clear bin.head? (bin.head?.bind (next bin)) bin, [.done (.sweep c)])
  | .sweep c (some n) aux bin, .go => some (sweepItem s c n aux bin)
  | .clear none _ _, .go => some (s, .idle, [])
  | .clear (some n) aux bin, .go => some (clearItem s n aux bin)
  | .readLock b, .go =>
    (s.lock.acquire readMode).map fun lock ↦
      ({ s with lock := lock },
        .read b s.mylist.head? { buffer := b.mem, used := 0, sizes := [] }, [])
  | .read b none r, .go =>
    some ({ s with lock := s.lock.release readMode }, .idle, [.text b r])
  | .read b (some n) r, .go =>
    if b.len.1 - r.used = 0 then
      some ({ s with lock := s.lock.release readMode }, .idle, [.text b r])
    else readItem s b n r
  | _, _ => none

/-- The functions that processes call. -/
inductive Call where
  | addItemList (data : CInt)
  | removeItemsList (data : CInt)
  | safeClearList
  | procfileRead (b : Buffer)

/-- Where a call begins. -/
def Call.enter : Call → Pc ν
  | .addItemList data => .vmalloc data
  | .removeItemsList data => .sweepLock (.remove data)
  | .safeClearList => .sweepLock .clear
  | .procfileRead b => .readLock b

/-- What is shared, and the processes. -/
structure State (ι ν : Type) extends Shared ν where
  pc : ι → Pc ν

/-- What happens next. -/
inductive Move (ι ν : Type) where
  | call (p : ι) (c : Call)
  | act (p : ι) (a : Act ν)

/-- One step of the system. -/
def step [DecidableEq ι] (readMode : Mode) (s : State ι ν) :
    Move ι ν → Option (State ι ν × List (Event ν))
  | .call p c =>
    match s.pc p with
    | .idle => some ({ s with pc := update s.pc p c.enter }, [])
    | _ => none
  | .act p a =>
    ((s.pc p).run readMode s.toShared a).map fun (sh, pc, evs) ↦
      ({ toShared := sh, pc := update s.pc p pc }, evs)

/-- The label of a step. -/
abbrev Label (ι ν : Type) : Type := LTS.Io (Move ι ν) (List (Event ν))

/-- The module, loaded with an empty list. -/
def loaded : State ι ν where
  lock := .free
  mylist := []
  heap := fun _ ↦ none
  pc := fun _ ↦ .idle

/-- The module and its processes. -/
def modlist (ι ν : Type) [DecidableEq ι] [DecidableEq ν] (readMode : Mode) :
    LTS (State ι ν) (Label ι ν) :=
  .ofStep (· = loaded) (step readMode)

/-- A replay of moves from the empty list is a run. -/
theorem exists_run [DecidableEq ι] (readMode : Mode) (moves : List (Move ι ν))
    (good : State ι ν → Bool)
    (h : (LTS.replay (step readMode) (fun _ _ ↦ true) loaded moves).any good = true) :
    ∃ tr s, (modlist ι ν readMode).Run LTS.anyStep tr s ∧ good s = true := by
  obtain ⟨tr, s, hr, hg⟩ := LTS.exists_run_of_replay (· = loaded) rfl h
  exact ⟨tr, s, hr.mono fun _ _ _ ↦ trivial, hg⟩

/-! ## What a step can be -/

/-- Every way a process takes a step. -/
inductive Runs (readMode : Mode) (s : Shared ν) : Pc ν → Outcome ν → Prop
  | vmalloc {item : ν} {data garbage : CInt} : s.heap item = none →
      Runs readMode s (.vmalloc data)
        ({ s with heap := update s.heap item (some garbage) }, .setData item data, [.vmalloc item])
  | setData {item : ν} {data : CInt} : s.heap item ≠ none →
      Runs readMode s (.setData item data)
        ({ s with heap := update s.heap item (some data) }, .addLock item data, [])
  | addLock {item : ν} {data : CInt} {lock : RwLock} : s.lock.acquire .exclusive = some lock →
      Runs readMode s (.addLock item data) ({ s with lock := lock }, .listAdd item data, [])
  | listAdd {item : ν} {data : CInt} :
      Runs readMode s (.listAdd item data)
        ({ s with mylist := item :: s.mylist }, .addUnlock data, [])
  | addUnlock {data : CInt} :
      Runs readMode s (.addUnlock data)
        ({ s with lock := s.lock.release .exclusive }, .idle, [.done (.add data)])
  | sweepLock {c : Sweep} {lock : RwLock} : s.lock.acquire .exclusive = some lock →
      Runs readMode s (.sweepLock c) ({ s with lock := lock },
        .sweep c s.mylist.head? (s.mylist.head?.bind (next s.mylist)) [], [])
  | move {c : Sweep} {n : ν} {aux : Option ν} {bin : List ν} {data : CInt} :
      s.heap n = some data → c.test data = true →
      Runs readMode s (.sweep c (some n) aux bin) ({ s with mylist := s.mylist.erase n },
        .sweep c aux (aux.bind (next (s.mylist.erase n))) (n :: bin), [])
  | pass {c : Sweep} {n : ν} {aux : Option ν} {bin : List ν} {data : CInt} :
      s.heap n = some data → c.test data = false →
      Runs readMode s (.sweep c (some n) aux bin)
        (s, .sweep c aux (aux.bind (next s.mylist)) bin, [])
  | sweepUnlock {c : Sweep} {aux : Option ν} {bin : List ν} :
      Runs readMode s (.sweep c none aux bin) ({ s with lock := s.lock.release .exclusive },
        .clear bin.head? (bin.head?.bind (next bin)) bin, [.done (.sweep c)])
  | vfree {n : ν} {aux : Option ν} {bin : List ν} {data : CInt} : s.heap n = some data →
      Runs readMode s (.clear (some n) aux bin) ({ s with heap := update s.heap n none },
        .clear aux (aux.bind (next (bin.erase n))) (bin.erase n), [.vfree n])
  | cleared {aux : Option ν} {bin : List ν} :
      Runs readMode s (.clear none aux bin) (s, .idle, [])
  | readLock {b : Buffer} {lock : RwLock} : s.lock.acquire readMode = some lock →
      Runs readMode s (.readLock b) ({ s with lock := lock },
        .read b s.mylist.head? { buffer := b.mem, used := 0, sizes := [] }, [])
  | print {b : Buffer} {n : ν} {r r' : Reading} {data : CInt} : b.len.1 - r.used ≠ 0 →
      s.heap n = some data → r.print b.len data = some r' →
      Runs readMode s (.read b (some n) r) (s, .read b (next s.mylist n) r', [])
  | readUnlock {b : Buffer} {elem : Option ν} {r : Reading} :
      elem = none ∨ b.len.1 - r.used = 0 →
      Runs readMode s (.read b elem r)
        ({ s with lock := s.lock.release readMode }, .idle, [.text b r])

/-- The node that a process uses next. -/
def Pc.uses : Pc ν → Option ν
  | .setData item _ => some item
  | .sweep _ elem _ _ => elem
  | .clear elem _ _ => elem
  | .read _ elem _ => elem
  | _ => none

/-- A process takes a step in one of these ways, or is at fault. -/
theorem runs_of_run {readMode : Mode} {s : Shared ν} {pc : Pc ν} {a : Act ν} {o : Outcome ν}
    (h : pc.run readMode s a = some o) :
    Runs readMode s pc o ∨ ∃ n ∈ pc.uses, s.heap n = none := by
  unfold Pc.run at h
  split at h
  · split at h
    · cases h
      exact .inl (.vmalloc (Option.isNone_iff_eq_none.mp ‹_›))
    · cases h
  · split at h
    · exact .inr ⟨_, rfl, Option.isNone_iff_eq_none.mp ‹_›⟩
    · rename_i hlive
      cases h
      exact .inl (.setData fun hn ↦ hlive (Option.isNone_iff_eq_none.mpr hn))
  · obtain ⟨lock, hlock, rfl⟩ := Option.map_eq_some_iff.mp h
    exact .inl (.addLock hlock)
  · cases h
    exact .inl .listAdd
  · cases h
    exact .inl .addUnlock
  · obtain ⟨lock, hlock, rfl⟩ := Option.map_eq_some_iff.mp h
    exact .inl (.sweepLock hlock)
  · cases h
    exact .inl .sweepUnlock
  · obtain rfl := Option.some.inj h
    unfold sweepItem
    split
    · split
      · exact .inl (.move ‹_› ‹_›)
      · exact .inl (.pass ‹_› (Bool.eq_false_iff.mpr ‹_›))
    · exact .inr ⟨_, rfl, ‹_›⟩
  · cases h
    exact .inl .cleared
  · obtain rfl := Option.some.inj h
    unfold clearItem
    split
    · exact .inl (.vfree ‹_›)
    · exact .inr ⟨_, rfl, ‹_›⟩
  · obtain ⟨lock, hlock, rfl⟩ := Option.map_eq_some_iff.mp h
    exact .inl (.readLock hlock)
  · cases h
    exact .inl (.readUnlock (.inl rfl))
  · split at h
    · cases h
      exact .inl (.readUnlock (.inr ‹_›))
    · unfold readItem at h
      split at h
      · obtain ⟨r, hr, rfl⟩ := Option.map_eq_some_iff.mp h
        exact .inl (.print ‹_› ‹_› hr)
      · exact .inr ⟨_, rfl, ‹_›⟩
  · cases h

/-- A step of the system is a call or a step of a process, unless a process is at fault. -/
theorem step_cases [DecidableEq ι] {readMode : Mode} {s t : State ι ν} {l : Label ι ν}
    (hlive : ∀ p, ∀ n ∈ (s.pc p).uses, s.heap n ≠ none) (h : (modlist ι ν readMode).Step s l t) :
    (∃ p c, s.pc p = .idle ∧ t = { s with pc := update s.pc p (Call.enter c) } ∧ l.output = []) ∨
      ∃ p sh pc, Runs readMode s.toShared (s.pc p) (sh, pc, l.output) ∧
        t = { toShared := sh, pc := update s.pc p pc } := by
  obtain ⟨i, out⟩ := l
  change step readMode s i = some (t, out) at h
  cases i with
  | call p c =>
      simp only [step] at h
      split at h
      · cases h
        exact .inl ⟨p, c, ‹_›, rfl, rfl⟩
      · cases h
  | act p a =>
      simp only [step, Option.map_eq_some_iff] at h
      obtain ⟨⟨sh, pc, evs⟩, hr, h⟩ := h
      cases h
      rcases runs_of_run hr with hruns | ⟨n, hn, hdead⟩
      · exact .inr ⟨p, sh, pc, hruns, rfl⟩
      · exact absurd hdead (hlive p n hn)

end DsoFifo.Modlist
