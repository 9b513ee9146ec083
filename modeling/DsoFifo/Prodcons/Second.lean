import DsoFifo.Prodcons.Version

/-!
# Producers and consumers, second version

`prodcons2.c`: a monitor instead of counting semaphores.  `mtx` is the lock; a producer waits
while the buffer is full and a consumer while it is empty, each on a queue made of a counter and
a semaphore; whoever changes the buffer wakes one process of the other side.

The memory is used as in the first version, and so the numbers go through the same queue.  What
differs is who is woken.  A process that has been woken and is then interrupted at `mtx` keeps
the signal to itself: without such interrupts no wake-up is lost (`prodcons2_blocked`), and with
one a consumer may sleep next to a number (`exists_lost_wakeup`).
-/

namespace DsoFifo.Prodcons2

open DsoFifo.C DsoFifo.LTS DsoFifo.Pool DsoFifo.Prodcons Function

variable {ι ν : Type}

/-! ## The module -/

/-- The globals. -/
structure Globals (ν : Type) extends Memory ν where
  mtx : ℕ
  /-- `prod_queue` and `cons_queue`. -/
  queue : Side → ℕ
  /-- `nr_prod_waiting` and `nr_cons_waiting`. -/
  nrWaiting : Side → ℤ

/-- After `init_prodcons_module`. -/
def initProdconsModule (garbage : Fin maxItemsCbuf → Option ν) : Globals ν where
  toMemory := .created garbage
  mtx := 1
  queue := fun _ ↦ 0
  nrWaiting := fun _ ↦ 0

/-- A control point. -/
inductive Pc (ν : Type) where
  | idle
  | vmalloc (val : CInt) (longitud : ℕ)
  | /-- At the first `down_interruptible(&mtx)`. -/ lock (r : Role ν)
  | /-- At the test of the loop. -/ test (r : Role ν)
  | /-- In the loop, at `up(&mtx)`. -/ release (r : Role ν)
  | /-- At `down_interruptible(&prod_queue)` or `down_interruptible(&cons_queue)`. -/
    sleep (r : Role ν)
  | /-- Interrupted, at `down(&mtx)`. -/ intrLock (r : Role ν)
  | /-- Interrupted, before the counter is decremented. -/ intrDec (r : Role ν)
  | /-- Interrupted, at `up(&mtx)`. -/ intrUnlock (r : Role ν)
  | /-- In the loop, at `down_interruptible(&mtx)`. -/ relock (r : Role ν)
  | /-- At `insert_cbuffer_t`. -/ insert (item : ν) (val : CInt) (longitud : ℕ)
  | /-- At `head_cbuffer_t`. -/ head
  | /-- At `remove_cbuffer_t`. -/ remove (item : Option ν)
  | /-- At the test whether somebody of the other side waits. -/ wake (d : Done ν)
  | /-- At the last `up(&mtx)`. -/ unlock (d : Done ν)
  | sprintf (item : Option ν)
  | vfree (item : Option ν) (len : ℤ)
deriving DecidableEq

/-- The globals, the process and its events after a step. -/
abbrev Outcome (ν : Type) : Type := Globals ν × Pc ν × List (Event ν)

/-- The condition of the loop. -/
def mustWait (s : Memory ν) : Role ν → Bool
  | .write _ _ _ => Pointers.isFullCbuffer s.cbuf
  | .read => Pointers.sizeCbuffer s.cbuf = 0

/-- Behind the loop. -/
def enter : Role ν → Pc ν
  | .write item val longitud => .insert item val longitud
  | .read => .head

/-- `return -EINTR`; the item of `prodcons_write` is not freed. -/
def fail : Role ν → List (Event ν)
  | .write item _ _ => [.lost item, .wrote (-eintr)]
  | .read => [.read (-eintr)]

/-- Behind the last `up`. -/
def leave : Done ν → Pc ν × List (Event ν)
  | .write longitud => (.idle, [.wrote longitud])
  | .read item => (.sprintf item, [])

/-- `if (nr_x_waiting>0) { up(&x_queue); nr_x_waiting--; }`. -/
def Globals.wake (s : Globals ν) (x : Side) : Globals ν :=
  if s.nrWaiting x > 0 then
    { s with
      queue := update s.queue x (s.queue x + 1)
      nrWaiting := update s.nrWaiting x (s.nrWaiting x - 1) }
  else s

/-- `down(&mtx)`. -/
def Globals.down (s : Globals ν) (pc : Pc ν) : Option (Outcome ν) :=
  if 0 < s.mtx then some ({ s with mtx := s.mtx - 1 }, pc, []) else none

variable [DecidableEq ν]

/-- A step of a process. -/
def Pc.run (s : Globals ν) : Pc ν → Act ν → Option (Outcome ν)
  | .vmalloc val longitud, .vmalloc item =>
    if (s.heap item).isNone then
      some ({ s with heap := update s.heap item (some val) }, .lock (.write item val longitud),
        [.vmalloc item])
    else none
  | .vmalloc _ _, .nomem => some (s, .idle, [.fault none])
  | .lock r, .go => s.down (.test r)
  | .lock r, .intr => some (s, .idle, fail r)
  | .test r, .go =>
    if mustWait s.toMemory r then
      some ({ s with nrWaiting := update s.nrWaiting r.side (s.nrWaiting r.side + 1) },
        .release r, [])
    else some (s, enter r, [])
  | .release r, .go => some ({ s with mtx := s.mtx + 1 }, .sleep r, [])
  | .sleep r, .go =>
    if 0 < s.queue r.side then
      some ({ s with queue := update s.queue r.side (s.queue r.side - 1) }, .relock r, [])
    else none
  | .sleep r, .intr => some (s, .intrLock r, [])
  | .intrLock r, .go => s.down (.intrDec r)
  | .intrDec r, .go =>
    some ({ s with nrWaiting := update s.nrWaiting r.side (s.nrWaiting r.side - 1) },
      .intrUnlock r, [])
  | .intrUnlock r, .go => some ({ s with mtx := s.mtx + 1 }, .idle, fail r)
  | .relock r, .go => s.down (.test r)
  | .relock r, .intr => some (s, .idle, fail r)
  | .insert item val longitud, .go =>
    (Pointers.insertCbuffer s.cbuf (some item)).map fun cbuf ↦
      ({ s with cbuf := cbuf }, .wake (.write longitud), [.insert val])
  | .head, .go => (Pointers.headCbuffer s.cbuf).map fun item ↦ (s, .remove item, [])
  | .remove item, .go =>
    (Pointers.removeCbuffer s.cbuf).map fun cbuf ↦
      ({ s with cbuf := cbuf }, .wake (.read item), [.remove (item.bind s.heap)])
  | .wake d, .go => some (s.wake d.side, .unlock d, [])
  | .unlock d, .go => some ({ s with mtx := s.mtx + 1 }, leave d)
  | .sprintf item, .go =>
    match item.bind s.heap with
    | some val => some (s, .vfree item (text val).length, [.sprintf val])
    | none => some (s, .idle, [.fault item])
  | .vfree (some n) len, .go =>
    if (s.heap n).isSome then
      some ({ s with heap := update s.heap n none }, .idle, [.vfree n, .read len])
    else some (s, .idle, [.fault (some n)])
  | .vfree none len, .go => some (s, .idle, [.read len])
  | _, _ => none

/-- The module's code. -/
def code (ν : Type) [DecidableEq ν] :
    Processes.Code Prodcons.Call (Act ν) (Globals ν) (Pc ν) (Event ν) where
  idle := .idle
  enter := Prodcons.Call.enter .idle .vmalloc (.lock .read)
  run := Pc.run

/-- The memory, and where the processes are. -/
abbrev State (ι ν : Type) : Type := Processes.State ι (Globals ν) (Pc ν)

/-- The module and its processes. -/
def prodcons2 (ι : Type) [DecidableEq ι] (garbage : Fin maxItemsCbuf → Option ν) :
    LTS (State ι ν) (Label ι ν) :=
  Processes.system ι (code ν) (initProdconsModule garbage)

/-! ## What a step can be -/

/-- The pointer that a process uses or frees next. -/
def Pc.uses : Pc ν → Option (Option ν)
  | .sprintf item | .vfree item _ => some item
  | _ => none

/-- Every way a process takes a step. -/
inductive Runs (s : Globals ν) : Pc ν → Act ν → Outcome ν → Prop
  | vmalloc {val : CInt} {longitud : ℕ} {item : ν} : s.heap item = none →
      Runs s (.vmalloc val longitud) (.vmalloc item)
      ({ s with heap := update s.heap item (some val) }, .lock (.write item val longitud),
        [.vmalloc item])
  | nomem {val : CInt} {longitud : ℕ} :
      Runs s (.vmalloc val longitud) .nomem (s, .idle, [.fault none])
  | lock {r : Role ν} {pc : Pc ν} : pc = .lock r ∨ pc = .relock r → 0 < s.mtx →
      Runs s pc .go ({ s with mtx := s.mtx - 1 }, .test r, [])
  | lockIntr {r : Role ν} : Runs s (.lock r) .intr (s, .idle, fail r)
  | relockIntr {r : Role ν} : Runs s (.relock r) .intr (s, .idle, fail r)
  | testWait {r : Role ν} : mustWait s.toMemory r = true → Runs s (.test r) .go
      ({ s with nrWaiting := update s.nrWaiting r.side (s.nrWaiting r.side + 1) }, .release r, [])
  | testGo {r : Role ν} : mustWait s.toMemory r = false → Runs s (.test r) .go (s, enter r, [])
  | release {r : Role ν} : Runs s (.release r) .go ({ s with mtx := s.mtx + 1 }, .sleep r, [])
  | sleep {r : Role ν} : 0 < s.queue r.side → Runs s (.sleep r) .go
      ({ s with queue := update s.queue r.side (s.queue r.side - 1) }, .relock r, [])
  | sleepIntr {r : Role ν} : Runs s (.sleep r) .intr (s, .intrLock r, [])
  | intrLock {r : Role ν} : 0 < s.mtx →
      Runs s (.intrLock r) .go ({ s with mtx := s.mtx - 1 }, .intrDec r, [])
  | intrDec {r : Role ν} : Runs s (.intrDec r) .go
      ({ s with nrWaiting := update s.nrWaiting r.side (s.nrWaiting r.side - 1) },
        .intrUnlock r, [])
  | intrUnlock {r : Role ν} :
      Runs s (.intrUnlock r) .go ({ s with mtx := s.mtx + 1 }, .idle, fail r)
  | insert {item : ν} {val : CInt} {longitud : ℕ} {cbuf : Pointers.Cbuffer (Option ν)} :
      Pointers.insertCbuffer s.cbuf (some item) = some cbuf → Runs s (.insert item val longitud) .go
      ({ s with cbuf := cbuf }, .wake (.write longitud), [.insert val])
  | head {item : Option ν} : Pointers.headCbuffer s.cbuf = some item →
      Runs s .head .go (s, .remove item, [])
  | remove {item : Option ν} {cbuf : Pointers.Cbuffer (Option ν)} :
      Pointers.removeCbuffer s.cbuf = some cbuf → Runs s (.remove item) .go
      ({ s with cbuf := cbuf }, .wake (.read item), [.remove (item.bind s.heap)])
  | wake {d : Done ν} : Runs s (.wake d) .go (s.wake d.side, .unlock d, [])
  | unlock {d : Done ν} : Runs s (.unlock d) .go ({ s with mtx := s.mtx + 1 }, leave d)
  | sprintf {n : ν} {val : CInt} : s.heap n = some val →
      Runs s (.sprintf (some n)) .go (s, .vfree (some n) (text val).length, [.sprintf val])
  | vfree {n : ν} {len : ℤ} : s.heap n ≠ none → Runs s (.vfree (some n) len) .go
      ({ s with heap := update s.heap n none }, .idle, [.vfree n, .read len])
  | vfreeNull {len : ℤ} : Runs s (.vfree none len) .go (s, .idle, [.read len])
  | fault {pc : Pc ν} {a : Act ν} {item : Option ν} : pc.uses = some item →
      item.bind s.heap = none → Runs s pc a (s, .idle, [.fault item])

variable {s : Globals ν} {pc : Pc ν} {a : Act ν} {o : Outcome ν}

omit [DecidableEq ν] in
theorem down_eq_some (h : s.down pc = some o) :
    0 < s.mtx ∧ o = ({ s with mtx := s.mtx - 1 }, pc, []) := by
  unfold Globals.down at h
  split at h
  · exact ⟨‹_›, (Option.some.inj h).symm⟩
  · cases h

theorem runs_of_run (h : pc.run s a = some o) : Runs s pc a o := by
  unfold Pc.run at h
  split at h
  · split at h
    · cases h
      exact .vmalloc (Option.isNone_iff_eq_none.mp ‹_›)
    · cases h
  · cases h
    exact .nomem
  · obtain ⟨hpos, rfl⟩ := down_eq_some h
    exact .lock (.inl rfl) hpos
  · cases h
    exact .lockIntr
  · split at h
    · cases h
      exact .testWait ‹_›
    · cases h
      exact .testGo (Bool.eq_false_iff.mpr ‹_›)
  · cases h
    exact .release
  · split at h
    · cases h
      exact .sleep ‹_›
    · cases h
  · cases h
    exact .sleepIntr
  · obtain ⟨hpos, rfl⟩ := down_eq_some h
    exact .intrLock hpos
  · cases h
    exact .intrDec
  · cases h
    exact .intrUnlock
  · obtain ⟨hpos, rfl⟩ := down_eq_some h
    exact .lock (.inr rfl) hpos
  · cases h
    exact .relockIntr
  · obtain ⟨cbuf, hins, rfl⟩ := Option.map_eq_some_iff.mp h
    exact .insert hins
  · obtain ⟨item, hhead, rfl⟩ := Option.map_eq_some_iff.mp h
    exact .head hhead
  · obtain ⟨cbuf, hrem, rfl⟩ := Option.map_eq_some_iff.mp h
    exact .remove hrem
  · cases h
    exact .wake
  · cases h
    exact .unlock
  · split at h
    · rename_i item val hval
      cases h
      obtain ⟨n, rfl, hn⟩ := Option.bind_eq_some_iff.mp hval
      exact .sprintf hn
    · cases h
      exact .fault rfl ‹_›
  · split at h
    · cases h
      exact .vfree (Option.isSome_iff_ne_none.mp ‹_›)
    · cases h
      exact .fault rfl (Option.not_isSome_iff_eq_none.mp ‹_›)
  · cases h
    exact .vfreeNull
  · cases h

/-- The result of a `vmalloc` without memory is used. -/
theorem run_nomem (h : pc.run s .nomem = some o) : o.2.2 = [.fault none] := by
  cases pc with
  | vmalloc => exact congrArg (·.2.2) (Option.some.inj h).symm
  | vfree item len => cases item <;> cases h
  | _ => cases h

/-- The step is that of a writer of this item which has been interrupted, and returns. -/
def Pc.Fails (pc : Pc ν) (a : Act ν) (item : ν) : Prop :=
  ∃ val longitud, (pc = .lock (.write item val longitud) ∨
      pc = .relock (.write item val longitud)) ∧ a = .intr ∨
    pc = .intrUnlock (.write item val longitud) ∧ a = .go

/-- `prodcons_write` returns `-EINTR` where it was interrupted, and loses its item. -/
theorem Runs.fails (h : Runs s pc a o)
    (hintr : .wrote (-eintr) ∈ o.2.2 ∨ ∃ item, .lost item ∈ o.2.2) :
    ∃ item, o.2.2 = [.lost item, .wrote (-eintr)] ∧ pc.Fails a item := by
  have hfail {r : Role ν} (h : .wrote (-eintr) ∈ fail r ∨ ∃ item, .lost item ∈ fail r) :
      ∃ item val longitud, r = .write item val longitud := by
    cases r with
    | write item val longitud => exact ⟨item, val, longitud, rfl⟩
    | read => simp [fail] at h
  cases h with
  | lockIntr =>
      obtain ⟨item, val, longitud, rfl⟩ := hfail hintr
      exact ⟨item, rfl, val, longitud, .inl ⟨.inl rfl, rfl⟩⟩
  | relockIntr =>
      obtain ⟨item, val, longitud, rfl⟩ := hfail hintr
      exact ⟨item, rfl, val, longitud, .inl ⟨.inr rfl, rfl⟩⟩
  | intrUnlock =>
      obtain ⟨item, val, longitud, rfl⟩ := hfail hintr
      exact ⟨item, rfl, val, longitud, .inr ⟨rfl, rfl⟩⟩
  | @unlock d =>
      cases d with
      | write longitud => simp [leave, eintr] at hintr
      | read item => simp [leave] at hintr
  | vmalloc | nomem | lock | testWait | testGo | release | sleep | sleepIntr | intrLock | intrDec
  | insert | head | remove | wake | sprintf | vfree | vfreeNull | fault => simp at hintr

/-! ## The lock and the memory -/

/-- Between a `down` and an `up` of `mtx`. -/
def Pc.inside : Pc ν → Bool
  | .test _ | .release _ | .intrDec _ | .intrUnlock _ | .insert _ _ _ | .head | .remove _
  | .wake _ | .unlock _ => true
  | _ => false

/-- What a process knows of the buffer. -/
def Pc.Local (s : Memory ν) : Pc ν → Prop
  | .insert _ _ _ => s.cbuf.size < maxItemsCbuf
  | .head => s.cbuf.size ≠ 0
  | .remove item => s.cbuf.content.head? = some item
  | .wake (.read item) | .unlock (.read item) | .sprintf item | .vfree item _ => item ≠ none
  | _ => True

/-- How far the call has come. -/
def Pc.stage : Pc ν → Stage ν
  | .idle => .idle
  | .vmalloc val longitud => .vmalloc val longitud
  | .lock r | .test r | .release r | .sleep r | .intrLock r | .intrDec r | .intrUnlock r
  | .relock r => .wait r
  | .insert item val longitud => .wait (.write item val longitud)
  | .head | .remove _ => .wait .read
  | .wake d | .unlock d => .done d
  | .sprintf item => .done (.read item)
  | .vfree item len => .vfree item len

omit [DecidableEq ν] in
@[simp] theorem wake_mtx (s : Globals ν) (x : Side) : (s.wake x).mtx = s.mtx := by
  unfold Globals.wake
  split <;> rfl

omit [DecidableEq ν] in
@[simp] theorem wake_toMemory (s : Globals ν) (x : Side) :
    (s.wake x).toMemory = s.toMemory := by
  unfold Globals.wake
  split <;> rfl

omit [DecidableEq ν] in
/-- A process that uses a pointer is outside of the section. -/
theorem Pc.inside_of_uses {item : Option ν} (h : pc.uses = some item) : pc.inside = false := by
  cases pc <;> first | rfl | cases h

/-- The lock, where `n` of the others are inside. -/
theorem Runs.mutex (h : Runs s pc a o) (n : ℕ) (hn : s.mtx + (n + pc.inside.toNat) = 1) :
    o.1.mtx + (n + o.2.1.inside.toNat) = 1 := by
  cases h with
  | @lock r pc hpc hpos =>
      have hout : pc.inside = false := by rcases hpc with rfl | rfl <;> rfl
      rw [hout, Bool.toNat_false] at hn
      simp only [Pc.inside, Bool.toNat_true]
      omega
  | intrLock hpos =>
      simp only [Pc.inside, Bool.toNat_false, Bool.toNat_true] at hn ⊢
      omega
  | release | intrUnlock =>
      simp only [Pc.inside, Bool.toNat_false, Bool.toNat_true] at hn ⊢
      omega
  | @unlock d =>
      have hout : (leave d).1.inside = false := by cases d <;> rfl
      change s.mtx + (n + 1) = 1 at hn
      change s.mtx + 1 + (n + (leave d).1.inside.toNat) = 1
      rw [hout, Bool.toNat_false]
      omega
  | @testGo r _ => cases r <;> exact hn
  | wake =>
      rw [wake_mtx]
      exact hn
  | fault huses _ => rwa [Pc.inside_of_uses huses] at hn
  | vmalloc | nomem | lockIntr | relockIntr | testWait | sleep | sleepIntr | intrDec | insert
  | head | remove | sprintf | vfree | vfreeNull => exact hn

/-- Outside of the section the buffer stays as it is. -/
theorem Runs.cbuf_eq (h : Runs s pc a o) (hpc : pc.inside = false) : o.1.cbuf = s.cbuf := by
  cases h with
  | insert _ | remove _ | wake => cases hpc
  | vmalloc | nomem | lock | lockIntr | relockIntr | testWait | testGo | release | sleep
  | sleepIntr | intrLock | intrDec | intrUnlock | head | unlock | sprintf | vfree | vfreeNull
  | fault => rfl

omit [DecidableEq ν] in
/-- What a process knows stays true while the buffer stays as it is, and outside of the section
in any case. -/
theorem Pc.Local.frame {m m' : Memory ν} (h : pc.Local m)
    (hm : m'.cbuf = m.cbuf ∨ pc.inside = false) : pc.Local m' := by
  cases pc with
  | insert | head | remove =>
      rcases hm with hm | hm
      · simpa only [Pc.Local, hm] using h
      · cases hm
  | wake d | unlock d => cases d <;> exact h
  | idle | vmalloc | lock | test | release | sleep | intrLock | intrDec | intrUnlock | relock
  | sprintf | vfree => exact h

omit [DecidableEq ν] in
/-- What the condition of the loop says. -/
theorem mustWait_eq (hwf : s.toMemory.Wf) (r : Role ν) :
    mustWait s.toMemory r = true ↔ r.side.avail s.cbuf.size = 0 := by
  have hle := hwf.cbuf.size_le
  rw [hwf.maxSize_eq] at hle
  cases r with
  | write item val longitud =>
      simp only [mustWait, Pointers.isFullCbuffer, hwf.maxSize_eq, beq_iff_eq, Role.side,
        Side.avail]
      omega
  | read =>
      have hmax : s.cbuf.size < 2147483648 := lt_of_le_of_lt hle (by decide)
      simp only [mustWait, Pointers.sizeCbuffer, toInt_natCast hmax, decide_eq_true_eq, Role.side,
        Side.avail]
      omega

/-- What a process knows when it has taken a step. -/
theorem Runs.known (h : Runs s pc a o) (hwf : s.toMemory.Wf) (hpc : pc.Local s.toMemory) :
    o.2.1.Local o.1.toMemory := by
  cases h with
  | @testGo r htest =>
      have hne : r.side.avail s.cbuf.size ≠ 0 := fun hzero ↦ by
        rw [(mustWait_eq hwf r).mpr hzero] at htest
        cases htest
      cases r with
      | write item val longitud => exact Nat.lt_of_sub_ne_zero hne
      | read => exact hne
  | @head item hhead =>
      rw [hwf.cbuf.headCbuffer_eq] at hhead
      have hne : s.cbuf.content ≠ [] := fun hnil ↦ hpc (by
        rw [← Pointers.Cbuffer.length_content, hnil, List.length_nil])
      obtain ⟨c, cs, hcs⟩ := List.exists_cons_of_ne_nil hne
      rw [hcs] at hhead
      exact (congrArg List.head? hcs).trans hhead
  | remove _ =>
      intro hnull
      exact hwf.ne_null (hnull ▸ List.mem_of_mem_head? hpc)
  | @wake d =>
      rw [wake_toMemory]
      cases d <;> exact hpc
  | @unlock d => cases d <;> exact hpc
  | sprintf => exact hpc
  | vmalloc | nomem | lock | lockIntr | relockIntr | testWait | release | sleep | sleepIntr
  | intrLock | intrDec | intrUnlock | insert | vfree | vfreeNull | fault => trivial

/-- `return -EINTR` loses what the process has. -/
theorem touches_fail (s : Memory ν) (r : Role ν) (a : Act ν) :
    Touches s (.wait r) a s .idle (fail r) := by
  cases r with
  | write item val longitud => exact .lose
  | read => exact .giveUpRead

/-- **What a step does to the memory** and to the stage. -/
theorem Runs.touches (h : Runs s pc a o) (hwf : s.toMemory.Wf) (hpc : pc.Local s.toMemory) :
    Touches s.toMemory pc.stage a o.1.toMemory o.2.1.stage o.2.2 := by
  cases h with
  | vmalloc hnone => exact .vmalloc hnone
  | nomem => exact .nomem
  | insert hins => exact .insert hpc hins
  | @remove item cbuf hrem =>
      cases item with
      | none => exact absurd (List.mem_of_mem_head? hpc) hwf.ne_null
      | some n => exact .remove hpc hrem
  | sprintf hval => exact .sprintf hval
  | vfree hlive => exact .vfree hlive
  | vfreeNull => exact absurd rfl hpc
  | lockIntr | relockIntr | intrUnlock => exact touches_fail s.toMemory _ _
  | @lock r pc hlock _ => rcases hlock with rfl | rfl <;> exact .stay _
  | @testGo r _ => cases r <;> exact .stay _
  | testWait | release | sleep | sleepIntr | intrLock | intrDec | head => exact .stay _
  | wake =>
      rw [wake_toMemory]
      exact .stay _
  | @unlock d =>
      cases d with
      | write longitud => exact .wrote
      | read item => exact .stay _
  | @fault pc _ item huses hnone =>
      have hitem : item ≠ none ∧ pc.stage.hand.nodes = item.toList := by
        unfold Pc.uses at huses
        split at huses
        · cases huses
          exact ⟨hpc, by cases item <;> rfl⟩
        · cases huses
          exact ⟨hpc, by cases item <;> rfl⟩
        · cases huses
      obtain ⟨n, rfl⟩ := Option.ne_none_iff_exists'.mp hitem.1
      exact .fault (by rw [hitem.2]; exact List.mem_singleton_self n) hnone

/-! ## A run -/

/-- Two readers go to sleep, and one of them is interrupted at `mtx` when a writer has woken it;
then a second write is interrupted. -/
def exampleMoves : List (Processes.Move (Fin 3) Prodcons.Call (Act Bool)) :=
  let reader (p : Fin 3) : List (Processes.Move (Fin 3) Prodcons.Call (Act Bool)) :=
    .call p (.prodconsRead 0) :: List.replicate 3 (.act p .go)
  reader 0 ++ reader 1 ++
    .call 2 (.prodconsWrite [55] 1) :: .act 2 (.vmalloc false) :: List.replicate 4 (.act 2 .go) ++
    [.act 0 .go, .act 0 .intr, .act 2 .go,
      .call 2 (.prodconsWrite [56] 1), .act 2 (.vmalloc true), .act 2 .intr]

/-- The module with three processes and two items. -/
abbrev exampleSystem : LTS (State (Fin 3) Bool) (Label (Fin 3) Bool) :=
  prodcons2 (Fin 3) fun _ ↦ none

theorem exists_exampleRun : ∃ tr st, exampleSystem.Run anyStep tr st ∧
    (∀ p, st.pc p = .idle ∨ st.pc p = .sleep .read ∧ st.mem.queue .cons = 0) ∧
      st.pc 1 = .sleep .read ∧ st.mem.cbuf.size = 1 ∧ st.mem.heap true = some (.ofInt 8) := by
  obtain ⟨tr, st, hr, hg⟩ := Processes.exists_run (code Bool) (initProdconsModule fun _ ↦ none)
    anyStep exampleMoves (fun st ↦ decide (
      (∀ p, st.pc p = .idle ∨ st.pc p = .sleep .read ∧ st.mem.queue .cons = 0) ∧
      st.pc 1 = .sleep .read ∧ st.mem.cbuf.size = 1 ∧ st.mem.heap true = some (.ofInt 8)))
    (by decide +kernel)
  exact ⟨tr, st, hr, of_decide_eq_true hg⟩

/-! ## Runs -/

section

variable [DecidableEq ι] [Fintype ι] {garbage : Fin maxItemsCbuf → Option ν}
  {tr : List (Label ι ν)} {l : Label ι ν} {st st' : State ι ν}
  {P : State ι ν → Label ι ν → Prop}

omit [DecidableEq ν] [DecidableEq ι] in
/-- What holds in every state reached. -/
structure Inv (st : State ι ν) : Prop where
  wf : st.mem.toMemory.Wf
  /-- At most one process is between the `down` and the `up` of `mtx`. -/
  mutex : st.mem.mtx + count Pc.inside st.pc = 1
  known : ∀ p, (st.pc p).Local st.mem.toMemory

omit [DecidableEq ν] in
/-- When one process is inside, the others are not. -/
theorem Inv.inside_eq_false (h : Inv st) {p q : ι} (hpq : p ≠ q) (hp : (st.pc p).inside = true) :
    (st.pc q).inside = false := by
  by_contra hq
  have htwo := two_le_count hpq hp (eq_true_of_ne_false hq)
  have hmutex := h.mutex
  omega

omit [DecidableEq ι] [Fintype ι] in
/-- Where a call begins. -/
theorem enter_cases (c : Prodcons.Call) :
    (∃ val longitud, ((code ν).enter c).1 = .vmalloc val longitud) ∨
    ((code ν).enter c).1 = .idle ∨ ((code ν).enter c).1 = .lock .read :=
  (Prodcons.Call.enter_cases _ _ _ c).1

omit [DecidableEq ι] [Fintype ι] in
/-- A call begins outside of the section. -/
theorem enter_eq (c : Prodcons.Call) (s : Memory ν) :
    ((code ν).enter c).1.inside = false ∧ ((code ν).enter c).1.Local s := by
  rcases enter_cases (ν := ν) c with ⟨val, longitud, hc⟩ | hc | hc <;> rw [hc] <;>
    exact ⟨rfl, trivial⟩

omit [DecidableEq ι] in
/-- **A step touches the memory** in one of the ways that both versions have. -/
theorem Inv.touches (h : Inv st) {p : ι} (hrun : (st.pc p).run st.mem a = some o) :
    Touches st.mem.toMemory (st.pc p).stage a o.1.toMemory o.2.1.stage o.2.2 :=
  (runs_of_run hrun).touches h.wf (h.known p)

/-- **A step** keeps the invariant. -/
theorem Inv.step (h : Inv st) (hst : (prodcons2 ι garbage).Step st l st') : Inv st' where
  wf := by
    cases Processes.step_iff.mp hst with
    | call _ _ => exact h.wf
    | act hrun => exact (h.touches hrun).wf h.wf
  mutex := Processes.count_step (R := fun mem n ↦ mem.mtx + n = 1) rfl
    (fun c ↦ (enter_eq c st.mem.toMemory).1) hst
    (fun _ _ _ _ _ n hrun hn ↦ (runs_of_run hrun).mutex n hn) h.mutex
  known := Processes.known_step (K := fun mem pc ↦ pc.Local mem.toMemory) hst
    (fun c ↦ (enter_eq c st.mem.toMemory).2)
    (fun p _ _ _ _ hrun ↦ (runs_of_run hrun).known h.wf (h.known p))
    (fun p _ _ _ _ q hrun hq ↦ (h.known q).frame <| by
      by_cases hp : (st.pc p).inside = true
      · exact .inr (h.inside_eq_false (Ne.symm hq) hp)
      · exact .inl ((runs_of_run hrun).cbuf_eq (Bool.eq_false_iff.mpr hp)))
    h.known

theorem inv_of_run (h : (prodcons2 ι garbage).Run P tr st) : Inv st := by
  refine Run.invariant ?_ (fun st l st' ih _ hst ↦ ih.step hst) h
  rintro st rfl
  exact ⟨Memory.wf_created garbage, congrArg (1 + ·) (count_const_false rfl), fun p ↦ trivial⟩

/-- The module is one of the versions. -/
theorem version (garbage : Fin maxItemsCbuf → Option ν) :
    Version ι (code ν) (initProdconsModule garbage) Globals.toMemory Pc.stage where
  cbuf := rfl
  heap := rfl
  idle := rfl
  run_idle _ a := by cases a <;> rfl
  run_nomem hrun := run_nomem hrun
  enter c := Prodcons.Call.enter_map Pc.stage .idle .vmalloc (.lock .read) c
  act hr hrun := ⟨(inv_of_run hr).wf, (inv_of_run hr).touches hrun⟩

/-- **The numbers go through a queue**, in every run of the second version, whatever is
interrupted. -/
theorem prodcons2_delivers (h : (prodcons2 ι garbage).Run anyStep tr st) :
    Delivers tr st.mem.toMemory fun p ↦ (st.pc p).stage := (version garbage).delivers h

theorem prodcons2_delivers_example : ∃ tr st, exampleSystem.Run anyStep tr st ∧
    st.mem.cbuf.size = 1 ∧ Delivers tr st.mem.toMemory fun p ↦ (st.pc p).stage := by
  obtain ⟨tr, st, hr, -, -, hsize, -⟩ := exists_exampleRun
  exact ⟨tr, st, hr, hsize, prodcons2_delivers hr⟩

/-- A step in which a writer returns `-EINTR`, or an item is lost. -/
theorem fails_of_mem (hst : (prodcons2 ι garbage).Step st l st')
    (hintr : .wrote (-eintr) ∈ l.output ∨ ∃ item, .lost item ∈ l.output) :
    ∃ p a item, l = ⟨.act p a, [.lost item, .wrote (-eintr)]⟩ ∧ (st.pc p).Fails a item := by
  cases Processes.step_iff.mp hst with
  | @call p c hp =>
      rw [((version (ι := ι) garbage).enter c).2] at hintr
      rcases hintr with hintr | ⟨item, hlost⟩
      · rcases Prodcons.Call.eq_of_mem_begin hintr with heq | ⟨ret, heq, hret⟩
        · cases heq
        · exact absurd (Event.wrote.inj heq).symm hret
      · rcases Prodcons.Call.eq_of_mem_begin hlost with heq | ⟨_, heq, -⟩ <;> cases heq
  | @act p a mem pc evs hrun =>
      obtain ⟨item, hevs, hfails⟩ := (runs_of_run hrun).fails hintr
      exact ⟨p, a, item, congrArg _ hevs, hfails⟩

/-- **The items are accounted for**, in every run: what is allocated is in the buffer, with a
process that is going to insert or to free it, or was lost.  It is lost where a writer that was
interrupted returns, and every such writer loses its item. -/
theorem prodcons2_accounts (h : (prodcons2 ι garbage).Run anyStep tr st) :
    Accounts tr st.mem.toMemory (fun p ↦ (st.pc p).stage) ∧
      (∀ l ∈ tr, ∀ item, .lost item ∈ l.output → ∃ tr₀ st₀ p a, tr₀ ++ [l] <+: tr ∧
        (prodcons2 ι garbage).Run anyStep tr₀ st₀ ∧ (st₀.pc p).Fails a item ∧
        l = ⟨.act p a, [.lost item, .wrote (-eintr)]⟩) ∧
      ∀ l ∈ tr, .wrote (-eintr) ∈ l.output → ∃ item, .lost item ∈ l.output := by
  refine ⟨(version garbage).accounts h, fun l hl item hlost ↦ ?_, fun l hl hwrote ↦ ?_⟩
  · obtain ⟨tr₀, st₀, st₁, hpre, hr, -, hst⟩ := h.exists_of_mem hl
    obtain ⟨p, a, item', rfl, hfails⟩ := fails_of_mem hst (.inr ⟨item, hlost⟩)
    obtain rfl : item = item' := by simpa using hlost
    exact ⟨tr₀, st₀, p, a, hpre, hr, hfails, rfl⟩
  · obtain ⟨tr₀, st₀, st₁, -, -, -, hst⟩ := h.exists_of_mem hl
    obtain ⟨p, a, item, rfl, -⟩ := fails_of_mem hst (.inl hwrote)
    exact ⟨item, List.mem_cons_self⟩

theorem prodcons2_accounts_example : ∃ tr st, exampleSystem.Run anyStep tr st ∧
    st.mem.heap true = some (.ofInt 8) ∧
      Accounts tr st.mem.toMemory fun p ↦ (st.pc p).stage := by
  obtain ⟨tr, st, hr, -, -, -, hlost⟩ := exists_exampleRun
  exact ⟨tr, st, hr, hlost, (prodcons2_accounts hr).1⟩

end

/-! ## Who waits -/

/-- Where a process can be, on its way through a queue. -/
inductive Station where
  | /-- On the counter, and without a signal. -/ asleep
  | /-- Interrupted, and still on the counter. -/ leaving
  | /-- In the loop, or behind it and about to use what it waited for. -/ awake
  | /-- About to look whether somebody of this side waits. -/ waking
deriving DecidableEq

/-- A process is at this station of the queue of side `x`. -/
def Pc.at (x : Side) : Station → Pc ν → Bool
  | .asleep, .release r | .asleep, .sleep r => r.side = x
  | .leaving, .intrLock r | .leaving, .intrDec r => r.side = x
  | .awake, .relock r | .awake, .test r => r.side = x
  | .awake, .insert _ _ _ => Side.prod = x
  | .awake, .head | .awake, .remove _ => Side.cons = x
  | .waking, .wake d => d.side = x
  | _, _ => false

/-- The processes that wait are on the counter, or a signal is pending for them. -/
def Balanced (x : Side) (s : Globals ν) (n : Station → ℕ) : Prop :=
  (n .asleep + n .leaving : ℤ) = s.nrWaiting x + s.queue x

/-- If there are fewer signals than sleepers, then there is somebody for everything that is
available. -/
def Wakeful (x : Side) (s : Globals ν) (n : Station → ℕ) : Prop :=
  s.queue x < n .asleep → x.avail s.cbuf.size ≤ s.queue x + n .awake + n .waking

/-- The numbers, with one process and the others. -/
abbrev together (x : Side) (n : Station → ℕ) (pc : Pc ν) : Station → ℕ :=
  fun k ↦ n k + (pc.at x k).toNat

/-- **A step** keeps a queue balanced. -/
theorem Runs.balanced (h : Runs s pc a o) (x : Side) (n : Station → ℕ)
    (hb : Balanced x s (together x n pc)) : Balanced x o.1 (together x n o.2.1) := by
  unfold Balanced together at hb ⊢
  cases h with
  | @lock r pc hpc _ => rcases hpc with rfl | rfl <;> exact hb
  | @testWait r _ =>
      by_cases hx : r.side = x
      · subst hx
        simp [Pc.at] at hb ⊢
        omega
      · simpa [Pc.at, hx, update_of_ne (Ne.symm hx)] using hb
  | @testGo r _ => cases r <;> exact hb
  | @sleep r hpos =>
      by_cases hx : r.side = x
      · subst hx
        simp [Pc.at] at hb ⊢
        omega
      · simpa [Pc.at, hx, update_of_ne (Ne.symm hx)] using hb
  | @sleepIntr r =>
      simp [Pc.at] at hb ⊢
      omega
  | @intrDec r =>
      by_cases hx : r.side = x
      · subst hx
        simp [Pc.at] at hb ⊢
        omega
      · simpa [Pc.at, hx, update_of_ne (Ne.symm hx)] using hb
  | @wake d =>
      unfold Globals.wake
      by_cases hx : d.side = x
      · subst hx
        split
        · simp [Pc.at] at hb ⊢
          omega
        · exact hb
      · split
        · simpa [Pc.at, hx, update_of_ne (Ne.symm hx)] using hb
        · exact hb
  | @unlock d => cases d <;> exact hb
  | fault huses _ =>
      unfold Pc.uses at huses
      split at huses
      · exact hb
      · exact hb
      · cases huses
  | vmalloc | nomem | lockIntr | relockIntr | release | intrLock | intrUnlock | insert | head
  | remove | sprintf | vfree | vfreeNull => exact hb

/-- The `down` of `mtx` in the loop is not interrupted. -/
def Pc.Attentive (a : Act ν) : Pc ν → Prop
  | .relock _ => a ≠ .intr
  | _ => True

/-- **A step** other than an interrupt at `mtx` in the loop keeps a balanced queue wakeful. -/
theorem Runs.wakeful (h : Runs s pc a o) (hwf : s.toMemory.Wf) (hpc : pc.Local s.toMemory)
    (ha : pc.Attentive a) (x : Side) (n : Station → ℕ) (hb : Balanced x s (together x n pc))
    (hw : Wakeful x s (together x n pc)) :
    Wakeful x o.1 (together x n o.2.1) := by
  unfold Balanced together at hb
  unfold Wakeful together at hw ⊢
  cases h with
  | relockIntr => exact absurd rfl ha
  | @lock r pc hlock _ =>
      rcases hlock with rfl | rfl
      · simp only [Pc.at, Bool.toNat_false] at hw ⊢
        omega
      · exact hw
  | @testWait r htest =>
      have havail := (mustWait_eq hwf r).mp htest
      by_cases hx : r.side = x
      · subst hx
        intro _
        simp only [havail]
        exact Nat.zero_le _
      · simpa [Pc.at, hx] using hw
  | @testGo r _ => cases r <;> exact hw
  | @sleep r hpos =>
      by_cases hx : r.side = x
      · subst hx
        simp [Pc.at] at hw ⊢
        omega
      · simpa [Pc.at, hx, update_of_ne (Ne.symm hx)] using hw
  | @sleepIntr r =>
      simp only [Pc.at, Bool.toNat_false] at hw ⊢
      omega
  | @insert item val longitud cbuf hins =>
      obtain ⟨-, hsize, -⟩ := hwf.insert hpc hins
      cases x <;> simp [Pc.at, Done.side, Side.avail, hsize] at hw ⊢ <;> omega
  | @remove item cbuf hrem =>
      obtain ⟨-, hsize, -⟩ := hwf.remove hrem
      cases x <;> simp [Pc.at, Done.side, Side.avail, hsize] at hw ⊢ <;> omega
  | @wake d =>
      unfold Globals.wake
      by_cases hx : d.side = x
      · subst hx
        split
        · simp [Pc.at] at hw ⊢
          omega
        · -- nobody is on the counter, so there is a signal for every sleeper
          simp [Pc.at] at hb ⊢
          omega
      · split
        · simpa [Pc.at, hx, update_of_ne (Ne.symm hx)] using hw
        · simpa [Pc.at, hx] using hw
  | @unlock d => cases d <;> exact hw
  | fault huses _ =>
      unfold Pc.uses at huses
      split at huses
      · exact hw
      · exact hw
      · cases huses
  | vmalloc | nomem | lockIntr | release | intrLock | intrDec | intrUnlock | head | sprintf | vfree
  | vfreeNull => exact hw

section

variable [DecidableEq ι] [Fintype ι] {garbage : Fin maxItemsCbuf → Option ν}
  {tr : List (Label ι ν)} {st : State ι ν}
  {P : State ι ν → Label ι ν → Prop}

omit [DecidableEq ν] [DecidableEq ι] in
/-- How many processes are at each station. -/
def stations (x : Side) (st : State ι ν) : Station → ℕ :=
  fun k ↦ count (Pc.at x k) st.pc

omit [DecidableEq ι] [Fintype ι] in
/-- A call begins at no station. -/
theorem at_enter (x : Side) (k : Station) (c : Prodcons.Call) :
    ((code ν).enter c).1.at x k = false := by
  rcases enter_cases (ν := ν) c with ⟨val, longitud, hc⟩ | hc | hc <;> rw [hc] <;>
    cases k <;> rfl

omit [DecidableEq ι] in
/-- Nobody is there at first. -/
theorem stations_initial (x : Side) (garbage : Fin maxItemsCbuf → Option ν) (k : Station) :
    stations x (Processes.initial (code ν) (initProdconsModule garbage) :
      State ι ν) k = 0 :=
  count_const_false (by cases k <;> rfl)

/-- **The counters count the waiters**, in every run: the processes that wait on a queue and
have not been given a signal are as many as its counter says, less the signals that nobody has
taken. -/
theorem balanced_of_run (h : (prodcons2 ι garbage).Run P tr st) (x : Side) :
    Balanced x st.mem (stations x st) := by
  refine Run.invariant (I := fun st ↦ Balanced x st.mem (stations x st)) ?_ ?_ h
  · rintro st rfl
    simp only [Balanced, stations_initial]
    rfl
  · intro st l st' ih _ hst
    exact Processes.counts_step (R := Balanced x) (fun k ↦ by cases k <;> rfl) (at_enter x) hst
      (fun _ _ _ _ _ n _ hrun ↦ (runs_of_run hrun).balanced x n) ih

/-- **Nobody overlooks a sleeper**, in any run: the counters and the signals that nobody has
taken account for the processes that wait; and a process that has changed the buffer, while
there are more sleepers of the other side than signals, sends one more signal. -/
theorem prodcons2_signals (h : (prodcons2 ι garbage).Run anyStep tr st) :
    (∀ x, (stations x st .asleep + stations x st .leaving : ℤ) =
      st.mem.nrWaiting x + st.mem.queue x) ∧
    ∀ p d evs st', st.pc p = .wake d → st.mem.queue d.side < stations d.side st .asleep →
      (prodcons2 ι garbage).Step st ⟨.act p .go, evs⟩ st' →
      st'.mem.queue d.side = st.mem.queue d.side + 1 := by
  refine ⟨fun x ↦ balanced_of_run h x, fun p d evs st' hp hlt hst ↦ ?_⟩
  have hb : (stations d.side st .asleep + stations d.side st .leaving : ℤ) =
      st.mem.nrWaiting d.side + st.mem.queue d.side := balanced_of_run h d.side
  have hpos : st.mem.nrWaiting d.side > 0 := by omega
  cases Processes.step_iff.mp hst with
  | @act p a mem pc evs hrun =>
      rw [hp] at hrun
      obtain ⟨rfl, -⟩ := Prod.mk.inj (Option.some.inj hrun)
      simp [Globals.wake, hpos]

/-- A writer has put a number in the buffer and finds two readers asleep. -/
theorem prodcons2_signals_example : ∃ tr st evs st', exampleSystem.Run anyStep tr st ∧
    exampleSystem.Step st ⟨.act 2 .go, evs⟩ st' ∧ st'.mem.queue .cons = 1 := by
  obtain ⟨tr, st, hr, hg⟩ := Processes.exists_run (code Bool) (initProdconsModule fun _ ↦ none)
    anyStep (exampleMoves.take 13) (fun st ↦ decide (st.pc 2 = .wake (.write 1) ∧
      st.mem.queue .cons = 0 ∧ stations .cons st .asleep = 2 ∧
      ((Processes.step (code Bool) st (.act 2 .go)).isSome))) (by decide +kernel)
  obtain ⟨hp, hqueue, hasleep, hstep⟩ := of_decide_eq_true hg
  obtain ⟨⟨st', evs⟩, hst⟩ := Option.isSome_iff_exists.mp hstep
  refine ⟨tr, st, evs, st', hr, hst, ?_⟩
  have hlt : st.mem.queue .cons < stations .cons st .asleep := by omega
  exact ((prodcons2_signals hr).2 2 (.write 1) evs st' hp hlt hst).trans (congrArg (· + 1) hqueue)

/-! ### Nobody can go on -/

omit [DecidableEq ι] [Fintype ι] in
/-- No process that has been woken is interrupted in this step before it has the lock. -/
def Attentive (st : State ι ν) (l : Label ι ν) : Prop :=
  match l.input with
  | .call _ _ => True
  | .act p a => (st.pc p).Attentive a

omit [DecidableEq ι] [Fintype ι] in
instance (st : State ι ν) (l : Label ι ν) : Decidable (Attentive st l) := by
  unfold Attentive Pc.Attentive
  split
  · infer_instance
  · split <;> infer_instance

/-- **No wake-up is lost**, as long as no process that has been woken is interrupted at
`mtx`. -/
theorem wakeful_of_run (h : (prodcons2 ι garbage).Run Attentive tr st) (x : Side) :
    Wakeful x st.mem (stations x st) := by
  refine Run.induction (J := fun _ st ↦ Wakeful x st.mem (stations x st)) ?_ ?_ h
  · rintro st rfl hlt
    rw [stations_initial] at hlt
    exact absurd hlt (Nat.not_lt_zero _)
  · intro tr st l st' hr ih hl hst
    have hinv := inv_of_run hr
    refine (Processes.counts_step (R := fun mem n ↦ Balanced x mem n ∧ Wakeful x mem n)
      (fun k ↦ by cases k <;> rfl) (at_enter x) hst ?_ ⟨balanced_of_run hr x, ih⟩).2
    intro p a mem pc evs n hact hrun ⟨hb, hw⟩
    have hruns := runs_of_run hrun
    have ha : (st.pc p).Attentive a := by
      rw [Attentive, hact] at hl
      exact hl
    exact ⟨hruns.balanced x n hb, hruns.wakeful hinv.wf (hinv.known p) ha x n hb hw⟩

omit [DecidableEq ι] [Fintype ι] in
/-- No process can take a step, but for calls, interrupts and a `vmalloc` without memory. -/
def Stuck (st : State ι ν) : Prop :=
  ∀ p a, a ≠ .intr → a ≠ .nomem → (st.pc p).run st.mem a = none

omit [DecidableEq ι] [Fintype ι] in
/-- Where a process can be that cannot go on. -/
theorem Pc.blocked {s : Globals ν} {pc : Pc ν} (hwf : s.toMemory.Wf)
    (hgo : ∀ a, a ≠ .intr → a ≠ .nomem → pc.run s a = none) :
    pc = .idle ∨ (∃ val longitud, pc = .vmalloc val longitud ∧ ∀ item, s.heap item ≠ none) ∨
      (∃ r, pc = .sleep r ∧ s.queue r.side = 0) ∨
      (∃ r, pc = .lock r ∨ pc = .intrLock r ∨ pc = .relock r) ∧ s.mtx = 0 := by
  have hgo' := hgo .go nofun nofun
  have hdown {pc' : Pc ν} (hnone : s.down pc' = none) : s.mtx = 0 := by
    by_contra hpos
    rw [Globals.down, if_pos (Nat.pos_of_ne_zero hpos)] at hnone
    cases hnone
  cases pc with
  | idle => exact .inl rfl
  | vmalloc val longitud =>
      refine .inr (.inl ⟨val, longitud, rfl, fun item hnone ↦ ?_⟩)
      have hitem := hgo (.vmalloc item) nofun nofun
      simp [Pc.run, hnone] at hitem
  | sleep r =>
      refine .inr (.inr (.inl ⟨r, rfl, ?_⟩))
      by_contra hpos
      simp [Pc.run, Nat.pos_of_ne_zero hpos] at hgo'
  | lock r => exact .inr (.inr (.inr ⟨⟨r, .inl rfl⟩, hdown hgo'⟩))
  | intrLock r => exact .inr (.inr (.inr ⟨⟨r, .inr (.inl rfl)⟩, hdown hgo'⟩))
  | relock r => exact .inr (.inr (.inr ⟨⟨r, .inr (.inr rfl)⟩, hdown hgo'⟩))
  | insert item val longitud =>
      obtain ⟨b, hb, -⟩ := hwf.cbuf.insertCbuffer_eq (some item)
      simp [Pc.run, hb] at hgo'
  | head => simp [Pc.run, hwf.cbuf.headCbuffer_eq] at hgo'
  | remove item =>
      obtain ⟨b, hb, -⟩ := hwf.cbuf.removeCbuffer_eq
      simp [Pc.run, hb] at hgo'
  | test r =>
      simp only [Pc.run] at hgo'
      split at hgo' <;> cases hgo'
  | release r | intrDec r | intrUnlock r | wake d | unlock d => cases hgo'
  | sprintf item =>
      simp only [Pc.run] at hgo'
      split at hgo' <;> cases hgo'
  | vfree item len =>
      cases item with
      | none => cases hgo'
      | some n =>
          simp only [Pc.run] at hgo'
          split at hgo' <;> cases hgo'

/-- **No deadlock**, if no process that has been woken is interrupted at `mtx`.  When nobody can
go on, every process that is in a call is at a `vmalloc` for which there is no memory, or is a
writer and the buffer is full, or is a reader and the buffer is empty. -/
theorem prodcons2_blocked (h : (prodcons2 ι garbage).Run Attentive tr st) (hst : Stuck st)
    (p : ι) : st.pc p = .idle ∨
      (∃ val longitud, st.pc p = .vmalloc val longitud ∧ ∀ item, st.mem.heap item ≠ none) ∨
      (∃ item val longitud, st.pc p = .sleep (.write item val longitud) ∧
        st.mem.cbuf.size = maxItemsCbuf) ∨
      (st.pc p = .sleep .read ∧ st.mem.cbuf.size = 0) := by
  have hinv := inv_of_run h
  have hblocked (q : ι) := Pc.blocked hinv.wf (hst q)
  -- nobody is inside, so the lock is free, so nobody is at the lock
  have hinside : count Pc.inside st.pc = 0 := count_eq_zero.mpr fun q ↦ by
    rcases hblocked q with hq | ⟨_, _, hq, -⟩ | ⟨_, hq, -⟩ | ⟨⟨_, hq | hq | hq⟩, -⟩ <;>
      rw [hq] <;> rfl
  have hmtx : st.mem.mtx = 1 := by
    have hmutex := hinv.mutex
    omega
  have hwhere (q : ι) : st.pc q = .idle ∨ (∃ val longitud, st.pc q = .vmalloc val longitud) ∨
      ∃ r, st.pc q = .sleep r := by
    rcases hblocked q with hq | ⟨val, longitud, hq, -⟩ | ⟨r, hq, -⟩ | ⟨-, hzero⟩
    · exact .inl hq
    · exact .inr (.inl ⟨val, longitud, hq⟩)
    · exact .inr (.inr ⟨r, hq⟩)
    · omega
  -- so nobody is about to use what there is
  have hnobody (x : Side) {k : Station} (hk : k ≠ .asleep) : stations x st k = 0 :=
    count_eq_zero.mpr fun q ↦ by
      rcases hwhere q with hq | ⟨_, _, hq⟩ | ⟨_, hq⟩ <;> rw [hq] <;> cases k <;>
        first | rfl | exact absurd rfl hk
  have hle := hinv.wf.cbuf.size_le
  rw [hinv.wf.maxSize_eq] at hle
  rcases hblocked p with hp | hp | ⟨r, hp, hzero⟩ | ⟨-, hzero⟩
  · exact .inl hp
  · exact .inr (.inl hp)
  · have hasleep : 0 < stations r.side st .asleep := by
      by_contra hnone
      have hall := count_eq_zero.mp (Nat.eq_zero_of_not_pos hnone) p
      rw [hp] at hall
      simp [Pc.at] at hall
    have havail := wakeful_of_run h r.side (by omega)
    rw [hzero, hnobody r.side (k := .awake) nofun, hnobody r.side (k := .waking) nofun] at havail
    cases r with
    | write item val longitud =>
        refine .inr (.inr (.inl ⟨item, val, longitud, hp, ?_⟩))
        simp only [Role.side, Side.avail] at havail
        omega
    | read => exact .inr (.inr (.inr ⟨hp, Nat.eq_zero_of_le_zero havail⟩))
  · omega

omit [DecidableEq ι] [Fintype ι] in
theorem stuck_of_asleep
    (h : ∀ p, st.pc p = .idle ∨ st.pc p = .sleep .read ∧ st.mem.queue .cons = 0) : Stuck st := by
  intro p a ha _
  rcases h p with hp | ⟨hp, hzero⟩
  · rw [hp]
    cases a <;> rfl
  · rw [hp]
    cases a with
    | go => simp [Pc.run, Role.side, hzero]
    | intr => exact absurd rfl ha
    | vmalloc _ | nomem => rfl

/-- A reader waits for the first number. -/
theorem prodcons2_blocked_reader : ∃ tr st, exampleSystem.Run Attentive tr st ∧ Stuck st ∧
    st.pc 1 ≠ .idle ∧ st.mem.cbuf.size = 0 := by
  obtain ⟨tr, st, hr, hg⟩ := Processes.exists_run (code Bool) (initProdconsModule fun _ ↦ none)
    Attentive (.call (1 : Fin 3) (.prodconsRead 0) :: List.replicate 3 (.act 1 .go))
    (fun st ↦ decide ((∀ p, st.pc p = .idle ∨ st.pc p = .sleep .read ∧ st.mem.queue .cons = 0) ∧
      st.pc 1 = .sleep .read)) (by decide +kernel)
  obtain ⟨hasleep, hone⟩ := of_decide_eq_true hg
  have hstuck := stuck_of_asleep hasleep
  refine ⟨tr, st, hr, hstuck, by rw [hone]; nofun, ?_⟩
  rcases prodcons2_blocked hr hstuck 1 with hp | ⟨_, _, hp, -⟩ | ⟨_, _, _, hp, -⟩ | ⟨-, hsize⟩
  · cases hone.symm.trans hp
  · cases hone.symm.trans hp
  · cases hone.symm.trans hp
  · exact hsize

/-- **A wake-up is lost**: a reader takes the signal and is interrupted at `mtx`, and the other
one sleeps on, with a number in the buffer. -/
theorem exists_lost_wakeup : ∃ tr st, exampleSystem.Run anyStep tr st ∧ Stuck st ∧
    st.pc 1 = .sleep .read ∧ st.mem.cbuf.size = 1 := by
  obtain ⟨tr, st, hr, hasleep, hone, hsize, -⟩ := exists_exampleRun
  exact ⟨tr, st, hr, stuck_of_asleep hasleep, hone, hsize⟩

end

end DsoFifo.Prodcons2
