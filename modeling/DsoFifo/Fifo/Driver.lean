import DsoFifo.Transition.LTS
import DsoFifo.Transition.Pool
import DsoFifo.Cbuffer.Basic

/-!
# The FIFO driver

`fifo.c` as a transition system: any number of processes, each at some control point
of `fifo_open`, `fifo_release`, `fifo_read` or `fifo_write`, over the globals of the
module.  The control points are the places between two semaphore operations, and a
step of the system is one process going from one to the next.

## The pieces

* `Driver` is the module's globals.  The variables that come in a pair, one for the
  producers and one for the consumers (`num_prod` and `num_cons`, …), are functions
  of the `Side`.  The counters are integers without bound: an `int` behaves like one
  as long as there are fewer than `2 ^ 31` processes and signals.  A broadcast that
  starts from `-1` (`numBloq_cons_neg`) posts more than that by itself, and the `int`
  wraps around there, which the model does not follow.
* `fifoOpen`, `fifoRelease`, `fifoRead`, `fifoWrite` are the functions of the source,
  `condWait` is the macro of that name and `broadcast` the loop
  `while (num_bloq_x) { num_bloq_x--; up(cola_x); }` that occurs in all four.
* `step` adds what the driver relies on and does not do: the processes, and the
  VFS with its table of open files.  A file descriptor is opened once, used by any
  number of processes at a time, and released once, when nobody uses it.

Semaphores are ordinary counting semaphores.  A `down_interruptible` can be
interrupted at any time before it succeeds; the kernel interrupts only a process
that has to wait, and `Blocking` says of a step that it is of that kind.
-/

namespace DsoFifo.Fifo

open DsoFifo.C Function

/-- `BUF_LEN`. -/
def bufLen : ℕ := 512

/-! ## Error codes -/

/-- `EINTR`. -/
def eintr : ℤ := 4

/-- `ENOMEM`. -/
def enomem : ℤ := 12

/-- `EINVAL`. -/
def einval : ℤ := 22

/-- `EPIPE`. -/
def epipe : ℤ := 32

/-! ## The globals -/

/-- The two sides of the FIFO.  Of a file, `cons` is the side when `f_mode` has the
bit `FMODE_READ`, and `prod` when it has not. -/
inductive Side where
  | prod
  | cons
deriving DecidableEq, Repr

/-- The opposite side. -/
def Side.other : Side → Side
  | .prod => .cons
  | .cons => .prod

instance : Fintype Side := ⟨{.prod, .cons}, fun x ↦ by cases x <;> simp⟩

@[simp] theorem Side.other_prod : Side.prod.other = .cons := rfl
@[simp] theorem Side.other_cons : Side.cons.other = .prod := rfl
@[simp] theorem Side.other_other (x : Side) : x.other.other = x := by cases x <;> rfl
@[simp] theorem Side.other_ne (x : Side) : x.other ≠ x := by cases x <;> simp
@[simp] theorem Side.ne_other (x : Side) : x ≠ x.other := by cases x <;> simp

/-- The globals of the module. -/
structure Driver where
  cbuffer : Cbuffer
  /-- `num_prod`, `num_cons`. -/
  num : Side → ℤ
  /-- `num_bloq_prod`, `num_bloq_cons`. -/
  numBloq : Side → ℤ
  mutex : ℕ
  /-- `cola_prod`, `cola_cons`. -/
  cola : Side → ℕ
  /-- The references to the module: `try_module_get`s less `module_put`s. -/
  refs : ℤ

/-- The globals after `init_module`, on the memory that the allocator returned. -/
def initModule (data : List Byte) : Driver where
  cbuffer := createCbuffer bufLen data
  num := fun _ ↦ 0
  numBloq := fun _ ↦ 0
  mutex := 1
  cola := fun _ ↦ 0
  refs := 0

/-! ## Control points -/

/-- The three functions that wait, with what they need when they wake up. -/
inductive Waiter (φ : Type) where
  | fifoOpen (h : φ) (m : Side)
  | fifoRead (h : φ) (length : ℕ)
  | fifoWrite (h : φ) (kbuff : List Byte)
deriving DecidableEq

/-- The functions that broadcast, with what they need afterwards. -/
inductive Caster (φ : Type) where
  | fifoOpen (h : φ) (m : Side)
  | fifoRelease (h : φ) (m : Side)
  | fifoRead (h : φ) (length : ℕ) (kbuff : List Byte)
  | fifoWrite (h : φ) (kbuff : List Byte)
deriving DecidableEq

/-- Inside `cond_wait`. -/
inductive WaitPc where
  | /-- At `down_interruptible(cond)`. -/ sleep
  | /-- Interrupted, at `down(mtx)`. -/ intrLock
  | /-- Interrupted, before `count--`. -/ intrDec
  | /-- Signalled, at `down_interruptible(mtx)`. -/ relock
deriving DecidableEq, Repr

/-- Inside `fifo_open`. -/
inductive OpenPc where
  | /-- At `down_interruptible(&mutex)`. -/ lock
  | /-- Before `num_x++`. -/ count
  | /-- At the test of the loop around `cond_wait`. -/ test
  | /-- In the interrupt handler, at `down(&mutex)`. -/ undoLock
  | /-- In the interrupt handler, before `num_x--`. -/ undo
  | /-- At `try_module_get`. -/ get
deriving DecidableEq, Repr

/-- Inside `fifo_release`. -/
inductive ReleasePc where
  | /-- At `down_interruptible(&mutex)`. -/ lock
  | /-- Before `num_x--`. -/ count
  | /-- Before the test for the reset. -/ reset
  | /-- At `module_put`. -/ put
deriving DecidableEq, Repr

/-- Inside `fifo_read`. -/
inductive ReadPc where
  | /-- At the test of the length and the `vmalloc`. -/ alloc
  | /-- At `down_interruptible(&mutex)`. -/ lock
  | /-- At the test for EOF, in front of the loop and in it. -/ test
  | /-- At `up(&mutex)`. -/ unlock (kbuff : List Byte)
  | /-- At `copy_to_user`. -/ copy (kbuff : List Byte)
deriving DecidableEq

/-- Inside `fifo_write`. -/
inductive WritePc where
  | /-- At the test of the length and the `vmalloc`. -/ alloc
  | /-- At `copy_from_user`. -/ copy
  | /-- At `down_interruptible(&mutex)`. -/ lock
  | /-- At the test for consumers in front of the loop. -/ enter
  | /-- At the test of the loop. -/ test
  | /-- At `up(&mutex)`. -/ unlock
deriving DecidableEq, Repr

/-- A control point of the driver; `h` is the file, and `kbuff` the block that is
written. -/
inductive Pc (φ : Type) where
  | idle
  | fifoOpen (loc : OpenPc) (h : φ) (m : Side)
  | fifoRelease (loc : ReleasePc) (h : φ) (m : Side)
  | fifoRead (loc : ReadPc) (h : φ) (length : ℕ)
  | fifoWrite (loc : WritePc) (h : φ) (kbuff : List Byte)
  | condWait (loc : WaitPc) (w : Waiter φ)
  | broadcast (b : Caster φ)
deriving DecidableEq

/-- The semaphores. -/
inductive Sem where
  | mutex
  | cola (x : Side)
deriving DecidableEq, Repr

/-- The value of a semaphore. -/
def Driver.value (d : Driver) : Sem → ℕ
  | .mutex => d.mutex
  | .cola x => d.cola x

/-- The functions of the driver; of the file that `fifo_open` and `fifo_release` are
given, the side. -/
inductive Fn where
  | fifoOpen (m : Side)
  | fifoRelease (m : Side)
  | fifoRead
  | fifoWrite
deriving DecidableEq, Repr

/-- A call of the driver. -/
inductive Call (φ : Type) where
  | fifoOpen (h : φ) (m : Side)
  | fifoRelease (h : φ)
  | fifoRead (h : φ) (length : ℕ)
  | fifoWrite (h : φ) (buff : List Byte)
deriving DecidableEq

/-- What a step does that others can see. -/
inductive Event (φ : Type) where
  | call (c : Call φ)
  | ret (f : Fn) (v : ℤ)
  | down (s : Sem)
  | up (s : Sem)
  | interrupted (s : Sem)
  | /-- `count++` in `cond_wait`. -/ enqueue (x : Side)
  | /-- `count--` in `cond_wait`. -/ dequeue (x : Side)
  | copyIn (xs : List Byte)
  | copyOut (xs : List Byte)
  | insert (xs : List Byte)
  | remove (xs : List Byte)
  | reset
deriving DecidableEq

/-- How a step of a process turns out: it goes on, it is interrupted in a
`down_interruptible`, its `vmalloc` fails, or its user copy leaves out the last
bytes. -/
inductive Act where
  | go
  | intr
  | nomem
  | copy (left : ℕ)
deriving DecidableEq, Repr

/-- What a process does after a step. -/
inductive Next (φ : Type) where
  | goto (pc : Pc φ)
  | ret (f : Fn) (v : ℤ)
deriving DecidableEq

/-- The control point after a step. -/
def Next.pc {φ : Type} : Next φ → Pc φ
  | .goto pc => pc
  | .ret _ _ => .idle

@[simp] theorem Next.pc_goto {φ : Type} (pc : Pc φ) : (Next.goto pc).pc = pc := rfl
@[simp] theorem Next.pc_ret {φ : Type} (f : Fn) (v : ℤ) : (Next.ret f v : Next φ).pc = .idle :=
  rfl

/-- The outcome of a step of one process. -/
structure Outcome (φ : Type) where
  drv : Driver
  next : Next φ
  events : List (Event φ)

variable {ι φ : Type}

/-! ## Semaphore operations -/

/-- `down(&mutex)`, on the way to `pc`. -/
def downMutex (d : Driver) (pc : Pc φ) : Option (Outcome φ) :=
  if 0 < d.mutex then some ⟨{ d with mutex := d.mutex - 1 }, .goto pc, [.down .mutex]⟩ else none

/-- `up(&mutex)`. -/
def upMutex (d : Driver) : Driver := { d with mutex := d.mutex + 1 }

/-- The queue a function waits on. -/
def Waiter.queue : Waiter φ → Side
  | .fifoOpen _ m => m
  | .fifoRead _ _ => .cons
  | .fifoWrite _ _ => .prod

/-- Where a function goes on after `cond_wait`. -/
def Waiter.resume : Waiter φ → Pc φ
  | .fifoOpen h m => .fifoOpen .test h m
  | .fifoRead h length => .fifoRead .test h length
  | .fifoWrite h kbuff => .fifoWrite .test h kbuff

/-- The interrupt handlers given to `cond_wait`, and its `return -EINTR`. -/
def Waiter.handler : Waiter φ → Next φ
  | .fifoOpen h m => .goto (.fifoOpen .undoLock h m)
  | .fifoRead _ _ => .ret .fifoRead (-eintr)
  | .fifoWrite _ _ => .ret .fifoWrite (-eintr)

/-- The entry of `cond_wait`: `count++; up(mtx);`. -/
def enterWait (d : Driver) (w : Waiter φ) : Outcome φ :=
  ⟨{ d with
      numBloq := update d.numBloq w.queue (d.numBloq w.queue + 1)
      mutex := d.mutex + 1 },
    .goto (.condWait .sleep w), [.enqueue w.queue, .up .mutex]⟩

/-- `cond_wait`, from the down of the condition on. -/
def condWait (d : Driver) (w : Waiter φ) : WaitPc → Act → Option (Outcome φ)
  | .sleep, .go =>
    if 0 < d.cola w.queue then
      some ⟨{ d with cola := update d.cola w.queue (d.cola w.queue - 1) },
        .goto (.condWait .relock w), [.down (.cola w.queue)]⟩
    else none
  | .sleep, .intr =>
    some ⟨d, .goto (.condWait .intrLock w), [.interrupted (.cola w.queue)]⟩
  | .intrLock, .go => downMutex d (.condWait .intrDec w)
  | .intrDec, .go =>
    some ⟨{ d with
        numBloq := update d.numBloq w.queue (d.numBloq w.queue - 1)
        mutex := d.mutex + 1 },
      w.handler, [.dequeue w.queue, .up .mutex]⟩
  | .relock, .go => downMutex d w.resume
  | .relock, .intr => some ⟨d, w.handler, [.interrupted .mutex]⟩
  | _, _ => none

/-- The queue a function broadcasts to. -/
def Caster.queue : Caster φ → Side
  | .fifoOpen _ m => m.other
  | .fifoRelease _ _ => .prod
  | .fifoRead _ _ _ => .prod
  | .fifoWrite _ _ => .cons

/-- Where a function goes on after the broadcast. -/
def Caster.next : Caster φ → Pc φ
  | .fifoOpen h m => .fifoOpen .test h m
  | .fifoRelease h m => .fifoRelease .reset h m
  | .fifoRead h length kbuff => .fifoRead (.unlock kbuff) h length
  | .fifoWrite h kbuff => .fifoWrite .unlock h kbuff

/-- `while (num_bloq_x) { num_bloq_x--; up(cola_x); }`, one iteration. -/
def broadcast (d : Driver) (b : Caster φ) : Act → Option (Outcome φ)
  | .go =>
    if d.numBloq b.queue ≠ 0 then
      some ⟨{ d with
          numBloq := update d.numBloq b.queue (d.numBloq b.queue - 1)
          cola := update d.cola b.queue (d.cola b.queue + 1) },
        .goto (.broadcast b), [.up (.cola b.queue)]⟩
    else some ⟨d, .goto b.next, []⟩
  | _ => none

/-! ## The functions of the driver -/

/-- `fifo_open`. -/
def fifoOpen (d : Driver) (h : φ) (m : Side) : OpenPc → Act → Option (Outcome φ)
  | .lock, .go => downMutex d (.fifoOpen .count h m)
  | .lock, .intr => some ⟨d, .ret (.fifoOpen m) (-eintr), [.interrupted .mutex]⟩
  | .count, .go =>
    some ⟨{ d with num := update d.num m (d.num m + 1) }, .goto (.broadcast (.fifoOpen h m)), []⟩
  | .test, .go =>
    if d.num m.other = 0 then some (enterWait d (.fifoOpen h m))
    else some ⟨upMutex d, .goto (.fifoOpen .get h m), [.up .mutex]⟩
  | .undoLock, .go => downMutex d (.fifoOpen .undo h m)
  | .undo, .go =>
    some ⟨upMutex { d with num := update d.num m (d.num m - 1) },
      .ret (.fifoOpen m) (-eintr), [.up .mutex]⟩
  | .get, .go => some ⟨{ d with refs := d.refs + 1 }, .ret (.fifoOpen m) 0, []⟩
  | _, _ => none

/-- `fifo_release`. -/
def fifoRelease (d : Driver) (h : φ) (m : Side) : ReleasePc → Act → Option (Outcome φ)
  | .lock, .go => downMutex d (.fifoRelease .count h m)
  | .lock, .intr => some ⟨d, .ret (.fifoRelease m) (-eintr), [.interrupted .mutex]⟩
  | .count, .go =>
    some ⟨{ d with num := update d.num m (d.num m - 1) },
      .goto (if m = .cons ∧ d.num m - 1 = 0 then .broadcast (.fifoRelease h m)
        else .fifoRelease .reset h m), []⟩
  | .reset, .go =>
    if d.num .prod = 0 ∧ d.num .cons = 0 then
      some ⟨upMutex { d with cbuffer := d.cbuffer.reset },
        .goto (.fifoRelease .put h m), [.reset, .up .mutex]⟩
    else some ⟨upMutex d, .goto (.fifoRelease .put h m), [.up .mutex]⟩
  | .put, .go => some ⟨{ d with refs := d.refs - 1 }, .ret (.fifoRelease m) 0, []⟩
  | _, _ => none

/-- `fifo_read`. -/
def fifoRead (d : Driver) (h : φ) (length : ℕ) : ReadPc → Act → Option (Outcome φ)
  | .alloc, .go =>
    if length > bufLen then some ⟨d, .ret .fifoRead (-einval), []⟩
    else some ⟨d, .goto (.fifoRead .lock h length), []⟩
  | .alloc, .nomem =>
    if length > bufLen then none else some ⟨d, .ret .fifoRead (-enomem), []⟩
  | .lock, .go => downMutex d (.fifoRead .test h length)
  | .lock, .intr => some ⟨d, .ret .fifoRead (-eintr), [.interrupted .mutex]⟩
  | .test, .go =>
    if d.num .prod = 0 ∧ isEmptyCbuffer d.cbuffer = true then
      some ⟨upMutex d, .ret .fifoRead 0, [.up .mutex]⟩
    else if toUnsigned (sizeCbuffer d.cbuffer) < length then
      some (enterWait d (.fifoRead h length))
    else
      -- what the `vmalloc`ed bytes are does not matter: they are all overwritten
      (removeItemsCbuffer d.cbuffer (List.replicate length 0) (toInt length)).map
        fun (cbuffer, kbuff) ↦
          ⟨{ d with cbuffer := cbuffer }, .goto (.broadcast (.fifoRead h length kbuff)),
            [.remove kbuff]⟩
  | .unlock kbuff, .go => some ⟨upMutex d, .goto (.fifoRead (.copy kbuff) h length), [.up .mutex]⟩
  | .copy kbuff, .copy left =>
    if left ≤ length then
      some ⟨d, .ret .fifoRead (length - left), [.copyOut (kbuff.take (length - left))]⟩
    else none
  | _, _ => none

/-- The loop of `fifo_write` and what follows it. -/
def writeLoop (d : Driver) (h : φ) (kbuff : List Byte) : Option (Outcome φ) :=
  if d.num .cons > 0 ∧ toUnsigned (nrGapsCbuffer d.cbuffer) < kbuff.length then
    some (enterWait d (.fifoWrite h kbuff))
  else if d.num .cons = 0 then
    some ⟨upMutex d, .ret .fifoWrite (-epipe), [.up .mutex]⟩
  else
    (insertItemsCbuffer d.cbuffer kbuff (toInt kbuff.length)).map fun cbuffer ↦
      ⟨{ d with cbuffer := cbuffer }, .goto (.broadcast (.fifoWrite h kbuff)), [.insert kbuff]⟩

/-- `fifo_write`. -/
def fifoWrite (d : Driver) (h : φ) (kbuff : List Byte) : WritePc → Act → Option (Outcome φ)
  | .alloc, .go =>
    if kbuff.length > bufLen then some ⟨d, .ret .fifoWrite (-einval), []⟩
    else some ⟨d, .goto (.fifoWrite .copy h kbuff), []⟩
  | .alloc, .nomem =>
    if kbuff.length > bufLen then none else some ⟨d, .ret .fifoWrite (-enomem), []⟩
  | .copy, .copy left =>
    if left ≤ kbuff.length then
      some ⟨d, .goto (.fifoWrite .lock h (kbuff.take (kbuff.length - left))),
        [.copyIn (kbuff.take (kbuff.length - left))]⟩
    else none
  | .lock, .go => downMutex d (.fifoWrite .enter h kbuff)
  | .lock, .intr => some ⟨d, .ret .fifoWrite (-eintr), [.interrupted .mutex]⟩
  | .enter, .go =>
    if d.num .cons = 0 then some ⟨upMutex d, .ret .fifoWrite (-epipe), [.up .mutex]⟩
    else writeLoop d h kbuff
  | .test, .go => writeLoop d h kbuff
  | .unlock, .go => some ⟨upMutex d, .ret .fifoWrite kbuff.length, [.up .mutex]⟩
  | _, _ => none

/-- A step of one process inside the driver. -/
def Pc.run (d : Driver) : Pc φ → Act → Option (Outcome φ)
  | .idle, _ => none
  | .fifoOpen loc h m, a => Fifo.fifoOpen d h m loc a
  | .fifoRelease loc h m, a => Fifo.fifoRelease d h m loc a
  | .fifoRead loc h length, a => Fifo.fifoRead d h length loc a
  | .fifoWrite loc h kbuff, a => Fifo.fifoWrite d h kbuff loc a
  | .condWait loc w, a => Fifo.condWait d w loc a
  | .broadcast b, a => Fifo.broadcast d b a

/-! ## The system -/

/-- The file a call was made on. -/
def Waiter.file : Waiter φ → φ
  | .fifoOpen h _ | .fifoRead h _ | .fifoWrite h _ => h

/-- The file a call was made on. -/
def Caster.file : Caster φ → φ
  | .fifoOpen h _ | .fifoRelease h _ | .fifoRead h _ _ | .fifoWrite h _ => h

/-- The file that a process inside the driver uses. -/
def Pc.file : Pc φ → Option φ
  | .idle => none
  | .fifoOpen _ h _ | .fifoRelease _ h _ | .fifoRead _ h _ | .fifoWrite _ h _ => some h
  | .condWait _ w => some w.file
  | .broadcast b => some b.file

/-- The whole system: the globals, the open files with their sides, and the control
points of the processes. -/
structure State (ι φ : Type) where
  drv : Driver
  files : φ → Option Side
  pc : ι → Pc φ

/-- Nobody is inside the driver with the file `h`. -/
def State.Unused (s : State ι φ) (h : φ) : Prop := ∀ p, (s.pc p).file ≠ some h

instance [Fintype ι] [DecidableEq φ] (s : State ι φ) (h : φ) : Decidable (s.Unused h) :=
  inferInstanceAs (Decidable (∀ p, (s.pc p).file ≠ some h))

/-- What the VFS does on the way into the driver: the new table of open files and the
control point where the call begins.  A file is released once, after all the calls
on it have returned. -/
def State.enter [Fintype ι] [DecidableEq φ] (s : State ι φ) :
    Call φ → Option ((φ → Option Side) × Pc φ)
  | .fifoOpen h m =>
    if s.files h = none ∧ s.Unused h then some (s.files, .fifoOpen .lock h m) else none
  | .fifoRelease h =>
    match s.files h with
    | some m =>
      if s.Unused h then some (update s.files h none, .fifoRelease .lock h m) else none
    | none => none
  | .fifoRead h length =>
    if s.files h ≠ none then some (s.files, .fifoRead .alloc h length) else none
  | .fifoWrite h buff =>
    if s.files h ≠ none then some (s.files, .fifoWrite .alloc h buff) else none

/-- What the VFS does when the driver returns `v`: a file whose open returned 0 is
open.  What `fifo_release` returns is ignored. -/
def Pc.leave [DecidableEq φ] (files : φ → Option Side) : Pc φ → ℤ → φ → Option Side
  | .fifoOpen _ h m, v => if v = 0 then update files h (some m) else files
  | _, _ => files

/-- What happens next to a process: it calls the driver, or it takes a step in it. -/
inductive Choice (φ : Type) where
  | call (c : Call φ)
  | act (a : Act)
deriving DecidableEq

/-- A process and what happens next to it. -/
structure Move (ι φ : Type) where
  proc : ι
  choice : Choice φ

/-- The table of open files after a step of a process at `pc`. -/
def Next.files [DecidableEq φ] (files : φ → Option Side) (pc : Pc φ) : Next φ → φ → Option Side
  | .goto _ => files
  | .ret _ v => pc.leave files v

/-- The return that ends a call. -/
def Next.event : Next φ → List (Event φ)
  | .goto _ => []
  | .ret f v => [.ret f v]

@[simp] theorem Next.mem_event {φ : Type} {n : Next φ} {e : Event φ} :
    e ∈ n.event ↔ ∃ f v, n = .ret f v ∧ e = .ret f v := by
  cases n <;> simp [Next.event]

/-- A step of a process, put back into the system. -/
def State.put [DecidableEq ι] [DecidableEq φ] (s : State ι φ) (p : ι) (o : Outcome φ) :
    State ι φ × List (Event φ) :=
  (⟨o.drv, o.next.files s.files (s.pc p), update s.pc p o.next.pc⟩, o.events ++ o.next.event)

/-- One step of the system. -/
def step [Fintype ι] [DecidableEq ι] [DecidableEq φ] (s : State ι φ) (i : Move ι φ) :
    Option (State ι φ × List (Event φ)) :=
  match i.choice, s.pc i.proc with
  | .call c, .idle =>
    (s.enter c).map fun (files, pc) ↦ (⟨s.drv, files, update s.pc i.proc pc⟩, [.call c])
  | .call _, _ => none
  | .act a, pc => (pc.run s.drv a).map (s.put i.proc)

/-- The system just after `init_module`: nobody in the driver, no file open. -/
def initial (data : List Byte) : State ι φ where
  drv := initModule data
  files := fun _ ↦ none
  pc := fun _ ↦ .idle

/-- The label of a step of the system. -/
abbrev Label (ι φ : Type) : Type := LTS.Io (Move ι φ) (List (Event φ))

/-- The FIFO driver with its processes. -/
def fifo (ι φ : Type) [Fintype ι] [DecidableEq ι] [DecidableEq φ] :
    LTS (State ι φ) (Label ι φ) :=
  .ofStep (fun s ↦ ∃ data : List Byte, data.length = bufLen ∧ s = initial data) step

/-! ## Interruptions -/

/-- The semaphore that a process at a down waits for. -/
def Pc.awaits : Pc φ → Option Sem
  | .fifoOpen .lock _ _ | .fifoOpen .undoLock _ _ | .fifoRelease .lock _ _
  | .fifoRead .lock _ _ | .fifoWrite .lock _ _ => some .mutex
  | .condWait .sleep w => some (.cola w.queue)
  | .condWait .intrLock _ | .condWait .relock _ => some .mutex
  | _ => none

/-- The step is not an interruption. -/
def NoIntr (_ : State ι φ) (l : Label ι φ) : Prop := l.input.choice ≠ .act .intr

/-- If the step is an interruption, it is of a process that cannot go on: the
semaphore it waits for is zero. -/
def Blocking (s : State ι φ) (l : Label ι φ) : Prop :=
  l.input.choice = .act .intr →
    ∀ sem ∈ (s.pc l.input.proc).awaits, s.drv.value sem = 0

instance (s : State ι φ) [DecidableEq φ] (l : Label ι φ) : Decidable (NoIntr s l) :=
  inferInstanceAs (Decidable (l.input.choice ≠ .act .intr))

instance (s : State ι φ) [DecidableEq φ] (l : Label ι φ) : Decidable (Blocking s l) :=
  inferInstanceAs (Decidable (l.input.choice = .act .intr →
    ∀ sem ∈ (s.pc l.input.proc).awaits, s.drv.value sem = 0))

/-! ## Concrete runs

A run is given by its moves and checked by `LTS.replay`; `fresh` is the initial
state on a zeroed buffer. -/

/-- The next step of `p`. -/
def go (p : ι) : Move ι φ := ⟨p, .act .go⟩

/-- The next `n` steps of `p`. -/
def gos (n : ℕ) (p : ι) : List (Move ι φ) := List.replicate n (go p)

/-- `p` is interrupted. -/
def intr (p : ι) : Move ι φ := ⟨p, .act .intr⟩

/-- `p` copies from or to its user without a fault. -/
def copyAll (p : ι) : Move ι φ := ⟨p, .act (.copy 0)⟩

/-- `p` calls the driver. -/
def call (p : ι) (c : Call φ) : Move ι φ := ⟨p, .call c⟩

/-- The initial state on a zeroed buffer. -/
def fresh : State ι φ := initial (List.replicate bufLen 0)

/-- Process 0 opens file 0 as a consumer and sleeps; process 1 opens file 1 as a
producer. -/
def meeting {m n : ℕ} : List (Move (Fin (m + 2)) (Fin (n + 2))) :=
  call 0 (.fifoOpen 0 .cons) :: gos 4 0 ++ call 1 (.fifoOpen 1 .prod) :: gos 6 1

/-- Process `p` writes to file 1, up to its broadcast. -/
def writing {m n : ℕ} (p : Fin m) (kbuff : List Byte) : List (Move (Fin m) (Fin (n + 2))) :=
  [call p (.fifoWrite 1 kbuff), go p, copyAll p, go p, go p]

/-- A replay from `fresh` whose last state passes a test gives a run to a state that
passes it. -/
theorem exists_run {ι φ : Type} [Fintype ι] [DecidableEq ι] [DecidableEq φ]
    (P : State ι φ → Label ι φ → Prop) [∀ s l, Decidable (P s l)] (moves : List (Move ι φ))
    (good : State ι φ → Bool)
    (h : (LTS.replay step (fun s l ↦ decide (P s l)) fresh moves).any good = true) :
    ∃ tr t, (fifo ι φ).Run P tr t ∧ good t = true := by
  obtain ⟨tr, t, hr, hg⟩ := LTS.exists_run_of_replay
    (fun s ↦ ∃ data : List Byte, data.length = bufLen ∧ s = initial data)
    ⟨List.replicate bufLen 0, List.length_replicate, rfl⟩ h
  exact ⟨tr, t, hr.mono fun s l hP ↦ of_decide_eq_true hP, hg⟩

end DsoFifo.Fifo
