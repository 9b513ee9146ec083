import DsoFifo.Fifo.Driver

/-!
# What a step of the driver can do

`Fires d pc a o` lists, one constructor for each branch of the source, every way in
which a process at `pc` takes a step from the globals `d`, with the test that leads
into the branch.  `fires_of_run` says that the list is complete; every invariant of
the driver is proved by cases on it, and none unfolds the functions of `fifo.c`
again.

For the whole system, `step_cases` splits a step into a call, where the VFS acts
alone, and a step inside the driver.
-/

namespace DsoFifo.Fifo

open DsoFifo.C Function

variable {ι φ : Type}

/-- Every way a process inside the driver takes a step. -/
inductive Fires (d : Driver) : Pc φ → Act → Outcome φ → Prop
  -- `fifo_open`
  | openLock {h : φ} {m : Side} : 0 < d.mutex →
      Fires d (.fifoOpen .lock h m) .go
        ⟨{ d with mutex := d.mutex - 1 }, .goto (.fifoOpen .count h m), [.down .mutex]⟩
  | openIntr {h : φ} {m : Side} :
      Fires d (.fifoOpen .lock h m) .intr
        ⟨d, .ret (.fifoOpen m) (-eintr), [.interrupted .mutex]⟩
  | openCount {h : φ} {m : Side} :
      Fires d (.fifoOpen .count h m) .go
        ⟨{ d with num := update d.num m (d.num m + 1) }, .goto (.broadcast (.fifoOpen h m)), []⟩
  | openSleep {h : φ} {m : Side} : d.num m.other = 0 →
      Fires d (.fifoOpen .test h m) .go (enterWait d (.fifoOpen h m))
  | openPass {h : φ} {m : Side} : d.num m.other ≠ 0 →
      Fires d (.fifoOpen .test h m) .go
        ⟨upMutex d, .goto (.fifoOpen .get h m), [.up .mutex]⟩
  | undoLock {h : φ} {m : Side} : 0 < d.mutex →
      Fires d (.fifoOpen .undoLock h m) .go
        ⟨{ d with mutex := d.mutex - 1 }, .goto (.fifoOpen .undo h m), [.down .mutex]⟩
  | undo {h : φ} {m : Side} :
      Fires d (.fifoOpen .undo h m) .go
        ⟨upMutex { d with num := update d.num m (d.num m - 1) },
          .ret (.fifoOpen m) (-eintr), [.up .mutex]⟩
  | openGet {h : φ} {m : Side} :
      Fires d (.fifoOpen .get h m) .go ⟨{ d with refs := d.refs + 1 }, .ret (.fifoOpen m) 0, []⟩
  -- `fifo_release`
  | releaseLock {h : φ} {m : Side} : 0 < d.mutex →
      Fires d (.fifoRelease .lock h m) .go
        ⟨{ d with mutex := d.mutex - 1 }, .goto (.fifoRelease .count h m), [.down .mutex]⟩
  | releaseIntr {h : φ} {m : Side} :
      Fires d (.fifoRelease .lock h m) .intr
        ⟨d, .ret (.fifoRelease m) (-eintr), [.interrupted .mutex]⟩
  | releaseLast {h : φ} : d.num .cons - 1 = 0 →
      Fires d (.fifoRelease .count h .cons) .go
        ⟨{ d with num := update d.num .cons (d.num .cons - 1) },
          .goto (.broadcast (.fifoRelease h .cons)), []⟩
  | releaseCount {h : φ} {m : Side} : ¬(m = .cons ∧ d.num m - 1 = 0) →
      Fires d (.fifoRelease .count h m) .go
        ⟨{ d with num := update d.num m (d.num m - 1) }, .goto (.fifoRelease .reset h m), []⟩
  | releaseReset {h : φ} {m : Side} : d.num .prod = 0 → d.num .cons = 0 →
      Fires d (.fifoRelease .reset h m) .go
        ⟨upMutex { d with cbuffer := d.cbuffer.reset }, .goto (.fifoRelease .put h m),
          [.reset, .up .mutex]⟩
  | releaseKeep {h : φ} {m : Side} : ¬(d.num .prod = 0 ∧ d.num .cons = 0) →
      Fires d (.fifoRelease .reset h m) .go
        ⟨upMutex d, .goto (.fifoRelease .put h m), [.up .mutex]⟩
  | releasePut {h : φ} {m : Side} :
      Fires d (.fifoRelease .put h m) .go
        ⟨{ d with refs := d.refs - 1 }, .ret (.fifoRelease m) 0, []⟩
  -- `fifo_read`
  | readTooLong {h : φ} {length : ℕ} : bufLen < length →
      Fires d (.fifoRead .alloc h length) .go ⟨d, .ret .fifoRead (-einval), []⟩
  | readAlloc {h : φ} {length : ℕ} : length ≤ bufLen →
      Fires d (.fifoRead .alloc h length) .go ⟨d, .goto (.fifoRead .lock h length), []⟩
  | readNomem {h : φ} {length : ℕ} :
      Fires d (.fifoRead .alloc h length) .nomem ⟨d, .ret .fifoRead (-enomem), []⟩
  | readLock {h : φ} {length : ℕ} : 0 < d.mutex →
      Fires d (.fifoRead .lock h length) .go
        ⟨{ d with mutex := d.mutex - 1 }, .goto (.fifoRead .test h length), [.down .mutex]⟩
  | readIntr {h : φ} {length : ℕ} :
      Fires d (.fifoRead .lock h length) .intr
        ⟨d, .ret .fifoRead (-eintr), [.interrupted .mutex]⟩
  | readEof {h : φ} {length : ℕ} : d.num .prod = 0 → isEmptyCbuffer d.cbuffer = true →
      Fires d (.fifoRead .test h length) .go ⟨upMutex d, .ret .fifoRead 0, [.up .mutex]⟩
  | readSleep {h : φ} {length : ℕ} :
      ¬(d.num .prod = 0 ∧ isEmptyCbuffer d.cbuffer = true) →
      toUnsigned (sizeCbuffer d.cbuffer) < length →
      Fires d (.fifoRead .test h length) .go (enterWait d (.fifoRead h length))
  | readRemove {h : φ} {length : ℕ} {cbuffer : Cbuffer} {kbuff : List Byte} :
      ¬(d.num .prod = 0 ∧ isEmptyCbuffer d.cbuffer = true) →
      length ≤ toUnsigned (sizeCbuffer d.cbuffer) →
      removeItemsCbuffer d.cbuffer (List.replicate length 0) (toInt length) =
        some (cbuffer, kbuff) →
      Fires d (.fifoRead .test h length) .go
        ⟨{ d with cbuffer := cbuffer }, .goto (.broadcast (.fifoRead h length kbuff)),
          [.remove kbuff]⟩
  | readUnlock {h : φ} {length : ℕ} {kbuff : List Byte} :
      Fires d (.fifoRead (.unlock kbuff) h length) .go
        ⟨upMutex d, .goto (.fifoRead (.copy kbuff) h length), [.up .mutex]⟩
  | readCopy {h : φ} {length : ℕ} {kbuff : List Byte} {left : ℕ} : left ≤ length →
      Fires d (.fifoRead (.copy kbuff) h length) (.copy left)
        ⟨d, .ret .fifoRead (length - left), [.copyOut (kbuff.take (length - left))]⟩
  -- `fifo_write`
  | writeTooLong {h : φ} {kbuff : List Byte} : bufLen < kbuff.length →
      Fires d (.fifoWrite .alloc h kbuff) .go ⟨d, .ret .fifoWrite (-einval), []⟩
  | writeAlloc {h : φ} {kbuff : List Byte} : kbuff.length ≤ bufLen →
      Fires d (.fifoWrite .alloc h kbuff) .go ⟨d, .goto (.fifoWrite .copy h kbuff), []⟩
  | writeNomem {h : φ} {kbuff : List Byte} :
      Fires d (.fifoWrite .alloc h kbuff) .nomem ⟨d, .ret .fifoWrite (-enomem), []⟩
  | writeCopy {h : φ} {kbuff : List Byte} {left : ℕ} : left ≤ kbuff.length →
      Fires d (.fifoWrite .copy h kbuff) (.copy left)
        ⟨d, .goto (.fifoWrite .lock h (kbuff.take (kbuff.length - left))),
          [.copyIn (kbuff.take (kbuff.length - left))]⟩
  | writeLock {h : φ} {kbuff : List Byte} : 0 < d.mutex →
      Fires d (.fifoWrite .lock h kbuff) .go
        ⟨{ d with mutex := d.mutex - 1 }, .goto (.fifoWrite .enter h kbuff), [.down .mutex]⟩
  | writeIntr {h : φ} {kbuff : List Byte} :
      Fires d (.fifoWrite .lock h kbuff) .intr
        ⟨d, .ret .fifoWrite (-eintr), [.interrupted .mutex]⟩
  | writeEpipe {loc : WritePc} {h : φ} {kbuff : List Byte} : loc = .enter ∨ loc = .test →
      d.num .cons = 0 →
      Fires d (.fifoWrite loc h kbuff) .go ⟨upMutex d, .ret .fifoWrite (-epipe), [.up .mutex]⟩
  | writeSleep {loc : WritePc} {h : φ} {kbuff : List Byte} : loc = .enter ∨ loc = .test →
      d.num .cons > 0 → toUnsigned (nrGapsCbuffer d.cbuffer) < kbuff.length →
      Fires d (.fifoWrite loc h kbuff) .go (enterWait d (.fifoWrite h kbuff))
  | writeInsert {loc : WritePc} {h : φ} {kbuff : List Byte} {cbuffer : Cbuffer} :
      loc = .enter ∨ loc = .test → d.num .cons ≠ 0 →
      ¬(d.num .cons > 0 ∧ toUnsigned (nrGapsCbuffer d.cbuffer) < kbuff.length) →
      insertItemsCbuffer d.cbuffer kbuff (toInt kbuff.length) = some cbuffer →
      Fires d (.fifoWrite loc h kbuff) .go
        ⟨{ d with cbuffer := cbuffer }, .goto (.broadcast (.fifoWrite h kbuff)), [.insert kbuff]⟩
  | writeUnlock {h : φ} {kbuff : List Byte} :
      Fires d (.fifoWrite .unlock h kbuff) .go
        ⟨upMutex d, .ret .fifoWrite kbuff.length, [.up .mutex]⟩
  -- `cond_wait`
  | take {w : Waiter φ} : 0 < d.cola w.queue →
      Fires d (.condWait .sleep w) .go
        ⟨{ d with cola := update d.cola w.queue (d.cola w.queue - 1) },
          .goto (.condWait .relock w), [.down (.cola w.queue)]⟩
  | sleepIntr {w : Waiter φ} :
      Fires d (.condWait .sleep w) .intr
        ⟨d, .goto (.condWait .intrLock w), [.interrupted (.cola w.queue)]⟩
  | intrLock {w : Waiter φ} : 0 < d.mutex →
      Fires d (.condWait .intrLock w) .go
        ⟨{ d with mutex := d.mutex - 1 }, .goto (.condWait .intrDec w), [.down .mutex]⟩
  | intrDec {w : Waiter φ} :
      Fires d (.condWait .intrDec w) .go
        ⟨{ d with
            numBloq := update d.numBloq w.queue (d.numBloq w.queue - 1)
            mutex := d.mutex + 1 },
          w.handler, [.dequeue w.queue, .up .mutex]⟩
  | relock {w : Waiter φ} : 0 < d.mutex →
      Fires d (.condWait .relock w) .go
        ⟨{ d with mutex := d.mutex - 1 }, .goto w.resume, [.down .mutex]⟩
  | relockIntr {w : Waiter φ} :
      Fires d (.condWait .relock w) .intr ⟨d, w.handler, [.interrupted .mutex]⟩
  -- the broadcast loops
  | signal {b : Caster φ} : d.numBloq b.queue ≠ 0 →
      Fires d (.broadcast b) .go
        ⟨{ d with
            numBloq := update d.numBloq b.queue (d.numBloq b.queue - 1)
            cola := update d.cola b.queue (d.cola b.queue + 1) },
          .goto (.broadcast b), [.up (.cola b.queue)]⟩
  | castEnd {b : Caster φ} : d.numBloq b.queue = 0 →
      Fires d (.broadcast b) .go ⟨d, .goto b.next, []⟩

/-! ## The list is complete -/

theorem downMutex_some {d : Driver} {pc : Pc φ} {o : Outcome φ} (h : downMutex d pc = some o) :
    0 < d.mutex ∧ o = ⟨{ d with mutex := d.mutex - 1 }, .goto pc, [.down .mutex]⟩ := by
  unfold downMutex at h
  split at h
  · exact ⟨‹_›, by simpa using h.symm⟩
  · cases h

theorem fires_fifoOpen {d : Driver} {f : φ} {m : Side} {loc : OpenPc} {a : Act} {o : Outcome φ}
    (h : fifoOpen d f m loc a = some o) : Fires d (.fifoOpen loc f m) a o := by
  cases loc <;> cases a <;> simp only [fifoOpen, reduceCtorEq] at h
  case lock.go => obtain ⟨hm, rfl⟩ := downMutex_some h; exact .openLock hm
  case lock.intr => cases h; exact .openIntr
  case count.go => cases h; exact .openCount
  case test.go =>
    split at h
    · cases h; exact .openSleep ‹_›
    · cases h; exact .openPass ‹_›
  case undoLock.go => obtain ⟨hm, rfl⟩ := downMutex_some h; exact .undoLock hm
  case undo.go => cases h; exact .undo
  case get.go => cases h; exact .openGet

theorem fires_fifoRelease {d : Driver} {f : φ} {m : Side} {loc : ReleasePc} {a : Act}
    {o : Outcome φ} (h : fifoRelease d f m loc a = some o) :
    Fires d (.fifoRelease loc f m) a o := by
  cases loc <;> cases a <;> simp only [fifoRelease, reduceCtorEq] at h
  case lock.go => obtain ⟨hm, rfl⟩ := downMutex_some h; exact .releaseLock hm
  case lock.intr => cases h; exact .releaseIntr
  case count.go =>
    by_cases hm : m = .cons ∧ d.num m - 1 = 0
    · rw [if_pos hm] at h
      obtain ⟨rfl, hm⟩ := hm
      cases h; exact .releaseLast hm
    · rw [if_neg hm] at h
      cases h; exact .releaseCount hm
  case reset.go =>
    split at h
    · rename_i hz
      cases h; exact .releaseReset hz.1 hz.2
    · cases h; exact .releaseKeep ‹_›
  case put.go => cases h; exact .releasePut

theorem fires_fifoRead {d : Driver} {f : φ} {length : ℕ} {loc : ReadPc} {a : Act} {o : Outcome φ}
    (h : fifoRead d f length loc a = some o) : Fires d (.fifoRead loc f length) a o := by
  cases loc <;> cases a <;> simp only [fifoRead, reduceCtorEq] at h
  case alloc.go =>
    split at h
    · cases h; exact .readTooLong ‹_›
    · cases h; exact .readAlloc (Nat.le_of_not_lt ‹_›)
  case alloc.nomem =>
    split at h
    · cases h
    · cases h; exact .readNomem
  case lock.go => obtain ⟨hm, rfl⟩ := downMutex_some h; exact .readLock hm
  case lock.intr => cases h; exact .readIntr
  case test.go =>
    split at h
    · rename_i he
      cases h; exact .readEof he.1 he.2
    · split at h
      · cases h; exact .readSleep ‹_› ‹_›
      · obtain ⟨⟨cbuffer, kbuff⟩, hr, rfl⟩ := Option.map_eq_some_iff.mp h
        exact .readRemove ‹_› (Nat.le_of_not_lt ‹_›) hr
  case unlock.go => cases h; exact .readUnlock
  case copy.copy =>
    split at h
    · cases h; exact .readCopy ‹_›
    · cases h

theorem fires_writeLoop {d : Driver} {f : φ} {kbuff : List Byte} {loc : WritePc} {o : Outcome φ}
    (hloc : loc = .enter ∨ loc = .test) (h : writeLoop d f kbuff = some o) :
    Fires d (.fifoWrite loc f kbuff) .go o := by
  unfold writeLoop at h
  split at h
  · rename_i hw
    cases h; exact .writeSleep hloc hw.1 hw.2
  · split at h
    · cases h; exact .writeEpipe hloc ‹_›
    · obtain ⟨cbuffer, hi, rfl⟩ := Option.map_eq_some_iff.mp h
      exact .writeInsert hloc ‹_› ‹_› hi

theorem fires_fifoWrite {d : Driver} {f : φ} {kbuff : List Byte} {loc : WritePc} {a : Act}
    {o : Outcome φ} (h : fifoWrite d f kbuff loc a = some o) :
    Fires d (.fifoWrite loc f kbuff) a o := by
  cases loc <;> cases a <;> simp only [fifoWrite, reduceCtorEq] at h
  case alloc.go =>
    split at h
    · cases h; exact .writeTooLong ‹_›
    · cases h; exact .writeAlloc (Nat.le_of_not_lt ‹_›)
  case alloc.nomem =>
    split at h
    · cases h
    · cases h; exact .writeNomem
  case copy.copy =>
    split at h
    · cases h; exact .writeCopy ‹_›
    · cases h
  case lock.go => obtain ⟨hm, rfl⟩ := downMutex_some h; exact .writeLock hm
  case lock.intr => cases h; exact .writeIntr
  case enter.go =>
    split at h
    · cases h; exact .writeEpipe (.inl rfl) ‹_›
    · exact fires_writeLoop (.inl rfl) h
  case test.go => exact fires_writeLoop (.inr rfl) h
  case unlock.go => cases h; exact .writeUnlock

theorem fires_condWait {d : Driver} {w : Waiter φ} {loc : WaitPc} {a : Act} {o : Outcome φ}
    (h : condWait d w loc a = some o) : Fires d (.condWait loc w) a o := by
  cases loc <;> cases a <;> simp only [condWait, reduceCtorEq] at h
  case sleep.go =>
    split at h
    · cases h; exact .take ‹_›
    · cases h
  case sleep.intr => cases h; exact .sleepIntr
  case intrLock.go => obtain ⟨hm, rfl⟩ := downMutex_some h; exact .intrLock hm
  case intrDec.go => cases h; exact .intrDec
  case relock.go => obtain ⟨hm, rfl⟩ := downMutex_some h; exact .relock hm
  case relock.intr => cases h; exact .relockIntr

theorem fires_broadcast {d : Driver} {b : Caster φ} {a : Act} {o : Outcome φ}
    (h : broadcast d b a = some o) : Fires d (.broadcast b) a o := by
  cases a <;> simp only [broadcast, reduceCtorEq] at h
  split at h
  · cases h; exact .signal ‹_›
  · cases h; exact .castEnd (Classical.not_not.mp ‹_›)

/-- Every step of a process inside the driver is in the list. -/
theorem fires_of_run {d : Driver} {pc : Pc φ} {a : Act} {o : Outcome φ}
    (h : pc.run d a = some o) : Fires d pc a o := by
  cases pc with
  | idle => cases h
  | fifoOpen loc f m => exact fires_fifoOpen h
  | fifoRelease loc f m => exact fires_fifoRelease h
  | fifoRead loc f length => exact fires_fifoRead h
  | fifoWrite loc f kbuff => exact fires_fifoWrite h
  | condWait loc w => exact fires_condWait h
  | broadcast b => exact fires_broadcast h

theorem Fires.ne_idle {d : Driver} {pc : Pc φ} {a : Act} {o : Outcome φ} (h : Fires d pc a o) :
    pc ≠ .idle := by
  rintro rfl
  cases h

/-- The return of a call is not among the events of its last step: the system adds it. -/
theorem Fires.ret_notMem {d : Driver} {pc : Pc φ} {a : Act} {o : Outcome φ} (h : Fires d pc a o)
    {f : Fn} {v : ℤ} : Event.ret f v ∉ o.events := by
  cases h <;> simp [enterWait]

/-! ## Steps of the system -/

/-- Every way a call begins. -/
inductive Enters [DecidableEq φ] (s : State ι φ) : Call φ → (φ → Option Side) → Pc φ → Prop
  | fifoOpen {h : φ} {m : Side} : s.files h = none → s.Unused h →
      Enters s (.fifoOpen h m) s.files (.fifoOpen .lock h m)
  | fifoRelease {h : φ} {m : Side} : s.files h = some m → s.Unused h →
      Enters s (.fifoRelease h) (update s.files h none) (.fifoRelease .lock h m)
  | fifoRead {h : φ} {length : ℕ} : s.files h ≠ none →
      Enters s (.fifoRead h length) s.files (.fifoRead .alloc h length)
  | fifoWrite {h : φ} {buff : List Byte} : s.files h ≠ none →
      Enters s (.fifoWrite h buff) s.files (.fifoWrite .alloc h buff)

variable [Fintype ι] [DecidableEq φ]

theorem enters_of_enter {s : State ι φ} {c : Call φ} {files : φ → Option Side} {pc : Pc φ}
    (h : s.enter c = some (files, pc)) : Enters s c files pc := by
  cases c with
  | fifoOpen f m =>
      simp only [State.enter] at h
      split at h
      · rename_i hf
        cases h; exact .fifoOpen hf.1 hf.2
      · cases h
  | fifoRelease f =>
      simp only [State.enter] at h
      split at h
      · split at h
        · cases h; exact .fifoRelease ‹_› ‹_›
        · cases h
      · cases h
  | fifoRead f length =>
      simp only [State.enter] at h
      split at h
      · cases h; exact .fifoRead ‹_›
      · cases h
  | fifoWrite f buff =>
      simp only [State.enter] at h
      split at h
      · cases h; exact .fifoWrite ‹_›
      · cases h

/-- A step of the system is a call, which leaves the globals alone, or a step of one
process inside the driver. -/
theorem step_cases [DecidableEq ι] {s t : State ι φ} {l : Label ι φ}
    (h : (fifo ι φ).Step s l t) :
    (∃ c files pc, l.input.choice = .call c ∧ s.pc l.input.proc = .idle ∧
        Enters s c files pc ∧
        t = ⟨s.drv, files, update s.pc l.input.proc pc⟩ ∧ l.output = [.call c]) ∨
      ∃ a o, l.input.choice = .act a ∧ Fires s.drv (s.pc l.input.proc) a o ∧
        t = ⟨o.drv, o.next.files s.files (s.pc l.input.proc),
          update s.pc l.input.proc o.next.pc⟩ ∧
        l.output = o.events ++ o.next.event := by
  obtain ⟨⟨p, ch⟩, out⟩ := l
  change step s ⟨p, ch⟩ = some (t, out) at h
  unfold step at h
  dsimp only at h ⊢
  split at h
  · obtain ⟨⟨files, pc⟩, he, hr⟩ := Option.map_eq_some_iff.mp h
    obtain ⟨rfl, rfl⟩ := Prod.mk.inj hr
    exact .inl ⟨_, files, pc, rfl, ‹_›, enters_of_enter he, rfl, rfl⟩
  · cases h
  · obtain ⟨o, ho, hr⟩ := Option.map_eq_some_iff.mp h
    obtain ⟨rfl, rfl⟩ := Prod.mk.inj hr
    exact .inr ⟨_, o, rfl, fires_of_run ho, rfl, rfl⟩

/-- A process whose control point allows it takes its next step. -/
theorem step_go [DecidableEq ι] {s : State ι φ} {p : ι}
    (h : ((s.pc p).run s.drv .go).isSome = true) : ∃ t evs, (fifo ι φ).Step s ⟨go p, evs⟩ t := by
  obtain ⟨o, ho⟩ := Option.isSome_iff_exists.mp h
  exact ⟨_, _, by simp only [fifo, LTS.ofStep, step, go, ho]; rfl⟩

end DsoFifo.Fifo
