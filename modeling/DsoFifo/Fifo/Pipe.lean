import DsoFifo.Fifo.Stream
import DsoFifo.Transition.Clients

/-!
# The driver as an atomic pipe

What the driver is for, without semaphores, queues of sleepers and a circular buffer: a `Pipe`
is two numbers of attached ends and the bytes that have not been read, and each call takes
effect on it in one step.  An open takes two steps, since it waits for the other side in
between.

`linearizable` says that the driver is not more than that: of every run, what the processes see
of their calls could also have been seen at the pipe, where the effect of each call falls
somewhere between the call and its return.
-/

namespace DsoFifo.Fifo

open DsoFifo.C DsoFifo.LTS DsoFifo.Pool Function

variable {ι φ : Type}

/-! ## The pipe -/

/-- The pipe: the open files with their sides, how many ends of each side are attached, and
what has not been read. -/
@[ext]
structure Pipe (φ : Type) where
  files : φ → Option Side
  ends : Side → ℕ
  content : List Byte

/-- The pipe to begin with. -/
def Pipe.empty : Pipe φ := ⟨fun _ ↦ none, fun _ ↦ 0, []⟩

/-- What a process is doing at the pipe. -/
inductive Phase (φ : Type) where
  | idle
  | opening (h : φ) (m : Side)
  | /-- Waits for the other side. -/ attached (h : φ) (m : Side)
  | opened (h : φ) (m : Side)
  | releasing (m : Side)
  | reading (length : ℕ)
  | /-- Has taken these bytes out. -/ fetched (xs : List Byte)
  | writing (buff : List Byte)
  | /-- Has got these bytes from its user. -/ ready (xs : List Byte)
  | returning (f : Fn) (v : ℤ)
deriving DecidableEq

/-- The calls that may fail without any effect, with their errors. -/
inductive Phase.Refuses : Phase φ → Fn → ℤ → Prop
  | openIntr (h : φ) (m : Side) : Refuses (.opening h m) (.fifoOpen m) (-eintr)
  | releaseIntr (m : Side) : Refuses (.releasing m) (.fifoRelease m) (-eintr)
  | readTooLong {length : ℕ} : bufLen < length → Refuses (.reading length) .fifoRead (-einval)
  | readNomem (length : ℕ) : Refuses (.reading length) .fifoRead (-enomem)
  | readIntr (length : ℕ) : Refuses (.reading length) .fifoRead (-eintr)
  | writeTooLong {buff : List Byte} : bufLen < buff.length →
      Refuses (.writing buff) .fifoWrite (-einval)
  | writeNomem (buff : List Byte) : Refuses (.writing buff) .fifoWrite (-enomem)
  | writeIntr (xs : List Byte) : Refuses (.ready xs) .fifoWrite (-eintr)

/-- One more end. -/
def Pipe.attach (w : Pipe φ) (m : Side) : Pipe φ :=
  { w with ends := update w.ends m (w.ends m + 1) }

/-- One end less. -/
def Pipe.withdraw (w : Pipe φ) (m : Side) : Pipe φ :=
  { w with ends := update w.ends m (w.ends m - 1) }

/-- One end less; without ends the pipe is empty. -/
def Pipe.detach (w : Pipe φ) (m : Side) : Pipe φ :=
  if ∀ x, (w.withdraw m).ends x = 0 then { w.withdraw m with content := [] } else w.withdraw m

/-- What the processes see of a step at the pipe. -/
def Pipe.view (l : ι × Option (Event φ)) : List (ι × Event φ) := l.2.toList.map (l.1, ·)

theorem Pipe.flatMap_view (p : ι) (os : List (Option (Event φ))) :
    (os.map (p, ·)).flatMap Pipe.view = (os.filterMap id).map (p, ·) := by
  induction os with
  | nil => rfl
  | cons o os ih =>
      rw [List.map_cons, List.flatMap_cons, ih]
      cases o <;> rfl

section

variable [DecidableEq φ]

/-- A step of a process at the pipe, and the event that it sees. -/
inductive Acts : Pipe φ × Phase φ → Option (Event φ) → Pipe φ × Phase φ → Prop
  -- calls
  | callOpen {w : Pipe φ} {h : φ} (m : Side) : w.files h = none →
      Acts (w, .idle) (some (.call (.fifoOpen h m))) (w, .opening h m)
  | callRelease {w : Pipe φ} {h : φ} {m : Side} : w.files h = some m →
      Acts (w, .idle) (some (.call (.fifoRelease h)))
        ({ w with files := update w.files h none }, .releasing m)
  | callRead {w : Pipe φ} {h : φ} (length : ℕ) : w.files h ≠ none →
      Acts (w, .idle) (some (.call (.fifoRead h length))) (w, .reading length)
  | callWrite {w : Pipe φ} {h : φ} (buff : List Byte) : w.files h ≠ none →
      Acts (w, .idle) (some (.call (.fifoWrite h buff))) (w, .writing buff)
  | ret (w : Pipe φ) (f : Fn) (v : ℤ) : Acts (w, .returning f v) (some (.ret f v)) (w, .idle)
  | refuse {ph : Phase φ} {f : Fn} {v : ℤ} (w : Pipe φ) : ph.Refuses f v →
      Acts (w, ph) none (w, .returning f v)
  -- an open waits for the other side, or gives up
  | attach (w : Pipe φ) (h : φ) (m : Side) : Acts (w, .opening h m) none (w.attach m, .attached h m)
  | meet {w : Pipe φ} (h : φ) {m : Side} : w.ends m.other ≠ 0 →
      Acts (w, .attached h m) none (w, .opened h m)
  | giveUp {w : Pipe φ} (h : φ) {m : Side} : w.ends m ≠ 0 →
      Acts (w, .attached h m) none (w.withdraw m, .returning (.fifoOpen m) (-eintr))
  | retOpen (w : Pipe φ) (h : φ) (m : Side) :
      Acts (w, .opened h m) (some (.ret (.fifoOpen m) 0))
        ({ w with files := update w.files h (some m) }, .idle)
  | detach {w : Pipe φ} {m : Side} : w.ends m ≠ 0 →
      Acts (w, .releasing m) none (w.detach m, .returning (.fifoRelease m) 0)
  -- a read takes all that it asks for, or finds the end of the stream
  | eof {w : Pipe φ} {length : ℕ} : length ≤ bufLen → w.ends .prod = 0 → w.content = [] →
      Acts (w, .reading length) none (w, .returning .fifoRead 0)
  | fetch {w : Pipe φ} {xs rest : List Byte} : ¬(w.ends .prod = 0 ∧ w.content = []) →
      w.content = xs ++ rest →
      Acts (w, .reading xs.length) none ({ w with content := rest }, .fetched xs)
  | copyOut {xs ys : List Byte} (w : Pipe φ) : ys <+: xs →
      Acts (w, .fetched xs) (some (.copyOut ys)) (w, .returning .fifoRead ys.length)
  -- a write puts all that it has got in, or finds nobody to read it
  | copyIn {buff xs : List Byte} (w : Pipe φ) : buff.length ≤ bufLen → xs <+: buff →
      Acts (w, .writing buff) (some (.copyIn xs)) (w, .ready xs)
  | store {w : Pipe φ} {xs : List Byte} : w.ends .cons ≠ 0 →
      w.content.length + xs.length ≤ bufLen →
      Acts (w, .ready xs) none ({ w with content := w.content ++ xs },
        .returning .fifoWrite xs.length)
  | epipe {w : Pipe φ} {xs : List Byte} : w.ends .cons = 0 →
      Acts (w, .ready xs) none (w, .returning .fifoWrite (-epipe))

/-- One process at the pipe. -/
def atPipe (φ : Type) [DecidableEq φ] : LTS (Pipe φ × Phase φ) (Option (Event φ)) where
  Init s := s = (.empty, .idle)
  Step := Acts

/-- The pipe and its processes. -/
def pipe (ι φ : Type) [DecidableEq ι] [DecidableEq φ] :
    LTS (Pipe φ × (ι → Phase φ)) (ι × Option (Event φ)) where
  Init s := s = (.empty, fun _ ↦ .idle)
  Step s l t := ∃ w ph, Acts (s.1, s.2 l.1) l.2 (w, ph) ∧ t = (w, update s.2 l.1 ph)

/-- What one process does at the pipe, it does among others. -/
theorem path_pipe [DecidableEq ι] {p : ι} {phs : ι → Phase φ} {w w' : Pipe φ} {ph' : Phase φ}
    {os : List (Option (Event φ))} (h : (atPipe φ).Path anyStep (w, phs p) os (w', ph')) :
    (pipe ι φ).Path anyStep (w, phs) (os.map (p, ·)) (w', update phs p ph') := by
  suffices ∀ {os s}, (atPipe φ).Path anyStep (w, phs p) os s →
      (pipe ι φ).Path anyStep (w, phs) (os.map (p, ·)) (s.1, update phs p s.2) from this h
  intro os s h
  induction h with
  | nil =>
      rw [update_eq_self]
      exact .nil
  | @snoc os s o t hp _ hst ih =>
      rw [List.map_append]
      refine ih.snoc trivial ⟨t.1, t.2, ?_, by rw [update_idem]⟩
      dsimp only
      rw [update_self]
      exact hst

end

/-! ## The driver seen as the pipe -/

/-- What a process sees of its events. -/
def Event.seen : Event φ → Bool
  | .call _ | .copyIn _ | .copyOut _ | .ret _ _ => true
  | _ => false

/-- What the processes see of a step of the driver. -/
def view (l : Label ι φ) : List (ι × Event φ) := (l.output.filter Event.seen).map (l.input.proc, ·)

/-- What a process at a control point of the driver is doing. -/
def Pc.phase : Pc φ → Phase φ
  | .idle => .idle
  | .fifoOpen .lock h m | .fifoOpen .count h m => .opening h m
  | .fifoOpen .get h m => .opened h m
  | .fifoOpen _ h m => .attached h m
  | .fifoRelease .put _ m => .returning (.fifoRelease m) 0
  | .fifoRelease _ _ m => .releasing m
  | .fifoRead (.unlock kbuff) _ _ | .fifoRead (.copy kbuff) _ _ => .fetched kbuff
  | .fifoRead _ _ length => .reading length
  | .fifoWrite .alloc _ kbuff | .fifoWrite .copy _ kbuff => .writing kbuff
  | .fifoWrite .unlock _ kbuff => .returning .fifoWrite kbuff.length
  | .fifoWrite _ _ kbuff => .ready kbuff
  | .condWait _ (.fifoOpen h m) | .broadcast (.fifoOpen h m) => .attached h m
  | .condWait _ (.fifoRead _ length) => .reading length
  | .condWait _ (.fifoWrite _ kbuff) => .ready kbuff
  | .broadcast (.fifoRelease _ m) => .releasing m
  | .broadcast (.fifoRead _ _ kbuff) => .fetched kbuff
  | .broadcast (.fifoWrite _ kbuff) => .returning .fifoWrite kbuff.length

theorem Pc.phase_eq_idle_iff {pc : Pc φ} : pc.phase = .idle ↔ pc = .idle := by
  constructor
  · intro h
    unfold phase at h
    split at h <;> first | rfl | cases h
  · rintro rfl
    rfl

/-- No error is on its way in the pipe. -/
theorem Pc.nonneg_of_phase {pc : Pc φ} {f : Fn} {v : ℤ} (h : pc.phase = .returning f v) :
    0 ≤ v := by
  unfold phase at h
  split at h <;> cases h
  · exact le_rfl
  · exact Int.natCast_nonneg _
  · exact Int.natCast_nonneg _

/-- In `fifo_release` between `num_x--` and the end of the critical section, when the file is
not counted any more and the buffer has not been emptied yet. -/
def Pc.detaching (x : Side) : Pc φ → Bool
  | .fifoRelease .reset _ m | .broadcast (.fifoRelease _ m) => decide (m = x)
  | _ => false

/-- The pipe that the driver is, when `n x` processes of side `x` are detaching. -/
def Driver.pipe (d : Driver) (files : φ → Option Side) (n : Side → ℕ) : Pipe φ :=
  ⟨files, fun x ↦ (d.num x).toNat + n x, d.cbuffer.content⟩

/-- The pipe and what the processes are doing at it. -/
def State.pipe [Fintype ι] (s : State ι φ) : Pipe φ × (ι → Phase φ) :=
  (s.drv.pipe s.files fun x ↦ count (Pc.detaching x) s.pc, fun p ↦ (s.pc p).phase)

theorem Pc.holds_of_detaching {pc : Pc φ} {x : Side} (h : pc.detaching x = true) :
    pc.holds = true := by
  unfold Pc.detaching at h
  split at h <;> first | rfl | cases h

theorem Pc.phase_of_detaching {pc : Pc φ} {x : Side} (h : pc.detaching x = true) :
    pc.phase = .releasing x := by
  unfold Pc.detaching at h
  split at h
  · rw [← of_decide_eq_true h]
    rfl
  · rw [← of_decide_eq_true h]
    rfl
  · cases h

/-! ## A step -/

/-- The lengths that a call has passed the test with, and has read. -/
def Pc.Sized : Pc φ → Prop
  | .fifoRead .alloc _ _ | .fifoWrite .alloc _ _ => True
  | .fifoRead (.unlock kbuff) _ length | .fifoRead (.copy kbuff) _ length
  | .broadcast (.fifoRead _ length kbuff) => kbuff.length = length
  | .fifoRead _ _ length | .condWait _ (.fifoRead _ length) => length ≤ bufLen
  | .fifoWrite _ _ kbuff | .condWait _ (.fifoWrite _ kbuff) | .broadcast (.fifoWrite _ kbuff) =>
    kbuff.length ≤ bufLen
  | _ => True

theorem Fires.sized {d : Driver} {pc : Pc φ} {a : Act} {o : Outcome φ} (h : Fires d pc a o)
    (hs : Sound d) (hpc : pc.Sized) : o.next.pc.Sized := by
  cases h
  case readRemove hle hr =>
    obtain ⟨-, heq⟩ := hs.remove_eq hle
    obtain ⟨-, rfl⟩ := Prod.mk.inj (Option.some.inj (hr.symm.trans heq))
    exact Cbuffer.length_front ..
  case writeCopy kbuff left _ => exact (List.length_take_le' ..).trans hpc
  case readAlloc hle | writeAlloc hle => exact hle
  case writeSleep hloc _ _ | writeInsert hloc _ _ _ => rcases hloc with rfl | rfl <;> exact hpc
  case take w _ | sleepIntr w | intrLock w _ | relock w _ | intrDec w | relockIntr w =>
    cases w <;> first | exact hpc | exact trivial
  case castEnd b _ => cases b <;> exact hpc
  all_goals first | exact hpc | exact trivial

/-! ### The ends -/

theorem Driver.pipe_attach {d : Driver} (files : φ → Option Side) (n : Side → ℕ) {m : Side}
    (h : 0 ≤ d.num m) :
    { d with num := update d.num m (d.num m + 1) }.pipe files n = (d.pipe files n).attach m := by
  refine Pipe.ext rfl (funext fun x ↦ ?_) rfl
  by_cases hx : x = m
  · subst hx
    simp only [pipe, Pipe.attach, update_self]
    omega
  · simp only [pipe, Pipe.attach, update_of_ne hx]

theorem Driver.pipe_withdraw {d : Driver} (files : φ → Option Side) (n : Side → ℕ) {m : Side}
    (h : 0 ≤ d.num m - 1) :
    { d with num := update d.num m (d.num m - 1) }.pipe files n = (d.pipe files n).withdraw m := by
  refine Pipe.ext rfl (funext fun x ↦ ?_) rfl
  by_cases hx : x = m
  · subst hx
    simp only [pipe, Pipe.withdraw, update_self]
    omega
  · simp only [pipe, Pipe.withdraw, update_of_ne hx]

/-- From the counter to the processes that detach. -/
theorem Driver.pipe_count {d : Driver} (files : φ → Option Side) (n : Side → ℕ) {m : Side}
    (h : 0 ≤ d.num m - 1) :
    { d with num := update d.num m (d.num m - 1) }.pipe files
      (fun x ↦ n x + (decide (m = x)).toNat) = d.pipe files n := by
  refine Pipe.ext rfl (funext fun x ↦ ?_) rfl
  by_cases hx : m = x
  · subst hx
    simp only [pipe, update_self, decide_true, Bool.toNat_true]
    omega
  · simp only [pipe, update_of_ne (Ne.symm hx), hx, decide_false, Bool.toNat_false, add_zero]

theorem Driver.withdraw_pipe (d : Driver) (files : φ → Option Side) (n : Side → ℕ) (m : Side) :
    (d.pipe files fun x ↦ n x + (decide (m = x)).toNat).withdraw m = d.pipe files n := by
  refine Pipe.ext rfl (funext fun x ↦ ?_) rfl
  by_cases hx : m = x
  · subst hx
    simp [pipe, Pipe.withdraw]
  · simp [pipe, Pipe.withdraw, update_of_ne (Ne.symm hx), hx]

/-- What happens to the unread bytes. -/
theorem content_of_step {d : Driver} {b : Cbuffer} {op : BlockOp Byte} (hs : Sound d)
    (h : d.cbuffer.Step [op] b) : BlockOp.Step d.cbuffer.content op b.content := by
  rcases h.content hs.wf with ⟨hnone, -⟩ | ⟨op', hone, hstep⟩
  · cases hnone
  · exact List.singleton_inj.mp hone ▸ hstep

/-! ### What the processes see -/

section

variable [DecidableEq φ]

/-- Steps of one process at the pipe, by which it sees this. -/
def Matched (s : Pipe φ × Phase φ) (obs : List (Event φ)) (t : Pipe φ × Phase φ) : Prop :=
  ∃ os, (atPipe φ).Path anyStep s os t ∧ os.filterMap id = obs

theorem Matched.nil (s : Pipe φ × Phase φ) : Matched s [] s := ⟨[], .nil, rfl⟩

theorem Matched.of_eq {w w' : Pipe φ} {ph : Phase φ} (h : w' = w) :
    Matched (w, ph) [] (w', ph) := h ▸ .nil _

theorem Matched.one {s t : Pipe φ × Phase φ} {o : Option (Event φ)} (h : Acts s o t) :
    Matched s o.toList t := ⟨[o], .single trivial h, by cases o <;> rfl⟩

theorem Matched.two {s t u : Pipe φ × Phase φ} {o r : Option (Event φ)} (h : Acts s o t)
    (h' : Acts t r u) : Matched s (o.toList ++ r.toList) u :=
  ⟨[o] ++ [r], (Path.single trivial h).append (.single trivial h'),
    by cases o <;> cases r <;> rfl⟩

/-- A call that fails without an effect. -/
theorem Matched.refuse {ph : Phase φ} {f : Fn} {v : ℤ} (w : Pipe φ) (h : ph.Refuses f v) :
    Matched (w, ph) [.ret f v] (w, .idle) := .two (.refuse w h) (.ret w f v)

/-- **A step of the driver at the pipe**, where `m x` of the others are detaching. -/
theorem Fires.matched {d : Driver} {pc : Pc φ} {a : Act} {o : Outcome φ} (h : Fires d pc a o)
    (hs : Sound d) (hnum : ∀ x, 0 ≤ d.num x) (hnum' : ∀ x, 0 ≤ o.drv.num x) (hpc : pc.Sized)
    (files : φ → Option Side) (m : Side → ℕ) (hm : pc.holds = true → m = fun _ ↦ 0) :
    Matched (d.pipe files fun x ↦ m x + (pc.detaching x).toNat, pc.phase)
      ((o.events ++ o.next.event).filter Event.seen)
      (o.drv.pipe (o.next.files files pc) fun x ↦ m x + (o.next.pc.detaching x).toNat,
        o.next.pc.phase) := by
  rw [h.files]
  have hcbuffer := h.cbuffer hs (hnum .cons)
  have hsized := h.sized hs hpc
  cases h
  case openIntr m => exact .refuse _ (.openIntr _ m)
  case releaseIntr m => exact .refuse _ (.releaseIntr m)
  case readTooLong hlt => exact .refuse _ (.readTooLong hlt)
  case readNomem length => exact .refuse _ (.readNomem length)
  case readIntr length => exact .refuse _ (.readIntr length)
  case writeTooLong hlt => exact .refuse _ (.writeTooLong hlt)
  case writeNomem kbuff => exact .refuse _ (.writeNomem kbuff)
  case writeIntr kbuff => exact .refuse _ (.writeIntr kbuff)
  case openGet h m => exact .one (.retOpen _ h m)
  case releasePut m => exact .one (.ret _ (.fifoRelease m) 0)
  case writeUnlock kbuff => exact .one (.ret _ .fifoWrite _)
  -- an open
  case openCount m =>
    refine .one (show Acts _ none _ from ?_)
    rw [Driver.pipe_attach _ _ (hnum m)]
    exact .attach _ _ m
  case openPass m hne =>
    obtain rfl := hm rfl
    refine .one (.meet _ ?_)
    have hnn := hnum m.other
    simp only [Driver.pipe]
    omega
  case undo m =>
    have hnn : 0 ≤ d.num m - 1 := (hnum' m).trans_eq (update_self ..)
    refine .two (o := none) (r := some _) (.giveUp _ ?_) ?_
    · simp only [Driver.pipe]
      omega
    · rw [← Driver.pipe_withdraw _ _ hnn]
      exact .ret _ _ _
  -- a release
  case releaseLast hlast => exact .of_eq (Driver.pipe_count _ m hlast.ge)
  case releaseCount m' _ =>
    have hnn : 0 ≤ d.num m' - 1 := (hnum' m').trans_eq (update_self ..)
    exact .of_eq (Driver.pipe_count _ m hnn)
  case releaseReset m hp hc =>
    obtain rfl := hm rfl
    have hends : (d.pipe files fun x ↦ 0 + (decide (m = x)).toNat).ends m ≠ 0 := by
      simp [Driver.pipe]
    have hall : ∀ x, (d.pipe files fun _ ↦ 0).ends x = 0 := fun x ↦ by
      cases x <;> simp [Driver.pipe, hp, hc]
    have hdetach := Acts.detach hends
    rw [Pipe.detach, Driver.withdraw_pipe, if_pos hall] at hdetach
    exact .one hdetach
  case releaseKeep m hne =>
    obtain rfl := hm rfl
    have hends : (d.pipe files fun x ↦ 0 + (decide (m = x)).toNat).ends m ≠ 0 := by
      simp [Driver.pipe]
    have hall : ¬∀ x, (d.pipe files fun _ ↦ 0).ends x = 0 := fun hall ↦ hne (by
      have hp := hall .prod
      have hc := hall .cons
      have hnp := hnum .prod
      have hnc := hnum .cons
      simp only [Driver.pipe] at hp hc
      omega)
    have hdetach := Acts.detach hends
    rw [Pipe.detach, Driver.withdraw_pipe, if_neg hall] at hdetach
    exact .one hdetach
  -- a read
  case readEof hz hempty =>
    obtain rfl := hm rfl
    refine .two (.eof hpc ?_ ?_) (.ret _ .fifoRead 0)
    · simp [Driver.pipe, hz, Pc.detaching]
    · rw [Driver.pipe, ← List.length_eq_zero_iff, Cbuffer.length_content]
      exact Cbuffer.isEmptyCbuffer_iff.mp hempty
  case readRemove kbuff hne hle hr =>
    obtain rfl := hm rfl
    obtain rfl : kbuff.length = _ := hsized
    refine .one (.fetch ?_ (BlockOp.Step.remove_iff.mp (content_of_step hs hcbuffer)))
    rintro ⟨hz, hempty⟩
    refine hne ⟨?_, ?_⟩
    · have hnn := hnum .prod
      simp only [Driver.pipe] at hz
      omega
    · rw [Driver.pipe, ← List.length_eq_zero_iff, Cbuffer.length_content] at hempty
      exact Cbuffer.isEmptyCbuffer_iff.mpr hempty
  case readCopy length kbuff left hleft =>
    obtain rfl : kbuff.length = length := hpc
    have hlen : ((kbuff.length : ℤ) - left) = (kbuff.take (kbuff.length - left)).length := by
      rw [List.length_take]
      omega
    rw [hlen]
    exact .two (.copyOut _ (List.take_prefix ..)) (.ret _ .fifoRead _)
  -- a write
  case writeCopy kbuff left hleft => exact .one (.copyIn _ hpc (List.take_prefix ..))
  case writeEpipe hloc hz =>
    rcases hloc with rfl | rfl
    all_goals
      obtain rfl := hm rfl
      refine .two (.epipe ?_) (.ret _ .fifoWrite _)
      simp [Driver.pipe, hz, Pc.detaching]
  case writeInsert h kbuff cbuffer hloc hne hroom hi =>
    obtain ⟨hfit, -⟩ := hs.insert_eq (Nat.le_of_not_lt fun hlt ↦ hroom ⟨by
      have hnn := hnum .cons
      omega, hlt⟩)
    have hcontent := BlockOp.Step.insert_iff.mp (content_of_step hs hcbuffer)
    have hstore (n : Side → ℕ) : Acts (d.pipe files n, .ready kbuff) none
        (⟨files, (d.pipe files n).ends, cbuffer.content⟩,
          .returning .fifoWrite kbuff.length) := by
      rw [hcontent]
      refine .store ?_ ?_
      · have hnn := hnum .cons
        simp only [Driver.pipe]
        omega
      · rwa [Driver.pipe, Cbuffer.length_content]
    rcases hloc with rfl | rfl <;> exact .one (hstore _)
  -- sleepers
  case intrDec w | relockIntr w =>
    cases w with
    | fifoOpen h m => exact .nil _
    | fifoRead h length => exact .refuse _ (.readIntr length)
    | fifoWrite h kbuff => exact .refuse _ (.writeIntr kbuff)
  case take w _ | sleepIntr w | intrLock w _ | relock w _ => cases w <;> exact .nil _
  case writeSleep hloc _ _ => rcases hloc with rfl | rfl <;> exact .nil _
  case castEnd b _ => cases b <;> exact .nil _
  all_goals exact .nil _

end

/-! ## Runs -/

section

variable [Fintype ι] [DecidableEq ι] [DecidableEq φ]

theorem sized_of_run {P : State ι φ → Label ι φ → Prop} {tr : List (Label ι φ)} {s : State ι φ}
    (h : (fifo ι φ).Run P tr s) (p : ι) : (s.pc p).Sized := by
  refine Run.induction (J := fun _ s ↦ ∀ p, (s.pc p).Sized) ?_ ?_ h p
  · rintro s ⟨data, -, rfl⟩ p
    exact trivial
  · rintro tr s l t hr ih - hst p
    rcases step_cases hst with ⟨c, files, pc, -, -, he, rfl, -⟩ | ⟨a, o, -, hf, rfl, -⟩
    · by_cases hp : p = l.input.proc
      · subst hp
        simp only [update_self]
        cases he <;> exact trivial
      · simpa [update_of_ne hp] using ih p
    · by_cases hp : p = l.input.proc
      · subst hp
        simpa only [update_self] using hf.sized (sound_of_run hr) (ih _)
      · simpa [update_of_ne hp] using ih p

omit [Fintype ι] [DecidableEq ι] in
theorem Enters.detaching {s : State ι φ} {c : Call φ} {files : φ → Option Side} {pc : Pc φ}
    (h : Enters s c files pc) (x : Side) : pc.detaching x = false := by cases h <;> rfl

omit [Fintype ι] [DecidableEq ι] in
/-- A call begins at the pipe. -/
theorem Enters.matched {s : State ι φ} {c : Call φ} {files : φ → Option Side} {pc : Pc φ}
    (h : Enters s c files pc) (n : Side → ℕ) :
    Matched (s.drv.pipe s.files n, .idle) ([Event.call c].filter Event.seen)
      (s.drv.pipe files n, pc.phase) := by
  cases h with
  | @fifoOpen _ m hf => exact .one (.callOpen m hf)
  | fifoRelease hf => exact .one (.callRelease hf)
  | @fifoRead _ length hf => exact .one (.callRead length hf)
  | @fifoWrite _ buff hf => exact .one (.callWrite buff hf)

omit [Fintype ι] in
/-- What a process does next to others at the pipe. -/
theorem Matched.path (phs : ι → Phase φ) {w w' : Pipe φ} {ph' : Phase φ} {l : Label ι φ}
    (h : Matched (w, phs l.input.proc) (l.output.filter Event.seen) (w', ph')) :
    ∃ ops, (pipe ι φ).Path anyStep (w, phs) ops (w', update phs l.input.proc ph') ∧
      ops.flatMap Pipe.view = view l := by
  obtain ⟨os, hp, hobs⟩ := h
  exact ⟨_, path_pipe hp, by rw [view, ← hobs, Pipe.flatMap_view]⟩

omit [DecidableEq φ] in
/-- The pipe after a step of one process. -/
theorem State.pipe_put (d : Driver) (files : φ → Option Side) (f : ι → Pc φ) (p : ι)
    (pc : Pc φ) : (⟨d, files, update f p pc⟩ : State ι φ).pipe =
      (d.pipe files fun x ↦ count (Pc.detaching x) (update f p .idle) + (pc.detaching x).toNat,
        update (fun q ↦ (f q).phase) p pc.phase) := by
  have hcount (x : Side) := count_eq_add (update f p pc) p (P := Pc.detaching x) (z := .idle) rfl
  simp only [update_idem, update_self] at hcount
  have hphase : (fun q ↦ (update f p pc q).phase) = update (fun q ↦ (f q).phase) p pc.phase := by
    funext q
    by_cases hq : q = p
    · rw [hq, update_self, update_self]
    · rw [update_of_ne hq, update_of_ne hq]
  rw [pipe]
  simp only [hcount, hphase]

omit [DecidableEq φ] in
/-- While one process is in its critical section, no other is detaching. -/
theorem count_detaching {tr : List (Label ι φ)} {s : State ι φ} {p : ι} (h : Holding tr s)
    (hp : (s.pc p).holds = true) (x : Side) :
    count (Pc.detaching x) (update s.pc p .idle) = 0 := by
  refine count_eq_zero.mpr fun q ↦ ?_
  by_cases hq : q = p
  · rw [hq, update_self]
    rfl
  · rw [update_of_ne hq]
    by_contra hdet
    have hholds := Pc.holds_of_detaching (Bool.eq_true_of_not_eq_false hdet)
    rw [h.holds_eq_false_of_ne hp hq] at hholds
    cases hholds

/-- **A step of the driver is a path at the pipe** that looks the same. -/
theorem pipe_step {tr : List (Label ι φ)} {s t : State ι φ} {l : Label ι φ}
    (h : (fifo ι φ).Run anyStep tr s) (hst : (fifo ι φ).Step s l t) :
    ∃ ops, (pipe ι φ).Path anyStep s.pipe ops t.pipe ∧ ops.flatMap Pipe.view = view l := by
  have hs := State.pipe_put s.drv s.files s.pc l.input.proc (s.pc l.input.proc)
  rw [update_eq_self, update_eq_self l.input.proc (fun q ↦ (s.pc q).phase)] at hs
  rw [show s.pipe = _ from hs]
  rcases step_cases hst with ⟨c, files, pc, -, hidle, he, rfl, hout⟩ | ⟨a, o, -, hf, rfl, hout⟩
  · have hnone (x : Side) : (s.pc l.input.proc).detaching x = pc.detaching x := by
      rw [he.detaching, hidle]
      rfl
    rw [State.pipe_put]
    simp only [hnone]
    refine Matched.path (fun q ↦ (s.pc q).phase) ?_
    rw [hout, hidle]
    exact he.matched _
  · rw [State.pipe_put]
    refine Matched.path (fun q ↦ (s.pc q).phase) ?_
    rw [hout]
    exact hf.matched (sound_of_run h) (num_nonneg h) (num_nonneg (h.snoc trivial hst))
      (sized_of_run h _) _ _ fun hp ↦ funext (count_detaching (holding_of_run h) hp)

/-- Every run of the driver is one at the pipe that looks the same. -/
theorem exists_pipe_run {P : State ι φ → Label ι φ → Prop} {tr : List (Label ι φ)}
    {s : State ι φ} (h : (fifo ι φ).Run P tr s) :
    ∃ ops, (pipe ι φ).Run anyStep ops s.pipe ∧ ops.flatMap Pipe.view = tr.flatMap view := by
  obtain ⟨ops, _, hops, hview, rfl⟩ : ∃ ops t, (pipe ι φ).Run anyStep ops t ∧
      ops.flatMap Pipe.view = tr.flatMap view ∧ t = s.pipe := by
    refine Run.refine (R := fun s t ↦ t = s.pipe) view Pipe.view ?_ ?_ h
    · rintro s ⟨data, -, rfl⟩
      have hcount (x : Side) : count (Pc.detaching x) (initial data : State ι φ).pc = 0 :=
        count_const_false rfl
      refine ⟨_, rfl, Prod.ext (Pipe.ext rfl (funext fun x ↦ ?_) rfl) rfl⟩
      simp only [State.pipe, Driver.pipe, hcount]
      rfl
    · rintro tr - s l t _ hr - - rfl - hst
      obtain ⟨ops, hpath, hview⟩ := pipe_step hr.free hst
      exact ⟨ops, _, hpath, hview, rfl⟩
  exact ⟨ops, hops, hview⟩

/-- **The driver is an atomic pipe.**  Of every run of the driver, what the processes see can
also be seen at a pipe on which each call takes effect in a single step between its call and
its return.  The pipe then has the bytes that are in the buffer and the files that are open;
the processes that are in a call there are those that are in the driver; and while nobody is in
a critical section the pipe has the ends that the driver has counted. -/
theorem linearizable {tr : List (Label ι φ)} {s : State ι φ} (h : (fifo ι φ).Run anyStep tr s) :
    ∃ ops w phs, (pipe ι φ).Run anyStep ops (w, phs) ∧
      ops.flatMap Pipe.view = tr.flatMap view ∧ w.content = s.drv.cbuffer.content ∧
      w.files = s.files ∧ (∀ p, phs p = .idle ↔ s.pc p = .idle) ∧
      (0 < s.drv.mutex → ∀ x, (w.ends x : ℤ) = s.drv.num x) := by
  obtain ⟨ops, hops, hview⟩ := exists_pipe_run h
  refine ⟨ops, _, _, hops, hview, rfl, rfl, fun p ↦ Pc.phase_eq_idle_iff, fun hm x ↦ ?_⟩
  have hcount : count (Pc.detaching x) s.pc = 0 := count_eq_zero.mpr fun p ↦ by
    by_contra hdet
    have hholds := Pc.holds_of_detaching (Bool.eq_true_of_not_eq_false hdet)
    rw [(holding_of_run h).holds_eq_false hm p] at hholds
    cases hholds
  simp only [Driver.pipe, hcount, add_zero]
  exact Int.toNat_of_nonneg (num_nonneg h x)

end

/-- Process 1 has written two bytes and process 0 has taken one of them out. -/
theorem linearizable_meeting :
    ∃ (tr : List (Label (Fin 2) (Fin 2))) (s : State (Fin 2) (Fin 2))
      (ops : List (Fin 2 × Option (Event (Fin 2)))) (w : Pipe (Fin 2))
      (phs : Fin 2 → Phase (Fin 2)), (fifo (Fin 2) (Fin 2)).Run anyStep tr s ∧
        (pipe (Fin 2) (Fin 2)).Run anyStep ops (w, phs) ∧ w.content = [8] ∧
        ops.flatMap Pipe.view = tr.flatMap view := by
  obtain ⟨tr, s, hr, hg⟩ := exists_run (ι := Fin 2) (φ := Fin 2) anyStep
    (meeting ++ gos 4 0 ++ writing 1 [7, 8] ++ gos 2 1 ++ call 0 (.fifoRead 0 1) :: gos 3 0)
    (fun s ↦ s.drv.cbuffer.content = [8]) (by decide +kernel)
  obtain ⟨ops, w, phs, hops, hview, hcontent, -⟩ := linearizable hr
  exact ⟨tr, s, ops, w, phs, hr, hops, hcontent.trans (of_decide_eq_true hg), hview⟩

end DsoFifo.Fifo
