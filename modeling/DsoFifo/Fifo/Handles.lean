import DsoFifo.Fifo.Mutex
import DsoFifo.Transition.Table

/-!
# Open files and the two counters

`num_prod` and `num_cons` count the open files of each side, and the calls that are on
the way: an open from its `num_x++` on, a release up to its `num_x--`.  They count one
thing more.  A `fifo_release` whose `down_interruptible` is interrupted returns without
having taken the file off, and as the VFS does not call it again, the file stays
counted for ever, and so does its reference to the module.  `Accounted` is the exact
account, interrupted releases included; `handle_accounting` concludes that the counters
are right just when there were none.

The account rests on what the VFS promises, which is proved of the model first:
`Usage` says that a file is in the hands of one process while it is opened or
released, and open while it is read or written.
-/

namespace DsoFifo.Fifo

open DsoFifo.C DsoFifo.LTS DsoFifo.Pool Function

variable {ι φ : Type}

/-! ## Files in use -/

/-- In `fifo_open` or `fifo_release`. -/
def Pc.owns : Pc φ → Bool
  | .fifoOpen _ _ _ | .fifoRelease _ _ _ => true
  | .condWait _ (.fifoOpen _ _) => true
  | .broadcast (.fifoOpen _ _) | .broadcast (.fifoRelease _ _) => true
  | _ => false

/-- A file is open while it is read or written and not open while it is opened or
released, and then nobody else uses it. -/
structure Usage (s : State ι φ) : Prop where
  files_eq_none : ∀ p h, (s.pc p).file = some h → (s.files h = none ↔ (s.pc p).owns = true)
  exclusive : ∀ p q h, (s.pc p).owns = true → (s.pc p).file = some h →
    (s.pc q).file = some h → q = p

/-- The last step of an open that succeeds. -/
def Pc.opened : Pc φ → Option (φ × Side)
  | .fifoOpen .get h m => some (h, m)
  | _ => none

theorem Pc.eq_of_opened {pc : Pc φ} {h : φ} {m : Side} (hpc : pc.opened = some (h, m)) :
    pc = .fifoOpen .get h m := by
  unfold Pc.opened at hpc
  split at hpc
  · cases hpc; rfl
  · cases hpc

/-- A call keeps its file to the end. -/
theorem Fires.file {d : Driver} {pc : Pc φ} {a : Act} {o : Outcome φ} (h : Fires d pc a o) :
    o.next.pc = .idle ∨
      (o.next.pc.file = pc.file ∧ o.next.pc.owns = pc.owns ∧ pc.opened = none) := by
  cases h
  case writeEpipe hloc _ | writeSleep hloc _ _ | writeInsert hloc _ _ _ =>
    rcases hloc with rfl | rfl <;> first | exact .inl rfl | exact .inr ⟨rfl, rfl, rfl⟩
  case intrDec w | relockIntr w =>
    cases w <;> first | exact .inl rfl | exact .inr ⟨rfl, rfl, rfl⟩
  case take w _ | sleepIntr w | intrLock w _ | relock w _ =>
    cases w <;> exact .inr ⟨rfl, rfl, rfl⟩
  case castEnd b _ => cases b <;> exact .inr ⟨rfl, rfl, rfl⟩
  all_goals first | exact .inl rfl | exact .inr ⟨rfl, rfl, rfl⟩

section

variable [DecidableEq φ]

/-- Only the success of an open makes an entry in the table of files. -/
theorem Fires.files {d : Driver} {pc : Pc φ} {a : Act} {o : Outcome φ} (h : Fires d pc a o)
    (files : φ → Option Side) :
    o.next.files files pc =
      match pc.opened with
      | some (h, m) => update files h (some m)
      | none => files := by
  cases h
  case writeEpipe hloc _ | writeSleep hloc _ _ | writeInsert hloc _ _ _ =>
    rcases hloc with rfl | rfl <;> rfl
  case intrDec w | relockIntr w => cases w <;> rfl
  case openIntr => simp [Next.files, Pc.leave, eintr, Pc.opened]
  all_goals rfl

/-- A call begins with a file that is its own or with one that is open. -/
theorem Enters.file {s : State ι φ} {c : Call φ} {files : φ → Option Side} {pc : Pc φ}
    (h : Enters s c files pc) : ∃ h₀, pc.file = some h₀ ∧
      ((pc.owns = true ∧ s.Unused h₀ ∧ files h₀ = none ∧ ∀ h ≠ h₀, files h = s.files h) ∨
        (pc.owns = false ∧ files = s.files ∧ s.files h₀ ≠ none)) := by
  cases h with
  | fifoOpen hn hu => exact ⟨_, rfl, .inl ⟨rfl, hu, hn, fun _ _ ↦ rfl⟩⟩
  | fifoRelease hs hu =>
      exact ⟨_, rfl, .inl ⟨rfl, hu, update_self .., fun _ hne ↦ update_of_ne hne ..⟩⟩
  | fifoRead hs => exact ⟨_, rfl, .inr ⟨rfl, rfl, hs⟩⟩
  | fifoWrite hs => exact ⟨_, rfl, .inr ⟨rfl, rfl, hs⟩⟩

variable [DecidableEq ι]

/-- A process enters the driver. -/
theorem Usage.enter {s : State ι φ} {c : Call φ} {files : φ → Option Side} {pc : Pc φ} {p : ι}
    (h : Usage s) (he : Enters s c files pc) : Usage ⟨s.drv, files, update s.pc p pc⟩ := by
  obtain ⟨hnone, hexcl⟩ := h
  obtain ⟨h₀, hfile, ⟨howns, hunused, hfiles, hrest⟩ | ⟨howns, rfl, hopen⟩⟩ := he.file
  · refine ⟨fun r h hr ↦ ?_, fun r q h ho hr hq ↦ ?_⟩
    · by_cases hrp : r = p
      · subst hrp
        simp only [update_self] at hr ⊢
        obtain rfl : h₀ = h := Option.some.inj (hfile.symm.trans hr)
        simp [hfiles, howns]
      · simp only [update_of_ne hrp] at hr ⊢
        rw [hrest h fun heq ↦ hunused r (heq ▸ hr)]
        exact hnone r h hr
    · by_cases hrp : r = p <;> by_cases hqp : q = p
      · rw [hrp, hqp]
      · subst hrp
        simp only [update_self, update_of_ne hqp] at hr hq
        obtain rfl : h₀ = h := Option.some.inj (hfile.symm.trans hr)
        exact absurd hq (hunused q)
      · subst hqp
        simp only [update_self, update_of_ne hrp] at hr hq
        obtain rfl : h₀ = h := Option.some.inj (hfile.symm.trans hq)
        exact absurd hr (hunused r)
      · simp only [update_of_ne hrp, update_of_ne hqp] at ho hr hq
        exact hexcl r q h ho hr hq
  · refine ⟨fun r h hr ↦ ?_, fun r q h ho hr hq ↦ ?_⟩
    · by_cases hrp : r = p
      · subst hrp
        simp only [update_self] at hr ⊢
        obtain rfl : h₀ = h := Option.some.inj (hfile.symm.trans hr)
        simp [hopen, howns]
      · simp only [update_of_ne hrp] at hr ⊢
        exact hnone r h hr
    · have hrp : r ≠ p := fun hrp ↦ by
        subst hrp
        simp [howns] at ho
      simp only [update_of_ne hrp] at ho hr
      by_cases hqp : q = p
      · subst hqp
        simp only [update_self] at hq
        obtain rfl : h₀ = h := Option.some.inj (hfile.symm.trans hq)
        exact absurd ((hnone r h₀ hr).mpr ho) hopen
      · simp only [update_of_ne hqp] at hq
        exact hexcl r q h ho hr hq

/-- A process takes a step inside the driver. -/
theorem Usage.fires {s : State ι φ} {p : ι} {a : Act} {o : Outcome φ} (h : Usage s)
    (hf : Fires s.drv (s.pc p) a o) :
    Usage ⟨o.drv, o.next.files s.files (s.pc p), update s.pc p o.next.pc⟩ := by
  obtain ⟨hnone, hexcl⟩ := h
  have hback : ∀ r h, (update s.pc p o.next.pc r).file = some h → (s.pc r).file = some h ∧
      (update s.pc p o.next.pc r).owns = (s.pc r).owns := fun r h hr ↦ by
    by_cases hrp : r = p
    · subst hrp
      rcases hf.file with hidle | ⟨hfile, howns, -⟩
      · simp [hidle, Pc.file] at hr
      · simpa [hfile, howns] using hr
    · simpa [update_of_ne hrp] using hr
  have hsame : ∀ r h, (update s.pc p o.next.pc r).file = some h →
      o.next.files s.files (s.pc p) h = s.files h := fun r h hr ↦ by
    rw [hf.files]
    cases ho : (s.pc p).opened with
    | none => rfl
    | some hm =>
        obtain ⟨h₀, m⟩ := hm
        refine update_of_ne (fun heq ↦ ?_) ..
        -- the opener had the file to itself, and it is through
        have hpc : s.pc p = .fifoOpen .get h₀ m := Pc.eq_of_opened ho
        have hrp : r = p := hexcl p r h (by rw [hpc]; rfl) (by rw [hpc, heq]; rfl) (hback r h hr).1
        rcases hf.file with hidle | ⟨-, -, hno⟩
        · rw [hrp, update_self, hidle] at hr
          cases hr
        · rw [ho] at hno
          cases hno
  refine ⟨fun r h hr ↦ ?_, fun r q h ho hr hq ↦ ?_⟩
  · simp only
    rw [hsame r h hr, (hback r h hr).2]
    exact hnone r h (hback r h hr).1
  · exact hexcl r q h (by rw [← (hback r h hr).2]; exact ho) (hback r h hr).1 (hback q h hq).1

variable [Fintype ι]

/-- The files are used as the VFS promises. -/
theorem usage_of_run {P : State ι φ → Label ι φ → Prop} {tr : List (Label ι φ)} {s : State ι φ}
    (h : (fifo ι φ).Run P tr s) : Usage s := by
  refine Run.invariant (I := Usage) ?_ ?_ h
  · rintro s ⟨data, -, rfl⟩
    exact ⟨fun p h hp ↦ (by cases hp), fun p q h hp ↦ (by cases hp)⟩
  · rintro s l t hs - hst
    rcases step_cases hst with ⟨c, files, pc, -, -, he, rfl, -⟩ | ⟨a, o, -, hf, rfl, -⟩
    · exact hs.enter he
    · exact hs.fires hf

/-! ## The account -/

/-- Counted by `num_x` and not an open file: in `fifo_open` past `num_x++`, or in
`fifo_release` before `num_x--`. -/
def Pc.counted (x : Side) : Pc φ → Bool
  | .fifoOpen .test _ m | .fifoOpen .undoLock _ m | .fifoOpen .undo _ m
  | .fifoOpen .get _ m => decide (m = x)
  | .condWait _ (.fifoOpen _ m) | .broadcast (.fifoOpen _ m) => decide (m = x)
  | .fifoRelease .lock _ m | .fifoRelease .count _ m => decide (m = x)
  | _ => false

/-- In `fifo_release`, with a reference to the module still to be given back. -/
def Pc.refers : Pc φ → Bool
  | .fifoRelease _ _ _ | .broadcast (.fifoRelease _ _) => true
  | _ => false

/-- At `down_interruptible` in `fifo_release`. -/
def Pc.atRelease : Pc φ → Bool
  | .fifoRelease .lock _ _ => true
  | _ => false

/-- The interrupted releases of files of side `x`. -/
def leaks (x : Side) (evs : List (Event φ)) : ℕ := evs.count (.ret (.fifoRelease x) (-eintr))

/-- The files of side `x` that the step opens. -/
def Pc.opens (x : Side) (pc : Pc φ) : ℕ := if pc.opened.any fun hm ↦ hm.2 = x then 1 else 0

/-- A counted process takes its count with it, to the open file or back to the counter,
except when its release is interrupted. -/
theorem Fires.num_add {d : Driver} {pc : Pc φ} {a : Act} {o : Outcome φ} (h : Fires d pc a o)
    (x : Side) : o.drv.num x + (pc.counted x).toNat =
      d.num x + (o.next.pc.counted x).toNat + pc.opens x + leaks x o.next.event := by
  cases h
  case openCount m | undo m | releaseIntr m | releaseCount m _ | openGet m | releasePut m =>
    by_cases hx : m = x
    · simp [Pc.counted, Pc.opens, Pc.opened, leaks, Next.event, upMutex, eintr, hx]
    · simp [Pc.counted, Pc.opens, Pc.opened, leaks, Next.event, upMutex, eintr, hx,
        update_of_ne (Ne.symm hx)]
  case releaseLast =>
    by_cases hx : Side.cons = x
    · simp [Pc.counted, Pc.opens, Pc.opened, leaks, Next.event, hx]
    · simp [Pc.counted, Pc.opens, Pc.opened, leaks, Next.event, hx, update_of_ne (Ne.symm hx)]
  case take w _ | sleepIntr w | intrLock w _ | relock w _ | intrDec w | relockIntr w =>
    cases w <;> simp [Pc.counted, Pc.opens, Pc.opened, leaks, Next.event, Waiter.resume,
      Waiter.handler]
  case castEnd b _ =>
    cases b <;> simp [Pc.counted, Pc.opens, Pc.opened, leaks, Next.event, Caster.next]
  case signal b _ => cases b <;> simp [Pc.counted, Pc.opens, Pc.opened, leaks, Next.event]
  case writeEpipe hloc _ | writeSleep hloc _ _ | writeInsert hloc _ _ _ =>
    rcases hloc with rfl | rfl <;>
      simp [Pc.counted, Pc.opens, Pc.opened, leaks, Next.event, upMutex, enterWait]
  all_goals simp [Pc.counted, Pc.opens, Pc.opened, leaks, Next.event, enterWait, upMutex]

/-- A release takes its file's reference with it. -/
theorem Fires.refs_add {d : Driver} {pc : Pc φ} {a : Act} {o : Outcome φ} (h : Fires d pc a o) :
    o.drv.refs + (pc.refers).toNat =
      d.refs + (o.next.pc.refers).toNat + (pc.opens .prod + pc.opens .cons : ℕ) +
        (leaks .prod o.next.event + leaks .cons o.next.event : ℕ) := by
  cases h
  case releaseIntr m | openGet m | releasePut m =>
    cases m <;> simp [Pc.refers, Pc.opens, Pc.opened, leaks, Next.event, eintr]
  case take w _ | sleepIntr w | intrLock w _ | relock w _ | intrDec w | relockIntr w =>
    cases w <;> simp [Pc.refers, Pc.opens, Pc.opened, leaks, Next.event, Waiter.resume,
      Waiter.handler]
  case castEnd b _ | signal b _ =>
    cases b <;> simp [Pc.refers, Pc.opens, Pc.opened, leaks, Next.event, Caster.next]
  case writeEpipe hloc _ | writeSleep hloc _ _ | writeInsert hloc _ _ _ =>
    rcases hloc with rfl | rfl <;>
      simp [Pc.refers, Pc.opens, Pc.opened, leaks, Next.event, upMutex, enterWait]
  all_goals simp [Pc.refers, Pc.opens, Pc.opened, leaks, Next.event, enterWait, upMutex]

/-- All the events of a run. -/
def events (tr : List (Label ι φ)) : List (Event φ) := tr.flatMap fun l ↦ l.output

/-- The account of the open files. -/
structure Accounted (tr : List (Label ι φ)) (s : State ι φ) : Prop where
  finite : ∀ x, (Table.keys x s.files).Finite
  num_eq : ∀ x, s.drv.num x =
    (Table.number x s.files + count (Pc.counted x) s.pc + leaks x (events tr) : ℕ)
  refs_eq : s.drv.refs =
    (Table.number .prod s.files + Table.number .cons s.files + count Pc.refers s.pc +
      leaks .prod (events tr) + leaks .cons (events tr) : ℕ)

omit [DecidableEq ι] [Fintype ι] in
theorem leaks_snoc (x : Side) (tr : List (Label ι φ)) (l : Label ι φ) :
    leaks x (events (tr ++ [l])) = leaks x (events tr) + leaks x l.output := by
  simp [leaks, events]

/-- Of the events of a step, only the return can be that of an interrupted release. -/
theorem Fires.leaks_output {d : Driver} {pc : Pc φ} {a : Act} {o : Outcome φ}
    (h : Fires d pc a o) (x : Side) :
    leaks x (o.events ++ o.next.event) = leaks x o.next.event := by
  rw [leaks, List.count_append, List.count_eq_zero.mpr h.ret_notMem, zero_add, leaks]

/-- Only interrupting a release leaks. -/
theorem Fires.leaks_eq_zero_iff {d : Driver} {pc : Pc φ} {a : Act} {o : Outcome φ}
    (h : Fires d pc a o) :
    (∀ x, leaks x o.next.event = 0) ↔ (a = .intr → pc.atRelease = false) := by
  cases h
  case releaseIntr m =>
    have hone : ¬∀ x, leaks x (Next.ret (.fifoRelease m) (-eintr) : Next φ).event = 0 :=
      fun hzero ↦ by simpa [leaks, Next.event] using hzero m
    simpa [Pc.atRelease] using hone
  case writeEpipe hloc _ | writeSleep hloc _ _ | writeInsert hloc _ _ _ =>
    rcases hloc with rfl | rfl <;> simp [leaks, Next.event, enterWait]
  case intrDec w | relockIntr w =>
    cases w <;> simp [leaks, Next.event, Waiter.handler, Pc.atRelease]
  case sleepIntr | openIntr | readIntr | writeIntr => simp [leaks, Next.event, Pc.atRelease]
  all_goals simp [leaks, Next.event, enterWait, eintr]

omit [DecidableEq ι] [Fintype ι] in
/-- The files that a step opens are not open before. -/
theorem Usage.number_files {s : State ι φ} {p : ι} {a : Act} {o : Outcome φ} (h : Usage s)
    (hf : Fires s.drv (s.pc p) a o) {x : Side} (hfin : (Table.keys x s.files).Finite) :
    Table.number x (o.next.files s.files (s.pc p)) =
      Table.number x s.files + (s.pc p).opens x := by
  rw [hf.files, Pc.opens]
  cases ho : (s.pc p).opened with
  | none => simp
  | some hm =>
      obtain ⟨f, m⟩ := hm
      have hpc : s.pc p = .fifoOpen .get f m := Pc.eq_of_opened ho
      have hnone : s.files f = none := (h.files_eq_none p f (by rw [hpc]; rfl)).mpr (by rw [hpc]; rfl)
      simp [Table.number_insert hfin hnone]

/-- A process enters the driver: a file that is released goes from the table to the
process. -/
theorem Accounted.enter {tr : List (Label ι φ)} {s : State ι φ} {l : Label ι φ} {c : Call φ}
    {files : φ → Option Side} {pc : Pc φ} (h : Accounted tr s) (he : Enters s c files pc)
    (hidle : s.pc l.input.proc = .idle) (hout : l.output = [.call c]) :
    Accounted (tr ++ [l]) ⟨s.drv, files, update s.pc l.input.proc pc⟩ := by
  obtain ⟨hfin, hnum, hrefs⟩ := h
  have hleaks : ∀ x, leaks x (events (tr ++ [l])) = leaks x (events tr) := fun x ↦ by
    rw [leaks_snoc, hout]
    rfl
  have hcounted := fun x ↦ count_update (Pc.counted x) s.pc l.input.proc pc
  have hrefers := count_update Pc.refers s.pc l.input.proc pc
  simp only [hidle, Pc.counted, Pc.refers, Bool.toNat_false, add_zero] at hcounted hrefers
  cases he with
  | @fifoRelease f m hs hu =>
      have hnumber := fun x ↦ Table.number_erase (hfin x) hs
      refine ⟨fun x ↦ Table.finite_update (hfin x) f none, fun x ↦ ?_, ?_⟩
      · have hcx := hcounted x
        have hnx := hnumber x
        rw [hleaks, hnum]
        simp only
        by_cases hx : m = x
        · rw [if_pos hx] at hnx
          simp only [hx, decide_true, Bool.toNat_true] at hcx
          rw [hx]
          omega
        · rw [if_neg hx] at hnx
          simp only [hx, decide_false, Bool.toNat_false] at hcx
          omega
      · have hp := hnumber .prod
        have hc := hnumber .cons
        rw [hleaks, hleaks, hrefs]
        simp only [Bool.toNat_true] at hrefers ⊢
        cases m <;> simp only [if_true, reduceCtorEq, if_false] at hp hc <;> omega
  | _ =>
      exact ⟨hfin, fun x ↦ by rw [hleaks, hnum, hcounted]; rfl,
        by rw [hleaks, hleaks, hrefs, hrefers]; rfl⟩

/-- A process takes a step inside the driver. -/
theorem Accounted.fires {tr : List (Label ι φ)} {s : State ι φ} {l : Label ι φ} {a : Act}
    {o : Outcome φ} (h : Accounted tr s) (hu : Usage s)
    (hf : Fires s.drv (s.pc l.input.proc) a o) (hout : l.output = o.events ++ o.next.event) :
    Accounted (tr ++ [l]) ⟨o.drv, o.next.files s.files (s.pc l.input.proc),
      update s.pc l.input.proc o.next.pc⟩ := by
  obtain ⟨hfin, hnum, hrefs⟩ := h
  have hleaks : ∀ x, leaks x (events (tr ++ [l])) =
      leaks x (events tr) + leaks x o.next.event := fun x ↦ by
    rw [leaks_snoc, hout, hf.leaks_output]
  have hnumber := fun x ↦ hu.number_files hf (hfin x)
  refine ⟨fun x ↦ ?_, fun x ↦ ?_, ?_⟩
  · rw [hf.files]
    cases (s.pc l.input.proc).opened with
    | none => exact hfin x
    | some hm => exact Table.finite_update (hfin x) hm.1 _
  · have hcounted := count_update (Pc.counted x) s.pc l.input.proc o.next.pc
    have hstep := hf.num_add x
    have hx := hnum x
    rw [hleaks, hnumber]
    simp only
    omega
  · have hrefers := count_update Pc.refers s.pc l.input.proc o.next.pc
    have hstep := hf.refs_add
    rw [hleaks, hleaks, hnumber, hnumber]
    simp only
    omega

/-- **The account is kept** in every run. -/
theorem accounted_of_run {P : State ι φ → Label ι φ → Prop} {tr : List (Label ι φ)}
    {s : State ι φ} (h : (fifo ι φ).Run P tr s) : Accounted tr s := by
  refine Run.induction (J := Accounted) ?_ ?_ h
  · rintro s ⟨data, -, rfl⟩
    have hzero : ∀ x, Table.number x (initial data : State ι φ).files = 0 := fun x ↦
      Table.number_empty
    have hcounted : ∀ x, count (Pc.counted x) (initial data : State ι φ).pc = 0 := fun x ↦
      count_const_false rfl
    have hrefers : count Pc.refers (initial data : State ι φ).pc = 0 := count_const_false rfl
    refine ⟨fun x ↦ ?_, fun x ↦ ?_, ?_⟩
    · simp [initial]
    · rw [hzero, hcounted]; rfl
    · rw [hzero, hzero, hrefers]; rfl
  · rintro tr s l t hr ih - hst
    rcases step_cases hst with ⟨c, files, pc, -, hidle, he, rfl, hout⟩ | ⟨a, o, -, hf, rfl, hout⟩
    · exact ih.enter he hidle hout
    · exact ih.fires (usage_of_run hr) hf hout

/-- The counters are not negative. -/
theorem num_nonneg {P : State ι φ → Label ι φ → Prop} {tr : List (Label ι φ)} {s : State ι φ}
    (h : (fifo ι φ).Run P tr s) (x : Side) : 0 ≤ s.drv.num x := by
  rw [(accounted_of_run h).num_eq]
  exact Int.natCast_nonneg _

/-- An open file is counted. -/
theorem num_pos_of_open {P : State ι φ → Label ι φ → Prop} {tr : List (Label ι φ)}
    {s : State ι φ} (h : (fifo ι φ).Run P tr s) {f : φ} {x : Side} (hf : s.files f = some x) :
    0 < s.drv.num x := by
  have hJ := accounted_of_run h
  have hpos := Table.number_pos (hJ.finite x) hf
  have hnum := hJ.num_eq x
  omega

/-! ## Interrupted releases -/

/-- The step does not interrupt a `fifo_release`. -/
def ReleasesFinish (s : State ι φ) (l : Label ι φ) : Prop :=
  l.input.choice = .act .intr → (s.pc l.input.proc).atRelease = false

instance (s : State ι φ) (l : Label ι φ) : Decidable (ReleasesFinish s l) :=
  inferInstanceAs (Decidable (l.input.choice = .act .intr →
    (s.pc l.input.proc).atRelease = false))

/-- A step leaks a file just when it interrupts a release. -/
theorem releasesFinish_iff {s t : State ι φ} {l : Label ι φ} (hst : (fifo ι φ).Step s l t) :
    ReleasesFinish s l ↔ ∀ x, leaks x l.output = 0 := by
  rcases step_cases hst with ⟨c, files, pc, hc, -, -, -, hout⟩ | ⟨a, o, ha, hf, -, hout⟩
  · simp [ReleasesFinish, hc, hout, leaks]
  · simp only [ReleasesFinish, ha, hout, hf.leaks_output, hf.leaks_eq_zero_iff, Choice.act.injEq]

/-- A run leaks nothing just when it interrupts no release. -/
theorem run_releasesFinish_iff {tr : List (Label ι φ)} {s : State ι φ}
    (h : (fifo ι φ).Run anyStep tr s) :
    (fifo ι φ).Run ReleasesFinish tr s ↔ ∀ x, leaks x (events tr) = 0 := by
  refine ⟨fun hr ↦ ?_, ?_⟩
  · refine Run.induction (J := fun tr _ ↦ ∀ x, leaks x (events tr) = 0) (fun _ _ _ ↦ rfl) ?_ hr
    intro tr s l t _ ih hP hst x
    rw [leaks_snoc, ih, (releasesFinish_iff hst).mp hP]
  · refine Run.induction (J := fun tr s ↦ (∀ x, leaks x (events tr) = 0) →
      (fifo ι φ).Run ReleasesFinish tr s) (fun s hs _ ↦ Run.init hs) ?_ h
    intro tr s l t _ ih _ hst hzero
    have hsum : ∀ x, leaks x (events tr) = 0 ∧ leaks x l.output = 0 := fun x ↦ by
      have hx := hzero x
      rw [leaks_snoc] at hx
      omega
    exact (ih fun x ↦ (hsum x).1).snoc ((releasesFinish_iff hst).mpr fun x ↦ (hsum x).2) hst

/-- **Handle accounting.**  Whenever no call is in progress, the counters are the
numbers of open files and the references to the module their sum, if and only if no
release has been interrupted. -/
theorem handle_accounting {tr : List (Label ι φ)} {s : State ι φ}
    (h : (fifo ι φ).Run anyStep tr s) (hidle : ∀ p, s.pc p = .idle) :
    (s.drv.num .cons = Table.number .cons s.files ∧ s.drv.num .prod = Table.number .prod s.files ∧
        s.drv.refs = Table.number .cons s.files + Table.number .prod s.files) ↔
      (fifo ι φ).Run ReleasesFinish tr s := by
  have hJ := accounted_of_run h
  have hprod := hJ.num_eq .prod
  have hcons := hJ.num_eq .cons
  have hrefs := hJ.refs_eq
  have hcounted : ∀ x, count (Pc.counted x) s.pc = 0 := fun x ↦
    count_eq_zero.mpr fun p ↦ by rw [hidle p]; rfl
  have hrefers : count Pc.refers s.pc = 0 := count_eq_zero.mpr fun p ↦ by rw [hidle p]; rfl
  rw [hcounted] at hprod hcons
  rw [hrefers] at hrefs
  rw [run_releasesFinish_iff h]
  constructor
  · rintro ⟨hc, hp, -⟩ x
    cases x <;> omega
  · intro hzero
    have hzp := hzero .prod
    have hzc := hzero .cons
    omega

end

/-- Both sides are open and nobody is in the driver. -/
theorem handle_accounting_meeting :
    ∃ (tr : List (Label (Fin 2) (Fin 2))) (s : State (Fin 2) (Fin 2)),
      (fifo (Fin 2) (Fin 2)).Run ReleasesFinish tr s ∧ (∀ p, s.pc p = .idle) ∧
        s.drv.num .cons = 1 ∧ s.drv.num .cons = Table.number .cons s.files := by
  obtain ⟨tr, s, hr, hg⟩ := exists_run (ι := Fin 2) (φ := Fin 2) ReleasesFinish
    (meeting ++ gos 4 0)
    (fun s ↦ (∀ p, s.pc p = .idle) && s.drv.num .cons = 1) (by decide +kernel)
  simp only [Bool.and_eq_true, decide_eq_true_eq] at hg
  exact ⟨tr, s, hr, hg.1, hg.2, ((handle_accounting hr.free hg.1).mpr hr).1⟩

/-- **A closed file stays counted.**  While process 1 is in the critical section of its
write, process 0 closes its file and is interrupted. -/
theorem num_cons_ne_number :
    ∃ (tr : List (Label (Fin 2) (Fin 2))) (s : State (Fin 2) (Fin 2)),
      (fifo (Fin 2) (Fin 2)).Run Blocking tr s ∧ (∀ p, s.pc p = .idle) ∧
        s.drv.num .cons ≠ Table.number .cons s.files := by
  obtain ⟨tr, s, hr, hg⟩ := exists_run (ι := Fin 2) (φ := Fin 2) Blocking
    (meeting ++ gos 4 0 ++ writing 1 [7] ++ [call 0 (.fifoRelease 0), intr 0] ++ gos 2 1)
    (fun s ↦ (∀ p, s.pc p = .idle) && s.drv.num .cons = 1 && decide (∀ h, s.files h ≠ some .cons))
    (by decide +kernel)
  simp only [Bool.and_eq_true, decide_eq_true_eq] at hg
  refine ⟨tr, s, hr, hg.1.1, ?_⟩
  rw [hg.1.2, Table.number_eq_zero hg.2]
  decide

end DsoFifo.Fifo
