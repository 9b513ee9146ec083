import DsoFifo.Fifo.Queues
import DsoFifo.Fifo.Stream

/-!
# Who can go on, and who has a signal

A process asleep in `cond_wait` can go on when the condition it waits for holds.  Nobody
who can go on is left asleep if, on each queue, there are as many signals as sleepers
who can go on: signals that are pending, and signals that a broadcast in progress is
going to send.  This file is about that inequality, `Provided able x`, for any notion
`able` of being able to go on.

It can be lost in two ways, and both occur in the driver:

* a step makes sleepers able to go on and no broadcast follows;
* a sleeper who cannot go on takes a signal, finds its condition false and sleeps again
  — with a *new* entry in the counter, but the signal is gone.

`Provided.step` says that there is no third way.
-/

namespace DsoFifo.Fifo

open DsoFifo.C DsoFifo.LTS DsoFifo.Pool Function

variable {ι φ : Type}

/-! ## Sleepers and signals -/

/-- Asleep on `cola_x`, and `f` of what it waits for. -/
def Pc.sleeps (x : Side) (f : Waiter φ → Bool) : Pc φ → Bool
  | .condWait .sleep w => decide (w.queue = x) && f w
  | _ => false

/-- In a broadcast to `cola_x`. -/
def Pc.casts (x : Side) : Pc φ → Bool
  | .broadcast b => decide (b.queue = x)
  | _ => false

theorem Pc.holds_of_casts {pc : Pc φ} {x : Side} (h : pc.casts x = true) : pc.holds = true := by
  unfold Pc.casts at h
  split at h
  · rfl
  · cases h

theorem Pc.casts_eq_false {pc : Pc φ} {x : Side} (h : pc.holds = false) : pc.casts x = false := by
  by_contra hc
  rw [Pc.holds_of_casts (Bool.eq_true_of_not_eq_false hc)] at h
  cases h

theorem Pc.asleep_of_sleeps {pc : Pc φ} {x : Side} {f : Waiter φ → Bool}
    (h : pc.sleeps x f = true) : pc.asleep x = true := by
  unfold Pc.sleeps at h
  split at h
  · simp only [Bool.and_eq_true] at h
    exact h.1
  · cases h

variable [Fintype ι]

/-- The sleepers on `cola_x` that `f` holds of. -/
def sleepers (x : Side) (f : Waiter φ → Bool) (s : State ι φ) : ℕ := count (Pc.sleeps x f) s.pc

/-- The signals that a broadcast in progress is going to send to `cola_x`. -/
def coming (x : Side) (s : State ι φ) : ℕ :=
  if ∃ p, (s.pc p).casts x = true then (s.drv.numBloq x).toNat else 0

/-- The signals on `cola_x` that are pending or coming. -/
def signals (x : Side) (s : State ι φ) : ℕ := s.drv.cola x + coming x s

/-- There are signals for all the sleepers on `cola_x` that can go on. -/
def Provided (able : Driver → Waiter φ → Bool) (x : Side) (s : State ι φ) : Prop :=
  sleepers x (able s.drv) s ≤ signals x s

/-- A sleeper on `cola_x` who cannot go on takes a signal only when there is one left
over. -/
def Thrifty (able : Driver → Waiter φ → Bool) (x : Side) (s : State ι φ) (l : Label ι φ) :
    Prop :=
  l.input.choice = .act .go →
    (s.pc l.input.proc).sleeps x (fun w ↦ !able s.drv w) = true →
    sleepers x (able s.drv) s < signals x s

instance [DecidableEq φ] (able : Driver → Waiter φ → Bool) (x : Side) (s : State ι φ) (l : Label ι φ) :
    Decidable (Thrifty able x s l) :=
  inferInstanceAs (Decidable (l.input.choice = .act .go →
    (s.pc l.input.proc).sleeps x (fun w ↦ !able s.drv w) = true →
    sleepers x (able s.drv) s < signals x s))

/-- Nobody is left asleep who can go on, when there is no signal for anybody. -/
theorem Provided.not_able {able : Driver → Waiter φ → Bool} {x : Side} {s : State ι φ}
    (h : Provided able x s) (hfree : ∀ p, (s.pc p).holds = false) (hcola : s.drv.cola x = 0)
    {p : ι} {w : Waiter φ} (hp : s.pc p = .condWait .sleep w) (hw : w.queue = x) :
    able s.drv w = false := by
  have hcast : ¬∃ q, (s.pc q).casts x = true := by
    rintro ⟨q, hq⟩
    rw [Pc.casts_eq_false (hfree q)] at hq
    cases hq
  have hzero : sleepers x (able s.drv) s = 0 := by
    have hle : sleepers x (able s.drv) s ≤ signals x s := h
    rw [signals, coming, if_neg hcast, hcola] at hle
    omega
  have hp' := count_eq_zero.mp hzero p
  simpa [hp, Pc.sleeps, hw] using hp'

/-! ## What a step does to the signals -/

/-- A step that does not lead into a broadcast to `cola_x` either takes a signal from it
or leaves it alone; and it changes the counter only with the mutex held. -/
theorem Fires.cola {d : Driver} {pc : Pc φ} {a : Act} {o : Outcome φ} (h : Fires d pc a o)
    {x : Side} (hpc : o.next.pc.casts x = false) :
    (∃ w, pc = .condWait .sleep w ∧ w.queue = x ∧ a = .go ∧ o.drv.cola x + 1 = d.cola x ∧
        o.drv.numBloq x = d.numBloq x) ∨
      o.drv.cola x = d.cola x ∧ (pc.holds = true ∨ o.drv.numBloq x = d.numBloq x) ∧
        (pc.casts x = true → d.numBloq x = 0) := by
  cases h
  case take w hc =>
    by_cases hx : w.queue = x
    · subst hx
      exact .inl ⟨w, rfl, rfl, rfl, by simp; omega, rfl⟩
    · exact .inr ⟨by simp [update_of_ne (Ne.symm hx)], .inr rfl, fun hcast ↦ by cases hcast⟩
  case signal b hb =>
    have hx : b.queue ≠ x := by simpa [Pc.casts] using hpc
    refine .inr ⟨by simp [update_of_ne (Ne.symm hx)], .inl rfl, fun hcast ↦ ?_⟩
    exact absurd (by simpa [Pc.casts] using hcast) hx
  case castEnd b hb =>
    refine .inr ⟨rfl, .inr rfl, fun hcast ↦ ?_⟩
    obtain rfl : b.queue = x := by simpa [Pc.casts] using hcast
    exact hb
  case writeEpipe hloc _ | writeSleep hloc _ _ | writeInsert hloc _ _ _ =>
    rcases hloc with rfl | rfl <;> exact .inr ⟨rfl, .inl rfl, fun hcast ↦ by cases hcast⟩
  all_goals first
    | exact .inr ⟨rfl, .inr rfl, fun hcast ↦ by cases hcast⟩
    | exact .inr ⟨rfl, .inl rfl, fun hcast ↦ by cases hcast⟩

section

variable [DecidableEq ι] [DecidableEq φ]

/-- Nobody sleeps at first. -/
theorem provided_of_init {able : Driver → Waiter φ → Bool} {x : Side} {s : State ι φ}
    (h : (fifo ι φ).Init s) : Provided able x s := by
  obtain ⟨data, -, rfl⟩ := h
  exact (count_const_false rfl).trans_le (Nat.zero_le _)

omit [Fintype ι] [DecidableEq ι] in
/-- A call begins awake. -/
theorem Enters.sleeps_eq_false {s : State ι φ} {c : Call φ} {files : φ → Option Side}
    {pc : Pc φ} (h : Enters s c files pc) (x : Side) (f : Waiter φ → Bool) :
    pc.sleeps x f = false := by cases h <;> rfl

omit [DecidableEq φ] in
/-- A step of `p` outside a broadcast takes away no signal that is coming, if it leaves
the counter alone or nobody else broadcasts. -/
theorem coming_le_update {s : State ι φ} {p : ι} (pc : Pc φ) (files : φ → Option Side)
    {d : Driver} {x : Side} (hold : (s.pc p).casts x = true → s.drv.numBloq x = 0)
    (hbloq : (∀ q ≠ p, (s.pc q).casts x = false) ∨ d.numBloq x = s.drv.numBloq x) :
    coming x s ≤ coming x ⟨d, files, update s.pc p pc⟩ := by
  by_cases hothers : ∃ q ≠ p, (s.pc q).casts x = true
  · obtain ⟨q, hne, hq⟩ := hothers
    have hsame : d.numBloq x = s.drv.numBloq x := hbloq.resolve_left fun hno ↦ by
      rw [hno q hne] at hq
      cases hq
    have ht : ∃ r, (update s.pc p pc r).casts x = true := ⟨q, by rwa [update_of_ne hne]⟩
    rw [coming, coming, if_pos ⟨q, hq⟩, if_pos ht, hsame]
  · have hzero : coming x s = 0 := by
      unfold coming
      split
      · rename_i hex
        obtain ⟨q, hq⟩ := hex
        obtain rfl : q = p := by
          by_contra hne
          exact hothers ⟨q, hne, hq⟩
        rw [hold hq]
        rfl
      · rfl
    omega

/-- One process moves: its old sleep is counted out and its new one in, and the others
stay asleep. -/
theorem sleepers_step_le {s t : State ι φ} {l : Label ι φ} (hst : (fifo ι φ).Step s l t) {x : Side}
    {f g : Waiter φ → Bool} (hfg : ∀ w, w.queue = x → g w = true → f w = true) :
    sleepers x g t + ((s.pc l.input.proc).sleeps x f).toNat ≤
      sleepers x f s + ((t.pc l.input.proc).sleeps x g).toNat := by
  obtain ⟨pc, hpc⟩ : ∃ pc, t.pc = update s.pc l.input.proc pc := by
    rcases step_cases hst with ⟨c, files, pc, -, -, -, rfl, -⟩ | ⟨a, o, -, -, rfl, -⟩ <;>
      exact ⟨_, rfl⟩
  have hmono : count (Pc.sleeps x g) (update s.pc l.input.proc .idle) ≤
      count (Pc.sleeps x f) (update s.pc l.input.proc .idle) := by
    refine count_le_count fun q hq ↦ ?_
    unfold Pc.sleeps at hq ⊢
    split at hq
    · simp only [Bool.and_eq_true, decide_eq_true_eq] at hq ⊢
      exact ⟨hq.1, hfg _ hq.1 hq.2⟩
    · cases hq
  have hg := count_update (Pc.sleeps x g) s.pc l.input.proc pc
  have hg₀ := count_update (Pc.sleeps x g) s.pc l.input.proc .idle
  have hf₀ := count_update (Pc.sleeps x f) s.pc l.input.proc .idle
  have hidle : ∀ f, (Pc.idle : Pc φ).sleeps x f = false := fun _ ↦ rfl
  rw [hidle, Bool.toNat_false, add_zero] at hg₀ hf₀
  rw [hpc, update_self, sleepers, sleepers, hpc]
  omega

/-- **The signals last.**  A step keeps enough signals for the sleepers that can go on if

* it leads into a broadcast, which is going to reach everybody, or else
* it makes nobody able to go on, whoever falls asleep cannot go on, and a sleeper who
  cannot go on leaves enough signals for the others. -/
theorem Provided.step {able : Driver → Waiter φ → Bool} {x : Side} {tr : List (Label ι φ)}
    {s t : State ι φ} {l : Label ι φ} (h : Provided able x s) (hJ : Holding tr s)
    (hb : (queueOf x t).Balanced) (hst : (fifo ι φ).Step s l t)
    (hP : (t.pc l.input.proc).casts x = true ∨
      (∀ w, w.queue = x → able t.drv w = true → able s.drv w = true) ∧
        (t.pc l.input.proc).sleeps x (able t.drv) = false ∧ Thrifty able x s l) :
    Provided able x t := by
  by_cases hcast : (t.pc l.input.proc).casts x = true
  · -- the counter and the semaphore together cover everybody asleep
    have hle : sleepers x (able t.drv) t ≤ count (Pc.asleep x) t.pc :=
      count_le_count fun _ ↦ Pc.asleep_of_sleeps
    have hbal : (count (Pc.asleep x) t.pc + count (Pc.leaving x) t.pc : ℤ) =
      t.drv.numBloq x + t.drv.cola x := hb
    rw [Provided, signals, coming, if_pos ⟨_, hcast⟩]
    omega
  obtain ⟨hmono, hsleep, hthrifty⟩ := hP.resolve_left hcast
  replace hcast := Bool.eq_false_of_not_eq_true hcast
  have hsleepers := sleepers_step_le hst hmono
  rw [hsleep, Bool.toNat_false, add_zero] at hsleepers
  rw [Provided, signals] at h ⊢
  rcases step_cases hst with ⟨c, files, pc, -, hidle, -, rfl, -⟩ | ⟨a, o, ha, hf, rfl, -⟩
  · have hcoming := coming_le_update (s := s) (p := l.input.proc) pc files (d := s.drv) (x := x)
      (by rw [hidle]; exact fun hc ↦ by cases hc) (.inr rfl)
    simp only at hsleepers ⊢
    omega
  · simp only [update_self] at hcast
    rcases hf.cola hcast with ⟨w, hw, hx, hgo, hcola, hbloq⟩ | ⟨hcola, hbloq, hold⟩
    · have hcoming := coming_le_update (s := s) (p := l.input.proc) o.next.pc
        (o.next.files s.files (s.pc l.input.proc)) (d := o.drv)
        (by rw [hw]; exact fun hc ↦ by cases hc) (.inr hbloq)
      cases hable : able s.drv w with
      | true =>
          -- one sleeper who can go on less, and one signal less
          have hone : (s.pc l.input.proc).sleeps x (able s.drv) = true := by
            simp [hw, Pc.sleeps, hx, hable]
          rw [hone, Bool.toNat_true] at hsleepers
          simp only at hsleepers ⊢
          omega
      | false =>
          have hleft := hthrifty (by rw [ha, hgo]) (by simp [hw, Pc.sleeps, hx, hable])
          rw [signals] at hleft
          simp only at hsleepers ⊢
          omega
    · have hcoming := coming_le_update (s := s) (p := l.input.proc) o.next.pc
        (o.next.files s.files (s.pc l.input.proc)) (d := o.drv) hold
        (hbloq.imp_left fun hholds q hne ↦
          Pc.casts_eq_false (hJ.holds_eq_false_of_ne hholds hne))
      simp only at hsleepers ⊢
      omega

end

/-! ## Lost wake-ups -/

/-- What a sleeper waits for is there: a peer, the bytes, or the room. -/
def served (d : Driver) : Waiter φ → Bool
  | .fifoOpen _ m => d.num m.other ≠ 0
  | .fifoRead _ length => length ≤ toUnsigned (sizeCbuffer d.cbuffer)
  | .fifoWrite _ kbuff =>
    d.num .cons ≠ 0 ∧ kbuff.length ≤ toUnsigned (nrGapsCbuffer d.cbuffer)

omit [Fintype ι] in
/-- The counter of its own side does not matter to a waiter. -/
theorem served_of_num {d d' : Driver} {w : Waiter φ} (h : served d' w = true)
    (hc : d'.cbuffer = d.cbuffer) (hn : d'.num w.queue.other ≠ 0 → d.num w.queue.other ≠ 0) :
    served d w = true := by
  cases w <;> simp_all [served, Waiter.queue]

omit [Fintype ι] in
/-- Taking one off a counter that stays at zero or above makes no counter nonzero. -/
theorem num_ne_zero_of_pred {num : Side → ℤ} {m y : Side}
    (hpos : 0 ≤ update num m (num m - 1) m) (h : update num m (num m - 1) y ≠ 0) : num y ≠ 0 := by
  by_cases hy : y = m
  · subst hy
    rw [update_self] at hpos
    omega
  · rwa [update_of_ne hy] at h

omit [Fintype ι] in
/-- Whoever makes somebody's wait end broadcasts to them. -/
theorem Fires.served_mono {d : Driver} {pc : Pc φ} {a : Act} {o : Outcome φ} (h : Fires d pc a o)
    (hs : Sound d) (hs' : Sound o.drv) (hnum : ∀ y, 0 ≤ d.num y) (hnum' : ∀ y, 0 ≤ o.drv.num y)
    {w : Waiter φ} (hcast : o.next.pc.casts w.queue = false) (hw : served o.drv w = true) :
    served d w = true := by
  have hcbuffer := h.cbuffer hs (hnum .cons)
  cases h
  case openCount m =>
    have hne : w.queue.other ≠ m := fun heq ↦ by
      simp [Pc.casts, Caster.queue, ← heq] at hcast
    exact served_of_num hw rfl fun h ↦ by simpa [update_of_ne hne] using h
  case undo m => exact served_of_num hw rfl (num_ne_zero_of_pred (hnum' m))
  case releaseLast => exact served_of_num hw rfl (num_ne_zero_of_pred (hnum' .cons))
  case releaseCount m _ => exact served_of_num hw rfl (num_ne_zero_of_pred (hnum' m))
  case releaseReset hp hc =>
    cases w with
    | fifoOpen => exact hw
    | fifoRead f length =>
        have hsize : toUnsigned (sizeCbuffer d.cbuffer.reset) = 0 := hs'.size_eq
        have hzero : length = 0 := by simpa [served, upMutex, hsize] using hw
        simp [served, hzero]
    | fifoWrite => simp [served, upMutex, hc] at hw
  case readRemove =>
    cases hcbuffer with
    | remove hn =>
        cases w with
        | fifoOpen => exact hw
        | fifoRead f length =>
            simp only [served, hs'.size_eq, hs.size_eq, decide_eq_true_eq] at hw ⊢
            exact hw.trans (Nat.sub_le _ _)
        | fifoWrite => cases hcast
  case writeInsert =>
    cases hcbuffer with
    | insert hx =>
        cases w with
        | fifoOpen => exact hw
        | fifoRead => cases hcast
        | fifoWrite f kbuff =>
            simp only [served, hs'.nrGaps_eq, hs.nrGaps_eq, decide_eq_true_eq] at hw ⊢
            refine ⟨hw.1, hw.2.trans (Nat.sub_le_sub_left ?_ _)⟩
            exact Nat.le_add_right _ _
  all_goals exact hw

omit [Fintype ι] in
/-- Nobody falls asleep who could go on. -/
theorem Fires.sleeps_served {d : Driver} {pc : Pc φ} {a : Act} {o : Outcome φ}
    (h : Fires d pc a o) (x : Side) : o.next.pc.sleeps x (served o.drv) = false := by
  cases h
  case openSleep hn => exact Bool.and_eq_false_imp.mpr fun _ ↦ decide_eq_false (not_not.mpr hn)
  case readSleep hlt =>
    exact Bool.and_eq_false_imp.mpr fun _ ↦ decide_eq_false (Nat.not_le.mpr hlt)
  case writeSleep hlt =>
    exact Bool.and_eq_false_imp.mpr fun _ ↦ decide_eq_false fun hc ↦ Nat.not_le.mpr hlt hc.2
  case intrDec w | relockIntr w | relock w _ => cases w <;> rfl
  case castEnd b _ => cases b <;> rfl
  all_goals rfl

section

variable [DecidableEq ι] [DecidableEq φ]

/-- No signal is wasted: a sleeper whose condition is still false takes a signal only if
one is left for every sleeper whose condition is true. -/
def NoTheft (s : State ι φ) (l : Label ι φ) : Prop := ∀ x, Thrifty served x s l

instance (s : State ι φ) (l : Label ι φ) : Decidable (NoTheft s l) :=
  inferInstanceAs (Decidable (∀ x, Thrifty served x s l))

/-- Without theft there are always signals for those whose condition is true. -/
theorem provided_served {tr : List (Label ι φ)} {s : State ι φ}
    (h : (fifo ι φ).Run NoTheft tr s) (x : Side) : Provided served x s := by
  refine Run.induction (J := fun _ s ↦ Provided served x s) ?_ ?_ h
  · intro s hs
    exact provided_of_init hs
  · intro tr s l t hr ih hP hst
    have ht := hr.snoc hP hst
    refine ih.step (holding_of_run hr) (queueOf_balanced ht x) hst ?_
    by_cases hcast : (t.pc l.input.proc).casts x = true
    · exact .inl hcast
    refine .inr ⟨fun w hx hw ↦ ?_, ?_, hP x⟩
    · rcases step_cases hst with ⟨c, files, pc, -, -, -, rfl, -⟩ | ⟨a, o, -, hf, rfl, -⟩
      · exact hw
      · subst hx
        exact hf.served_mono (sound_of_run hr) (sound_of_run ht) (num_nonneg hr) (num_nonneg ht)
          (by simpa using hcast) hw
    · rcases step_cases hst with ⟨c, files, pc, -, -, he, rfl, -⟩ | ⟨a, o, -, hf, rfl, -⟩
      · simpa using he.sleeps_eq_false x _
      · simpa using hf.sleeps_served x

/-- **No lost wake-up, but for theft.**  In a run in which no signal is wasted on a
sleeper whose condition is false: whenever the mutex is free and no signal is pending on
its queue, the condition of a sleeper is false. -/
theorem no_lost_wakeup {tr : List (Label ι φ)} {s : State ι φ}
    (h : (fifo ι φ).Run NoTheft tr s) (hmutex : 0 < s.drv.mutex) {p : ι} {w : Waiter φ}
    (hp : s.pc p = .condWait .sleep w) (hcola : s.drv.cola w.queue = 0) :
    match w with
    | .fifoOpen _ m => s.drv.num m.other = 0
    | .fifoRead _ length => toUnsigned (sizeCbuffer s.drv.cbuffer) < length
    | .fifoWrite _ kbuff =>
      s.drv.num .cons = 0 ∨ toUnsigned (nrGapsCbuffer s.drv.cbuffer) < kbuff.length := by
  have hfree := (holding_of_run h).holds_eq_false hmutex
  have hno := (provided_served h w.queue).not_able hfree hcola hp rfl
  cases w with
  | fifoOpen f m => simpa [served] using hno
  | fifoRead f length => simpa [served] using hno
  | fifoWrite f kbuff =>
      simp only [served, decide_eq_false_iff_not, not_and, not_le] at hno
      exact or_iff_not_imp_left.mpr hno

end

/-! ## Everybody asleep -/

/-- Outside the driver, or asleep on one of the queues. -/
def Pc.rests : Pc φ → Bool
  | .idle | .condWait .sleep _ => true
  | _ => false

/-- The mutex is free, no signal is pending, and whoever is in the driver is asleep on
one of the queues. -/
def AllAsleep (s : State ι φ) : Prop :=
  0 < s.drv.mutex ∧ (∀ x, s.drv.cola x = 0) ∧ ∀ p, (s.pc p).rests = true

instance (s : State ι φ) : Decidable (AllAsleep s) :=
  inferInstanceAs (Decidable (0 < s.drv.mutex ∧ (∀ x, s.drv.cola x = 0) ∧
    ∀ p, (s.pc p).rests = true))

/-- Both sides are open, and process 0 asks for more than process 1 writes: it is woken
and sleeps again. -/
theorem no_lost_wakeup_meeting :
    ∃ (tr : List (Label (Fin 2) (Fin 2))) (s : State (Fin 2) (Fin 2)),
      (fifo (Fin 2) (Fin 2)).Run NoTheft tr s ∧ AllAsleep s ∧
        s.pc 0 = .condWait .sleep (.fifoRead 0 3) ∧
        toUnsigned (sizeCbuffer s.drv.cbuffer) < 3 := by
  obtain ⟨tr, s, hr, hg⟩ := exists_run (ι := Fin 2) (φ := Fin 2) NoTheft
    (meeting ++ gos 4 0 ++ call 0 (.fifoRead 0 3) :: gos 3 0 ++ writing 1 [7, 8] ++ gos 3 1 ++
      gos 3 0)
    (fun s ↦ AllAsleep s && s.pc 0 = .condWait .sleep (.fifoRead 0 3)) (by decide +kernel)
  simp only [Bool.and_eq_true, decide_eq_true_eq] at hg
  obtain ⟨hs, hp⟩ := hg
  exact ⟨tr, s, hr, hs, hp, no_lost_wakeup hr hs.1 hp (hs.2.1 .cons)⟩

/-- **A stolen signal.**  Processes 0 and 2 wait for three bytes and for one; process 1
writes two and signals both.  Process 0 is woken, sleeps again for want of a third byte,
and takes the signal that was meant for process 2. -/
theorem exists_stolen_signal :
    ∃ (tr : List (Label (Fin 3) (Fin 2))) (s : State (Fin 3) (Fin 2)),
      (fifo (Fin 3) (Fin 2)).Run NoIntr tr s ∧ AllAsleep s ∧
        s.pc 2 = .condWait .sleep (.fifoRead 0 1) ∧
        ¬toUnsigned (sizeCbuffer s.drv.cbuffer) < 1 := by
  obtain ⟨tr, s, hr, hg⟩ := exists_run (ι := Fin 3) (φ := Fin 2) NoIntr
    (meeting ++ gos 4 0 ++ call 0 (.fifoRead 0 3) :: gos 3 0 ++ call 2 (.fifoRead 0 1) :: gos 3 2 ++
      writing 1 [7, 8] ++ gos 4 1 ++ gos 6 0)
    (fun s ↦ AllAsleep s && s.pc 2 = .condWait .sleep (.fifoRead 0 1) &&
      decide (¬toUnsigned (sizeCbuffer s.drv.cbuffer) < 1)) (by decide +kernel)
  simp only [Bool.and_eq_true, decide_eq_true_eq] at hg
  exact ⟨tr, s, hr, hg.1.1, hg.1.2, hg.2⟩

end DsoFifo.Fifo
