import DsoFifo.Fifo.Stream

/-!
# Sessions

A session ends when both counters are back at zero, and what it left in the buffer must
not be seen by the next one.  The buffer is emptied by `fifo_release` when it finds both
counters at zero.  But a counter can also get there in the interrupt handler of
`fifo_open`, which does not empty anything: a consumer that a producer's open has
counted, interrupted when the producer has written and left, leaves the data behind
(`size_ne_zero_between_sessions`).

`NoResidue` excludes that handler in that situation, and nothing else.  Then the buffer
is empty whenever both counters are zero, up to the release that is about to empty it,
and the stream starts anew.

What separates two sessions is that both counters are zero, and not that everybody has
left: an interrupted `fifo_release` leaves its file counted (`num_cons_ne_number`), and
what is in the buffer then stays there for the next session.  Where every release
finishes, everybody having left is enough (`isolation_of_left`).
-/

namespace DsoFifo.Fifo

open DsoFifo.LTS DsoFifo.Pool Function

variable {ι φ : Type}

/-- In `fifo_release`, between `num_x--` and the test for the reset. -/
def Pc.clearing : Pc φ → Bool
  | .fifoRelease .reset _ _ | .broadcast (.fifoRelease _ _) => true
  | _ => false

theorem Pc.holds_of_clearing {pc : Pc φ} (h : pc.clearing = true) : pc.holds = true := by
  unfold Pc.clearing at h
  split at h <;> first | rfl | cases h

/-- The side of an open that is undone. -/
def Pc.undoes : Pc φ → Option Side
  | .fifoOpen .undo _ m => some m
  | _ => none

/-- The step does not undo the last open while there is data in the buffer. -/
def NoResidue (s : State ι φ) (l : Label ι φ) : Prop :=
  ∀ m ∈ (s.pc l.input.proc).undoes,
    s.drv.num m = 1 → s.drv.num m.other = 0 → s.drv.cbuffer.size = 0

instance (s : State ι φ) (l : Label ι φ) : Decidable (NoResidue s l) :=
  inferInstanceAs (Decidable (∀ m ∈ (s.pc l.input.proc).undoes,
    s.drv.num m = 1 → s.drv.num m.other = 0 → s.drv.cbuffer.size = 0))

/-- Both counters are zero only over an empty buffer, or when `C`. -/
def Cleared (d : Driver) (C : Prop) : Prop :=
  d.num .prod = 0 → d.num .cons = 0 → d.cbuffer.size = 0 ∨ C

/-- What a step does to an empty pipe; `C` says that somebody else is clearing it. -/
theorem Fires.cleared {d : Driver} {pc : Pc φ} {a : Act} {o : Outcome φ} (h : Fires d pc a o)
    {C : Prop} (hs : Sound d) (hnum : ∀ x, 0 ≤ d.num x)
    (hP : ∀ m ∈ pc.undoes, d.num m = 1 → d.num m.other = 0 → d.cbuffer.size = 0)
    (hd : Cleared d (pc.clearing = true ∨ C)) :
    Cleared o.drv (o.next.pc.clearing = true ∨ C) := by
  have hcbuffer := h.cbuffer hs (hnum .cons)
  cases h
  case openCount m =>
    have hm := hnum m
    intro hp hc
    cases m <;> simp at hp hc <;> omega
  case undo m =>
    intro hp hc
    refine .inl (hP m rfl ?_ ?_)
    · cases m <;> simp [upMutex] at hp hc <;> omega
    · cases m <;> simpa [upMutex] using by assumption
  case releaseLast => exact fun _ _ ↦ .inr (.inl rfl)
  case releaseCount => exact fun _ _ ↦ .inr (.inl rfl)
  case releaseReset => exact fun _ _ ↦ .inl rfl
  case releaseKeep hne => exact fun hp hc ↦ absurd ⟨hp, hc⟩ hne
  case readRemove =>
    intro hp hc
    cases hcbuffer with
    | remove hn =>
        refine (hd hp hc).imp (fun hz ↦ ?_) id
        simp [hz]
  case writeInsert hne _ _ => exact fun _ hc ↦ absurd hc hne
  case writeEpipe hloc _ | writeSleep hloc _ _ => rcases hloc with rfl | rfl <;> exact hd
  case intrDec w | relockIntr w | relock w _ => cases w <;> exact hd
  case castEnd b _ => cases b <;> exact hd
  all_goals exact hd

section

variable [Fintype ι] [DecidableEq ι] [DecidableEq φ]

/-- In every run without residues, both counters are zero only over an empty buffer or
when a release is about to empty it. -/
theorem cleared_of_run {tr : List (Label ι φ)} {s : State ι φ}
    (h : (fifo ι φ).Run NoResidue tr s) : Cleared s.drv (∃ p, (s.pc p).clearing = true) := by
  refine Run.induction (J := fun _ s ↦ Cleared s.drv (∃ p, (s.pc p).clearing = true)) ?_ ?_ h
  · rintro s ⟨data, -, rfl⟩
    exact fun _ _ ↦ .inl rfl
  · rintro tr s l t hr ih hP hst
    rcases step_cases hst with ⟨c, files, pc, -, hidle, -, rfl, -⟩ | ⟨a, o, -, hf, rfl, -⟩
    · refine fun hp hc ↦ (ih hp hc).imp id fun ⟨q, hq⟩ ↦ ⟨q, ?_⟩
      have hne : q ≠ l.input.proc := fun heq ↦ by
        rw [heq, hidle] at hq
        cases hq
      simpa [update_of_ne hne] using hq
    · have hstep := hf.cleared (C := ∃ q ≠ l.input.proc, (s.pc q).clearing = true)
        (sound_of_run hr) (num_nonneg hr) hP fun hp hc ↦ (ih hp hc).imp id fun ⟨q, hq⟩ ↦ by
          by_cases hql : q = l.input.proc
          · exact .inl (hql ▸ hq)
          · exact .inr ⟨q, hql, hq⟩
      refine fun hp hc ↦ (hstep hp hc).imp id ?_
      rintro (hq | ⟨q, hne, hq⟩)
      · exact ⟨l.input.proc, by simpa using hq⟩
      · exact ⟨q, by simpa [update_of_ne hne] using hq⟩

/-- From an empty buffer on, what is read was written since. -/
theorem inserted_eq_of_path {tr tr' : List (Label ι φ)} {s t : State ι φ}
    {P : State ι φ → Label ι φ → Prop} (h : (fifo ι φ).Run P tr s)
    (hsize : s.drv.cbuffer.size = 0) (hpath : (fifo ι φ).Path anyStep s tr' t) :
    BlockOp.inserted (streamOps (events tr')) =
      BlockOp.removed (streamOps (events tr')) ++ t.drv.cbuffer.content := by
  have hempty : s.drv.cbuffer.content = [] :=
    List.eq_nil_of_length_eq_zero (by rw [Cbuffer.length_content, hsize])
  exact BlockOp.inserted_eq_of_run ⟨_, hempty, content_path h hpath⟩

/-- With the mutex free, nobody is about to empty the buffer. -/
theorem size_eq_zero_of_run {tr : List (Label ι φ)} {s : State ι φ}
    (h : (fifo ι φ).Run NoResidue tr s) (hmutex : 0 < s.drv.mutex) (hprod : s.drv.num .prod = 0)
    (hcons : s.drv.num .cons = 0) : s.drv.cbuffer.size = 0 := by
  refine (cleared_of_run h hprod hcons).resolve_right fun ⟨p, hp⟩ ↦ ?_
  have hfree := (holding_of_run h).holds_eq_false hmutex p
  rw [Pc.holds_of_clearing hp] at hfree
  cases hfree

/-- **Sessions do not leak.**  In a run that never undoes the last open while there is
data in the buffer: whenever the mutex is free and both counters are zero, the buffer is
empty; so whatever is read later was written later. -/
theorem session_isolation {tr : List (Label ι φ)} {s : State ι φ}
    (h : (fifo ι φ).Run NoResidue tr s) (hmutex : 0 < s.drv.mutex) (hprod : s.drv.num .prod = 0)
    (hcons : s.drv.num .cons = 0) :
    s.drv.cbuffer.size = 0 ∧
      ∀ tr' t, (fifo ι φ).Path anyStep s tr' t →
        BlockOp.inserted (streamOps (events tr')) =
          BlockOp.removed (streamOps (events tr')) ++ t.drv.cbuffer.content := by
  have hsize := size_eq_zero_of_run h hmutex hprod hcons
  exact ⟨hsize, fun tr' t hpath ↦ inserted_eq_of_path h hsize hpath⟩

/-- **When everybody has left**: in a run that undoes no open over data and finishes every
release, no file being open and nobody in the driver separates sessions too. -/
theorem isolation_of_left {tr : List (Label ι φ)} {s : State ι φ}
    (h : (fifo ι φ).Run (fun s l ↦ NoResidue s l ∧ ReleasesFinish s l) tr s)
    (hidle : ∀ p, s.pc p = .idle) (hfiles : ∀ f, s.files f = none) :
    s.drv.cbuffer.size = 0 ∧
      ∀ tr' t, (fifo ι φ).Path anyStep s tr' t →
        BlockOp.inserted (streamOps (events tr')) =
          BlockOp.removed (streamOps (events tr')) ++ t.drv.cbuffer.content := by
  have hres := h.mono fun _ _ hP ↦ hP.1
  have hleaks := (run_releasesFinish_iff h.free).mp (h.mono fun _ _ hP ↦ hP.2)
  have hnum (x : Side) : s.drv.num x = 0 := by
    have hcounted : count (Pc.counted x) s.pc = 0 :=
      count_eq_zero.mpr fun p ↦ by rw [hidle p]; rfl
    have hnumber : Table.number x s.files = 0 :=
      Table.number_eq_zero fun f ↦ by rw [hfiles f]; nofun
    rw [(accounted_of_run h).num_eq x, hcounted, hnumber, hleaks x]
    rfl
  have hmutex : 0 < s.drv.mutex := by
    have hholds : count Pc.holds s.pc = 0 := count_eq_zero.mpr fun p ↦ by rw [hidle p]; rfl
    have hadd := (holding_of_run h).mutex_add
    omega
  have hsize := size_eq_zero_of_run hres hmutex (hnum .prod) (hnum .cons)
  exact ⟨hsize, fun tr' t hpath ↦ inserted_eq_of_path h hsize hpath⟩

end

/-- Two sides have met, exchanged a byte less than was written, and left. -/
theorem session_isolation_meeting :
    ∃ (tr : List (Label (Fin 2) (Fin 2))) (s : State (Fin 2) (Fin 2)),
      (fifo (Fin 2) (Fin 2)).Run NoResidue tr s ∧ s.drv.cbuffer.data.take 2 = [7, 8] ∧
        s.drv.cbuffer.size = 0 := by
  obtain ⟨tr, s, hr, hg⟩ := exists_run (ι := Fin 2) (φ := Fin 2) NoResidue
    (meeting ++ gos 4 0 ++ writing 1 [7, 8] ++ gos 2 1 ++ call 1 (.fifoRelease 1) :: gos 4 1 ++
      call 0 (.fifoRelease 0) :: gos 5 0)
    (fun s ↦ s.drv.cbuffer.data.take 2 = [7, 8] && 0 < s.drv.mutex && s.drv.num .prod = 0 &&
      s.drv.num .cons = 0) (by decide +kernel)
  simp only [Bool.and_eq_true, decide_eq_true_eq] at hg
  obtain ⟨⟨⟨hdata, hmutex⟩, hprod⟩, hcons⟩ := hg
  exact ⟨tr, s, hr, hdata, (session_isolation hr hmutex hprod hcons).1⟩

/-- **Data is left behind.**  Process 1 meets the open of process 0, writes three bytes
and closes; process 0 has not left its open yet, is interrupted at the mutex and undoes
it. -/
theorem size_ne_zero_between_sessions :
    ∃ (tr : List (Label (Fin 2) (Fin 2))) (s : State (Fin 2) (Fin 2)),
      (fifo (Fin 2) (Fin 2)).Run Blocking tr s ∧ 0 < s.drv.mutex ∧ s.drv.num .prod = 0 ∧
        s.drv.num .cons = 0 ∧ s.drv.cbuffer.size ≠ 0 := by
  obtain ⟨tr, s, hr, hg⟩ := exists_run (ι := Fin 2) (φ := Fin 2) Blocking
    (meeting ++ writing 1 [1, 2, 3] ++ gos 2 1 ++ go 0 :: call 1 (.fifoRelease 1) :: go 1 ::
      intr 0 :: gos 3 1 ++ gos 2 0)
    (fun s ↦ 0 < s.drv.mutex && s.drv.num .prod = 0 && s.drv.num .cons = 0 &&
      s.drv.cbuffer.size ≠ 0) (by decide +kernel)
  simp only [Bool.and_eq_true, decide_eq_true_eq] at hg
  obtain ⟨⟨⟨hmutex, hprod⟩, hcons⟩, hsize⟩ := hg
  exact ⟨tr, s, hr, hmutex, hprod, hcons, hsize⟩

end DsoFifo.Fifo
