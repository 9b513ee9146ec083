import DsoFifo.Fifo.Stream

/-!
# What a read delivers

`fifo_read` takes its block out of the buffer in the critical section and copies it to the
user afterwards.  What `copy_to_user` leaves out is then in neither place: the read returns
less than it took, and the value for end of file when nothing could be copied.

`lossless_iff` says that every byte left out is lost, whatever the buffer was.
-/

namespace DsoFifo.Fifo

open DsoFifo.C DsoFifo.LTS

variable {ι φ : Type}

/-- A read that returns `v` has lost nothing: what it took out of the buffer is as much as
it returns, its user has got all of it, and end of file is not what it returned if it took
something. -/
structure Lossless (v : ℤ) (L : Ledger φ) : Prop where
  returned : (L.removed.flatten.length : ℤ) = v
  copiedOut : L.copiedOut = some L.removed.flatten
  eof : v = 0 → L.removed.flatten = []

/-- A read ends with the copy of the block that it took, of which the user gets what
`copy_to_user` does not leave out. -/
theorem Fires.delivered {d : Driver} {pc : Pc φ} {left : ℕ} {o : Outcome φ}
    (h : Fires d pc (.copy left) o) {L : Ledger φ} (hL : Recorded pc L) {v : ℤ}
    (hn : o.next = .ret .fifoRead v) :
    ∃ kbuff, (o.events.foldl Ledger.record L).removed = [kbuff] ∧ left ≤ kbuff.length ∧
      v = kbuff.length - left ∧
      (o.events.foldl Ledger.record L).copiedOut = some (kbuff.take (kbuff.length - left)) := by
  cases h
  case readCopy f length kbuff hleft =>
    cases hn
    obtain rfl : kbuff.length = length := hL.length f length rfl kbuff (by simp [Pc.removed])
    exact ⟨kbuff, hL.removed, hleft, rfl, rfl⟩
  case writeCopy => cases hn

/-- It has lost nothing when nothing is left out. -/
theorem Lossless.iff_of_delivered {v : ℤ} {L : Ledger φ} {kbuff : List Byte} {left : ℕ}
    (hrem : L.removed = [kbuff]) (hleft : left ≤ kbuff.length) (hv : v = kbuff.length - left)
    (hout : L.copiedOut = some (kbuff.take (kbuff.length - left))) :
    Lossless v L ↔ left = 0 := by
  have hflat : L.removed.flatten = kbuff := by simp [hrem]
  constructor
  · intro h
    have hret := h.returned
    rw [hflat, hv] at hret
    omega
  · rintro rfl
    refine ⟨by simp [hflat, hv], by simp [hflat, hout], fun hzero ↦ ?_⟩
    rw [hflat]
    exact List.length_eq_zero_iff.mp (by omega)

section

variable [Fintype ι] [DecidableEq ι] [DecidableEq φ]

/-- What a read has taken and what it delivers, when it returns from `copy_to_user`. -/
theorem delivered_of_run {P : State ι φ → Label ι φ → Prop} {tr : List (Label ι φ)}
    {s t : State ι φ} {p : ι} {left : ℕ} {evs : List (Event φ)} {v : ℤ}
    (h : (fifo ι φ).Run P tr s) (hst : (fifo ι φ).Step s ⟨⟨p, .act (.copy left)⟩, evs⟩ t)
    (hret : Event.ret .fifoRead v ∈ evs) :
    ∃ kbuff, (ledger p (tr ++ [⟨⟨p, .act (.copy left)⟩, evs⟩])).removed = [kbuff] ∧
      left ≤ kbuff.length ∧ v = kbuff.length - left ∧
      (ledger p (tr ++ [⟨⟨p, .act (.copy left)⟩, evs⟩])).copiedOut =
        some (kbuff.take (kbuff.length - left)) := by
  rw [ledger_snoc, if_pos rfl]
  rcases step_cases hst with ⟨c, files, pc, hc, -, -, -, -⟩ | ⟨a, o, ha, hf, -, hout⟩
  · cases hc
  · cases ha
    dsimp only at hf hout ⊢
    rw [hout, List.mem_append] at hret
    obtain ⟨f, w, hn, heq⟩ := Next.mem_event.mp (hret.resolve_left hf.ret_notMem)
    obtain ⟨rfl, rfl⟩ : .fifoRead = f ∧ v = w := by simpa using heq
    simpa [hout, hn, Next.event, Ledger.record] using
      hf.delivered (recorded_of_run h hf.ne_idle) hn

/-- **When a read loses nothing.**  In every run, when a read returns from a `copy_to_user`
that leaves out the last `left` bytes: what it took out of the buffer is what it returns and
what the user has got, and it is not mistaken for the end of file, if and only if nothing is
left out. -/
theorem lossless_iff {tr : List (Label ι φ)} {s t : State ι φ} {p : ι} {left : ℕ}
    {evs : List (Event φ)} {v : ℤ} (h : (fifo ι φ).Run anyStep tr s)
    (hst : (fifo ι φ).Step s ⟨⟨p, .act (.copy left)⟩, evs⟩ t)
    (hret : Event.ret .fifoRead v ∈ evs) :
    Lossless v (ledger p (tr ++ [⟨⟨p, .act (.copy left)⟩, evs⟩])) ↔ left = 0 := by
  obtain ⟨kbuff, hrem, hleft, hv, hout⟩ := delivered_of_run h hst hret
  exact Lossless.iff_of_delivered hrem hleft hv hout

/-- `copy_to_user` can leave out any number of bytes. -/
theorem step_readCopy {s : State ι φ} {p : ι} {kbuff : List Byte} {f : φ}
    {length left : ℕ} (hp : s.pc p = .fifoRead (.copy kbuff) f length) (hleft : left ≤ length) :
    ∃ t, (fifo ι φ).Step s ⟨⟨p, .act (.copy left)⟩,
      [.copyOut (kbuff.take (length - left)), .ret .fifoRead (length - left)]⟩ t := by
  have hrun : (s.pc p).run s.drv (.copy left) = some ⟨s.drv, .ret .fifoRead (length - left),
      [.copyOut (kbuff.take (length - left))]⟩ := by
    rw [hp]
    exact if_pos hleft
  exact ⟨_, by simp only [fifo, LTS.ofStep, step, hrun]; rfl⟩

end

/-- Process 1 has written a byte, and process 0, which has read it, is about to copy it to its
user. -/
theorem exists_read_copy : ∃ (tr : List (Label (Fin 2) (Fin 2))) (s : State (Fin 2) (Fin 2)),
    (fifo (Fin 2) (Fin 2)).Run anyStep tr s ∧ s.pc 0 = .fifoRead (.copy [7]) 0 1 := by
  obtain ⟨tr, s, hr, hg⟩ := exists_run (ι := Fin 2) (φ := Fin 2) anyStep
    (meeting ++ gos 4 0 ++ writing 1 [7] ++ gos 2 1 ++ call 0 (.fifoRead 0 1) :: gos 5 0)
    (fun s ↦ s.pc 0 = .fifoRead (.copy [7]) 0 1) (by decide +kernel)
  exact ⟨tr, s, hr, of_decide_eq_true hg⟩

/-- Without a fault, it loses nothing. -/
theorem lossless_iff_meeting :
    ∃ (tr : List (Label (Fin 2) (Fin 2))) (s t : State (Fin 2) (Fin 2)),
      (fifo (Fin 2) (Fin 2)).Run anyStep tr s ∧
        (fifo (Fin 2) (Fin 2)).Step s
          ⟨⟨0, .act (.copy 0)⟩, [.copyOut [7], .ret .fifoRead 1]⟩ t ∧
        (Lossless 1 (ledger 0 (tr ++
          [⟨⟨0, .act (.copy 0)⟩, [.copyOut [7], .ret .fifoRead 1]⟩])) ↔ 0 = 0) := by
  obtain ⟨tr, s, hr, hp⟩ := exists_read_copy
  obtain ⟨t, hst⟩ := step_readCopy hp (Nat.zero_le 1)
  exact ⟨tr, s, t, hr, hst, lossless_iff hr hst (by simp)⟩

/-- **A byte is lost**, and the reader is told that there is none. -/
theorem exists_lost_byte :
    ∃ (tr : List (Label (Fin 2) (Fin 2))) (s t : State (Fin 2) (Fin 2)) (evs : List (Event (Fin 2))),
      (fifo (Fin 2) (Fin 2)).Run anyStep tr s ∧
        (fifo (Fin 2) (Fin 2)).Step s ⟨⟨0, .act (.copy 1)⟩, evs⟩ t ∧
        Event.ret .fifoRead 0 ∈ evs ∧
        (ledger 0 (tr ++ [⟨⟨0, .act (.copy 1)⟩, evs⟩])).removed = [[7]] := by
  obtain ⟨tr, s, hr, hp⟩ := exists_read_copy
  obtain ⟨t, hst⟩ := step_readCopy hp (Nat.le_refl 1)
  refine ⟨tr, s, t, _, hr, hst, by simp, ?_⟩
  have hrec := (recorded_of_run hr (p := 0) (by simp [hp])).removed
  rw [ledger_snoc, if_pos rfl]
  simpa [Ledger.record, hp, Pc.removed] using hrec

end DsoFifo.Fifo
