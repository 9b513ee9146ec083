import Mathlib.Algebra.Order.BigOperators.Group.Finset
import DsoFifo.Fifo.Undisturbed
import DsoFifo.DumpUtmp.Delivery

/-!
# What is done in the end

Processes send and receive, and this file is about where that ends.

* No process runs forever: a run has at most as many steps as the records and the processes
  allow (`programs_end`).  The driver takes a bounded number of steps for each call, and every
  `read` but the last one returns a record, of which there are not more than have been sent.
* If one process sends, another one receives, and nobody disturbs them, then in the end the sender
  has sent its file without an error (`transfer_done`).  The receiver may have been left behind.
  `fifo_release` of a producer wakes nobody, so that a receiver that waits for the next record
  when the last producer closes goes on waiting.  And a receiver that is woken in `fifo_open` may
  find that the sender has come, written everything and gone; then it waits for another one, with
  the records in the buffer.  Both happen (`exists_left_in_read`, `exists_left_in_open`).

In a state where nobody can do anything (`Stuck`) whoever is in the driver is asleep, and the
condition it waits for is false, since no signal is lost.
-/

namespace DsoFifo.DumpUtmp

open DsoFifo.C DsoFifo.Fifo DsoFifo.LTS DsoFifo.Pool Function

variable {ι φ : Type} [DecidableEq φ] {size : ℕ}

/-! ## One step -/

/-- A program goes on with what a call returns, and fails only if that is negative. -/
theorem next_ret (hsize : 0 < size) {k : Program φ} {files : φ → Option Side} {f : Fn} {v : ℤ}
    (hat : At size files k (.returning f v)) (hv : 0 ≤ v) :
    ∃ k', next size k (.ret f v) = some k' ∧ (k.failed = false → k'.failed = false) := by
  cases hat with
  | failed hneg => exact absurd hneg (not_lt.mpr hv)
  | @wrote h cur rest _ _ _ _ hor =>
      obtain rfl := hor.resolve_right (not_lt.mpr hv)
      exact ⟨.sendLoop h rest, by simp [next, hv.not_gt], fun _ ↦ rfl⟩
  | @haveRead h received printed _ _ _ hor =>
      rcases hor with rfl | hle
      · exact ⟨.receiveLoop h received (printed ++ [received]), by simp [next], fun _ ↦ rfl⟩
      · obtain rfl := le_antisymm hle hv
        have hne : (0 : ℤ) ≠ size := by omega
        exact ⟨.close h .cons 0 printed, by simp [next, hne], fun _ ↦ rfl⟩
  | released => exact ⟨_, rfl, id⟩

omit [DecidableEq φ] in
theorem of_fetched {k : Program φ} {files : φ → Option Side} {xs : List Byte}
    (h : At size files k (.fetched xs)) : ∃ g received printed,
      k = .read g received printed ∧ files g = some .cons ∧ xs.length = size := by
  cases h with
  | fetched hf hlen => exact ⟨_, _, _, rfl, hf, hlen⟩

omit [DecidableEq φ] in
theorem of_releasing {k : Program φ} {files : φ → Option Side} {m : Side}
    (h : At size files k (.releasing m)) : ∃ status printed, k = .closing m status printed := by
  cases h with
  | releasing => exact ⟨_, _, rfl⟩

omit [DecidableEq φ] in
theorem of_ready {k : Program φ} {files : φ → Option Side} {xs : List Byte}
    (h : At size files k (.ready xs)) : ∃ g rest, k = .write g xs rest ∧ xs.length = size := by
  cases h with
  | ready hrest => exact ⟨_, _, rfl, hrest _ List.mem_cons_self⟩

omit [DecidableEq φ] in
theorem of_attached {k : Program φ} {files : φ → Option Side} {g : φ} {m : Side}
    (h : At size files k (.attached g m)) : ∃ j : Job, k = .opening g j ∧ m = j.side := by
  cases h with
  | attached => exact ⟨_, rfl, rfl⟩

omit [DecidableEq φ] in
theorem of_reading {k : Program φ} {files : φ → Option Side} {length : ℕ}
    (h : At size files k (.reading length)) :
    ∃ g received printed, k = .read g received printed ∧ length = size := by
  cases h with
  | reading => exact ⟨_, _, _, rfl, rfl⟩

/-- A program allows what it sees of a call that is not disturbed, and is not made to fail if
there are receivers whenever it writes. -/
theorem accepted (hsize : 0 < size) (hle : size ≤ bufLen) {d : Driver} {pc : Pc φ} {a : Act}
    {o : Outcome φ} (h : Fires d pc a o) (ha : a.plain) (hcalm : pc.calm = true) (hpc : pc.Sized)
    {k : Program φ} {files : φ → Option Side} (hat : At size files k pc.phase)
    (hcons : ∀ xs, pc.phase = .ready xs → d.num .cons ≠ 0) :
    ∃ k', ((o.events ++ o.next.event).filter Event.seen).foldlM (next size) k = some k' ∧
      (k.failed = false → k'.failed = false) := by
  have hone {k k' : Program φ} {e : Event φ} (hk : next size k e = some k') :
      [e].foldlM (next size) k = some k' := by simp [hk]
  cases h
  case openGet f m =>
    obtain ⟨j, rfl, rfl⟩ : ∃ j : Job, k = .opening f j ∧ m = j.side := by
      generalize hph : (Pc.fifoOpen .get f m).phase = ph at hat
      cases hat <;> cases hph
      exact ⟨_, rfl, rfl⟩
    exact ⟨j.begin f, hone rfl, fun _ ↦ by cases j <;> rfl⟩
  case releasePut =>
    obtain ⟨k', hk, hfailed⟩ := next_ret hsize hat le_rfl
    exact ⟨k', hone hk, hfailed⟩
  case writeUnlock =>
    obtain ⟨k', hk, hfailed⟩ := next_ret hsize hat (Int.natCast_nonneg _)
    exact ⟨k', hone hk, hfailed⟩
  case readTooLong hlt =>
    generalize hph : Pc.phase _ = ph at hat
    cases hat <;> cases hph
    exact absurd hle (Nat.not_le.mpr hlt)
  case readEof =>
    generalize hph : Pc.phase _ = ph at hat
    cases hat <;> cases hph
    case reading hf =>
      obtain ⟨k', hk, hfailed⟩ := next_ret hsize (.haveRead hf (.inr le_rfl)) le_rfl
      exact ⟨k', hone hk, hfailed⟩
  case readCopy f length kbuff left _ =>
    obtain rfl : left = 0 := by rcases ha with ha | ha <;> cases ha; rfl
    obtain ⟨g, received, printed, rfl, hf, hlen⟩ := of_fetched hat
    obtain rfl : kbuff.length = length := hpc
    have hread : At size files (.read g kbuff printed) (.returning .fifoRead kbuff.length) :=
      .haveRead hf (.inl (by rw [hlen]))
    obtain ⟨k', hk, hfailed⟩ := next_ret hsize hread (Int.natCast_nonneg _)
    have hcopy : next size (.read g received printed) (.copyOut kbuff) =
        some (.read g kbuff printed) := by simp [next, hlen]
    refine ⟨k', ?_, fun _ ↦ hfailed rfl⟩
    simp only [Next.event, Nat.sub_zero, List.take_length, Nat.cast_zero, sub_zero]
    change [Event.copyOut kbuff, .ret .fifoRead kbuff.length].foldlM (next size) _ = some k'
    rw [List.foldlM_cons, hcopy]
    exact hone hk
  case writeTooLong hlt =>
    generalize hph : Pc.phase _ = ph at hat
    cases hat <;> cases hph
    case writing hf hrest =>
      exact absurd ((hrest _ List.mem_cons_self).trans_le hle) (Nat.not_le.mpr hlt)
  case writeCopy left _ =>
    obtain rfl : left = 0 := by rcases ha with ha | ha <;> cases ha; rfl
    generalize hph : Pc.phase _ = ph at hat
    cases hat <;> cases hph
    exact ⟨_, hone (by simp [next]), id⟩
  case writeEpipe hloc hz =>
    rcases hloc with rfl | rfl <;> exact absurd hz (hcons _ rfl)
  case openIntr | releaseIntr | readIntr | writeIntr | sleepIntr | relockIntr | readNomem
    | writeNomem => rcases ha with ha | ha <;> cases ha
  case undo | intrDec => cases hcalm
  all_goals exact ⟨k, rfl, id⟩

theorem next_of_foldlM {k k' : Program φ} {c : Fifo.Call φ}
    (h : ([Event.call c].filter Event.seen).foldlM (next size) k = some k') :
    next size k (.call c) = some k' := by
  change [Event.call c].foldlM (next size) k = some k' at h
  simpa using h

/-- A program calls the driver on its file, and does not fail by that. -/
theorem of_next_call {k k' : Program φ} {c : Fifo.Call φ} (h : next size k (.call c) = some k') :
    k.file = some c.file ∧ k'.failed = k.failed := by
  cases k with
  | sendLoop f rest =>
      cases rest with
      | nil | cons =>
          obtain ⟨rfl, hk⟩ := Option.ite_none_right_eq_some.mp h
          cases hk
          exact ⟨rfl, rfl⟩
  | start | receiveLoop | close =>
      obtain ⟨rfl, hk⟩ := Option.ite_none_right_eq_some.mp h
      cases hk
      exact ⟨rfl, rfl⟩
  | _ => cases h

/-! ## The calls that are left -/

/-- The calls behind `open`, but for the reads that return a record. -/
def Job.calls : Job → ℕ
  | .send utmpBuf => utmpBuf.length + 1
  | .receive _ => 2

/-- The calls that a program still makes, but for the reads that return a record. -/
def Program.calls : Program φ → ℕ
  | .other | .closing _ _ _ | .exited _ _ _ => 0
  | .start _ j => j.calls + 1
  | .opening _ j => j.calls
  | .sendLoop _ rest | .write _ _ rest => rest.length + 1
  | .receiveLoop _ _ _ => 2
  | .read _ _ _ | .close _ _ _ _ => 1

omit [DecidableEq φ] in
@[simp] theorem calls_begin (f : φ) (j : Job) : (j.begin f).calls = j.calls := by cases j <;> rfl

omit [DecidableEq φ] in
@[simp] theorem printed_begin (f : φ) (j : Job) : (j.begin f).printed = [] := by cases j <;> rfl

/-- How many calls are among these events. -/
def calls (evs : List (Fifo.Event φ)) : ℕ := evs.countP fun
  | .call _ => true
  | _ => false

omit [DecidableEq φ] in
theorem calls_cons (e : Fifo.Event φ) (evs : List (Fifo.Event φ)) :
    calls (e :: evs) = calls [e] + calls evs := by
  rw [calls, ← List.singleton_append, List.countP_append]
  rfl

/-- Each line of the program text accounts for its call: it is one of those that are left, or it is
a read that returns a record. -/
theorem calls_next {k k' : Program φ} {e : Fifo.Event φ} (h : next size k e = some k') :
    k'.calls + calls [e] + k.printed.length ≤ k.calls + k'.printed.length := by
  -- one case for each line of the program text
  unfold next at h
  split at h
  all_goals repeat' split at h
  all_goals cases h
  case h_2.isFalse =>
    rw [calls_begin, printed_begin]
    simp [Program.calls, Program.printed, calls]
  case h_9.isTrue =>
    simp [Program.calls, Program.printed, calls]
    omega
  all_goals simp [Program.calls, Program.printed, calls]

theorem calls_foldlM {k k' : Program φ} {evs : List (Fifo.Event φ)}
    (h : evs.foldlM (next size) k = some k') :
    k'.calls + calls evs + k.printed.length ≤ k.calls + k'.printed.length := by
  induction evs generalizing k with
  | nil =>
      cases h
      exact le_rfl
  | cons e evs ih =>
      rw [List.foldlM_cons] at h
      obtain ⟨k₁, hk, h⟩ := Option.bind_eq_some_iff.mp h
      have hone := calls_next hk
      have hrest := ih h
      rw [calls_cons]
      omega

/-! ## All processes -/

section

variable [Fintype ι] [DecidableEq ι] {file : ι → φ} {jobs : ι → Option Job}
  {tr : List (Label ι φ)} {s t : State ι φ} {k k' : ι → Program φ} {l : Label ι φ}

/-- The driver with the programs. -/
abbrev system (ι : Type) [Fintype ι] [DecidableEq ι] (size : ℕ) (file : ι → φ)
    (jobs : ι → Option Job) : LTS (State ι φ × (ι → Program φ)) (Label ι φ) :=
  (fifo ι φ).serving view (next size) (load file jobs)

/-- A step of the driver with the programs. -/
theorem system_step_iff : (system ι size file jobs).Step (s, k) l (t, k') ↔
    (fifo ι φ).Step s l t ∧ ∃ k₁, (l.output.filter Event.seen).foldlM (next size) (k l.input.proc) =
      some k₁ ∧ k' = update k l.input.proc k₁ := by
  refine and_congr_right fun _ ↦ ?_
  dsimp only
  rw [view, observe_map, Option.map_eq_some_iff]
  exact exists_congr fun _ ↦ and_congr_right fun _ ↦ eq_comm

/-- Every program is where a program can be, and has its own file. -/
theorem at_of_run (hsize : 0 < size) (hfile : Injective file)
    (hjobs : ∀ p j, jobs p = some j → j.Sized size)
    (h : (system ι size file jobs).Run anyStep tr (s, k)) (p : ι) :
    At size s.files (k p) (s.pc p).phase ∧ ∀ f, (k p).file = some f → f = file p := by
  obtain ⟨ops, hops⟩ := exists_pipeSystem_run h
  exact placed_of_run hsize hfile hjobs hops p

/-- A process uses its own file. -/
theorem file_of_run (hsize : 0 < size) (hfile : Injective file)
    (hjobs : ∀ p j, jobs p = some j → j.Sized size)
    (h : (system ι size file jobs).Run anyStep tr (s, k)) {p : ι} {f : φ}
    (hf : (s.pc p).file = some f) : f = file p := by
  refine Run.induction (J := fun (_ : List (Label ι φ)) (s : State ι φ × (ι → Program φ)) ↦
    ∀ p f, (s.1.pc p).file = some f → f = file p) ?_ ?_ h p f hf
  · rintro ⟨s, k⟩ ⟨⟨data, -, rfl⟩, -⟩ p f hf
    cases hf
  · rintro tr ⟨s, k⟩ l ⟨t, k'⟩ hr ih - hst p f hf
    obtain ⟨hst, k₁, hk, -⟩ := system_step_iff.mp hst
    by_cases hp : p = l.input.proc
    · subst hp
      rcases step_cases hst with ⟨c, files, pc, -, -, he, rfl, hout⟩ | ⟨a, o, -, hfires, rfl, -⟩
      · rw [hout] at hk
        simp only [update_self, he.file_eq] at hf
        obtain rfl := Option.some.inj hf
        exact (at_of_run hsize hfile hjobs hr _).2 _ (of_next_call (next_of_foldlM hk)).1
      · simp only [update_self] at hf
        rcases hfires.file with hidle | ⟨hsame, -⟩
        · rw [hidle] at hf
          cases hf
        · exact ih _ f (hsame ▸ hf)
    · rcases step_cases hst with ⟨c, files, pc, -, -, he, rfl, hout⟩ | ⟨a, o, -, hfires, rfl, -⟩ <;>
      · simp only [update_of_ne hp] at hf
        exact ih p f hf

/-! ### Everybody comes to an end -/

/-- No process can do anything but be disturbed. -/
def Stuck (size : ℕ) (file : ι → φ) (jobs : ι → Option Job)
    (s : State ι φ × (ι → Program φ)) : Prop :=
  ∀ l t, Undisturbed s.1 l → ¬(system ι size file jobs).Step s l t

/-- Where everybody has ended or is asleep nobody can do anything. -/
theorem stuck_of_forall (h : ∀ r, (s.pc r = .idle ∧ ∃ m status printed,
    k r = .exited m status printed) ∨ (s.pc r).Sunk s.drv) : Stuck size file jobs (s, k) := by
  rintro l ⟨t, k'⟩ hplain hst
  obtain ⟨hst, k₁, hk, -⟩ := system_step_iff.mp hst
  rcases step_cases hst with ⟨c, files, pc, -, hidle, -, -, hout⟩ | ⟨a, o, ha, hf, -⟩
  · rcases h l.input.proc with ⟨-, m, status, printed, hexit⟩ | ⟨w, hw, -⟩
    · rw [hout, hexit] at hk
      cases next_of_foldlM hk
    · rw [hidle] at hw
      cases hw
  · rcases h l.input.proc with ⟨hidle, -⟩ | ⟨w, hw, hcola⟩
    · exact hf.ne_idle hidle
    · rw [hw] at hf
      cases hf with
      | take hpos => exact hpos.ne' hcola
      | sleepIntr => rcases hplain _ ha with ha | ha <;> cases ha

theorem calls_step (h : (system ι size file jobs).Step (s, k) l (t, k')) :
    ∑ p, (k' p).calls + l.input.choice.isCall.toNat + ∑ p, (k p).printed.length ≤
      ∑ p, (k p).calls + ∑ p, (k' p).printed.length := by
  obtain ⟨hst, k₁, hk, rfl⟩ := system_step_iff.mp h
  have hcall : l.input.choice.isCall.toNat ≤ calls (l.output.filter Event.seen) := by
    rcases step_cases hst with ⟨c, files, pc, hc, -, -, -, hout⟩ | ⟨a, o, ha, -⟩
    · rw [hc, hout]
      exact le_rfl
    · rw [ha]
      exact Nat.zero_le _
  have hle := calls_foldlM hk
  rw [sum_update Program.calls, sum_update fun k : Program φ ↦ k.printed.length,
    ← Finset.add_sum_erase _ (fun p ↦ (k p).calls) (Finset.mem_univ l.input.proc),
    ← Finset.add_sum_erase _ (fun p ↦ (k p).printed.length) (Finset.mem_univ l.input.proc)]
  omega

/-- The calls of a run are those that are planned at its beginning, and the reads of records. -/
theorem countP_isCall_le {P : State ι φ × (ι → Program φ) → Label ι φ → Prop}
    (h : (system ι size file jobs).Run P tr (s, k)) :
    (tr.countP fun l ↦ l.input.choice.isCall) + ∑ p, (k p).calls ≤
      ∑ p, (load file jobs p).calls + ∑ p, (k p).printed.length := by
  refine Run.induction (J := fun (tr : List (Label ι φ)) (s : State ι φ × (ι → Program φ)) ↦
    (tr.countP fun l ↦ l.input.choice.isCall) + ∑ p, (s.2 p).calls ≤
      ∑ p, (load file jobs p).calls + ∑ p, (s.2 p).printed.length) ?_ ?_ h
  · rintro ⟨s, k⟩ ⟨-, rfl⟩
    exact (Nat.add_comm ..).trans_le (Nat.le_add_right _ _)
  · rintro tr ⟨s, k⟩ l ⟨t, k'⟩ hr ih - hst
    have hle := calls_step hst
    dsimp only at ih ⊢
    rw [List.countP_append, Run.countP_singleton_toNat]
    omega

/-- Nothing is printed twice, so that the receivers print at most as many records as there are. -/
theorem sum_printed_le (hsize : 0 < size) (hfile : Injective file)
    (hjobs : ∀ p j, jobs p = some j → j.Sized size)
    (h : (system ι size file jobs).Run anyStep tr (s, k)) :
    ∑ p, (k p).printed.length ≤ ∑ p, (recordsOf jobs p).length := by
  obtain ⟨moves, hr⟩ := exists_crew_run hsize hfile hjobs h
  obtain ⟨queue, -, -, hle⟩ := conserved_of_run hsize hr
  have hcard := Multiset.card_le_card ((Multiset.le_add_right _ _).trans hle)
  rw [Multiset.card_sum, Multiset.card_sum] at hcard
  refine (Finset.sum_le_sum fun p _ ↦ ?_).trans hcard
  simp only [Client.records, Client.got, Multiset.coe_card, List.length_append]
  omega

omit [DecidableEq φ] [DecidableEq ι] in
theorem sum_calls_load_le : ∑ p, (load file jobs p).calls ≤
    ∑ p, (recordsOf jobs p).length + 3 * Fintype.card ι := by
  calc ∑ p, (load file jobs p).calls
    _ ≤ ∑ p, ((recordsOf jobs p).length + 3) := Finset.sum_le_sum fun p _ ↦ by
      dsimp only [load, recordsOf]
      cases jobs p with
      | none => exact Nat.zero_le _
      | some j => cases j <;> simp [Program.calls, Job.calls, Job.records]
    _ = ∑ p, (recordsOf jobs p).length + 3 * Fintype.card ι := by
      rw [Finset.sum_add_distrib, Finset.sum_const_nat fun _ _ ↦ rfl, Finset.card_univ,
        Nat.mul_comm]

/-- A run is not longer than the records and the processes allow. -/
theorem length_le_of_run (hsize : 0 < size) (hfile : Injective file)
    (hjobs : ∀ p j, jobs p = some j → j.Sized size)
    (h : (system ι size file jobs).Run (fun s l ↦ Unraced s.1 l) tr (s, k)) :
    tr.length ≤ (4 * Fintype.card ι + 10) *
      (2 * ∑ p, (recordsOf jobs p).length + 3 * Fintype.card ι) := by
  have hcalls := countP_isCall_le h
  have hprinted := sum_printed_le hsize hfile hjobs h.free
  have hload : ∑ p, (load file jobs p).calls ≤ _ := sum_calls_load_le
  obtain ⟨s₀, h₀, hpath⟩ := ((serving_run_iff (P := Unraced)).mp h).1
  have hlength := length_add_cost_le (.init h₀) hpath
  rw [cost_of_init h₀, Nat.zero_add] at hlength
  calc tr.length
    _ ≤ (4 * Fintype.card ι + 10) * tr.countP fun l ↦ l.input.choice.isCall :=
      (Nat.le_add_right _ _).trans hlength
    _ ≤ _ := Nat.mul_le_mul_left _ (by omega)

theorem unraced_of_system_run
    (h : (system ι size file jobs).Run (fun s l ↦ Undisturbed s.1 l) tr (s, k)) :
    (system ι size file jobs).Run (fun s l ↦ Unraced s.1 l) tr (s, k) := by
  obtain ⟨hr, hobs⟩ := (serving_run_iff (P := Undisturbed)).mp h
  exact (serving_run_iff (P := Unraced)).mpr ⟨unraced_of_run hr, hobs⟩

/-- Undisturbed, the processes come to an end. -/
theorem exists_stuck (hsize : 0 < size) (hfile : Injective file)
    (hjobs : ∀ p j, jobs p = some j → j.Sized size)
    (h : (system ι size file jobs).Run (fun s l ↦ Undisturbed s.1 l) tr (s, k)) :
    ∃ tr' t, (system ι size file jobs).Path (fun s l ↦ Undisturbed s.1 l) (s, k) tr' t ∧
      Stuck size file jobs t :=
  Run.exists_stuck (fun _ _ hr ↦ length_le_of_run hsize hfile hjobs (unraced_of_system_run hr)) h

/-- **No process runs forever.**  Any number of processes send and receive.  A run in which the
counters of the queues count sleepers has at most as many steps as the records and the processes
allow; if nobody is disturbed, it goes on to where nobody can. -/
theorem programs_end (hsize : 0 < size) (hfile : Injective file)
    (hjobs : ∀ p j, jobs p = some j → j.Sized size)
    (h : (system ι size file jobs).Run (fun s l ↦ Unraced s.1 l) tr (s, k)) :
    tr.length ≤ (4 * Fintype.card ι + 10) *
        (2 * ∑ p, (recordsOf jobs p).length + 3 * Fintype.card ι) ∧
      ((system ι size file jobs).Run (fun s l ↦ Undisturbed s.1 l) tr (s, k) →
        ∃ tr' t, (system ι size file jobs).Path (fun s l ↦ Undisturbed s.1 l) (s, k) tr' t ∧
          Stuck size file jobs t) :=
  ⟨length_le_of_run hsize hfile hjobs h, exists_stuck hsize hfile hjobs⟩

theorem transfer_start {P : State (Fin 2) (Fin 2) × (Fin 2 → Program (Fin 2)) →
    Label (Fin 2) (Fin 2) → Prop} :
    (system (Fin 2) 2 id transferJobs).Run P [] (fresh, load id transferJobs) :=
  .init ⟨⟨List.replicate bufLen 0, List.length_replicate, rfl⟩, rfl⟩

theorem programs_end_example : ∃ tr t,
    (system (Fin 2) 2 id transferJobs).Path (fun s l ↦ Undisturbed s.1 l)
      (fresh, load id transferJobs) tr t ∧ Stuck 2 id transferJobs t :=
  (programs_end (by decide) injective_id transferJobs_sized transfer_start).2 transfer_start

/-! ### A pair -/

/-- The counter of a side is not zero while somebody is inside and nobody leaves. -/
theorem num_ne_zero_of_inside {moves : List ι}
    (hr : (crew size (load file jobs)).Run anyStep moves
      (s.pipe.1, fun r ↦ (k r, (s.pc r).phase))) {r : ι} {x : Side}
    (hside : (k r).side = some x) (hin : Client.inside (k r, (s.pc r).phase) = true)
    (hdetaching : ∀ r, (s.pc r).detaching x = false) : s.drv.num x ≠ 0 := by
  intro hzero
  have hends : s.pipe.1.ends x = 0 := by
    simp [State.pipe, Driver.pipe, hzero, count_eq_zero.mpr hdetaching]
  have hout : Client.inside (k r, (s.pc r).phase) = false :=
    inside_eq_false (ends_of_run hr x).1 hends hside
  rw [hin] at hout
  cases hout

variable {p q : ι} {buf : List (List Byte)} {received : List Byte}

/-- The receiver is there as long as the sender is. -/
theorem num_cons_ne_zero (hsize : 0 < size) (hfile : Injective file)
    (hpair : Pair jobs p q buf received) (hbuf : Sized size buf)
    (h : (system ι size file jobs).Run anyStep tr (s, k)) (hfailed : ∀ r, (k r).failed = false)
    (hmet : Client.met (k p, (s.pc p).phase) = true)
    (hin : Client.inside (k p, (s.pc p).phase) = true) : s.drv.num .cons ≠ 0 := by
  have hat := at_of_run hsize hfile (hpair.sized hbuf) h
  obtain ⟨moves, hr⟩ := exists_crew_run hsize hfile (hpair.sized hbuf) h
  obtain ⟨taken, queue, ho⟩ := exists_ordered hsize hpair.receiver hr
  have hside (r : ι) : (k r).side = (jobs r).map Job.side := side_of_run hr r
  have hq : ¬Client.ended (k q, (s.pc q).phase) = true := by
    intro hended
    have hpast : Client.past (k p, (s.pc p).phase) = true := (hpair.last ho hside hended).1
    simp [Client.past, hin] at hpast
  replace hq := Bool.eq_false_of_not_eq_true hq
  -- the receiver has come, and it has not left
  obtain ⟨r, hcons, hcome⟩ := come_of_run hr hmet ((hside p).trans ((hpair.sender p).mpr rfl))
  obtain rfl := (hpair.receiver r).mp ((hside r).symm.trans hcons)
  have hinside := At.inside (c := (k r, (s.pc r).phase)) (hat r).1
    (fun f v ↦ Pc.nonneg_of_phase) (hfailed r) hcons hcome hq
  refine num_ne_zero_of_inside hr hcons hinside fun r' ↦ ?_
  by_contra hdet
  have hphase := Pc.phase_of_detaching (Bool.eq_true_of_not_eq_false hdet)
  have hat' := (hat r').1
  rw [hphase] at hat'
  obtain ⟨status, printed, hk⟩ := of_releasing hat'
  obtain rfl := (hpair.receiver r').mp ((hside r').symm.trans (by rw [hk]; rfl))
  have hstatus : status = 0 := by simpa [hk, Program.failed] using hfailed r'
  simp [hk, Client.ended, hstatus] at hq

/-- What a process does in the driver undisturbed, its program allows. -/
theorem accepted_of_run (hsize : 0 < size) (hle : size ≤ bufLen) (hfile : Injective file)
    (hpair : Pair jobs p q buf received) (hbuf : Sized size buf)
    (h : (system ι size file jobs).Run anyStep tr (s, k)) (hcalm : ∀ r, (s.pc r).calm = true)
    (hfailed : ∀ r, (k r).failed = false) {r : ι} {a : Act} {o : Outcome φ}
    (ha : a.plain) (ho : Fires s.drv (s.pc r) a o) :
    ∃ k', ((o.events ++ o.next.event).filter Event.seen).foldlM (next size) (k r) = some k' ∧
      k'.failed = false := by
  have hat := (at_of_run hsize hfile (hpair.sized hbuf) h r).1
  have hcons (xs : List Byte) (hxs : (s.pc r).phase = .ready xs) : s.drv.num .cons ≠ 0 := by
    rw [hxs] at hat
    obtain ⟨g, rest, hk, -⟩ := of_ready hat
    obtain ⟨moves, hr⟩ := exists_crew_run hsize hfile (hpair.sized hbuf) h
    have hside : (k r).side = (jobs r).map Job.side := side_of_run hr r
    obtain rfl := (hpair.sender r).mp (hside.symm.trans (by rw [hk]; rfl))
    exact num_cons_ne_zero hsize hfile hpair hbuf h hfailed (by rw [hk]; rfl) (by rw [hk]; rfl)
  obtain ⟨k', hk, hfailed'⟩ := accepted hsize hle ho ha (hcalm r)
    (sized_of_run ((serving_run_iff (P := anyStep)).mp h).1 r) hat hcons
  exact ⟨k', hk, hfailed' (hfailed r)⟩

/-- Undisturbed, no program fails. -/
theorem not_failed_of_run (hsize : 0 < size) (hle : size ≤ bufLen) (hfile : Injective file)
    (hpair : Pair jobs p q buf received) (hbuf : Sized size buf)
    (h : (system ι size file jobs).Run (fun s l ↦ Undisturbed s.1 l) tr (s, k)) (r : ι) :
    (k r).failed = false := by
  refine Run.induction (J := fun (_ : List (Label ι φ)) (s : State ι φ × (ι → Program φ)) ↦
    ∀ r, (s.2 r).failed = false) ?_ ?_ h r
  · rintro ⟨s, k⟩ ⟨-, rfl⟩ r
    dsimp only [load]
    cases jobs r <;> rfl
  · rintro tr ⟨s, k⟩ l ⟨t, k'⟩ hr ih hP hst r
    obtain ⟨hstep, k₁, hk, rfl⟩ := system_step_iff.mp hst
    by_cases hp : r = l.input.proc
    · subst hp
      simp only [update_self]
      rcases step_cases hstep with ⟨c, files, pc, -, -, he, rfl, hout⟩ | ⟨a, o, ha, hf, rfl, hout⟩
      · rw [hout] at hk
        exact (of_next_call (next_of_foldlM hk)).2.trans (ih _)
      · obtain ⟨k₂, hk₂, hfailed⟩ := accepted_of_run hsize hle hfile hpair hbuf hr.free
          (calm_of_run ((serving_run_iff (P := Undisturbed)).mp hr).1) ih (hP a ha) hf
        rw [hout, hk₂] at hk
        exact Option.some.inj hk ▸ hfailed
    · simpa only [update_of_ne hp] using ih r

omit [DecidableEq φ] in
/-- Whoever sleeps on a queue is of its side. -/
theorem side_of_sleeps {k : Program φ} {files : φ → Option Side} {pc : Pc φ}
    (hat : At size files k pc.phase) {x : Side} {f : Waiter φ → Bool}
    (h : pc.sleeps x f = true) : k.side = some x := by
  cases pc with
  | condWait loc w =>
      cases loc with
      | sleep =>
          have hx := of_decide_eq_true (Bool.and_eq_true_iff.mp h).1
          subst hx
          cases w with
          | fifoOpen g m =>
              change At size files k (.attached g m) at hat
              cases hat
              rfl
          | fifoRead g length =>
              change At size files k (.reading length) at hat
              cases hat
              rfl
          | fifoWrite g kbuff =>
              change At size files k (.ready kbuff) at hat
              cases hat
              rfl
      | _ => cases h
  | _ => cases h

omit [DecidableEq φ] in
/-- Whoever is asleep is attached. -/
theorem inside_of_asleep {k : Program φ} {files : φ → Option Side} {pc : Pc φ} {w : Waiter φ}
    (hat : At size files k pc.phase) (h : pc = .condWait .sleep w) :
    Client.inside (k, pc.phase) = true := by
  subst h
  cases w with
  | fifoOpen f m =>
      obtain ⟨j, rfl, rfl⟩ := of_attached hat
      rfl
  | fifoRead f length =>
      obtain ⟨g, received, printed, rfl, -⟩ := of_reading hat
      rfl
  | fifoWrite f kbuff =>
      obtain ⟨g, rest, rfl, -⟩ := of_ready hat
      rfl

omit [DecidableEq φ] in
theorem not_sleeps {pc : Pc φ} {x : Side} {f : Waiter φ → Bool} (h : pc.sleeps x f = true) :
    ¬pc.sleeps x (fun w ↦ !f w) = true := by
  unfold Pc.sleeps at h ⊢
  split at h
  · simp_all
  · cases h

omit [DecidableEq φ] in
theorem cola_pos {d : Driver} {pc : Pc φ} {o : Outcome φ} (h : Fires d pc .go o) {x : Side}
    {f : Waiter φ → Bool} (hsleeps : pc.sleeps x f = true) : 0 < d.cola x := by
  cases h
  case take w hcola =>
    obtain rfl := of_decide_eq_true (Bool.and_eq_true_iff.mp hsleeps).1
    exact hcola
  all_goals cases hsleeps

/-- No signal is stolen: each queue is used by one process. -/
theorem noTheft_run (hsize : 0 < size) (hfile : Injective file)
    (hpair : Pair jobs p q buf received) (hbuf : Sized size buf)
    (h : (system ι size file jobs).Run anyStep tr (s, k)) : (fifo ι φ).Run NoTheft tr s := by
  refine Run.induction (J := fun (tr : List (Label ι φ)) (s : State ι φ × (ι → Program φ)) ↦
    (fifo ι φ).Run NoTheft tr s.1) ?_ ?_ h
  · rintro ⟨s, k⟩ ⟨hs, -⟩
    exact .init hs
  · rintro tr ⟨s, k⟩ l ⟨t, k'⟩ hr ih - ⟨hst, -⟩
    refine ih.snoc (fun x hgo hsleeps ↦ ?_) hst
    have hat := at_of_run hsize hfile (hpair.sized hbuf) hr
    obtain ⟨moves, hcrew⟩ := exists_crew_run hsize hfile (hpair.sized hbuf) hr
    have hside (r : ι) {f : Waiter φ → Bool} (hr : (s.pc r).sleeps x f = true) :
        (jobs r).map Job.side = some x :=
      (side_of_run hcrew r).symm.trans (side_of_sleeps (hat r).1 hr)
    have hnobody : sleepers x (served s.drv) s = 0 := count_eq_zero.mpr fun r ↦ by
      by_contra hr
      replace hr := Bool.eq_true_of_not_eq_false hr
      obtain rfl := hpair.unique (hside r hr) (hside _ hsleeps)
      exact not_sleeps hr hsleeps
    have hcola : 0 < s.drv.cola x := by
      rcases step_cases hst with ⟨c, files, pc, hcall, -⟩ | ⟨a, o, ha, hf, -⟩
      · rw [hgo] at hcall
        cases hcall
      · rw [hgo] at ha
        cases ha
        exact cola_pos hf hsleeps
    rw [hnobody]
    exact hcola.trans_le (Nat.le_add_right ..)

variable {s : State ι φ} {k : ι → Program φ}

theorem step_call {c : Fifo.Call φ} {files : φ → Option Side} {pc : Pc φ} {r : ι}
    (hidle : s.pc r = .idle) (h : s.enter c = some (files, pc)) :
    (fifo ι φ).Step s ⟨call r c, [.call c]⟩ ⟨s.drv, files, update s.pc r pc⟩ := by
  simp only [fifo, LTS.ofStep, step, call, hidle, h]
  rfl

omit [DecidableEq ι] in
theorem enter_release {f : φ} {m : Side} (hf : s.files f = some m) (hunused : s.Unused f) :
    s.enter (.fifoRelease f) = some (update s.files f none, .fifoRelease .lock f m) := by
  simp [State.enter, hf, hunused]

/-- No program is left that has not ended. -/
theorem Stuck.exited (hsize : 0 < size) (hfile : Injective file)
    (hjobs : ∀ p j, jobs p = some j → j.Sized size)
    (h : (system ι size file jobs).Run anyStep tr (s, k))
    (hstuck : Stuck size file jobs (s, k)) {r : ι} (hidle : s.pc r = .idle) :
    k r = .other ∨ ∃ m status printed, k r = .exited m status printed := by
  have hplaced := at_of_run hsize hfile hjobs h r
  have hat : At size s.files (k r) .idle := by
    have hat := hplaced.1
    rwa [hidle] at hat
  have hunused {f : φ} (hf : (k r).file = some f) : s.Unused f := by
    intro r' hr'
    obtain rfl := hfile ((file_of_run hsize hfile hjobs h hr').symm.trans (hplaced.2 f hf))
    rw [hidle] at hr'
    cases hr'
  -- otherwise the program calls
  have hcall {c : Fifo.Call φ} {files : φ → Option Side} {pc : Pc φ} {k₁ : Program φ}
      (hnext : next size (k r) (.call c) = some k₁) (henter : s.enter c = some (files, pc)) :
      False := by
    refine hstuck ⟨call r c, [.call c]⟩ (⟨s.drv, files, update s.pc r pc⟩, update k r k₁)
      (fun a ha ↦ by cases ha) ?_
    refine system_step_iff.mpr ⟨step_call hidle henter, k₁, ?_, rfl⟩
    change [Event.call c].foldlM (next size) (k r) = some k₁
    simpa using hnext
  generalize hk : k r = k₀ at hat hcall hunused
  cases hat with
  | other => exact .inl rfl
  | exited => exact .inr ⟨_, _, _, rfl⟩
  | start _ hf => exact (hcall (if_pos rfl) (if_pos ⟨hf, hunused rfl⟩)).elim
  | @sendLoop f rest _ hf =>
      cases rest with
      | nil => exact (hcall (if_pos rfl) (enter_release hf (hunused rfl))).elim
      | cons cur rest => exact (hcall (if_pos rfl) (if_pos (by simp [hf]))).elim
  | receiveLoop hf => exact (hcall (if_pos rfl) (if_pos (by simp [hf]))).elim
  | close hf => exact (hcall (if_pos rfl) (enter_release hf (hunused rfl))).elim

omit [Fintype ι] [DecidableEq φ] in
/-- While the receiver waits for a record, nothing is left in the pipe. -/
theorem Ordered.queue_eq_nil {cs : ι → Client φ} {w : Pipe φ} {taken queue : List (ι × List Byte)}
    (ho : Ordered size jobs q w cs taken queue) (hin : (cs q).inside = true)
    (hlt : w.content.length < size) : queue = [] := by
  have hq : (cs q).past = false := by simp [Client.past, hin]
  rw [ho.content hq] at hlt
  exact List.map_eq_nil_iff.mp (eq_nil_of_length_flatten_lt ho.sized hlt)

section

variable (hsize : 0 < size) (hle : size ≤ bufLen) (hfile : Injective file)
  (hpair : Pair jobs p q buf received) (hbuf : Sized size buf)
  (h : (system ι size file jobs).Run (fun s l ↦ Undisturbed s.1 l) tr (s, k))
  (hstuck : Stuck size file jobs (s, k))

include hsize hle hfile hpair hbuf h hstuck

/-- Nobody is left in the driver but the sleepers. -/
theorem Stuck.rests {r : ι} (hidle : s.pc r ≠ .idle) : (s.pc r).Sunk s.drv := by
  have hr := ((serving_run_iff (P := Undisturbed)).mp h).1
  by_contra hsunk
  obtain ⟨r', a, o, ha, ho⟩ := exists_run_of_not_sunk hr hidle hsunk
  obtain ⟨k₁, hk, -⟩ := accepted_of_run hsize hle hfile hpair hbuf h.free (calm_of_run hr)
    (not_failed_of_run hsize hle hfile hpair hbuf h) ha (fires_of_run ho)
  refine hstuck ⟨⟨r', .act a⟩, (s.put r' o).2⟩ ((s.put r' o).1, update k r' k₁) ?_ ?_
  · intro a' ha'
    cases ha'
    exact ha
  · exact system_step_iff.mpr ⟨step_act ho, k₁, hk, rfl⟩

theorem Stuck.free (r : ι) : (s.pc r).holds = false := by
  by_cases hidle : s.pc r = .idle
  · rw [hidle]
    rfl
  · obtain ⟨w, hw, -⟩ := hstuck.rests hsize hle hfile hpair hbuf h hidle
    rw [hw]
    rfl

/-- What a sleeper of a stuck system waits for is not there. -/
theorem Stuck.not_served {r : ι} {w : Waiter φ} (hr : s.pc r = .condWait .sleep w)
    (hcola : s.drv.cola w.queue = 0) : served s.drv w = false :=
  (provided_served (noTheft_run hsize hfile hpair hbuf h.free) w.queue).not_able
    (hstuck.free hsize hle hfile hpair hbuf h) hcola hr rfl

/-- In a stuck system a side has its counter for whoever is inside. -/
theorem Stuck.num_ne_zero {r : ι} {x : Side} (hside : (k r).side = some x)
    (hin : Client.inside (k r, (s.pc r).phase) = true) : s.drv.num x ≠ 0 := by
  obtain ⟨moves, hr⟩ := exists_crew_run hsize hfile (hpair.sized hbuf) h.free
  refine num_ne_zero_of_inside hr hside hin fun r' ↦ ?_
  have hfree := hstuck.free hsize hle hfile hpair hbuf h r'
  exact Bool.eq_false_of_not_eq_true (mt Pc.holds_of_detaching (by simp [hfree]))

/-- A program that is not in the driver has ended without an error. -/
theorem Stuck.exited_zero {r : ι} {x : Side} (hside : (k r).side = some x)
    (hidle : s.pc r = .idle) : ∃ printed, k r = .exited x 0 printed := by
  have hfailed := not_failed_of_run hsize hle hfile hpair hbuf h r
  rcases hstuck.exited hsize hfile (hpair.sized hbuf) h.free hidle with
    hother | ⟨m, status, printed, hk⟩
  · rw [hother] at hside
    cases hside
  · rw [hk] at hside hfailed
    obtain rfl := Option.some.inj hside
    have hstatus : status = 0 := by simpa [Program.failed] using hfailed
    exact ⟨printed, hstatus ▸ hk⟩

/-- Where the receiver is when nobody can go on. -/
theorem Stuck.receiver :
    (∃ printed, k q = .exited .cons 0 printed) ∨
      (s.pc q = .condWait .sleep (.fifoRead (file q) size) ∧
        (∃ g received printed, k q = .read g received printed) ∧
        s.drv.cbuffer.content.length < size) ∨
      (s.pc q = .condWait .sleep (.fifoOpen (file q) .cons) ∧ (∃ g j, k q = .opening g j) ∧
        s.drv.num .prod = 0) := by
  have hat := (at_of_run hsize hfile (hpair.sized hbuf) h.free q).1
  obtain ⟨moves, hr⟩ := exists_crew_run hsize hfile (hpair.sized hbuf) h.free
  have hside : (k q).side = some .cons :=
    (side_of_run hr q).trans ((hpair.receiver q).mpr rfl)
  by_cases hidle : s.pc q = .idle
  · exact .inl (hstuck.exited_zero hsize hle hfile hpair hbuf h hside hidle)
  obtain ⟨w, hw, hcola⟩ := hstuck.rests hsize hle hfile hpair hbuf h hidle
  have hserved := hstuck.not_served hsize hle hfile hpair hbuf h hw hcola
  have hf {f : φ} (hf : (s.pc q).file = some f) : f = file q :=
    file_of_run hsize hfile (hpair.sized hbuf) h.free hf
  rw [hw] at hat
  cases w with
  | fifoOpen f m =>
      obtain ⟨j, hk, rfl⟩ := of_attached hat
      obtain rfl := hf (by rw [hw]; rfl)
      rw [hk] at hside
      rw [Option.some.inj hside] at hw hserved
      exact .inr (.inr ⟨hw, ⟨_, _, hk⟩, not_not.mp (of_decide_eq_false hserved)⟩)
  | fifoRead f length =>
      obtain ⟨g, received, printed, hk, rfl⟩ := of_reading hat
      obtain rfl := hf (by rw [hw]; rfl)
      have hsound := sound_of_run ((serving_run_iff (P := Undisturbed)).mp h).1
      rw [served, hsound.size_eq] at hserved
      refine .inr (.inl ⟨hw, ⟨_, _, _, hk⟩, ?_⟩)
      simpa using hserved
  | fifoWrite f kbuff =>
      obtain ⟨g, rest, hk, -⟩ := of_ready hat
      rw [hk] at hside
      cases hside

/-- The sender is not left asleep. -/
theorem Stuck.sender : s.pc p = .idle := by
  by_contra hidle
  obtain ⟨w, hw, hcola⟩ := hstuck.rests hsize hle hfile hpair hbuf h hidle
  have hserved := hstuck.not_served hsize hle hfile hpair hbuf h hw hcola
  have hat := (at_of_run hsize hfile (hpair.sized hbuf) h.free p).1
  obtain ⟨moves, hr⟩ := exists_crew_run hsize hfile (hpair.sized hbuf) h.free
  obtain ⟨taken, queue, ho⟩ := exists_ordered hsize hpair.receiver hr
  have hside (r : ι) : (k r).side = (jobs r).map Job.side := side_of_run hr r
  have hp := (hside p).trans ((hpair.sender p).mpr rfl)
  have hq := (hside q).trans ((hpair.receiver q).mpr rfl)
  have hin := inside_of_asleep hat hw
  rcases hstuck.receiver hsize hle hfile hpair hbuf h with
    ⟨printed, hk⟩ | ⟨hwq, ⟨g, x, printed, hk⟩, hlt⟩ | ⟨-, -, hprod⟩
  · -- the receiver has seen the end of the stream
    obtain ⟨-, hended⟩ := ho.of_exited rfl hk
    have hpast : Client.past (k p, (s.pc p).phase) = true := (hpair.last ho hside hended).1
    simp [Client.past, hin] at hpast
  · -- the receiver waits for a record: there is somebody to open for, and there is room
    have hinq : Client.inside (k q, (s.pc q).phase) = true := by rw [hk]; rfl
    have hcons := hstuck.num_ne_zero hsize hle hfile hpair hbuf h hq hinq
    rw [hw] at hat
    cases w with
    | fifoOpen f m =>
        obtain ⟨j, hk, rfl⟩ := of_attached hat
        rw [hk] at hp
        simp [served, Option.some.inj hp, Side.other, hcons] at hserved
    | fifoRead f length =>
        obtain ⟨g, x, printed, hk, -⟩ := of_reading hat
        rw [hk] at hp
        cases hp
    | fifoWrite f kbuff =>
        obtain ⟨g, rest, -, hlen⟩ := of_ready hat
        have hsound := sound_of_run ((serving_run_iff (P := Undisturbed)).mp h).1
        have hempty : s.drv.cbuffer.content = [] := by
          have hq : Client.past (k q, (s.pc q).phase) = false := by simp [Client.past, hinq]
          have hcontent : s.drv.cbuffer.content = (queue.map Prod.snd).flatten := ho.content hq
          rw [hcontent, ho.queue_eq_nil hinq hlt]
          rfl
        have hzero : s.drv.cbuffer.size = 0 := by rw [← Cbuffer.length_content, hempty]; rfl
        have hroom : kbuff.length ≤ toUnsigned (nrGapsCbuffer s.drv.cbuffer) := by
          rw [hsound.nrGaps_eq, hzero]
          omega
        simp [served, hcons, hroom] at hserved
  · exact hstuck.num_ne_zero hsize hle hfile hpair hbuf h hp hin hprod

end

/-- **A transfer gets done.**  One process sends records that fit into the buffer, another one
receives, and nobody disturbs them.  When neither can go on, the sender has sent everything
without an error.  The receiver has printed it all and has ended, or still waits for more; or it
has not found the sender in the FIFO, and the records are left in the buffer. -/
theorem transfer_done (hsize : 0 < size) (hle : size ≤ bufLen) (hfile : Injective file)
    (hp : jobs p = some (.send buf)) (hq : jobs q = some (.receive received))
    (hnone : ∀ r, r ≠ p → r ≠ q → jobs r = none) (hbuf : Sized size buf)
    (h : (system ι size file jobs).Run (fun s l ↦ Undisturbed s.1 l) tr (s, k))
    (hstuck : Stuck size file jobs (s, k)) :
    k p = .exited .prod 0 [] ∧
      (k q = .exited .cons 0 buf ∨
        s.pc q = .condWait .sleep (.fifoRead (file q) size) ∧ (k q).printed = buf ∨
        s.pc q = .condWait .sleep (.fifoOpen (file q) .cons) ∧
          s.drv.cbuffer.content = buf.flatten) := by
  have hpair : Pair jobs p q buf received := ⟨hp, hq, hnone⟩
  have hsound := sound_of_run ((serving_run_iff (P := Undisturbed)).mp h).1
  obtain ⟨moves, hr⟩ := exists_crew_run hsize hfile (hpair.sized hbuf) h.free
  obtain ⟨taken, queue, ho⟩ := exists_ordered hsize hpair.receiver hr
  have hside : (k p).side = some .prod := (side_of_run hr p).trans ((hpair.sender p).mpr rfl)
  have hidle := hstuck.sender hsize hle hfile hpair hbuf h
  obtain ⟨rs, hkp⟩ := hstuck.exited_zero hsize hle hfile hpair hbuf h hside hidle
  have hrs : (k p).printed = [] := printed_of_sender hr hside
  rw [hkp] at hrs
  obtain rfl : rs = [] := hrs
  refine ⟨hkp, ?_⟩
  rcases hstuck.receiver hsize hle hfile hpair hbuf h with
    ⟨printed, hk⟩ | ⟨hw, ⟨g, x, printed, hk⟩, hlt⟩ | ⟨hw, ⟨g, j, hk⟩, -⟩
  · obtain ⟨rfl, hended⟩ := ho.of_exited rfl hk
    rw [hpair.taken_eq ho (hpair.last ho (side_of_run hr) hended).2 rfl hkp] at hk
    exact .inl hk
  · have hin : Client.inside (k q, (s.pc q).phase) = true := by rw [hk]; rfl
    have hqueue := ho.queue_eq_nil hin hlt
    have hgot : (k q).printed ++ Client.inHand (k q, (s.pc q).phase) = _ := ho.got
    have hhand : Client.inHand (k q, (s.pc q).phase) = [] := by rw [hk, hw]; rfl
    rw [hhand, List.append_nil, hpair.taken_eq ho (by rw [hqueue]; rfl) rfl hkp] at hgot
    exact .inr (.inl ⟨hw, hgot⟩)
  · have hgot : Client.got (k q, (s.pc q).phase) = taken.map Prod.snd := ho.got
    have hnone : Client.got (k q, (s.pc q).phase) = [] := by rw [hk, hw]; rfl
    obtain rfl := List.map_eq_nil_iff.mp (hgot.symm.trans hnone)
    have hpast : Client.past (k q, (s.pc q).phase) = false := by rw [hk, hw]; rfl
    have hcontent : s.drv.cbuffer.content = (queue.map Prod.snd).flatten := ho.content hpast
    have hsent := ho.complete p (by dsimp only; rw [hkp]; rfl)
    have htodo : Client.todo (k p, (s.pc p).phase) = [] := by rw [hkp]; rfl
    rw [htodo, List.append_nil, List.nil_append, recordsOf_send hp] at hsent
    have hlog (r : ι) : sentBy r queue <+: recordsOf jobs r :=
      (List.prefix_append ..).trans (ho.account r)
    rw [hpair.map_snd hlog, hsent] at hcontent
    exact .inr (.inr ⟨hw, hcontent⟩)

theorem transfer_done_example : ∃ (tr : List (Label (Fin 2) (Fin 2))) (s : State (Fin 2) (Fin 2))
    (k : Fin 2 → Program (Fin 2)),
    (system (Fin 2) 2 id transferJobs).Run (fun s l ↦ Undisturbed s.1 l) tr (s, k) ∧
      Stuck 2 id transferJobs (s, k) ∧ k 1 = .exited .prod 0 [] ∧
      (k 0 = .exited .cons 0 [[1, 2], [3, 4]] ∨
        s.pc 0 = .condWait .sleep (.fifoRead 0 2) ∧ (k 0).printed = [[1, 2], [3, 4]] ∨
        s.pc 0 = .condWait .sleep (.fifoOpen 0 .cons) ∧ s.drv.cbuffer.content = [1, 2, 3, 4]) := by
  obtain ⟨tr, ⟨s, k⟩, hpath, hstuck⟩ :=
    exists_stuck (by decide) injective_id transferJobs_sized transfer_start
  have hp : transferJobs 1 = some (.send [[1, 2], [3, 4]]) := by decide
  have hq : transferJobs 0 = some (.receive []) := rfl
  have hr := transfer_start.append hpath
  refine ⟨tr, s, k, hr, hstuck, ?_⟩
  exact transfer_done (by decide) (by decide) injective_id hp hq (by decide) (by decide) hr hstuck

end

/-! ### Who is left behind -/

/-- The transfer, along these moves. -/
theorem exists_transfer_run (moves : List (Move (Fin 2) (Fin 2)))
    (good : State (Fin 2) (Fin 2) × (Fin 2 → Program (Fin 2)) → Bool)
    (h : (replay (serve step view (next 2)) (fun s l ↦ decide (Undisturbed s.1 l))
      (fresh, load id transferJobs) moves).any good = true) : ∃ tr s k,
    (system (Fin 2) 2 id transferJobs).Run (fun s l ↦ Undisturbed s.1 l) tr (s, k) ∧
      good (s, k) = true := by
  obtain ⟨tr, ⟨s, k⟩, hr, hg⟩ := exists_run_of_replay
    (fun s ↦ (fifo _ _).Init s.1 ∧ s.2 = load id transferJobs)
    ⟨⟨List.replicate bufLen 0, List.length_replicate, rfl⟩, rfl⟩ h
  refine ⟨tr, s, k, ?_, hg⟩
  rw [system, fifo, serving_ofStep]
  exact hr.mono fun s l hP ↦ of_decide_eq_true hP

/-- The sender has ended, and the receiver is asleep. -/
theorem stuck_of_left {s : State (Fin 2) (Fin 2)} {k : Fin 2 → Program (Fin 2)}
    {printed : List (List Byte)} {w : Waiter (Fin 2)} (hp : s.pc 1 = .idle)
    (hk : k 1 = .exited .prod 0 printed) (hq : s.pc 0 = .condWait .sleep w)
    (hcola : s.drv.cola w.queue = 0) : Stuck 2 id transferJobs (s, k) :=
  stuck_of_forall fun
    | 0 => .inr ⟨w, hq, hcola⟩
    | 1 => .inl ⟨hp, _, _, _, hk⟩

/-- **Left in `read`.**  The receiver waits for a record when the sender closes. -/
theorem exists_left_in_read : ∃ tr s k,
    (system (Fin 2) 2 id transferJobs).Run (fun s l ↦ Undisturbed s.1 l) tr (s, k) ∧
      Stuck 2 id transferJobs (s, k) ∧ k 1 = .exited .prod 0 [] ∧
      s.pc 0 = .condWait .sleep (.fifoRead 0 2) ∧ (k 0).printed = [[1, 2], [3, 4]] := by
  obtain ⟨tr, s, k, hr, hg⟩ := exists_transfer_run
    (meeting ++ gos 4 0 ++ writing 1 [1, 2] ++ gos 2 1 ++ writing 1 [3, 4] ++ gos 2 1 ++
      call 0 (.fifoRead 0 2) :: gos 5 0 ++ [copyAll 0, call 0 (.fifoRead 0 2)] ++ gos 5 0 ++
      [copyAll 0, call 0 (.fifoRead 0 2)] ++ gos 3 0 ++ call 1 (.fifoRelease 1) :: gos 4 1)
    (fun t ↦ (t.1.pc 1 = .idle ∧ t.2 1 = .exited .prod 0 []) ∧
      (t.1.pc 0 = .condWait .sleep (.fifoRead 0 2) ∧ t.1.drv.cola .cons = 0) ∧
      (t.2 0).printed = [[1, 2], [3, 4]]) (by decide +kernel)
  obtain ⟨⟨hp, hk⟩, ⟨hq, hcola⟩, hprinted⟩ := of_decide_eq_true hg
  exact ⟨tr, s, k, hr, stuck_of_left hp hk hq hcola, hk, hq, hprinted⟩

/-- **Left in `open`.**  The receiver is woken by the sender, which has gone when it looks. -/
theorem exists_left_in_open : ∃ tr s k,
    (system (Fin 2) 2 id transferJobs).Run (fun s l ↦ Undisturbed s.1 l) tr (s, k) ∧
      Stuck 2 id transferJobs (s, k) ∧ k 1 = .exited .prod 0 [] ∧
      s.pc 0 = .condWait .sleep (.fifoOpen 0 .cons) ∧ s.drv.cbuffer.content = [1, 2, 3, 4] := by
  obtain ⟨tr, s, k, hr, hg⟩ := exists_transfer_run
    (meeting ++ writing 1 [1, 2] ++ gos 2 1 ++ writing 1 [3, 4] ++ gos 2 1 ++
      call 1 (.fifoRelease 1) :: gos 4 1 ++ gos 3 0)
    (fun t ↦ (t.1.pc 1 = .idle ∧ t.2 1 = .exited .prod 0 []) ∧
      (t.1.pc 0 = .condWait .sleep (.fifoOpen 0 .cons) ∧ t.1.drv.cola .cons = 0) ∧
      t.1.drv.cbuffer.content = [1, 2, 3, 4]) (by decide +kernel)
  obtain ⟨⟨hp, hk⟩, ⟨hq, hcola⟩, hcontent⟩ := of_decide_eq_true hg
  exact ⟨tr, s, k, hr, stuck_of_left hp hk hq hcola, hk, hq, hcontent⟩

end DsoFifo.DumpUtmp
