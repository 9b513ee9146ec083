import Mathlib.Algebra.Order.BigOperators.Group.Finset
import Mathlib.Data.Multiset.AddSub
import Mathlib.Tactic.Abel
import DsoFifo.DumpUtmp.Clients

/-!
# What arrives

Any number of processes send utmp files through the FIFO and receive records from it, and any
of their calls may be interrupted.

* No record is torn, made up or printed twice: together, the receivers print at most what is in
  the files that are sent (`printed_le`).
* One receiver prints the records of each file in their order (`printed_in_order`), and if it
  reaches the end of the stream, then of a file that has been sent successfully it has printed
  all the records or none (`printed_whole`).
* If there is one sender as well, and both are successful, then the receiver has printed the
  whole file (`received_whole`).

All of this is proved of the crew.
-/

namespace DsoFifo.DumpUtmp

open DsoFifo.C DsoFifo.Fifo DsoFifo.LTS DsoFifo.Pool Function

variable {ι φ : Type} {size : ℕ}

/-! ## Records in the pipe -/

/-- The records of a process. -/
def recordsOf (jobs : ι → Option Job) (p : ι) : List (List Byte) := (jobs p).elim [] Job.records

theorem recordsOf_send {jobs : ι → Option Job} {p : ι} {utmpBuf : List (List Byte)}
    (h : jobs p = some (.send utmpBuf)) : recordsOf jobs p = utmpBuf := by
  rw [recordsOf, h]
  rfl

theorem recordsOf_receiver {jobs : ι → Option Job} {p : ι}
    (h : (jobs p).map Job.side = some .cons) : recordsOf jobs p = [] := by
  obtain ⟨j, hj, hside⟩ := Option.map_eq_some_iff.mp h
  rw [recordsOf, hj]
  cases j with
  | send utmpBuf => cases hside
  | receive received => rfl

theorem sized_append {rs : List (List Byte)} {cur : List Byte} (h : Sized size rs)
    (hcur : cur.length = size) : Sized size (rs ++ [cur]) :=
  List.forall_mem_append.mpr ⟨h, fun _ hr ↦ List.mem_singleton.mp hr ▸ hcur⟩

/-- What is cut off a stream of records is the first record. -/
theorem exists_cons_of_flatten {queue : List (List Byte)} {xs rest : List Byte} (hsize : 0 < size)
    (hqueue : Sized size queue) (hxs : xs.length = size) (h : queue.flatten = xs ++ rest) :
    ∃ queue', queue = xs :: queue' ∧ rest = queue'.flatten ∧ Sized size queue' := by
  obtain ⟨queue', hst, hrest, hsized⟩ := BlockOp.Step.exists_asRecord hsize
    (BlockOp.Step.remove_iff.mpr h) hxs hqueue
  exact ⟨queue', BlockOp.Step.remove_iff.mp hst, hrest.symm, hsized⟩

theorem eq_nil_of_length_flatten_lt {queue : List (List Byte)} (hqueue : Sized size queue)
    (h : queue.flatten.length < size) : queue = [] := by
  cases queue with
  | nil => rfl
  | cons r queue =>
      have hr := hqueue r List.mem_cons_self
      rw [List.flatten_cons, List.length_append] at h
      omega

theorem eq_nil_of_flatten {queue : List (List Byte)} (hsize : 0 < size) (hqueue : Sized size queue)
    (h : queue.flatten = []) : queue = [] :=
  eq_nil_of_length_flatten_lt hqueue (by rwa [h])

/-! ## A transfer -/

/-- Process 0 receives, and process 1 sends a file of two registers and a half. -/
def transferJobs (p : Fin 2) : Option Job :=
  if p.val = 0 then some (.receive []) else some (.send (readUtmp 2 [1, 2, 3, 4, 5]))

theorem transferJobs_sized (p : Fin 2) (j : Job) (hj : transferJobs p = some j) : j.Sized 2 := by
  unfold transferJobs at hj
  split at hj
  · cases hj
    exact trivial
  · cases hj
    exact fun _ ↦ length_of_mem_readUtmp

theorem transferJobs_receiver (r : Fin 2) :
    (transferJobs r).map Job.side = some .cons ↔ r = 0 := by
  revert r
  decide

/-- Process 1 opens, writes and closes, then process 0 reads what is there. -/
theorem exists_transfer : ∃ tr s k,
    ((fifo (Fin 2) (Fin 2)).serving view (next 2) (load id transferJobs)).Run anyStep tr (s, k) ∧
      k 0 = .exited .cons 0 [[1, 2], [3, 4]] ∧ k 1 = .exited .prod 0 [] := by
  have hreplay : (replay (serve step view (next 2)) (fun _ _ ↦ true)
      ((fresh, load id transferJobs) : State (Fin 2) (Fin 2) × (Fin 2 → Program (Fin 2)))
      (meeting ++ gos 4 0 ++ writing 1 [1, 2] ++ gos 2 1 ++ writing 1 [3, 4] ++ gos 2 1 ++
        call 1 (.fifoRelease 1) :: gos 4 1 ++ call 0 (.fifoRead 0 2) :: gos 5 0 ++
        [copyAll 0, call 0 (.fifoRead 0 2)] ++ gos 5 0 ++ [copyAll 0, call 0 (.fifoRead 0 2)] ++
        gos 3 0 ++ call 0 (.fifoRelease 0) :: gos 5 0)).any (fun t ↦
          t.2 0 = .exited .cons 0 [[1, 2], [3, 4]] ∧ t.2 1 = .exited .prod 0 []) = true := by
    decide +kernel
  obtain ⟨tr, ⟨s, k⟩, hr, hg⟩ := exists_run_of_replay
    (fun s ↦ (fifo _ _).Init s.1 ∧ s.2 = load id transferJobs)
    ⟨⟨List.replicate bufLen 0, List.length_replicate, rfl⟩, rfl⟩ hreplay
  refine ⟨tr, s, k, ?_, of_decide_eq_true hg⟩
  rw [fifo, serving_ofStep]
  exact hr.free

/-! ## Any number of senders and receivers -/

/-- The records of a client, those to be sent and those received. -/
def Client.records (c : Client φ) : Multiset (List Byte) := ↑(c.todo ++ c.got)

section

variable [Fintype ι] [DecidableEq ι] [DecidableEq φ] {file : ι → φ} {jobs : ι → Option Job}
  {moves : List ι} {w w' : Pipe φ} {c c' : Client φ} {cs : ι → Client φ}

/-- The records are not more than there were to begin with. -/
def Conserved (size : ℕ) (total : Multiset (List Byte)) (w : Pipe φ) (m : Multiset (List Byte)) :
    Prop := ∃ queue : List (List Byte), w.content = queue.flatten ∧ Sized size queue ∧
  m + queue ≤ total

theorem Moves.conserved {total m : Multiset (List Byte)} (hsize : 0 < size)
    (hm : Moves size w c w' c') (h : Conserved size total w (c.records + m)) :
    Conserved size total w' (c'.records + m) := by
  obtain ⟨queue, hcontent, hsized, hle⟩ := h
  cases hm.flow hsize with
  | store cur hcur _ _ _ hcontent' htodo hgot =>
      refine ⟨queue ++ [cur], by simp [hcontent', hcontent], sized_append hsized hcur, ?_⟩
      refine le_of_eq_of_le ?_ hle
      rw [Client.records, Client.records, htodo, hgot]
      simp only [← Multiset.coe_add, ← Multiset.cons_coe, ← Multiset.singleton_add,
        Multiset.coe_nil]
      abel
  | fetch xs hxs _ _ _ hcontent' htodo hgot =>
      obtain ⟨queue', rfl, hrest, hsized'⟩ :=
        exists_cons_of_flatten hsize hsized hxs (hcontent.symm.trans hcontent')
      refine ⟨queue', hrest, hsized', le_of_eq_of_le ?_ hle⟩
      rw [Client.records, Client.records, htodo, hgot]
      simp only [← Multiset.coe_add, ← Multiset.cons_coe, ← Multiset.singleton_add,
        Multiset.coe_nil]
      abel
  | quiet hcontent' htodo hgot =>
      have hrecords : c'.records ≤ c.records := by
        rw [Client.records, Client.records, hgot, ← Multiset.coe_add, ← Multiset.coe_add]
        refine add_le_add_left ?_ _
        rcases htodo with htodo | ⟨htodo, -⟩
        · rw [htodo]
        · rw [htodo]
          exact Multiset.zero_le _
      rcases hcontent' with heq | ⟨hnil, -⟩
      · exact ⟨queue, heq.trans hcontent, hsized, le_trans (by gcongr) hle⟩
      · refine ⟨[], hnil, fun r hr ↦ (by cases hr), le_trans ?_ hle⟩
        exact add_le_add (by gcongr) (Multiset.zero_le _)

theorem conserved_of_run (hsize : 0 < size)
    (h : (crew size (load file jobs)).Run anyStep moves (w, cs)) :
    Conserved size (∑ p, (recordsOf jobs p : Multiset (List Byte))) w
      (∑ p, (cs p).records) := by
  refine Run.invariant (I := fun s : Pipe φ × (ι → Client φ) ↦
    Conserved size (∑ p, (recordsOf jobs p : Multiset (List Byte))) s.1
      (∑ p, (s.2 p).records)) ?_ ?_ h
  · rintro s rfl
    refine ⟨[], rfl, fun r hr ↦ (by cases hr), ?_⟩
    rw [Multiset.coe_nil, add_zero]
    refine Finset.sum_le_sum fun p _ ↦ le_of_eq ?_
    dsimp only [load, recordsOf]
    cases jobs p <;> simp [Client.records, Client.todo, Client.got, Client.inHand, Program.printed]
  · rintro s p t hs - ⟨w, c, hm, rfl⟩
    dsimp only
    rw [sum_update Client.records]
    refine hm.conserved hsize ?_
    rwa [← sum_update Client.records, update_eq_self]

/-- **No record is torn, made up or printed twice**, whoever sends and receives. -/
theorem printed_le (hsize : 0 < size) (hfile : Injective file)
    (hjobs : ∀ p j, jobs p = some j → j.Sized size) {tr : List (Label ι φ)} {s : State ι φ}
    {k : ι → Program φ}
    (h : ((fifo ι φ).serving view (next size) (load file jobs)).Run anyStep tr (s, k)) :
    ∑ p, ((k p).printed : Multiset (List Byte)) ≤
      ∑ p, (recordsOf jobs p : Multiset (List Byte)) := by
  obtain ⟨moves, hr⟩ := exists_crew_run hsize hfile hjobs h
  obtain ⟨queue, -, -, hle⟩ := conserved_of_run hsize hr
  calc ∑ p, ((k p).printed : Multiset (List Byte))
    _ ≤ ∑ p, Client.records (k p, (s.pc p).phase) := Finset.sum_le_sum fun p _ ↦ by
        simp only [Client.records, Client.got, ← Multiset.coe_add]
        exact (Multiset.le_add_right _ _).trans (Multiset.le_add_left _ _)
    _ ≤ ∑ p, Client.records (k p, (s.pc p).phase) + queue := Multiset.le_add_right _ _
    _ ≤ ∑ p, (recordsOf jobs p : Multiset (List Byte)) := hle

theorem printed_le_example : ∃ (tr : List (Label (Fin 2) (Fin 2))) (s : State (Fin 2) (Fin 2))
    (k : Fin 2 → Program (Fin 2)),
    ((fifo (Fin 2) (Fin 2)).serving view (next 2) (load id transferJobs)).Run anyStep tr (s, k) ∧
      (k 0).printed = [[1, 2], [3, 4]] ∧
      ∑ p, ((k p).printed : Multiset (List Byte)) ≤
        ∑ p, (recordsOf transferJobs p : Multiset (List Byte)) := by
  obtain ⟨tr, s, k, hr, hk, -⟩ := exists_transfer
  refine ⟨tr, s, k, hr, congrArg Program.printed hk, ?_⟩
  exact printed_le (by decide) injective_id transferJobs_sized hr

end

/-! ## One receiver -/

/-- The records of a log that are from one process. -/
def sentBy [DecidableEq ι] (p : ι) (log : List (ι × List Byte)) : List (List Byte) :=
  (log.filter (·.1 = p)).map Prod.snd

section

variable [DecidableEq ι]

theorem sentBy_append (p : ι) (log log' : List (ι × List Byte)) :
    sentBy p (log ++ log') = sentBy p log ++ sentBy p log' := by
  rw [sentBy, List.filter_append, List.map_append]
  rfl

/-- A log of one process. -/
theorem map_snd_eq_sentBy {p : ι} {log : List (ι × List Byte)}
    (h : ∀ r, r ≠ p → sentBy r log = []) : log.map Prod.snd = sentBy p log := by
  rw [sentBy, List.filter_eq_self.mpr fun a ha ↦ ?_]
  refine decide_eq_true (by_contra fun hne ↦ ?_)
  have hmem : a.2 ∈ sentBy a.1 log :=
    List.mem_map.mpr ⟨a, List.mem_filter.mpr ⟨ha, decide_eq_true rfl⟩, rfl⟩
  rw [h a.1 hne] at hmem
  cases hmem

@[simp] theorem sentBy_nil (p : ι) : sentBy p [] = [] := rfl

theorem sentBy_self (p : ι) (r : List Byte) : sentBy p [(p, r)] = [r] := by simp [sentBy]

theorem sentBy_of_ne {p q : ι} (h : q ≠ p) (r : List Byte) : sentBy p [(q, r)] = [] := by
  simp [sentBy, h]

end

/-- What has gone through the pipe while `q` is the only receiver: `taken`, with the senders,
is what it has taken out, and `queue` what has been put in behind. -/
structure Ordered [DecidableEq ι] (size : ℕ) (jobs : ι → Option Job) (q : ι) (w : Pipe φ)
    (cs : ι → Client φ) (taken queue : List (ι × List Byte)) : Prop where
  got : (cs q).got = taken.map Prod.snd
  content : (cs q).past = false → w.content = (queue.map Prod.snd).flatten
  sized : Sized size (queue.map Prod.snd)
  /-- The records of a sender are in order, -/
  account : ∀ p, sentBy p (taken ++ queue) ++ (cs p).todo <+: recordsOf jobs p
  /-- and none is missing if it does not fail. -/
  complete : ∀ p, (cs p).1.failed = false →
    sentBy p (taken ++ queue) ++ (cs p).todo = recordsOf jobs p
  fresh : ∀ p, (cs p).before = true → sentBy p (taken ++ queue) = []
  unopened : (cs q).before = true → taken ++ queue = []
  /-- When the receiver has seen the end of the stream, it has not missed anything of a sender
  that had come by then. -/
  ended : (cs q).ended = true →
    ∀ p, sentBy p taken = [] ∨ (cs p).past = true ∧ sentBy p queue = []
  /-- One had come. -/
  met : (cs q).met = true → ∃ p, (cs p).1.side = some .prod ∧ (cs p).before = false ∧
    ((cs q).ended = true → (cs p).past = true ∧ sentBy p queue = [])

namespace Ordered

variable [DecidableEq ι] {jobs : ι → Option Job} {w : Pipe φ} {cs : ι → Client φ} {p q : ι}
  {taken queue : List (ι × List Byte)} (h : Ordered size jobs q w cs taken queue)

include h

theorem taken_prefix (p : ι) : sentBy p taken <+: recordsOf jobs p := by
  have hall := (List.prefix_append ..).trans (h.account p)
  rw [sentBy_append] at hall
  exact (List.prefix_append ..).trans hall

/-- If nothing of a sender that has been successful is left in the pipe, it has been received. -/
theorem whole (hnil : sentBy p queue = []) {k : Program φ} {ph : Phase φ} {m : Side}
    {rs : List (List Byte)} (hp : cs p = (k, ph)) (hk : k = .exited m 0 rs) :
    sentBy p taken = recordsOf jobs p := by
  subst hk
  have hcomplete := h.complete p (by rw [hp]; rfl)
  have htodo : (cs p).todo = [] := by rw [hp]; rfl
  rwa [sentBy_append, hnil, htodo, List.append_nil, List.append_nil] at hcomplete

/-- A receiver that has been successful. -/
theorem of_exited {k : Program φ} {ph : Phase φ} {printed : List (List Byte)}
    (hq : cs q = (k, ph)) (hk : k = .exited .cons 0 printed) :
    printed = taken.map Prod.snd ∧ (cs q).ended = true := by
  subst hk
  have hgot := h.got
  rw [hq] at hgot ⊢
  exact ⟨by simpa [Client.got, Program.printed, Client.inHand] using hgot, by simp [Client.ended]⟩

end Ordered

section

variable [Fintype ι] [DecidableEq ι] [DecidableEq φ] {file : ι → φ} {jobs : ι → Option Job}
  {moves : List ι} {w w' : Pipe φ} {c : Client φ} {cs : ι → Client φ} {p q : ι}
  {taken queue : List (ι × List Byte)}

/-- What is known of a move of `p`. -/
structure Moved (size : ℕ) (jobs : ι → Option Job) (q : ι) (w : Pipe φ) (cs : ι → Client φ)
    (p : ι) (w' : Pipe φ) (c : Client φ) : Prop where
  pos : 0 < size
  moves : Moves size w (cs p) w' c
  receiver : ∀ r, (jobs r).map Job.side = some .cons ↔ r = q
  side : ∀ r, (cs r).1.side = (jobs r).map Job.side
  touched : ∀ x, w.ends x ≤ count (Client.touched x) cs
  holds : ∀ x, count (Client.holds x) cs ≤ w.ends x
  holds' : ∀ x, count (Client.holds x) (update cs p c) ≤ w'.ends x

namespace Moved

variable (h : Moved size jobs q w cs p w' c)

include h

theorem eq_receiver {r : ι} (hr : (cs r).1.side = some .cons) : r = q :=
  (h.receiver r).mp (h.side r ▸ hr)

theorem before {r : ι} (hr : (update cs p c r).before = true) : (cs r).before = true :=
  rel_update (R := fun c c' : Client φ ↦ c'.before = true → c.before = true) (fun _ h ↦ h) cs
    h.moves.before r hr

theorem past {r : ι} (hr : (cs r).past = true) : (update cs p c r).past = true :=
  rel_update (R := fun c c' : Client φ ↦ c.past = true → c'.past = true) (fun _ h ↦ h) cs
    h.moves.past r hr

theorem not_before {r : ι} (hr : (cs r).before = false) : (update cs p c r).before = false :=
  Bool.eq_false_of_not_eq_true (mt h.before (by simp [hr]))

theorem not_past {r : ι} (hr : (update cs p c r).past = false) : (cs r).past = false :=
  Bool.eq_false_of_not_eq_true (mt h.past (by simp [hr]))

theorem not_failed {r : ι} (hr : (update cs p c r).1.failed = false) :
    (cs r).1.failed = false :=
  rel_update (R := fun c c' : Client φ ↦ c'.1.failed = false → c.1.failed = false)
    (fun _ h ↦ h) cs
    (fun hc ↦ Bool.eq_false_of_not_eq_true (mt h.moves.failed (by simp [hc]))) r hr

theorem side_update (r : ι) : (update cs p c r).1.side = (cs r).1.side :=
  rel_update (R := fun c c' : Client φ ↦ c'.1.side = c.1.side) (fun _ ↦ rfl) cs h.moves.side r

theorem met (hmet : (update cs p c q).met = true) : (cs q).met = true ∨ w.ends .prod ≠ 0 := by
  by_cases hp : q = p
  · subst hp
    rw [update_self] at hmet
    refine (h.moves.met hmet).imp_right fun ⟨x, hx, hends⟩ ↦ ?_
    have hside := (h.side q).symm.trans hx
    rw [(h.receiver q).mpr rfl] at hside
    cases hside
    exact hends
  · rw [update_of_ne hp] at hmet
    exact .inl hmet

theorem ended (hended : (update cs p c q).ended = true) : (cs q).ended = true ∨
    w.ends .prod = 0 ∧ w.content = [] ∧ (cs q).inside = true ∧ (cs q).met = true := by
  by_cases hp : q = p
  · subst hp
    rw [update_self] at hended
    exact h.moves.ended h.pos hended
  · rw [update_of_ne hp] at hended
    exact .inl hended

end Moved

/-- What the receiver has met, it still has met; `queue'` is what is in the pipe then. -/
theorem Ordered.met_update (ho : Ordered size jobs q w cs taken queue)
    (h : Moved size jobs q w cs p w' c) {queue' : List (ι × List Byte)}
    (hended : (update cs p c q).ended = true → (cs q).ended = true ∧
      ∀ r, (cs r).past = true → sentBy r queue = [] → sentBy r queue' = [])
    (hmet : (update cs p c q).met = true) :
    ∃ r, (update cs p c r).1.side = some .prod ∧ (update cs p c r).before = false ∧
      ((update cs p c q).ended = true → (update cs p c r).past = true ∧ sentBy r queue' = []) := by
  by_cases he : (update cs p c q).ended = true
  · obtain ⟨he', hqueue⟩ := hended he
    obtain ⟨r, hr, hb, hlast⟩ := ho.met (Client.met_of_ended he')
    obtain ⟨hpast, hnil⟩ := hlast he'
    exact ⟨r, (h.side_update r).trans hr, h.not_before hb,
      fun _ ↦ ⟨h.past hpast, hqueue r hpast hnil⟩⟩
  · have hcome : ∃ r, (cs r).1.side = some .prod ∧ (cs r).before = false := by
      rcases h.met hmet with hmet | hends
      · obtain ⟨r, hr, hb, -⟩ := ho.met hmet
        exact ⟨r, hr, hb⟩
      · exact exists_touched (h.touched _) hends
    obtain ⟨r, hr, hb⟩ := hcome
    exact ⟨r, (h.side_update r).trans hr, h.not_before hb, fun he' ↦ absurd he' he⟩

/-- A record goes in. -/
theorem Ordered.store (ho : Ordered size jobs q w cs taken queue)
    (h : Moved size jobs q w cs p w' c) {cur : List Byte} (hcur : cur.length = size)
    (hends : w.ends .cons ≠ 0) (hside : (cs p).1.side = some .prod) (hin : (cs p).inside = true)
    (hcontent : w'.content = w.content ++ cur) (htodo : (cs p).todo = cur :: c.todo)
    (hgot : c.got = (cs p).got) :
    Ordered size jobs q w' (update cs p c) taken (queue ++ [(p, cur)]) := by
  have hp : q ≠ p := by
    rintro rfl
    rw [h.side q, (h.receiver q).mpr rfl] at hside
    cases hside
  have hpast : (cs p).past = false := by simp [Client.past, hin]
  have hsent (r : ι) (hr : r ≠ p) : sentBy r (taken ++ (queue ++ [(p, cur)])) =
      sentBy r (taken ++ queue) := by
    rw [← List.append_assoc, sentBy_append, sentBy_of_ne hr.symm, List.append_nil]
  have hsame (r : ι) : sentBy r (taken ++ (queue ++ [(p, cur)])) ++ (update cs p c r).todo =
      sentBy r (taken ++ queue) ++ (cs r).todo := by
    by_cases hr : r = p
    · subst hr
      rw [update_self, htodo, ← List.append_assoc, sentBy_append, sentBy_self,
        List.append_assoc, List.singleton_append]
    · rw [update_of_ne hr, hsent r hr]
  have hqueue (r : ι) (hr : (cs r).past = true) (hnil : sentBy r queue = []) :
      sentBy r (queue ++ [(p, cur)]) = [] := by
    have hne : p ≠ r := fun heq ↦ by simp [← heq, hpast] at hr
    rw [sentBy_append, hnil, sentBy_of_ne hne, List.append_nil]
  have hq : update cs p c q = cs q := update_of_ne hp ..
  exact
    { got := hq ▸ ho.got
      content := fun hnp ↦ by simp [hcontent, ho.content (h.not_past hnp)]
      sized := by simpa using sized_append ho.sized hcur
      account := fun r ↦ hsame r ▸ ho.account r
      complete := fun r hr ↦ (hsame r).trans (ho.complete r (h.not_failed hr))
      fresh := fun r hr ↦ by
        have hne : r ≠ p := fun heq ↦ by
          have hout := Client.inside_of_before (h.before hr)
          rw [heq, hin] at hout
          cases hout
        exact (hsent r hne).trans (ho.fresh r (h.before hr))
      unopened := fun hb ↦ by
        obtain ⟨r, hr, hb'⟩ := exists_touched (h.touched _) hends
        rw [h.eq_receiver hr, ← hq, hb] at hb'
        cases hb'
      ended := fun he r ↦ (ho.ended (hq ▸ he) r).imp_right fun ⟨hr, hnil⟩ ↦
        ⟨h.past hr, hqueue r hr hnil⟩
      met := ho.met_update h fun he ↦ ⟨hq ▸ he, hqueue⟩ }

/-- A record comes out. -/
theorem Ordered.fetch (ho : Ordered size jobs q w cs taken queue)
    (h : Moved size jobs q w cs p w' c) {xs : List Byte} (hxs : xs.length = size)
    (hside : (cs p).1.side = some .cons) (hin : (cs p).inside = true) (hended : c.ended = false)
    (hcontent : w.content = xs ++ w'.content) (htodo : c.todo = (cs p).todo)
    (hgot : c.got = (cs p).got ++ [xs]) :
    ∃ r rest, queue = (r, xs) :: rest ∧
      Ordered size jobs q w' (update cs p c) (taken ++ [(r, xs)]) rest := by
  obtain rfl := h.eq_receiver hside
  have hpast : (cs p).past = false := by simp [Client.past, hin]
  obtain ⟨rest', hqueue, hrest, hsized⟩ :=
    exists_cons_of_flatten h.pos ho.sized hxs ((ho.content hpast).symm.trans hcontent)
  obtain ⟨⟨r, x⟩, rest, rfl, hx, rfl⟩ := List.map_eq_cons_iff.mp hqueue
  obtain rfl : xs = x := hx.symm
  have hlog : taken ++ [(r, xs)] ++ rest = taken ++ (r, xs) :: rest := by simp
  have htodo' (r : ι) : (update cs p c r).todo = (cs r).todo :=
    rel_update (R := fun c c' : Client φ ↦ c'.todo = c.todo) (fun _ ↦ rfl) cs htodo r
  have hne : (update cs p c p).ended ≠ true := by simp [hended]
  exact ⟨r, rest, rfl,
    { got := by simp [hgot, ho.got]
      content := fun _ ↦ hrest
      sized := hsized
      account := fun r ↦ by rw [hlog, htodo']; exact ho.account r
      complete := fun r hr ↦ by rw [hlog, htodo']; exact ho.complete r (h.not_failed hr)
      fresh := fun r hr ↦ hlog ▸ ho.fresh r (h.before hr)
      unopened := fun hb ↦ hlog ▸ ho.unopened (h.before hb)
      ended := fun he ↦ absurd he hne
      met := ho.met_update h fun he ↦ absurd he hne }⟩

/-- Nothing goes in or comes out. -/
theorem Ordered.quiet (ho : Ordered size jobs q w cs taken queue)
    (h : Moved size jobs q w cs p w' c)
    (hcontent : w'.content = w.content ∨ w'.content = [] ∧ ∀ x, w'.ends x = 0)
    (htodo : c.todo = (cs p).todo ∨ c.todo = [] ∧ c.1.failed = true)
    (hgot : c.got = (cs p).got) : Ordered size jobs q w' (update cs p c) taken queue := by
  have hgot' : (update cs p c q).got = (cs q).got :=
    rel_update (R := fun c c' : Client φ ↦ c'.got = c.got) (fun _ ↦ rfl) cs hgot q
  have htodo' (r : ι) : (update cs p c r).todo = (cs r).todo ∨
      (update cs p c r).todo = [] ∧ (update cs p c r).1.failed = true :=
    rel_update (R := fun c c' : Client φ ↦ c'.todo = c.todo ∨ c'.todo = [] ∧ c'.1.failed = true)
      (fun _ ↦ .inl rfl) cs htodo r
  have hreceiver : (update cs p c q).1.side = some .cons :=
    (h.side_update q).trans ((h.side q).trans ((h.receiver q).mpr rfl))
  -- nobody comes after the end of the stream has been seen, but those who had not come before
  have hend (hended : w.ends .prod = 0) (hnil : w.content = []) (hin : (cs q).inside = true) :
      queue = [] ∧ ∀ r, (cs r).before = false → r ≠ q → (cs r).past = true := by
    have hq : (cs q).past = false := by simp [Client.past, hin]
    refine ⟨List.map_eq_nil_iff.mp (eq_nil_of_flatten h.pos ho.sized
      ((ho.content hq).symm.trans hnil)), fun r hb hr ↦ ?_⟩
    have hout : (cs r).inside = false := by
      by_contra hin
      obtain ⟨x, hx, -⟩ := Client.exists_holds (Bool.eq_true_of_not_eq_false hin)
      cases x with
      | prod => exact hin (inside_eq_false (h.holds .prod) hended hx)
      | cons => exact hr (h.eq_receiver hx)
    simp [Client.past, hb, hout]
  exact
    { got := hgot'.trans ho.got
      content := fun hnp ↦ by
        rcases hcontent with heq | ⟨hnil, hends⟩
        · exact heq.trans (ho.content (h.not_past hnp))
        · have hout := inside_eq_false (h.holds' .cons) (hends .cons) hreceiver
          have hb : (update cs p c q).before = true := by simpa [Client.past, hout] using hnp
          have hqueue := (List.append_eq_nil_iff.mp (ho.unopened (h.before hb))).2
          rw [hnil, hqueue]
          rfl
      sized := ho.sized
      account := fun r ↦ by
        rcases htodo' r with heq | ⟨hnil, -⟩
        · exact heq ▸ ho.account r
        · rw [hnil, List.append_nil]
          exact (List.prefix_append ..).trans (ho.account r)
      complete := fun r hr ↦ by
        rcases htodo' r with heq | ⟨-, hfailed⟩
        · exact heq ▸ ho.complete r (h.not_failed hr)
        · rw [hfailed] at hr
          cases hr
      fresh := fun r hr ↦ ho.fresh r (h.before hr)
      unopened := fun hb ↦ ho.unopened (h.before hb)
      ended := fun he r ↦ by
        rcases h.ended he with he | ⟨hends, hnil, hin, -⟩
        · exact (ho.ended he r).imp_right fun ⟨hr, hs⟩ ↦ ⟨h.past hr, hs⟩
        · obtain ⟨rfl, hlast⟩ := hend hends hnil hin
          by_cases hr : r = q
          · have hnone := ho.account r
            rw [hr, recordsOf_receiver ((h.receiver q).mpr rfl), List.prefix_nil,
              List.append_nil] at hnone
            exact .inl (hr ▸ (List.append_eq_nil_iff.mp hnone).1)
          · cases hb : (cs r).before with
            | true => exact .inl (by simpa using ho.fresh r hb)
            | false => exact .inr ⟨h.past (hlast r hb hr), rfl⟩
      met := fun hmet ↦ by
        by_cases he : (update cs p c q).ended = true → (cs q).ended = true
        · exact ho.met_update h (fun hended ↦ ⟨he hended, fun _ _ hs ↦ hs⟩) hmet
        · rcases h.ended (Classical.not_imp.mp he).1 with hended | ⟨hends, hnil, hin, hmet'⟩
          · exact absurd (fun _ ↦ hended) he
          · obtain ⟨rfl, hlast⟩ := hend hends hnil hin
            obtain ⟨r, hr, hb, -⟩ := ho.met hmet'
            have hpast := h.past (hlast r hb fun heq ↦ by
              rw [heq, h.side q, (h.receiver q).mpr rfl] at hr
              cases hr)
            exact ⟨r, (h.side_update r).trans hr, h.not_before hb, fun _ ↦ ⟨hpast, rfl⟩⟩ }

theorem exists_ordered (hsize : 0 < size)
    (hreceiver : ∀ r, (jobs r).map Job.side = some .cons ↔ r = q)
    (h : (crew size (load file jobs)).Run anyStep moves (w, cs)) :
    ∃ taken queue, Ordered size jobs q w cs taken queue := by
  refine Run.induction (J := fun (_ : List ι) (s : Pipe φ × (ι → Client φ)) ↦
    ∃ taken queue, Ordered size jobs q s.1 s.2 taken queue) ?_ ?_ h
  · rintro s rfl
    have hload (r : ι) : Client.got (load file jobs r, .idle) = [] ∧
        Client.todo (load file jobs r, .idle) = recordsOf jobs r ∧
        Client.ended (load file jobs r, .idle) = false ∧
        Client.met (load file jobs r, .idle) = false := by
      dsimp only [load, recordsOf]
      cases jobs r <;> exact ⟨rfl, rfl, rfl, rfl⟩
    obtain ⟨hgot, -, hended, hmet⟩ := hload q
    exact ⟨[], [],
      { got := hgot
        content := fun _ ↦ rfl
        sized := fun r hr ↦ by cases hr
        account := fun r ↦ (hload r).2.1 ▸ List.prefix_rfl
        complete := fun r _ ↦ (hload r).2.1
        fresh := fun _ _ ↦ rfl
        unopened := fun _ ↦ rfl
        ended := fun he ↦ by cases hended.symm.trans he
        met := fun hm ↦ by cases hmet.symm.trans hm }⟩
  · rintro moves ⟨w, cs⟩ p t hr ⟨taken, queue, ho⟩ - hst
    have hr' := hr.snoc trivial hst
    obtain ⟨w', c, hm, rfl⟩ := hst
    have hmoved : Moved size jobs q w cs p w' c :=
      { pos := hsize
        moves := hm
        receiver := hreceiver
        side := side_of_run hr
        touched := fun x ↦ (ends_of_run hr x).2
        holds := fun x ↦ (ends_of_run hr x).1
        holds' := fun x ↦ (ends_of_run hr' x).1 }
    cases hm.flow hsize with
    | store cur hcur hends hside hin hcontent htodo hgot =>
        exact ⟨_, _, ho.store hmoved hcur hends hside hin hcontent htodo hgot⟩
    | fetch xs hxs hside hin hended hcontent htodo hgot =>
        obtain ⟨r, rest, -, ho'⟩ := ho.fetch hmoved hxs hside hin hended hcontent htodo hgot
        exact ⟨_, _, ho'⟩
    | quiet hcontent htodo hgot => exact ⟨_, _, ho.quiet hmoved hcontent htodo hgot⟩

/-- One process sends these records, and one receives. -/
structure Pair (jobs : ι → Option Job) (p q : ι) (buf : List (List Byte)) (received : List Byte) :
    Prop where
  send : jobs p = some (.send buf)
  receive : jobs q = some (.receive received)
  none : ∀ r, r ≠ p → r ≠ q → jobs r = none

namespace Pair

variable {buf : List (List Byte)} {received : List Byte} (h : Pair jobs p q buf received)

include h

omit [Fintype ι] [DecidableEq φ]

theorem job_eq {r : ι} {j : Job} (hj : jobs r = some j) :
    r = p ∧ j = .send buf ∨ r = q ∧ j = .receive received := by
  by_cases hrp : r = p
  · subst hrp
    exact .inl ⟨rfl, Option.some.inj (hj.symm.trans h.send)⟩
  · by_cases hrq : r = q
    · subst hrq
      exact .inr ⟨rfl, Option.some.inj (hj.symm.trans h.receive)⟩
    · rw [h.none r hrp hrq] at hj
      cases hj

theorem sized (hbuf : Sized size buf) (r : ι) (j : Job) (hj : jobs r = some j) : j.Sized size := by
  rcases h.job_eq hj with ⟨-, rfl⟩ | ⟨-, rfl⟩
  · exact hbuf
  · exact trivial

theorem receiver (r : ι) : (jobs r).map Job.side = some .cons ↔ r = q := by
  constructor
  · intro hside
    obtain ⟨j, hj, hside⟩ := Option.map_eq_some_iff.mp hside
    rcases h.job_eq hj with ⟨-, rfl⟩ | ⟨hr, -⟩
    · cases hside
    · exact hr
  · rintro rfl
    rw [h.receive]
    rfl

theorem sender (r : ι) : (jobs r).map Job.side = some .prod ↔ r = p := by
  constructor
  · intro hside
    obtain ⟨j, hj, hside⟩ := Option.map_eq_some_iff.mp hside
    rcases h.job_eq hj with ⟨hr, -⟩ | ⟨-, rfl⟩
    · exact hr
    · cases hside
  · rintro rfl
    rw [h.send]
    rfl

/-- There is one process on each side. -/
theorem unique {r r' : ι} {x : Side} (hr : (jobs r).map Job.side = some x)
    (hr' : (jobs r').map Job.side = some x) : r = r' := by
  cases x with
  | prod => exact ((h.sender r).mp hr).trans ((h.sender r').mp hr').symm
  | cons => exact ((h.receiver r).mp hr).trans ((h.receiver r').mp hr').symm

/-- All the records are from the sender. -/
theorem map_snd {log : List (ι × List Byte)} (hlog : ∀ r, sentBy r log <+: recordsOf jobs r) :
    log.map Prod.snd = sentBy p log := by
  refine map_snd_eq_sentBy fun r hr ↦ List.prefix_nil.mp ?_
  have hrecords : recordsOf jobs r = [] := by
    by_cases hrq : r = q
    · exact recordsOf_receiver ((h.receiver r).mpr hrq)
    · rw [recordsOf, h.none r hr hrq]
      rfl
  exact hrecords ▸ hlog r

/-- When the receiver has seen the end of the stream, the sender is gone and nothing of it is left
in the pipe. -/
theorem last {w : Pipe φ} {cs : ι → Client φ} {taken queue : List (ι × List Byte)}
    (ho : Ordered size jobs q w cs taken queue)
    (hside : ∀ r, (cs r).1.side = (jobs r).map Job.side) (hended : (cs q).ended = true) :
    (cs p).past = true ∧ sentBy p queue = [] := by
  obtain ⟨r, hr, -, hlast⟩ := ho.met (Client.met_of_ended hended)
  obtain rfl := (h.sender r).mp ((hside r).symm.trans hr)
  exact hlast hended

/-- What has been taken out of the pipe when nothing of the sender is left in it. -/
theorem taken_eq {w : Pipe φ} {cs : ι → Client φ} {taken queue : List (ι × List Byte)}
    (ho : Ordered size jobs q w cs taken queue) (hnil : sentBy p queue = []) {k : Program φ}
    {ph : Phase φ} {m : Side} {rs : List (List Byte)} (hp : cs p = (k, ph))
    (hk : k = .exited m 0 rs) : taken.map Prod.snd = buf := by
  rw [h.map_snd ho.taken_prefix, ho.whole hnil hp hk, recordsOf_send h.send]

end Pair

/-! ### The main results -/

variable {tr : List (Label ι φ)} {s : State ι φ} {k : ι → Program φ}

/-- **The records of each file are printed in their order** by a single receiver, and none is
left out between two of them. -/
theorem printed_in_order (hsize : 0 < size) (hfile : Injective file)
    (hjobs : ∀ p j, jobs p = some j → j.Sized size)
    (hreceiver : ∀ r, (jobs r).map Job.side = some .cons ↔ r = q)
    (h : ((fifo ι φ).serving view (next size) (load file jobs)).Run anyStep tr (s, k)) :
    ∃ log : List (ι × List Byte), (k q).printed <+: log.map Prod.snd ∧
      ∀ p, sentBy p log <+: recordsOf jobs p := by
  obtain ⟨moves, hr⟩ := exists_crew_run hsize hfile hjobs h
  obtain ⟨taken, queue, ho⟩ := exists_ordered hsize hreceiver hr
  exact ⟨taken, ho.got ▸ List.prefix_append .., ho.taken_prefix⟩

theorem printed_in_order_example : ∃ (tr : List (Label (Fin 2) (Fin 2)))
    (s : State (Fin 2) (Fin 2)) (k : Fin 2 → Program (Fin 2)),
    ((fifo (Fin 2) (Fin 2)).serving view (next 2) (load id transferJobs)).Run anyStep tr (s, k) ∧
      (k 0).printed = [[1, 2], [3, 4]] ∧
      ∃ log : List (Fin 2 × List Byte), (k 0).printed <+: log.map Prod.snd ∧
        ∀ p, sentBy p log <+: recordsOf transferJobs p := by
  obtain ⟨tr, s, k, hr, hk, -⟩ := exists_transfer
  refine ⟨tr, s, k, hr, congrArg Program.printed hk, ?_⟩
  exact printed_in_order (by decide) injective_id transferJobs_sized transferJobs_receiver hr

/-- **A file is received whole.**  One process sends a file of less than 2 GiB, another one
receives, and both are successful.  Then what has been printed are the registers of the file,
and only what is behind the last whole register is left out. -/
theorem received_whole (hsize : 0 < size) (hfile : Injective file) {fichero received : List Byte}
    (hlen : fichero.length < 2147483648) {p : ι}
    (hp : jobs p = some (.send (readUtmp size fichero)))
    (hq : jobs q = some (.receive received)) (hnone : ∀ r, r ≠ p → r ≠ q → jobs r = none)
    (h : ((fifo ι φ).serving view (next size) (load file jobs)).Run anyStep tr (s, k))
    {printed printed' : List (List Byte)} (hp0 : k p = .exited .prod 0 printed')
    (hq0 : k q = .exited .cons 0 printed) :
    Sized size printed ∧ printed.flatten <+: fichero ∧
      fichero.length < printed.flatten.length + size := by
  have hpair : Pair jobs p q (readUtmp size fichero) received := ⟨hp, hq, hnone⟩
  obtain ⟨moves, hr⟩ := exists_crew_run hsize hfile
    (hpair.sized fun _ ↦ length_of_mem_readUtmp) h
  obtain ⟨taken, queue, ho⟩ := exists_ordered hsize hpair.receiver hr
  obtain ⟨hgot, hended⟩ := ho.of_exited rfl hq0
  have hprinted : printed = readUtmp size fichero :=
    hgot.trans (hpair.taken_eq ho (hpair.last ho (side_of_run hr) hended).2 rfl hp0)
  rw [hprinted]
  refine ⟨fun _ ↦ length_of_mem_readUtmp, ?_, ?_⟩
  · rw [flatten_readUtmp hlen]
    exact List.take_prefix ..
  · rw [flatten_readUtmp hlen, List.length_take, min_eq_left (Nat.div_mul_le_self ..)]
    exact Nat.lt_div_mul_add hsize

theorem received_whole_example : ∃ (tr : List (Label (Fin 2) (Fin 2)))
    (s : State (Fin 2) (Fin 2)) (k : Fin 2 → Program (Fin 2)) (printed : List (List Byte)),
    ((fifo (Fin 2) (Fin 2)).serving view (next 2) (load id transferJobs)).Run anyStep tr (s, k) ∧
      k 0 = .exited .cons 0 printed ∧ Sized 2 printed ∧ printed.flatten <+: [1, 2, 3, 4, 5] ∧
      5 < printed.flatten.length + 2 := by
  obtain ⟨tr, s, k, hr, hk, hk'⟩ := exists_transfer
  have hp : transferJobs 1 = some (.send (readUtmp 2 [1, 2, 3, 4, 5])) := rfl
  have hq : transferJobs 0 = some (.receive []) := rfl
  have hnone : ∀ r, r ≠ 1 → r ≠ 0 → transferJobs r = none := by decide
  exact ⟨tr, s, k, _, hr, hk,
    received_whole (by decide) injective_id (by decide) hp hq hnone hr hk' hk⟩

end

end DsoFifo.DumpUtmp
