import Mathlib.Algebra.BigOperators.Group.Finset.Basic
import DsoFifo.DumpUtmp.Programs

/-!
# The programs at the pipe

A `Client` is a program with its call.  `Flow` is what a move of a client does to the records
that are on their way, and the ends of the pipe are at least those of the clients that are
inside and at most those of the clients that have been there.

`crew` is the system of the clients; `exists_crew_run` says that the driver and the programs
are that system, since the driver is a pipe to them.
-/

namespace DsoFifo.DumpUtmp

open DsoFifo.C DsoFifo.Fifo DsoFifo.LTS DsoFifo.Pool Function

variable {ι φ : Type}

/-! ## A program at the pipe -/

/-- A program and its call. -/
abbrev Client (φ : Type) : Type := Program φ × Phase φ

/-- The side of the FIFO that a program uses. -/
def Program.side : Program φ → Option Side
  | .other => none
  | .start _ j | .opening _ j => some j.side
  | .close _ m _ _ | .closing m _ _ | .exited m _ _ => some m
  | .sendLoop _ _ | .write _ _ _ => some .prod
  | .receiveLoop _ _ _ | .read _ _ _ => some .cons

/-- Has not got to the pipe. -/
def Client.before : Client φ → Bool
  | (.other, _) | (.start _ _, _) | (.opening _ _, .opening _ _) => true
  | _ => false

/-- Is attached to the pipe. -/
def Client.inside : Client φ → Bool
  | (.opening _ _, .attached _ _) | (.opening _ _, .opened _ _) | (.sendLoop _ _, _)
  | (.write _ _ _, _) | (.receiveLoop _ _ _, _) | (.read _ _ _, _) | (.close _ _ _ _, _)
  | (.closing _ _ _, .releasing _) => true
  | _ => false

/-- Will not use the pipe any more. -/
def Client.past (c : Client φ) : Bool := !c.before && !c.inside

/-- Has met the other side and has not failed. -/
def Client.met : Client φ → Bool
  | (.opening _ _, .opened _ _) | (.sendLoop _ _, _) | (.write _ _ _, _) | (.receiveLoop _ _ _, _)
  | (.read _ _ _, _) | (.close _ _ _ _, _) | (.closing _ _ _, _) => true
  | (.exited _ status _, _) => status = 0
  | _ => false

/-- A receiver that has seen the end of the stream. -/
def Client.ended : Client φ → Bool
  | (.read _ _ _, .returning _ v) => v = 0
  | (.close _ m status _, _) | (.closing m status _, _)
  | (.exited m status _, _) => m = .cons ∧ status = 0
  | _ => false

/-- Attached on this side. -/
def Client.holds (x : Side) (c : Client φ) : Bool := c.inside && decide (c.1.side = some x)

/-- Attached on this side, or has been. -/
def Client.touched (x : Side) (c : Client φ) : Bool := !c.before && decide (c.1.side = some x)

/-- The records that are to be sent. -/
def Job.records : Job → List (List Byte)
  | .send utmpBuf => utmpBuf
  | .receive _ => []

/-- The records that a sender has not put in the pipe. -/
def Client.todo : Client φ → List (List Byte)
  | (.start _ j, _) | (.opening _ j, _) => j.records
  | (.sendLoop _ rest, _) => rest
  | (.write _ cur rest, .returning _ v) => if v < 0 then cur :: rest else rest
  | (.write _ cur rest, _) => cur :: rest
  | _ => []

/-- Has printed these records. -/
def Program.printed : Program φ → List (List Byte)
  | .receiveLoop _ _ printed | .read _ _ printed | .close _ _ _ printed | .closing _ _ printed
  | .exited _ _ printed => printed
  | _ => []

/-- The record that a receiver has taken out and not printed. -/
def Client.inHand : Client φ → List (List Byte)
  | (.read _ _ _, .fetched xs) => [xs]
  | (.read _ received _, .returning _ v) => if v > 0 then [received] else []
  | _ => []

/-- The records that a receiver has taken out of the pipe. -/
def Client.got (c : Client φ) : List (List Byte) := c.1.printed ++ c.inHand

/-- Has been refused, or has left with an error. -/
def Program.failed : Program φ → Bool
  | .close _ _ status _ | .closing _ status _ | .exited _ status _ => status ≠ 0
  | _ => false

theorem Client.inside_of_before {c : Client φ} (h : c.before = true) : c.inside = false := by
  unfold before at h
  split at h <;> first | rfl | cases h

theorem Client.met_of_ended {c : Client φ} (h : c.ended = true) : c.met = true := by
  unfold ended at h
  split at h
  · rfl
  · rfl
  · rfl
  · simp only [decide_eq_true_eq] at h
    exact decide_eq_true h.2
  · cases h

theorem Client.exists_holds {c : Client φ} (h : c.inside = true) :
    ∃ x, c.1.side = some x ∧ c.holds x = true := by
  unfold inside at h
  split at h
  all_goals first | exact ⟨_, rfl, by simp [holds, inside, Program.side]⟩ | cases h

/-! ## Moves -/

variable [DecidableEq φ] {size : ℕ} {w w' : Pipe φ} {c c' : Client φ}

omit [DecidableEq φ] in
theorem ends_detach (w : Pipe φ) (m : Side) : (w.detach m).ends = (w.withdraw m).ends := by
  unfold Pipe.detach
  split <;> rfl

omit [DecidableEq φ] in
theorem files_detach (w : Pipe φ) (m : Side) : (w.detach m).files = w.files := by
  unfold Pipe.detach
  split <;> rfl

/-- A program stays on its side. -/
theorem Moves.side (h : Moves size w c w' c') : c'.1.side = c.1.side := by
  cases h with
  | @opened _ j => cases j <;> rfl
  | _ => rfl

/-- A program has one file, -/
theorem Moves.file (h : Moves size w c w' c') {f : φ} (hf : c'.1.file = some f) :
    c.1.file = some f := by
  cases h with
  | @opened _ j => cases j <;> exact hf
  | fail | sendEnd | close => cases hf
  | _ => exact hf

/-- and opens and closes no other. -/
theorem Moves.files (h : Moves size w c w' c') {f : φ} (hf : c.1.file ≠ some f) :
    w'.files f = w.files f := by
  cases h with
  | opened | sendEnd | close => exact update_of_ne (fun heq ↦ hf (congrArg some heq.symm)) ..
  | detach => rw [files_detach]
  | _ => rfl

omit [DecidableEq φ] in
/-- What a program is at does not depend on the files of others. -/
theorem At.congr {files files' : φ → Option Side} (h : At size files c.1 c.2)
    (hfiles : ∀ f, c.1.file = some f → files' f = files f) : At size files' c.1 c.2 := by
  obtain ⟨k, ph⟩ := c
  cases h with
  | sendLoop hrest hf => exact .sendLoop hrest ((hfiles _ rfl).trans hf)
  | writing hrest hf => exact .writing hrest ((hfiles _ rfl).trans hf)
  | ready hrest hf => exact .ready hrest ((hfiles _ rfl).trans hf)
  | wrote hrest hf hv => exact .wrote hrest ((hfiles _ rfl).trans hf) hv
  | receiveLoop hf => exact .receiveLoop ((hfiles _ rfl).trans hf)
  | reading hf => exact .reading ((hfiles _ rfl).trans hf)
  | fetched hf hxs => exact .fetched ((hfiles _ rfl).trans hf) hxs
  | haveRead hf hv => exact .haveRead ((hfiles _ rfl).trans hf) hv
  | close hf => exact .close ((hfiles _ rfl).trans hf)
  | other => exact .other
  | start hj hf => exact .start hj ((hfiles _ rfl).trans hf)
  | opening hj => exact .opening hj
  | attached hj => exact .attached hj
  | opened hj => exact .opened hj
  | failed hv => exact .failed hv
  | releasing => exact .releasing
  | released => exact .released
  | exited => exact .exited

omit [DecidableEq φ] in
/-- A receiver that has come and has not failed is inside until it sees the end. -/
theorem At.inside {files : φ → Option Side} (h : At size files c.1 c.2)
    (hret : ∀ f v, c.2 = .returning f v → 0 ≤ v) (hfailed : c.1.failed = false)
    (hside : c.1.side = some .cons) (hbefore : c.before = false) (hended : c.ended = false) :
    c.inside = true := by
  obtain ⟨k, ph⟩ := c
  cases h with
  | other | start | opening => cases hbefore
  | failed hv => exact absurd hv (not_lt.mpr (hret _ _ rfl))
  | released | exited =>
      simp [Program.failed] at hfailed
      simp [Client.ended, hfailed] at hended
      exact absurd (Option.some.inj hside) hended
  | _ => rfl

/-- A move leads to where a program can be. -/
theorem Moves.at (h : Moves size w c w' c') (hat : At size w.files c.1 c.2) :
    At size w'.files c'.1 c'.2 := by
  cases h with
  | callOpen => cases hat with | start hj => exact .opening hj
  | attach => cases hat with | opening hj => exact .attached hj
  | meet => cases hat with | attached hj => exact .opened hj
  | giveUp _ hv | refuse hv => exact .failed hv
  | @opened _ j =>
      cases hat with
      | opened hj =>
          cases j with
          | send buf => exact .sendLoop hj (update_self ..)
          | receive received => exact .receiveLoop (update_self ..)
  | fail => exact .exited
  | callWrite => cases hat with | sendLoop hrest hf => exact .writing hrest hf
  | copyIn => cases hat with | writing hrest hf => exact .ready hrest hf
  | store =>
      cases hat with
      | ready hrest hf => exact .wrote (List.forall_mem_cons.mp hrest).2 hf (.inl rfl)
  | @writeFail h cur rest _ _ _ hph hv =>
      obtain ⟨hrest, hf⟩ : Sized size (cur :: rest) ∧ w.files h = some .prod := by
        rcases hph with rfl | rfl
        · cases hat with | writing hrest hf => exact ⟨hrest, hf⟩
        · cases hat with | ready hrest hf => exact ⟨hrest, hf⟩
      exact .wrote (List.forall_mem_cons.mp hrest).2 hf (.inr hv)
  | wrote => cases hat with | wrote hrest hf => exact .sendLoop hrest hf
  | writeExit => cases hat with | wrote hrest hf => exact .close hf
  | sendEnd | close => exact .releasing
  | callRead => cases hat with | receiveLoop hf => exact .reading hf
  | eof => cases hat with | reading hf => exact .haveRead hf (.inr le_rfl)
  | fetch _ hxs => cases hat with | reading hf => exact .fetched hf hxs
  | copyOut => cases hat with | fetched hf => exact .haveRead hf (.inl rfl)
  | readFail hv => cases hat with | reading hf => exact .haveRead hf (.inr hv.le)
  | haveRead => cases hat with | haveRead hf => exact .receiveLoop hf
  | readEnd | readExit => cases hat with | haveRead hf => exact .close hf
  | detach | leak => exact .released
  | exit => exact .exited

/-! ### The records -/

/-- What a move of a client does to the records. -/
inductive Flow (size : ℕ) (w : Pipe φ) (c : Client φ) (w' : Pipe φ) (c' : Client φ) : Prop
  | /-- One goes into the pipe. -/
    store (cur : List Byte) : cur.length = size → w.ends .cons ≠ 0 → c.1.side = some .prod →
      c.inside = true → w'.content = w.content ++ cur → c.todo = cur :: c'.todo →
      c'.got = c.got → Flow size w c w' c'
  | /-- One comes out. -/
    fetch (xs : List Byte) : xs.length = size → c.1.side = some .cons → c.inside = true →
      c'.ended = false → w.content = xs ++ w'.content → c'.todo = c.todo →
      c'.got = c.got ++ [xs] → Flow size w c w' c'
  | /-- Neither; the pipe may be emptied if it has no ends, and the sender may give up. -/
    quiet : w'.content = w.content ∨ w'.content = [] ∧ (∀ x, w'.ends x = 0) →
      c'.todo = c.todo ∨ c'.todo = [] ∧ c'.1.failed = true → c'.got = c.got → Flow size w c w' c'

omit [DecidableEq φ] in
theorem content_detach (w : Pipe φ) (m : Side) : (w.detach m).content = w.content ∨
    (w.detach m).content = [] ∧ ∀ x, (w.detach m).ends x = 0 := by
  unfold Pipe.detach
  split
  · exact .inr ⟨rfl, ‹_›⟩
  · exact .inl rfl

theorem Moves.flow (hsize : 0 < size) (h : Moves size w c w' c') : Flow size w c w' c' := by
  cases h with
  | @store _ cur _ hends hcur =>
      refine .store cur hcur hends rfl rfl rfl ?_ rfl
      simp [Client.todo]
  | @fetch _ _ xs _ _ hcontent hxs =>
      refine .fetch xs hxs rfl rfl rfl hcontent rfl ?_
      simp [Client.got, Client.inHand, Program.printed]
  | detach => exact .quiet (content_detach ..) (.inl rfl) rfl
  | @opened _ j => cases j <;> exact .quiet (.inl rfl) (.inl rfl) rfl
  | fail | writeExit => exact .quiet (.inl rfl) (.inr ⟨rfl, rfl⟩) rfl
  | writeFail hph hv =>
      rcases hph with rfl | rfl <;> exact .quiet (.inl rfl) (.inl (by simp [Client.todo, hv])) rfl
  | wrote => exact .quiet (.inl rfl) (.inl (by simp [Client.todo])) rfl
  | copyOut | haveRead =>
      refine .quiet (.inl rfl) (.inl rfl) ?_
      simp [Client.got, Client.inHand, Program.printed, hsize]
  | readFail hv | readExit hv =>
      refine .quiet (.inl rfl) (.inl rfl) ?_
      simp [Client.got, Client.inHand, Program.printed, hv.not_gt]
  | _ => exact .quiet (.inl rfl) (.inl rfl) rfl

/-! ### Where a client gets -/

theorem Moves.before (h : Moves size w c w' c') (hc : c'.before = true) : c.before = true := by
  cases h with
  | @opened _ j => cases j <;> cases hc
  | _ => first | rfl | cases hc

theorem Moves.not_before (h : Moves size w c w' c') (hc : c.before = false) :
    c'.before = false := Bool.eq_false_of_not_eq_true (mt h.before (by simp [hc]))

theorem Moves.past (h : Moves size w c w' c') (hc : c.past = true) : c'.past = true := by
  cases h with
  | @opened _ j => cases hc
  | writeFail hph => rcases hph with rfl | rfl <;> cases hc
  | _ => first | rfl | cases hc

theorem Moves.failed (h : Moves size w c w' c') (hc : c.1.failed = true) : c'.1.failed = true := by
  cases h with
  | @opened _ j => cases hc
  | _ => first | exact hc | cases hc

/-- Only by meeting the other side does a client get in. -/
theorem Moves.met (h : Moves size w c w' c') (hc : c'.met = true) : c.met = true ∨
    ∃ x, c.1.side = some x ∧ w.ends x.other ≠ 0 := by
  cases h with
  | meet hends => exact .inr ⟨_, rfl, hends⟩
  | opened => exact .inl rfl
  | _ => first | exact .inl hc | exact .inl rfl

/-- The end of the stream is seen when there are no senders and nothing is left. -/
theorem Moves.ended (hsize : 0 < size) (h : Moves size w c w' c') (hc : c'.ended = true) :
    c.ended = true ∨ w.ends .prod = 0 ∧ w.content = [] ∧ c.inside = true ∧ c.met = true := by
  cases h with
  | eof hends hcontent => exact .inr ⟨hends, hcontent, rfl, rfl⟩
  | @opened _ j => cases j <;> cases hc
  | readEnd => exact .inl rfl
  | fail | copyOut | readFail hv | readExit hv =>
      simp [Client.ended] at hc
      try omega
  | _ => first | exact .inl hc | cases hc

theorem Moves.printed (h : Moves size w c w' c') (hc : c.1.printed = [])
    (hside : c'.1.side = some .prod) : c'.1.printed = [] := by
  cases h with
  | @opened _ j => cases j <;> rfl
  | haveRead => cases hside
  | _ => exact hc

/-! ### The ends -/

/-- A client gets an end when it gets in, and leaves with it or without it. -/
theorem Moves.ends (h : Moves size w c w' c') :
    w'.ends = w.ends ∧ (c'.inside = true → c.inside = true) ∨
    ∃ m, c.1.side = some m ∧
      (c.before = true ∧ c'.before = false ∧ w'.ends = (w.attach m).ends ∨
        c.inside = true ∧ c'.inside = false ∧ w.ends m ≠ 0 ∧ w'.ends = (w.withdraw m).ends) := by
  cases h with
  | @attach _ j => exact .inr ⟨j.side, rfl, .inl ⟨rfl, rfl, rfl⟩⟩
  | @giveUp _ j _ _ hends => exact .inr ⟨j.side, rfl, .inr ⟨rfl, rfl, hends, rfl⟩⟩
  | @detach m _ _ _ _ hends => exact .inr ⟨m, rfl, .inr ⟨rfl, rfl, hends, ends_detach ..⟩⟩
  | _ => exact .inl ⟨rfl, fun hin ↦ by first | exact hin | rfl⟩

/-- There are ends for the clients that are inside, -/
theorem Moves.holds_le (h : Moves size w c w' c') (x : Side) {n : ℕ}
    (hn : n + (c.holds x).toNat ≤ w.ends x) : n + (c'.holds x).toNat ≤ w'.ends x := by
  have hside := h.side
  rcases h.ends with ⟨hends, hin⟩ | ⟨m, hm, ⟨hc, -, hends⟩ | ⟨hc, hc', -, hends⟩⟩
  · have hle : (c'.holds x).toNat ≤ (c.holds x).toNat := by
      cases hc' : c'.inside with
      | false => simp [Client.holds, hc']
      | true => simp [Client.holds, hc', hin hc', hside]
    rw [hends]
    omega
  · by_cases hx : x = m
    · have hle := Bool.toNat_le (c'.holds x)
      simp only [hends, hx, Pipe.attach, update_self] at hn hle ⊢
      omega
    · simpa [Client.holds, hside, hm, Ne.symm hx, hends, Pipe.attach, update_of_ne hx] using
        (Nat.le_add_right ..).trans hn
  · by_cases hx : x = m
    · subst hx
      simp [Client.holds, hc, hm] at hn
      simp [Client.holds, hc', hends, Pipe.withdraw]
      omega
    · simpa [Client.holds, hside, hm, Ne.symm hx, hends, Pipe.withdraw, update_of_ne hx] using
        (Nat.le_add_right ..).trans hn

/-- and no others than of those that have been there. -/
theorem Moves.le_touched (h : Moves size w c w' c') (x : Side) {n : ℕ}
    (hn : w.ends x ≤ n + (c.touched x).toNat) : w'.ends x ≤ n + (c'.touched x).toNat := by
  have hside := h.side
  have hmono : (c.touched x).toNat ≤ (c'.touched x).toNat := by
    cases hc' : c'.before with
    | false =>
        refine Bool.toNat_le_toNat fun htouched ↦ ?_
        simpa [Client.touched, hside, hc'] using (Bool.and_eq_true_iff.mp htouched).2
    | true => simp [Client.touched, h.before hc']
  rcases h.ends with ⟨hends, -⟩ | ⟨m, hm, ⟨hc, hc', hends⟩ | ⟨-, -, -, hends⟩⟩
  · rw [hends]
    omega
  · by_cases hx : x = m
    · subst hx
      simp [Client.touched, hc] at hn
      simp [Client.touched, hc', hside, hm, hends, Pipe.attach]
      omega
    · simp only [hends, Pipe.attach, update_of_ne hx]
      omega
  · by_cases hx : x = m
    · simp only [hends, hx, Pipe.withdraw, update_self] at hn hmono ⊢
      omega
    · simp only [hends, Pipe.withdraw, update_of_ne hx]
      omega

/-! ## All clients -/

/-- The pipe and the clients; a step is labelled with the client that moves. -/
def crew [DecidableEq ι] (size : ℕ) (programs : ι → Program φ) :
    LTS (Pipe φ × (ι → Client φ)) ι where
  Init s := s = (.empty, fun p ↦ (programs p, .idle))
  Step s p t := ∃ w c, Moves size s.1 (s.2 p) w c ∧ t = (w, update s.2 p c)

/-- The programs in memory: each process has its job, if it has one, and its file. -/
def load (file : ι → φ) (jobs : ι → Option Job) (p : ι) : Program φ :=
  match jobs p with
  | none => .other
  | some j => .start (file p) j

section

variable [DecidableEq ι] {file : ι → φ} {jobs : ι → Option Job}

/-- The pipe with the programs. -/
abbrev pipeSystem (size : ℕ) (file : ι → φ) (jobs : ι → Option Job) :
    LTS ((Pipe φ × (ι → Phase φ)) × (ι → Program φ)) (ι × Option (Event φ)) :=
  (pipe ι φ).serving Pipe.view (next size) (load file jobs)

/-- Every client is where a client can be, and has its own file. -/
def Placed (size : ℕ) (file : ι → φ) (s : (Pipe φ × (ι → Phase φ)) × (ι → Program φ)) : Prop :=
  ∀ p, At size s.1.1.files (s.2 p) (s.1.2 p) ∧ ∀ f, (s.2 p).file = some f → f = file p

/-- A step of the pipe with the programs is a move. -/
theorem moves_of_step (hsize : 0 < size) {s t : (Pipe φ × (ι → Phase φ)) × (ι → Program φ)}
    {l : ι × Option (Event φ)} (hs : Placed size file s)
    (hst : (pipeSystem size file jobs).Step s l t) :
    ∃ w k ph, Moves size s.1.1 (s.2 l.1, s.1.2 l.1) w (k, ph) ∧
      t = ((w, update s.1.2 l.1 ph), update s.2 l.1 k) := by
  obtain ⟨⟨w₀, phs⟩, ks⟩ := s
  obtain ⟨p, o⟩ := l
  obtain ⟨u, ks'⟩ := t
  obtain ⟨⟨w, ph, hacts, rfl⟩, hobs⟩ := hst
  obtain ⟨k, hk, rfl⟩ : ∃ k, (o.elim (ks p = k) fun e ↦ next size (ks p) e = some k) ∧
      ks' = update ks p k := by
    cases o with
    | none => exact ⟨ks p, rfl, by simpa [Pipe.view, observe] using hobs.symm⟩
    | some e =>
        obtain ⟨k, hk, heq⟩ := Option.bind_eq_some_iff.mp hobs
        exact ⟨k, hk, (Option.some.inj heq).symm⟩
  exact ⟨w, k, ph, moves_of_acts hsize (hs p).1 hacts hk, rfl⟩

theorem placed_of_run (hsize : 0 < size) (hfile : Injective file)
    (hjobs : ∀ p j, jobs p = some j → j.Sized size) {ops : List (ι × Option (Event φ))}
    {s : (Pipe φ × (ι → Phase φ)) × (ι → Program φ)}
    (h : (pipeSystem size file jobs).Run anyStep ops s) :
    Placed size file s := by
  refine Run.invariant ?_ ?_ h
  · rintro ⟨-, -⟩ ⟨rfl, rfl⟩ p
    dsimp only [load]
    cases hj : jobs p with
    | none => exact ⟨.other, fun f hf ↦ by cases hf⟩
    | some j => exact ⟨.start (hjobs p j hj) rfl, fun f hf ↦ (Option.some.inj hf).symm⟩
  · rintro s l t hs - hst
    obtain ⟨w, k, ph, hm, rfl⟩ := moves_of_step hsize hs hst
    intro p
    by_cases hp : p = l.1
    · subst hp
      simp only [update_self]
      exact ⟨hm.at (hs _).1, fun f hf ↦ (hs _).2 f (hm.file hf)⟩
    · simp only [update_of_ne hp]
      refine ⟨At.congr (c := (s.2 p, s.1.2 p)) (hs p).1 fun f hf ↦ hm.files fun hf' ↦ hp ?_,
        (hs p).2⟩
      exact hfile (((hs p).2 f hf).symm.trans ((hs _).2 f hf'))

/-- The pipe with the programs is the crew. -/
theorem crew_of_run (hsize : 0 < size) (hfile : Injective file)
    (hjobs : ∀ p j, jobs p = some j → j.Sized size) {ops : List (ι × Option (Event φ))}
    {s : (Pipe φ × (ι → Phase φ)) × (ι → Program φ)}
    (h : (pipeSystem size file jobs).Run anyStep ops s) :
    (crew size (load file jobs)).Run anyStep (ops.map Prod.fst)
      (s.1.1, fun p ↦ (s.2 p, s.1.2 p)) := by
  rw [List.map_eq_flatMap]
  refine Run.map (fun s ↦ (s.1.1, fun p ↦ (s.2 p, s.1.2 p))) (fun l ↦ [l.1]) ?_ ?_ h
  · rintro ⟨-, -⟩ ⟨rfl, rfl⟩
    rfl
  · rintro tr s l t hr - hst
    obtain ⟨w, k, ph, hm, rfl⟩ :=
      moves_of_step hsize (placed_of_run hsize hfile hjobs hr) hst
    refine .single trivial ⟨w, (k, ph), hm, Prod.ext rfl (funext fun p ↦ ?_)⟩
    by_cases hp : p = l.1
    · subst hp
      simp only [update_self]
    · simp only [update_of_ne hp]

/-- The driver with the programs looks like the pipe with the programs, -/
theorem exists_pipeSystem_run [Fintype ι] {tr : List (Label ι φ)} {s : State ι φ}
    {k : ι → Program φ}
    (h : ((fifo ι φ).serving view (next size) (load file jobs)).Run anyStep tr (s, k)) :
    ∃ ops, (pipeSystem size file jobs).Run anyStep ops (s.pipe, k) := by
  obtain ⟨ops, hops, hview⟩ := exists_pipe_run ((serving_run_iff (P := anyStep)).mp h).1
  exact ⟨ops, serving_of_view_eq (P := anyStep) (Q := anyStep) h hops hview⟩

/-- **and is the crew.** -/
theorem exists_crew_run [Fintype ι] (hsize : 0 < size) (hfile : Injective file)
    (hjobs : ∀ p j, jobs p = some j → j.Sized size) {tr : List (Label ι φ)} {s : State ι φ}
    {k : ι → Program φ}
    (h : ((fifo ι φ).serving view (next size) (load file jobs)).Run anyStep tr (s, k)) :
    ∃ moves, (crew size (load file jobs)).Run anyStep moves
      (s.pipe.1, fun p ↦ (k p, (s.pc p).phase)) := by
  obtain ⟨ops, hops⟩ := exists_pipeSystem_run h
  exact ⟨_, crew_of_run hsize hfile hjobs hops⟩

end

/-! ## Runs of the crew -/

omit [DecidableEq φ] in
/-- Where an end is, somebody has come. -/
theorem exists_touched [Fintype ι] {cs : ι → Client φ} {x : Side}
    (h : w.ends x ≤ count (Client.touched x) cs) (hx : w.ends x ≠ 0) :
    ∃ p, (cs p).1.side = some x ∧ (cs p).before = false := by
  by_contra! hnone
  have hzero : count (Client.touched x) cs = 0 := count_eq_zero.mpr fun p ↦ by
    by_cases hp : (cs p).1.side = some x
    · simpa [Client.touched, hp] using hnone p hp
    · simp [Client.touched, hp]
  exact hx (Nat.le_zero.mp (hzero ▸ h))

omit [DecidableEq φ] in
/-- Where no end is, nobody is inside. -/
theorem inside_eq_false [Fintype ι] {cs : ι → Client φ} {n : ℕ} {x : Side}
    (h : count (Client.holds x) cs ≤ n) (hn : n = 0) {p : ι} (hp : (cs p).1.side = some x) :
    (cs p).inside = false := by
  have hholds := count_eq_zero.mp (Nat.le_zero.mp (hn ▸ h)) p
  simpa [Client.holds, hp] using hholds

section

variable [DecidableEq ι] {file : ι → φ} {jobs : ι → Option Job} {moves : List ι}
  {cs : ι → Client φ}

/-- A client stays on the side of its job. -/
theorem side_of_run (h : (crew size (load file jobs)).Run anyStep moves (w, cs)) (p : ι) :
    (cs p).1.side = (jobs p).map Job.side := by
  refine Run.invariant (I := fun s ↦ ∀ p, (s.2 p).1.side = (jobs p).map Job.side) ?_ ?_ h p
  · rintro s rfl p
    dsimp only [load]
    cases jobs p <;> rfl
  · rintro s q t ih - ⟨w, c, hm, rfl⟩ p
    by_cases hp : p = q
    · subst hp
      simpa only [update_self, hm.side] using ih p
    · simpa only [update_of_ne hp] using ih p

/-- **The ends**, between those that are inside and those that have been. -/
theorem ends_of_run [Fintype ι] (h : (crew size (load file jobs)).Run anyStep moves (w, cs))
    (x : Side) : count (Client.holds x) cs ≤ w.ends x ∧ w.ends x ≤ count (Client.touched x) cs := by
  refine Run.invariant (I := fun s : Pipe φ × (ι → Client φ) ↦
    count (Client.holds x) s.2 ≤ s.1.ends x ∧ s.1.ends x ≤ count (Client.touched x) s.2) ?_ ?_ h
  · rintro s rfl
    refine ⟨(count_eq_zero.mpr fun p ↦ ?_).le, Nat.zero_le _⟩
    dsimp only [load]
    cases jobs p <;> rfl
  · rintro s q t ⟨hle, hle'⟩ - ⟨w, c, hm, rfl⟩
    have hsplit (P : Client φ → Bool) (hP : P (.other, .idle) = false) (c : Client φ) :=
      count_eq_add (update s.2 q c) q hP
    simp only [update_idem, update_self] at hsplit
    rw [count_eq_add s.2 q (z := (.other, .idle)) rfl] at hle hle'
    dsimp only
    rw [hsplit (Client.holds x) rfl, hsplit (Client.touched x) rfl]
    exact ⟨hm.holds_le x hle, hm.le_touched x hle'⟩

/-- A sender prints nothing. -/
theorem printed_of_sender (h : (crew size (load file jobs)).Run anyStep moves (w, cs)) {p : ι}
    (hp : (cs p).1.side = some .prod) : (cs p).1.printed = [] := by
  refine Run.invariant (I := fun s : Pipe φ × (ι → Client φ) ↦
    ∀ p, (s.2 p).1.side = some .prod → (s.2 p).1.printed = []) ?_ ?_ h p hp
  · rintro s rfl p -
    dsimp only [load]
    cases jobs p <;> rfl
  · rintro s q t ih - ⟨w, c, hm, rfl⟩ p hp
    by_cases hpq : p = q
    · subst hpq
      simp only [update_self] at hp ⊢
      exact hm.printed (ih p (hm.side.symm.trans hp)) hp
    · simp only [update_of_ne hpq] at hp ⊢
      exact ih p hp

/-- Whoever has met the other side finds that somebody of it has come. -/
theorem come_of_run [Fintype ι] (h : (crew size (load file jobs)).Run anyStep moves (w, cs))
    {p : ι} {x : Side} (hmet : (cs p).met = true) (hp : (cs p).1.side = some x) :
    ∃ q, (cs q).1.side = some x.other ∧ (cs q).before = false := by
  refine Run.induction (J := fun (_ : List ι) (s : Pipe φ × (ι → Client φ)) ↦ ∀ p x,
    (s.2 p).met = true → (s.2 p).1.side = some x →
      ∃ q, (s.2 q).1.side = some x.other ∧ (s.2 q).before = false) ?_ ?_ h p x hmet hp
  · rintro s rfl p x hmet
    dsimp only [load] at hmet
    cases hj : jobs p <;> rw [hj] at hmet <;> cases hmet
  · rintro moves ⟨w, cs⟩ r t hr ih - ⟨w', c, hm, rfl⟩ p x hmet hp
    have hcome : ∃ q, (cs q).1.side = some x.other ∧ (cs q).before = false := by
      by_cases hpr : p = r
      · subst hpr
        dsimp only at hmet hp
        rw [update_self] at hmet hp
        rcases hm.met hmet with hmet | ⟨y, hy, hends⟩
        · exact ih p x hmet (hm.side.symm.trans hp)
        · obtain rfl := Option.some.inj (hy.symm.trans (hm.side.symm.trans hp))
          exact exists_touched (ends_of_run hr y.other).2 hends
      · dsimp only at hmet hp
        rw [update_of_ne hpr] at hmet hp
        exact ih p x hmet hp
    obtain ⟨q, hq, hb⟩ := hcome
    refine ⟨q, ?_, ?_⟩
    · rw [← hq]
      exact rel_update (R := fun c c' : Client φ ↦ c'.1.side = c.1.side) (fun _ ↦ rfl) cs hm.side q
    · exact rel_update (R := fun c c' : Client φ ↦ c.before = false → c'.before = false)
        (fun _ h ↦ h) cs hm.not_before q hb

end

end DsoFifo.DumpUtmp
