import DsoFifo.Transition.LTS
import DsoFifo.Transition.Pool

/-!
# Processes that share a memory

A function that any number of processes may be in at the same time, at control points of type
`κ`, over a memory of type `μ` that all of them see.  A `Code` says how a call begins and what
a step from a control point does; `system` lets the processes take their steps in any order.

`step_iff` is what a step can be; `counts_step` and `known_step` are the rules for invariants of
all processes, from what one of them does, `logged_of_run` the rule for what each call has done,
and `done_or_pc_eq` the rule for a process that gets on with every step of its own.  What the
function does when nobody disturbs it is a path under the guard `Alone`, and `exists_path_loop` is
the rule for its loops.
-/

universe u

namespace DsoFifo.Processes

open Function LTS

/-- What the processes run. -/
structure Code (γ α μ κ ε : Type u) where
  /-- Outside of the function. -/
  idle : κ
  /-- The beginning of a call. -/
  enter : γ → κ × List ε
  /-- A step from a control point. -/
  run : μ → κ → α → Option (μ × κ × List ε)

/-- The memory, and where the processes are. -/
structure State (ι μ κ : Type u) where
  mem : μ
  pc : ι → κ

/-- What happens next. -/
inductive Move (ι γ α : Type u) where
  | call (p : ι) (c : γ)
  | act (p : ι) (a : α)
deriving DecidableEq

variable {ι γ α μ κ ε : Type u}

/-- The process that moves. -/
def Move.proc : Move ι γ α → ι
  | .call p _ | .act p _ => p

/-- The label of a step. -/
abbrev Label (ι γ α ε : Type u) : Type u := Io (Move ι γ α) (List ε)

/-- Everybody outside. -/
def initial (code : Code γ α μ κ ε) (mem : μ) : State ι μ κ := ⟨mem, fun _ ↦ code.idle⟩

section

variable [DecidableEq ι] [DecidableEq κ]

/-- One step of the system. -/
def step (code : Code γ α μ κ ε) (s : State ι μ κ) : Move ι γ α → Option (State ι μ κ × List ε)
  | .call p c =>
    if s.pc p = code.idle then some (⟨s.mem, update s.pc p (code.enter c).1⟩, (code.enter c).2)
    else none
  | .act p a =>
    (code.run s.mem (s.pc p) a).map fun (mem, pc, evs) ↦ (⟨mem, update s.pc p pc⟩, evs)

/-- The processes, from this memory on. -/
def system (ι : Type u) [DecidableEq ι] (code : Code γ α μ κ ε) (mem : μ) :
    LTS (State ι μ κ) (Label ι γ α ε) :=
  .ofStep (fun s ↦ s = initial code mem) (step code)

/-- A step, taken apart. -/
inductive Takes (code : Code γ α μ κ ε) (s : State ι μ κ) : Label ι γ α ε → State ι μ κ → Prop
  | call {p : ι} (c : γ) (hp : s.pc p = code.idle) :
      Takes code s ⟨.call p c, (code.enter c).2⟩ ⟨s.mem, update s.pc p (code.enter c).1⟩
  | act {p : ι} {a : α} {mem : μ} {pc : κ} {evs : List ε}
      (hrun : code.run s.mem (s.pc p) a = some (mem, pc, evs)) :
      Takes code s ⟨.act p a, evs⟩ ⟨mem, update s.pc p pc⟩

variable {code : Code γ α μ κ ε} {s t : State ι μ κ} {l : Label ι γ α ε} {mem mem₀ : μ} {p : ι}

theorem step_iff : (system ι code mem₀).Step s l t ↔ Takes code s l t := by
  obtain ⟨i, evs⟩ := l
  change step code s i = some (t, evs) ↔ _
  constructor
  · intro hst
    cases i with
    | call p c =>
        simp only [step] at hst
        split at hst
        · obtain ⟨rfl, rfl⟩ := Prod.mk.inj (Option.some.inj hst)
          exact .call c ‹_›
        · cases hst
    | act p a =>
        obtain ⟨⟨mem, pc, evs'⟩, hrun, heq⟩ := Option.map_eq_some_iff.mp hst
        obtain ⟨rfl, rfl⟩ := Prod.mk.inj heq
        exact .act hrun
  · intro htakes
    cases htakes with
    | call c hp => exact if_pos hp
    | act hrun => rw [step, hrun, Option.map_some]

/-- A step leaves the other processes where they are. -/
theorem pc_of_proc_ne (hst : (system ι code mem₀).Step s l t) (hp : l.input.proc ≠ p) :
    t.pc p = s.pc p := by
  cases step_iff.mp hst with
  | call _ _ | act _ => exact update_of_ne (Ne.symm hp) _ _

/-- A replay of moves is a run. -/
theorem exists_run (code : Code γ α μ κ ε) (mem : μ)
    (P : State ι μ κ → Label ι γ α ε → Prop) [∀ s l, Decidable (P s l)]
    (is : List (Move ι γ α)) (good : State ι μ κ → Bool)
    (h : (LTS.replay (step code) (fun s l ↦ decide (P s l)) (initial code mem) is).any good =
      true) :
    ∃ tr s, (system ι code mem).Run P tr s ∧ good s = true := by
  obtain ⟨tr, s, hr, hg⟩ := exists_run_of_replay (fun s ↦ s = initial code mem) rfl h
  exact ⟨tr, s, hr.mono fun _ _ ↦ of_decide_eq_true, hg⟩

/-! ## Invariants -/

/-- **What the processes contribute to.**  A relation between the memory and the numbers of
processes of several kinds is kept if every step of one process keeps it next to any numbers
`n` of others. -/
theorem counts_step [Fintype ι] {J : Type u} {P : J → κ → Bool} {R : μ → (J → ℕ) → Prop}
    (hidle : ∀ j, P j code.idle = false) (henter : ∀ j c, P j (code.enter c).1 = false)
    (hst : (system ι code mem₀).Step s l t)
    (hrun : ∀ p a mem pc evs (n : J → ℕ), l.input = .act p a →
      code.run s.mem (s.pc p) a = some (mem, pc, evs) →
      R s.mem (fun j ↦ n j + (P j (s.pc p)).toNat) → R mem fun j ↦ n j + (P j pc).toNat)
    (h : R s.mem fun j ↦ Pool.count (P j) s.pc) : R t.mem fun j ↦ Pool.count (P j) t.pc := by
  cases step_iff.mp hst with
  | @call p c hp =>
      have hcount (j : J) : Pool.count (P j) (update s.pc p (code.enter c).1) =
          Pool.count (P j) s.pc := by
        have hupdate := Pool.count_update (P j) s.pc p (code.enter c).1
        rwa [hp, hidle, henter, Nat.add_right_cancel_iff] at hupdate
      simpa only [hcount] using h
  | @act p a mem pc evs hact =>
      have hbefore (j : J) : Pool.count (P j) s.pc =
          Pool.count (P j) (update s.pc p code.idle) + (P j (s.pc p)).toNat :=
        Pool.count_eq_add s.pc p (hidle j)
      have hafter (j : J) : Pool.count (P j) (update s.pc p pc) =
          Pool.count (P j) (update s.pc p code.idle) + (P j pc).toNat := by
        rw [Pool.count_eq_add _ p (hidle j), update_idem, update_self]
      simp only [hbefore] at h
      simpa only [hafter] using hrun p a mem pc evs _ rfl hact h

/-- The same for processes of one kind. -/
theorem count_step [Fintype ι] {P : κ → Bool} {R : μ → ℕ → Prop} (hidle : P code.idle = false)
    (henter : ∀ c, P (code.enter c).1 = false) (hst : (system ι code mem₀).Step s l t)
    (hrun : ∀ p a mem pc evs n, code.run s.mem (s.pc p) a = some (mem, pc, evs) →
      R s.mem (n + (P (s.pc p)).toNat) → R mem (n + (P pc).toNat))
    (h : R s.mem (Pool.count P s.pc)) : R t.mem (Pool.count P t.pc) :=
  counts_step (J := PUnit) (P := fun _ ↦ P) (R := fun mem n ↦ R mem (n .unit)) (fun _ ↦ hidle)
    (fun _ ↦ henter) hst (fun p a mem pc evs n _ ↦ hrun p a mem pc evs (n .unit)) h

/-- **What every process knows.**  It is kept if a process knows it where its step ends, and
the others still do. -/
theorem known_step {K : μ → κ → Prop} (hst : (system ι code mem₀).Step s l t)
    (henter : ∀ c, K s.mem (code.enter c).1)
    (hself : ∀ p a mem pc evs, code.run s.mem (s.pc p) a = some (mem, pc, evs) → K mem pc)
    (hothers : ∀ p a mem pc evs q, code.run s.mem (s.pc p) a = some (mem, pc, evs) → q ≠ p →
      K mem (s.pc q))
    (h : ∀ q, K s.mem (s.pc q)) (q : ι) : K t.mem (t.pc q) := by
  cases step_iff.mp hst with
  | @call p c hp =>
      by_cases hq : q = p
      · subst hq
        simpa only [update_self] using henter c
      · simpa only [update_of_ne hq] using h q
  | @act p a mem pc evs hact =>
      by_cases hq : q = p
      · subst hq
        simpa only [update_self] using hself q a mem pc evs hact
      · simpa only [update_of_ne hq] using hothers p a mem pc evs q hact hq

/-! ## What the calls do -/

/-- The calls of a process, the last one first, with the events of a step added. -/
def record (p : ι) (cs : List (γ × List ε)) (l : Label ι γ α ε) : List (γ × List ε) :=
  if l.input.proc = p then
    match l.input, cs with
    | .call _ c, cs => (c, l.output) :: cs
    | .act _ _, (c, evs) :: cs => (c, evs ++ l.output) :: cs
    | .act _ _, [] => []
  else cs

/-- The calls of a process, the last one first, with the events of each. -/
def calls (p : ι) (tr : List (Label ι γ α ε)) : List (γ × List ε) := tr.foldl (record p) []

/-- The process is at `pc`, the last call has done what `K` says of this point, and those before
it have done what `K` says of a call that is over. -/
def Logged (K : κ → γ → List ε → Prop) (idle pc : κ) : List (γ × List ε) → Prop
  | [] => pc = idle
  | (c, evs) :: cs => K pc c evs ∧ ∀ e ∈ cs, K idle e.1 e.2

omit [DecidableEq κ] in
theorem calls_snoc (p : ι) (tr : List (Label ι γ α ε)) (l : Label ι γ α ε) :
    calls p (tr ++ [l]) = record p (calls p tr) l := by
  rw [calls, List.foldl_append, calls, List.foldl_cons, List.foldl_nil]

omit [DecidableEq κ] in
/-- The steps of the others are not recorded. -/
theorem record_of_ne {cs : List (γ × List ε)} (hl : l.input.proc ≠ p) : record p cs l = cs :=
  if_neg hl

omit [DecidableEq ι] [DecidableEq κ] in
theorem Logged.mono {K K' : κ → γ → List ε → Prop} {idle pc : κ} {cs : List (γ × List ε)}
    (h : Logged K idle pc cs) (hpc : ∀ c evs, K pc c evs → K' pc c evs)
    (hidle : ∀ c evs, K idle c evs → K' idle c evs) : Logged K' idle pc cs := by
  cases cs with
  | nil => exact h
  | cons e cs => exact ⟨hpc _ _ h.1, fun e' he' ↦ hidle _ _ (h.2 e' he')⟩

omit [DecidableEq ι] [DecidableEq κ] in
theorem Logged.map {κ' : Type u} {K : κ' → γ → List ε → Prop} (f : κ → κ') {idle pc : κ}
    {cs : List (γ × List ε)} (h : Logged (fun pc ↦ K (f pc)) idle pc cs) :
    Logged K (f idle) (f pc) cs := by
  cases cs with
  | nil => exact congrArg f h
  | cons e cs => exact h

omit [DecidableEq ι] [DecidableEq κ] in
/-- Outside of the function all calls are over. -/
theorem Logged.forall_mem {K : κ → γ → List ε → Prop} {idle : κ} {cs : List (γ × List ε)}
    (h : Logged K idle idle cs) : ∀ e ∈ cs, K idle e.1 e.2 := by
  cases cs with
  | nil => nofun
  | cons e cs =>
      intro e' he'
      rcases List.mem_cons.mp he' with rfl | he'
      · exact h.1
      · exact h.2 e' he'

omit [DecidableEq ι] [DecidableEq κ] in
/-- A process that is in the function is in a call. -/
theorem Logged.exists_cons {K : κ → γ → List ε → Prop} {idle pc : κ} {cs : List (γ × List ε)}
    (h : Logged K idle pc cs) (hpc : pc ≠ idle) :
    ∃ c evs cs', cs = (c, evs) :: cs' ∧ K pc c evs ∧ ∀ e ∈ cs', K idle e.1 e.2 := by
  cases cs with
  | nil => exact absurd h hpc
  | cons e cs => exact ⟨e.1, e.2, cs, rfl, h⟩

omit [DecidableEq ι] [DecidableEq κ] in
theorem ne_idle_of_run (hidle : ∀ mem a, code.run mem code.idle a = none) {pc : κ} {a : α}
    {o : μ × κ × List ε} (hrun : code.run mem pc a = some o) : pc ≠ code.idle := by
  rintro rfl
  rw [hidle] at hrun
  cases hrun

/-- **What the calls have done.**  It is known of all of them if it is known where a call begins,
the steps of a process add to what is known of its own call, and they leave what the others
know. -/
theorem logged_of_run {K : μ → κ → γ → List ε → Prop}
    {P : State ι μ κ → Label ι γ α ε → Prop} (hidle : ∀ mem a, code.run mem code.idle a = none)
    (hdone : ∀ {mem mem' c evs}, K mem code.idle c evs → K mem' code.idle c evs)
    (henter : ∀ mem c, K mem (code.enter c).1 c (code.enter c).2)
    (hself : ∀ {tr s p a mem pc evs}, (system ι code mem₀).Run P tr s →
      code.run s.mem (s.pc p) a = some (mem, pc, evs) →
      ∀ c before, K s.mem (s.pc p) c before → K mem pc c (before ++ evs))
    (hothers : ∀ {tr s p a mem pc evs q}, (system ι code mem₀).Run P tr s →
      code.run s.mem (s.pc p) a = some (mem, pc, evs) → q ≠ p →
      ∀ c before, K s.mem (s.pc q) c before → K mem (s.pc q) c before)
    {tr : List (Label ι γ α ε)} (h : (system ι code mem₀).Run P tr s) (p : ι) :
    Logged (K s.mem) code.idle (s.pc p) (calls p tr) := by
  refine Run.induction
    (J := fun tr s ↦ ∀ p, Logged (K s.mem) code.idle (s.pc p) (calls p tr)) ?_ ?_ h p
  · rintro s rfl p
    exact rfl
  · intro tr s l t hr ih _ hst p
    have hp := ih p
    rw [calls_snoc]
    by_cases hl : l.input.proc = p
    · subst hl
      cases step_iff.mp hst with
      | @call q c hq =>
          simp only [record, Move.proc, if_pos, update_self] at hp ⊢
          rw [hq] at hp
          exact ⟨henter _ c, hp.forall_mem⟩
      | @act q a mem pc evs hrun =>
          obtain ⟨c, before, cs, hcs, hK, hcalls⟩ := hp.exists_cons (ne_idle_of_run hidle hrun)
          simp only [record, Move.proc, if_pos, update_self] at hcs ⊢
          rw [hcs]
          exact ⟨hself hr hrun c before hK, fun e he ↦ hdone (hcalls e he)⟩
    · rw [record_of_ne hl, pc_of_proc_ne hst hl]
      cases step_iff.mp hst with
      | call c hq => exact hp
      | act hrun => exact hp.mono (hothers hr hrun (Ne.symm hl)) fun _ _ ↦ hdone

/-- Nothing is done outside of the calls. -/
theorem outputs_eq_flatMap_calls {P : State ι μ κ → Label ι γ α ε → Prop}
    (hidle : ∀ mem a, code.run mem code.idle a = none) {tr : List (Label ι γ α ε)}
    (h : (system ι code mem₀).Run P tr s) (p : ι) :
    (tr.filter (·.input.proc = p)).flatMap Io.output = (calls p tr).reverse.flatMap Prod.snd := by
  refine Run.induction (J := fun tr _ ↦ (tr.filter (·.input.proc = p)).flatMap Io.output =
    (calls p tr).reverse.flatMap Prod.snd) (fun _ _ ↦ rfl) ?_ h
  intro tr s l t hr ih _ hst
  have hlog := logged_of_run (K := fun _ _ _ _ ↦ True) hidle (fun _ ↦ trivial)
    (fun _ _ ↦ trivial) (fun _ _ _ _ _ ↦ trivial) (fun _ _ _ _ _ _ ↦ trivial) hr p
  rw [calls_snoc, List.filter_append, List.flatMap_append, ih]
  by_cases hl : l.input.proc = p
  · subst hl
    cases step_iff.mp hst with
    | call c hq => simp [record]
    | @act q a mem pc evs hrun =>
        obtain ⟨c, before, cs, hcs, -⟩ := hlog.exists_cons (ne_idle_of_run hidle hrun)
        simp only [record, Move.proc] at hcs ⊢
        simp [hcs]
  · simp [record_of_ne hl, hl]

/-! ## Getting on -/

/-- How often a process moves. -/
def moves (p : ι) (tr : List (Label ι γ α ε)) : ℕ := tr.countP fun l ↦ l.input.proc = p

omit [DecidableEq κ] in
theorem moves_snoc (p : ι) (tr : List (Label ι γ α ε)) (l : Label ι γ α ε) :
    moves p (tr ++ [l]) = moves p tr + if l.input.proc = p then 1 else 0 := by
  rw [moves, List.countP_append, List.countP_singleton, moves]
  simp

/-- **Progress**: a process that with each of its moves goes on from `pc i` to `pc (i + 1)`, or
is done, has gone on as often as it has moved until it is done, whatever the others do. -/
theorem done_or_pc_eq {tr : List (Label ι γ α ε)} (pc : ℕ → κ) (Done : List ε → Prop)
    (hmove : ∀ {s l t i}, (system ι code mem₀).Step s l t → s.pc p = pc i → l.input.proc = p →
      Done l.output ∨ t.pc p = pc (i + 1))
    (h : (system ι code mem₀).Path anyStep s tr t) {i : ℕ} (hp : s.pc p = pc i) :
    (∃ l ∈ tr, l.input.proc = p ∧ Done l.output) ∨ t.pc p = pc (i + moves p tr) := by
  induction h with
  | nil => exact .inr hp
  | @snoc tr t l u _ _ hst ih =>
      rcases ih with ⟨l', hl', hdone⟩ | hpos
      · exact .inl ⟨l', List.mem_append_left _ hl', hdone⟩
      · rw [moves_snoc]
        by_cases hl : l.input.proc = p
        · rw [if_pos hl]
          refine (hmove hst hpos hl).imp_left fun hdone ↦ ?_
          exact ⟨l, List.mem_append_right _ (List.mem_singleton_self l), hl, hdone⟩
        · rw [if_neg hl, pc_of_proc_ne hst hl]
          exact .inr hpos

/-! ## A process alone -/

/-- Only this process moves. -/
def Alone (p : ι) (_ : State ι μ κ) (l : Label ι γ α ε) : Prop := l.input.proc = p

variable {pcs : ι → κ}

theorem path_call (mem : μ) (hp : pcs p = code.idle) (c : γ) :
    (system ι code mem₀).Path (Alone p) ⟨mem, pcs⟩ [⟨.call p c, (code.enter c).2⟩]
      ⟨mem, update pcs p (code.enter c).1⟩ := by
  refine .single rfl (step_iff.mpr ?_)
  exact Takes.call (s := ⟨mem, pcs⟩) c hp

theorem path_act (p : ι) (pcs : ι → κ) {a : α} {mem' : μ} {pc pc' : κ} {evs : List ε}
    (hrun : code.run mem pc a = some (mem', pc', evs)) :
    (system ι code mem₀).Path (Alone p) ⟨mem, update pcs p pc⟩ [⟨.act p a, evs⟩]
      ⟨mem', update pcs p pc'⟩ := by
  have htakes : Takes code ⟨mem, update pcs p pc⟩ ⟨.act p a, evs⟩
      ⟨mem', update (update pcs p pc) p pc'⟩ := .act (by simpa using hrun)
  rw [update_idem] at htakes
  exact .single rfl (step_iff.mpr htakes)

/-- **Loops**: from what each round does, what `n` of them do.  The memory and the control
point before round `i` are `mems i` and `pc i`. -/
theorem exists_path_loop (p : ι) (pcs : ι → κ) {a : α} {n : ℕ} {mems : ℕ → μ} {pc : ℕ → κ}
    {evs : ℕ → List ε}
    (hrun : ∀ i < n, code.run (mems i) (pc i) a = some (mems (i + 1), pc (i + 1), evs i)) :
    ∃ tr, (system ι code mem₀).Path (Alone p) ⟨mems 0, update pcs p (pc 0)⟩ tr
        ⟨mems n, update pcs p (pc n)⟩ ∧ tr.flatMap Io.output = (List.range n).flatMap evs := by
  induction n with
  | zero => exact ⟨[], .nil, rfl⟩
  | succ n ih =>
      obtain ⟨tr, hpath, hout⟩ := ih fun i hi ↦ hrun i (by omega)
      refine ⟨_, hpath.append (path_act p pcs (hrun n (by omega))), ?_⟩
      rw [List.flatMap_append, List.flatMap_singleton, hout, List.range_succ,
        List.flatMap_append, List.flatMap_singleton]

end

end DsoFifo.Processes
