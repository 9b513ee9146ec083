import DsoFifo.Kifs.Registry
import DsoFifo.Transition.LTS
import Mathlib.Data.Fintype.Basic

/-!
# Which callback `sys_kifs` calls

`sys_kifs` finds an entry under the lock and uses it after the lock is dropped: it tests
the callback, loads it, and loads the data, in three steps.  Meanwhile the entry can be
removed, and `create_kifs_entry` takes slots from the head of the list where
`remove_kifs_entry` puts them, so the next name that is created gets just that slot.

`sysKifs` is that sequence of steps, by any number of processes, while entries are created
and removed.  `dispatch_eq` says that a call gets what was registered under its name as
long as no slot in use is taken for a new entry (`NoReuse`), and `exists_null_call` what
can happen otherwise.
-/

namespace DsoFifo.Kifs

open DsoFifo.C DsoFifo.LTS DsoFifo.BoundedMap Function

variable {ι ρ ω δ : Type}

/-! ## The system -/

/-- The operations that an entry can support. -/
inductive Op where
  | read
  | write
deriving DecidableEq, Repr

/-- `switch (op_mode)`, where `KIFS_READ_OP` is 0 and `KIFS_WRITE_OP` is 1. -/
def opOf : ℕ → Option Op
  | 0 => some .read
  | 1 => some .write
  | _ => none

/-- The callback for an operation. -/
def Binding.callback (b : Binding ρ ω δ) : Op → Option (ρ ⊕ ω)
  | .read => b.readKifs.map .inl
  | .write => b.writeKifs.map .inr

/-- The arguments of `sys_kifs`: what can be read of the name, and a user's buffer, which
is only passed on. -/
structure Args where
  entryName : List Byte
  opMode : ℕ
  buffer : ℕ
  maxchars : ℕ
deriving DecidableEq

/-- Where a process is in `sys_kifs`. -/
inductive Pc (ρ ω δ : Type) where
  | idle
  | /-- The name is copied; at `spin_lock`. -/ search (a : Args)
  | /-- After `spin_unlock`, with the entry found. -/ select (a : Args) (e : Slot)
  | /-- The callback was not `NULL`.  It and the data are loaded, in either order: what has
    been loaded so far. -/
    load (a : Args) (op : Op) (e : Slot) (f : Option (Option (ρ ⊕ ω))) (d : Option (Option δ))
deriving DecidableEq

/-- What a process in `sys_kifs` does next. -/
inductive Act where
  | go
  | loadCallback
  | loadData
deriving DecidableEq, Repr

/-- What a step does that others can see. -/
inductive Event (ρ ω δ : Type) where
  | ret (v : ℤ)
  | /-- The callback is called, with the buffer of the call and this data. -/
    invoke (a : Args) (f : Option (ρ ⊕ ω)) (d : Option δ)
  | /-- An entry is created. -/ registered (name : CString) (b : Binding ρ ω δ)
deriving DecidableEq

/-- A step of a process inside `sys_kifs`. -/
def Pc.run (s : Registry ρ ω δ) : Pc ρ ω δ → Act → Option (Pc ρ ω δ × List (Event ρ ω δ))
  | .search a, .go =>
    (lookupKifs s a.entryName).map fun
      | some e => (.select a e, [])
      | none => (.idle, [.ret (-einval)])
  | .select a e, .go =>
    match opOf a.opMode with
    | some op =>
      if ((s.binding e).callback op).isNone then some (.idle, [.ret (-eperm)])
      else some (.load a op e none none, [])
    | none => some (.idle, [.ret (-einval)])
  | .load a op e none d, .loadCallback =>
    some (.load a op e (some ((s.binding e).callback op)) d, [])
  | .load a op e f none, .loadData => some (.load a op e f (some (s.binding e).data), [])
  | .load a _ _ (some f) (some d), .go => some (.idle, [.invoke a f d])
  | _, _ => none

/-- The registry, and the processes in `sys_kifs`. -/
structure State (ι ρ ω δ : Type) where
  reg : Registry ρ ω δ
  pc : ι → Pc ρ ω δ

/-- What happens next. -/
inductive Move (ι ρ ω δ : Type) where
  | sysKifs (p : ι) (a : Args)
  | act (p : ι) (a : Act)
  | create (name : CString) (b : Binding ρ ω δ)
  | remove (name : CString)

/-- One step of the system. -/
def step [DecidableEq ι] (s : State ι ρ ω δ) :
    Move ι ρ ω δ → Option (State ι ρ ω δ × List (Event ρ ω δ))
  | .sysKifs p a =>
    match s.pc p with
    | .idle => some ({ s with pc := update s.pc p (.search a) }, [])
    | _ => none
  | .act p a => ((s.pc p).run s.reg a).map fun (pc, evs) ↦ ({ s with pc := update s.pc p pc }, evs)
  | .create name b =>
    (createKifsEntry s.reg name.mem b).map fun (reg, e) ↦
      ({ s with reg := reg }, if e.isSome then [.registered name b] else [])
  | .remove name => (removeKifsEntry s.reg name.mem).map fun (reg, _) ↦ ({ s with reg := reg }, [])

/-- The label of a step. -/
abbrev Label (ι ρ ω δ : Type) : Type := LTS.Io (Move ι ρ ω δ) (List (Event ρ ω δ))

/-- `sys_kifs` with its processes, from `init_kifs_entry_set` on. -/
def sysKifs (ι δ : Type) [DecidableEq ι] (c : Builtin ρ ω) :
    LTS (State ι ρ ω δ) (Label ι ρ ω δ) :=
  .ofStep (fun s ↦ initKifsEntrySet c = some s.reg ∧ s.pc = fun _ ↦ .idle) step

/-! ## Steps -/

/-- Every way a process in `sys_kifs` takes a step. -/
inductive Runs (s : Registry ρ ω δ) : Pc ρ ω δ → Act → Pc ρ ω δ × List (Event ρ ω δ) → Prop
  | found {a : Args} {e : Slot} : e ∈ s.entryList →
      s.key e = cut maxKifsEntryNameSize a.entryName → Runs s (.search a) .go (.select a e, [])
  | absent {a : Args} : Runs s (.search a) .go (.idle, [.ret (-einval)])
  | noOp {a : Args} {e : Slot} : Runs s (.select a e) .go (.idle, [.ret (-einval)])
  | null {a : Args} {e : Slot} : Runs s (.select a e) .go (.idle, [.ret (-eperm)])
  | pass {a : Args} {e : Slot} {op : Op} : opOf a.opMode = some op →
      (s.binding e).callback op ≠ none → Runs s (.select a e) .go (.load a op e none none, [])
  | loadCallback {a : Args} {op : Op} {e : Slot} {d : Option (Option δ)} :
      Runs s (.load a op e none d) .loadCallback
        (.load a op e (some ((s.binding e).callback op)) d, [])
  | loadData {a : Args} {op : Op} {e : Slot} {f : Option (Option (ρ ⊕ ω))} :
      Runs s (.load a op e f none) .loadData (.load a op e f (some (s.binding e).data), [])
  | invoke {a : Args} {op : Op} {e : Slot} {f : Option (ρ ⊕ ω)} {d : Option δ} :
      Runs s (.load a op e (some f) (some d)) .go (.idle, [.invoke a f d])

theorem runs_of_run {s : Registry ρ ω δ} (hs : Sound s) {pc : Pc ρ ω δ} {a : Act}
    {r : Pc ρ ω δ × List (Event ρ ω δ)} (h : pc.run s a = some r) : Runs s pc a r := by
  unfold Pc.run at h
  split at h
  · rename_i a
    rw [hs.lookupKifs_eq, Option.map_some, Option.some.injEq] at h
    subst h
    cases hf : s.entryList.find? fun e ↦ s.key e = cut maxKifsEntryNameSize a.entryName with
    | none => exact .absent
    | some e =>
        exact .found (List.mem_of_find?_eq_some hf) (by simpa using List.find?_some hf)
  · split at h
    · split at h <;> cases h
      · exact .null
      · rename_i hop hnull
        exact .pass hop fun hn ↦ hnull (by rw [hn]; rfl)
    · cases h
      exact .noOp
  · cases h
    exact .loadCallback
  · cases h
    exact .loadData
  · cases h
    exact .invoke
  · cases h

variable [DecidableEq ι] {c : Builtin ρ ω}

/-- A step of the system is a call, a step of a process in `sys_kifs`, or a change of the
registry. -/
theorem step_cases {s t : State ι ρ ω δ} {l : Label ι ρ ω δ} (hs : Sound s.reg)
    (h : (sysKifs ι δ c).Step s l t) :
    (∃ p a, t = { s with pc := update s.pc p (.search a) } ∧ l.output = []) ∨
      (∃ p a r, Runs s.reg (s.pc p) a r ∧ t = { s with pc := update s.pc p r.1 } ∧
        l.output = r.2) ∨
      (∃ name b r, l.input = .create name b ∧ Creates s.reg name b r ∧
        t = { s with reg := r.1 } ∧ l.output = if r.2.isSome then [.registered name b] else []) ∨
      ∃ name r, Removes s.reg name r ∧ t = { s with reg := r.1 } ∧ l.output = [] := by
  obtain ⟨i, out⟩ := l
  change step s i = some (t, out) at h
  cases i with
  | sysKifs p a =>
      simp only [step] at h
      split at h
      · cases h
        exact .inl ⟨p, a, rfl, rfl⟩
      · cases h
  | act p a =>
      simp only [step, Option.map_eq_some_iff] at h
      obtain ⟨r, hr, h⟩ := h
      cases h
      exact .inr (.inl ⟨p, a, r, runs_of_run hs hr, rfl, rfl⟩)
  | create name b =>
      obtain ⟨r, hr, hc⟩ := hs.creates name b
      simp only [step, hr, Option.map_some, Option.some.injEq] at h
      cases h
      exact .inr (.inr (.inl ⟨name, b, r, rfl, hc, rfl, rfl⟩))
  | remove name =>
      obtain ⟨r, hr, hc⟩ := hs.removes name
      simp only [step, hr, Option.map_some, Option.some.injEq] at h
      cases h
      exact .inr (.inr (.inr ⟨name, r, hc, rfl, rfl⟩))

/-! ## The condition -/

/-- The slot that a process in `sys_kifs` has found and is still going to read. -/
def Pc.uses : Pc ρ ω δ → Option Slot
  | .select a e => if (opOf a.opMode).isSome then some e else none
  | .load _ _ e none _ | .load _ _ e _ none => some e
  | _ => none

/-- A name that is created does not get a slot that a process in `sys_kifs` is still going
to read. -/
def NoReuse (s : State ι ρ ω δ) (l : Label ι ρ ω δ) : Prop :=
  match l.input with
  | .create name _ => (∀ e ∈ s.reg.entryList, s.reg.key e ≠ nameKey name) →
      ∀ e ∈ s.reg.freeList.head?, ∀ p, (s.pc p).uses ≠ some e
  | _ => True

instance [Fintype ι] (s : State ι ρ ω δ) : ∀ l : Label ι ρ ω δ, Decidable (NoReuse s l)
  | ⟨.create name _, _⟩ => inferInstanceAs (Decidable ((∀ e ∈ s.reg.entryList,
      s.reg.key e ≠ nameKey name) → ∀ e ∈ s.reg.freeList.head?, ∀ p, (s.pc p).uses ≠ some e))
  | ⟨.sysKifs _ _, _⟩ | ⟨.act _ _, _⟩ | ⟨.remove _, _⟩ => .isTrue trivial

/-! ## What the entries were registered with -/

/-- The registrations of an event. -/
def Event.registration : Event ρ ω δ → Option (CString × Binding ρ ω δ)
  | .registered name b => some (name, b)
  | _ => none

/-- Everything that has been registered: the entries of `kifs.c`, and what
`create_kifs_entry` was given when it succeeded. -/
def registered (c : Builtin ρ ω) (tr : List (Label ι ρ ω δ)) : List (CString × Binding ρ ω δ) :=
  (listName, c.list) :: (clipboardName, c.clipboard) ::
    tr.flatMap fun l ↦ l.output.filterMap Event.registration

omit [DecidableEq ι] in
theorem registered_snoc (tr : List (Label ι ρ ω δ)) (l : Label ι ρ ω δ) :
    registered c (tr ++ [l]) = registered c tr ++ l.output.filterMap Event.registration := by
  simp [registered]

/-- The entry is as it was registered, once, under a name with this key. -/
def Genuine (regs : List (CString × Binding ρ ω δ)) (key : List Byte) (b : Binding ρ ω δ) : Prop :=
  ∃ name, (name, b) ∈ regs ∧ nameKey name = key

/-- What a process in `sys_kifs` has found and loaded comes from an entry as it was
registered under the name it asked for. -/
def Pc.Faithful (regs : List (CString × Binding ρ ω δ)) (s : Registry ρ ω δ) (pc : Pc ρ ω δ) :
    Prop :=
  match pc with
  | .select a _ => ∃ b, Genuine regs (cut maxKifsEntryNameSize a.entryName) b ∧
      ∀ e ∈ pc.uses, s.binding e = b
  | .load a op _ f d => ∃ b, Genuine regs (cut maxKifsEntryNameSize a.entryName) b ∧
      (∀ e ∈ pc.uses, s.binding e = b) ∧ opOf a.opMode = some op ∧ b.callback op ≠ none ∧
      (∀ f' ∈ f, f' = b.callback op) ∧ ∀ d' ∈ d, d' = b.data
  | _ => True

/-- The invariant: the entries in use are as they were registered, and so is what the
processes have of them. -/
structure Faithful (c : Builtin ρ ω) (tr : List (Label ι ρ ω δ)) (s : State ι ρ ω δ) : Prop where
  sound : Sound s.reg
  entries : ∀ e ∈ s.reg.entryList, Genuine (registered c tr) (s.reg.key e) (s.reg.binding e)
  procs : ∀ p, (s.pc p).Faithful (registered c tr) s.reg

theorem Genuine.mono {regs regs' : List (CString × Binding ρ ω δ)} (h : regs ⊆ regs')
    {key : List Byte} {b : Binding ρ ω δ} (hg : Genuine regs key b) : Genuine regs' key b :=
  hg.imp fun _ hn ↦ hn.imp_left (@h _)

/-- What a process has stays faithful while its slot is left alone. -/
theorem Pc.Faithful.congr {regs regs' : List (CString × Binding ρ ω δ)} {s s' : Registry ρ ω δ}
    (hsub : regs ⊆ regs') {pc : Pc ρ ω δ} (hb : ∀ e ∈ pc.uses, s'.binding e = s.binding e)
    (h : pc.Faithful regs s) : pc.Faithful regs' s' := by
  cases pc with
  | select a e =>
      obtain ⟨b, hg, huse⟩ := h
      exact ⟨b, hg.mono hsub, fun e he ↦ (hb e he).trans (huse e he)⟩
  | load a op e f d =>
      obtain ⟨b, hg, huse, hrest⟩ := h
      exact ⟨b, hg.mono hsub, fun e he ↦ (hb e he).trans (huse e he), hrest⟩
  | _ => exact h

theorem Runs.faithful {regs : List (CString × Binding ρ ω δ)} {s : Registry ρ ω δ}
    {pc : Pc ρ ω δ} {a : Act} {r : Pc ρ ω δ × List (Event ρ ω δ)} (h : Runs s pc a r)
    (hs : ∀ e ∈ s.entryList, Genuine regs (s.key e) (s.binding e)) (hpc : pc.Faithful regs s) :
    r.1.Faithful regs s := by
  cases h with
  | found he hkey =>
      have hg := hs _ he
      rw [hkey] at hg
      refine ⟨_, hg, fun e' he' ↦ ?_⟩
      simp only [Pc.uses] at he'
      split at he' <;> cases he'
      rfl
  | @pass a e op hop hnull =>
      obtain ⟨b, hg, huse⟩ := hpc
      have hb : s.binding e = b := huse e (by simp [Pc.uses, hop])
      rw [hb] at hnull
      refine ⟨b, hg, ?_, hop, hnull, ?_, ?_⟩
      · rintro _ ⟨⟩
        exact hb
      · rintro _ ⟨⟩
      · rintro _ ⟨⟩
  | @loadCallback a op e d =>
      obtain ⟨b, hg, huse, hop, hnull, -, hd⟩ := hpc
      have hb : s.binding e = b := huse e rfl
      refine ⟨b, hg, ?_, hop, hnull, ?_, hd⟩
      · cases d with
        | none =>
            rintro _ ⟨⟩
            exact hb
        | some d => rintro _ ⟨⟩
      · rintro _ ⟨⟩
        rw [hb]
  | @loadData a op e f =>
      obtain ⟨b, hg, huse, hop, hnull, hf, -⟩ := hpc
      have hb : s.binding e = b := huse e (by cases f <;> rfl)
      refine ⟨b, hg, ?_, hop, hnull, hf, ?_⟩
      · cases f with
        | none =>
            rintro _ ⟨⟩
            exact hb
        | some f => rintro _ ⟨⟩
      · rintro _ ⟨⟩
        rw [hb]
  | absent | noOp | null | invoke => trivial

theorem Faithful.step {tr : List (Label ι ρ ω δ)} {s t : State ι ρ ω δ} {l : Label ι ρ ω δ}
    (h : Faithful c tr s) (hP : NoReuse s l) (hst : (sysKifs ι δ c).Step s l t) :
    Faithful c (tr ++ [l]) t := by
  obtain ⟨hs, hentries, hprocs⟩ := h
  have hsub : registered c tr ⊆ registered c (tr ++ [l]) := by
    rw [registered_snoc]
    exact List.subset_append_left _ _
  rcases step_cases hs hst with ⟨p, a, rfl, -⟩ | ⟨p, a, r, hr, rfl, -⟩ |
    ⟨name, b, r, hin, hc, rfl, hout⟩ | ⟨name, r, hc, rfl, -⟩
  · refine ⟨hs, fun e he ↦ (hentries e he).mono hsub, fun q ↦ ?_⟩
    by_cases hq : q = p
    · subst hq
      simp only [update_self]
      trivial
    · simp only [update_of_ne hq]
      exact (hprocs q).congr hsub fun _ _ ↦ rfl
  · refine ⟨hs, fun e he ↦ (hentries e he).mono hsub, fun q ↦ ?_⟩
    by_cases hq : q = p
    · subst hq
      simp only [update_self]
      exact (hr.faithful hentries (hprocs q)).congr hsub fun _ _ ↦ rfl
    · simp only [update_of_ne hq]
      exact (hprocs q).congr hsub fun _ _ ↦ rfl
  · cases hc with
    | full | taken =>
        exact ⟨hs, fun e he ↦ (hentries e he).mono hsub,
          fun q ↦ (hprocs q).congr hsub fun _ _ ↦ rfl⟩
    | @fresh e free hfree hfresh =>
        have hnot : e ∉ s.reg.entryList := hs.notMem_of_free (by rw [hfree]; exact List.mem_cons_self)
        have hreg : (name, b) ∈ registered c (tr ++ [l]) := by
          rw [registered_snoc, hout]
          simp [Event.registration]
        refine ⟨hs.register hfree hfresh b, fun e' he' ↦ ?_, fun q ↦ ?_⟩
        · simp only
          by_cases heq : e' = e
          · subst heq
            rw [s.reg.key_register_self, s.reg.binding_register_self]
            exact ⟨name, hreg, rfl⟩
          · rw [s.reg.key_register_of_ne free name b heq, s.reg.binding_register_of_ne free name b heq]
            exact (hentries e' ((List.mem_cons.mp he').resolve_left heq)).mono hsub
        · refine (hprocs q).congr hsub fun e' he' ↦ ?_
          rw [NoReuse, hin, hfree] at hP
          refine s.reg.binding_register_of_ne free name b fun heq ↦ ?_
          exact hP hfresh e rfl q (heq ▸ he')
  · refine ⟨hc.sound hs, fun e he ↦ ?_, fun q ↦ (hprocs q).congr hsub fun e _ ↦ ?_⟩
    · cases hc with
      | absent => exact (hentries e he).mono hsub
      | found => exact (hentries e (List.mem_of_mem_erase he)).mono hsub
    · cases hc <;> rfl

theorem faithful_of_run {tr : List (Label ι ρ ω δ)} {s : State ι ρ ω δ}
    (h : (sysKifs ι δ c).Run NoReuse tr s) : Faithful c tr s := by
  refine Run.induction (J := Faithful c) ?_ (fun _ _ _ _ _ hJ hP hst ↦ hJ.step hP hst) h
  rintro s ⟨hinit, hpc⟩
  obtain ⟨s₀, hs₀, hholds⟩ : ∃ s : Registry ρ ω δ, _ ∧ Holds s _ := exists_holds_init c
  obtain rfl : s₀ = s.reg := Option.some.inj (hs₀.symm.trans hinit)
  refine ⟨hholds.sound, fun e he ↦ ?_, fun p ↦ ?_⟩
  · rcases lookup_builtinMap (hholds.represents.lookup_key he) with ⟨hk, hb⟩ | ⟨hk, hb⟩
    · exact ⟨clipboardName, by simp [registered, hb], hk.symm⟩
    · exact ⟨listName, by simp [registered, hb], hk.symm⟩
  · rw [hpc]
    trivial

/-- **`sys_kifs` calls what was registered under the name**, in a run in which no slot
that is in use is taken for another name: the callback it calls is not `NULL`, and it and
the data are those that one successful `create_kifs_entry` was given with that name. -/
theorem dispatch_eq {tr : List (Label ι ρ ω δ)} {s t : State ι ρ ω δ} {l : Label ι ρ ω δ}
    (h : (sysKifs ι δ c).Run NoReuse tr s) (hst : (sysKifs ι δ c).Step s l t) {a : Args}
    {f : Option (ρ ⊕ ω)} {d : Option δ} (hcall : .invoke a f d ∈ l.output) :
    f ≠ none ∧ ∃ op name b, opOf a.opMode = some op ∧ (name, b) ∈ registered c tr ∧
      nameKey name = cut maxKifsEntryNameSize a.entryName ∧ f = b.callback op ∧ d = b.data := by
  have hJ := faithful_of_run h
  rcases step_cases hJ.sound hst with ⟨p, a', -, hout⟩ | ⟨p, a', r, hr, -, hout⟩ |
    ⟨name, b, r, -, -, -, hout⟩ | ⟨name, r, -, -, hout⟩
  · simp [hout] at hcall
  · have hp := hJ.procs p
    rw [hout] at hcall
    generalize hpc : s.pc p = pc at hr hp
    cases hr with
    | invoke =>
        simp only [List.mem_singleton, Event.invoke.injEq] at hcall
        obtain ⟨rfl, rfl, rfl⟩ := hcall
        obtain ⟨b, ⟨name, hreg, hkey⟩, -, hop, hnull, hf, hd⟩ := hp
        exact ⟨by rw [hf f rfl]; exact hnull, _, name, b, hop, hreg, hkey, hf f rfl, hd d rfl⟩
    | _ => simp at hcall
  · rw [hout] at hcall
    split at hcall <;> simp at hcall
  · simp [hout] at hcall

/-! ## Two processes -/

/-- The callbacks of `kifs.c`, as numbers. -/
def numbered : Builtin ℕ ℕ := ⟨1, 2, 3⟩

/-- A read of `"clipboard"`. -/
def readClipboard : Args := ⟨clipboardName.mem, 0, 0, 0⟩

/-- After a replay that leaves process 0 with a callback and data for `readClipboard`, the
callback is called with this data. -/
theorem exists_invoke (P : State (Fin 2) ℕ ℕ ℕ → Label (Fin 2) ℕ ℕ ℕ → Prop)
    [∀ s l, Decidable (P s l)] (moves : List (Move (Fin 2) ℕ ℕ ℕ)) (f : Option (ℕ ⊕ ℕ))
    (d : Option ℕ)
    (h : ((initKifsEntrySet numbered).bind fun reg ↦
      LTS.replay step (fun s l ↦ decide (P s l)) ⟨reg, fun _ ↦ .idle⟩ moves).any
        (fun s ↦ (s.pc 0).run s.reg .go = some (.idle, [.invoke readClipboard f d])) = true) :
    ∃ tr s l t, (sysKifs (Fin 2) ℕ numbered).Run P tr s ∧
      (sysKifs (Fin 2) ℕ numbered).Step s l t ∧ .invoke readClipboard f d ∈ l.output := by
  cases hinit : initKifsEntrySet (δ := ℕ) numbered with
  | none => simp [hinit] at h
  | some reg =>
      rw [hinit, Option.bind_some] at h
      obtain ⟨tr, s, hr, hg⟩ := exists_run_of_replay
        (fun s : State (Fin 2) ℕ ℕ ℕ ↦ initKifsEntrySet numbered = some s.reg ∧
          s.pc = fun _ ↦ .idle) ⟨hinit, rfl⟩ h
      refine ⟨tr, s, ⟨.act 0 .go, [.invoke readClipboard f d]⟩,
        { s with pc := update s.pc 0 .idle }, ?_, ?_, List.mem_singleton_self _⟩
      · exact hr.mono fun _ _ ↦ of_decide_eq_true
      · change step s (.act 0 .go) = _
        rw [step, of_decide_eq_true hg]
        rfl

/-- Process 0 reads the clipboard while an entry is removed and another is created. -/
theorem dispatch_eq_clipboard :
    ∃ (tr : List (Label (Fin 2) ℕ ℕ ℕ)) (f : Option (ℕ ⊕ ℕ)) (d : Option ℕ),
      f ≠ none ∧ ∃ op name b, opOf readClipboard.opMode = some op ∧
        (name, b) ∈ registered numbered tr ∧
        nameKey name = cut maxKifsEntryNameSize readClipboard.entryName ∧
        f = b.callback op ∧ d = b.data := by
  obtain ⟨tr, s, l, t, hr, hst, hcall⟩ := exists_invoke NoReuse
    [.sysKifs 0 readClipboard, .act 0 .go, .remove listName, .act 0 .go, .act 0 .loadData,
      .create listName ⟨none, none, some 7⟩, .act 0 .loadCallback]
    (some (.inl 2)) none (by decide +kernel)
  exact ⟨tr, _, _, dispatch_eq hr hst hcall⟩

/-- **A `NULL` callback is called.**  Process 0 looks up the clipboard, and its callback is
not `NULL`.  Then the entry is removed, and its slot taken by an entry without callbacks. -/
theorem exists_null_call :
    ∃ tr s l t, (sysKifs (Fin 2) ℕ numbered).Run LTS.anyStep tr s ∧
      (sysKifs (Fin 2) ℕ numbered).Step s l t ∧ .invoke readClipboard none (some 7) ∈ l.output :=
  exists_invoke LTS.anyStep
    [.sysKifs 0 readClipboard, .act 0 .go, .act 0 .go, .remove listName, .remove clipboardName,
      .create listName ⟨none, none, some 7⟩, .act 0 .loadCallback, .act 0 .loadData]
    none (some 7) (by decide +kernel)

end DsoFifo.Kifs
