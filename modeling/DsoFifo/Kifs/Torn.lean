import DsoFifo.Kifs.Clipboard
import DsoFifo.Transition.Execute
import DsoFifo.Transition.Processes
import Mathlib.Data.Fintype.Basic

/-!
# Torn values of the clipboard

The callbacks of the clipboard are called after `sys_kifs` has dropped its lock, and take none
of their own.  A write copies its bytes and then stores the NUL; a read measures the string
and then copies it.  Any number of processes do these four things in any order.

What the clipboard then holds may be the head of one value and the tail of another.  `Apart`
says which steps have to wait for which others so that this does not happen: it lets a value
replace a longer one that is still being written, and a read measure it as soon as there is a
NUL where one is due.  `read_whole` says that this is enough.
-/

namespace DsoFifo.Kifs.Clipboard

open DsoFifo.C DsoFifo.LTS DsoFifo.Processes Function

variable {ι : Type}

/-! ## The system -/

/-- Where a process is in the callbacks. -/
inductive Pc where
  | idle
  | /-- In a write, at `copy_from_user`. -/ copyIn (buffer : List Byte) (maxchars : ℕ)
  | /-- In a write, at the store of the NUL. -/ terminate (used : ℕ)
  | /-- In a read, at `strlen`. -/ strlen (maxchars : ℕ)
  | /-- In a read, at `copy_to_user`. -/ copyOut (used : ℕ)
deriving DecidableEq

/-- What a step does that others can see. -/
inductive Event where
  | /-- A write has copied its bytes. -/ copied (xs : List Byte)
  | /-- A write returns. -/ wrote (v : ℤ)
  | /-- A read returns, and what it has delivered. -/ read (v : ℤ) (out : Option (List Byte))
deriving DecidableEq

/-- The beginning of a call. -/
def enter : Call → Pc × List Event
  | .write buffer maxchars =>
    if maxchars < clipSize then (.copyIn buffer maxchars, []) else (.idle, [.wrote (-enospc)])
  | .read maxchars => (.strlen maxchars, [])

/-- A step of a process in the callbacks; a `copy_to_user` leaves out the last `left` bytes. -/
def Pc.run (clipboard : List Byte) (left : ℕ) : Pc → Option (List Byte × Pc × List Event)
  | .idle => none
  | .copyIn buffer maxchars =>
    (Kifs.copyIn clipboard buffer maxchars).map fun (clipboard, used) ↦
      (clipboard, .terminate used, [.copied (buffer.take maxchars)])
  | .terminate used =>
    (Kifs.terminate clipboard used).map fun clipboard ↦ (clipboard, .idle, [.wrote used])
  | .strlen maxchars =>
    (C.strlen clipboard).map fun used ↦
      if used ≤ maxchars then (clipboard, .copyOut used, [])
      else (clipboard, .idle, [.read (-enospc) none])
  | .copyOut used =>
    if left ≤ used then
      some (clipboard, .idle, [.read (used - left) (some (clipboard.take (used - left)))])
    else none

/-- The callbacks as processes run them; what a step is given is the number of bytes that a
`copy_to_user` leaves out. -/
def code : Code Call ℕ (List Byte) Pc Event where
  idle := .idle
  enter := enter
  run clipboard pc left := pc.run clipboard left

/-- The array, and the processes in the callbacks. -/
abbrev State (ι : Type) : Type := Processes.State ι (List Byte) Pc

/-- The label of a step. -/
abbrev Label (ι : Type) : Type := Processes.Label ι Call ℕ Event

/-- The clipboard with its processes, as `init_kifs_entry_set` leaves it. -/
def clipboard (ι : Type) [DecidableEq ι] : LTS (State ι) (Label ι) :=
  system ι code (List.replicate clipSize 0)

/-- The values that have been written since the beginning, the empty one first. -/
def payloads (tr : List (Label ι)) : List (List Byte) :=
  [] :: (tr.flatMap Io.output).filterMap fun
    | .copied xs => some xs
    | _ => none

/-! ## One process -/

section

variable [DecidableEq ι] {p : ι} {pcs : ι → Pc} {mem : List Byte} {maxchars : ℕ} {v : ℤ}

/-- **A write alone** does what `clipboardKifsWrite` says, -/
theorem exists_path_write (hp : pcs p = .idle) {buffer mem' : List Byte}
    (h : clipboardKifsWrite mem buffer maxchars = some (mem', v)) :
    ∃ tr, (clipboard ι).Path (Alone p) ⟨mem, pcs⟩ tr ⟨mem', pcs⟩ ∧
      .wrote v ∈ tr.flatMap Io.output := by
  have hself : update pcs p .idle = pcs := hp ▸ update_eq_self p pcs
  have hcall : (clipboard ι).Path (Alone p) ⟨mem, pcs⟩ _ ⟨mem, update pcs p _⟩ :=
    path_call mem hp (.write buffer maxchars)
  simp only [code, enter] at hcall
  unfold clipboardKifsWrite at h
  split at h
  · rename_i hlt
    obtain ⟨⟨copied, used⟩, hcopy, h⟩ := Option.bind_eq_some_iff.mp h
    obtain ⟨terminated, hterm, h⟩ := Option.map_eq_some_iff.mp h
    obtain ⟨rfl, rfl⟩ := Prod.mk.inj h
    rw [if_pos hlt] at hcall
    have hfirst : code.run mem (.copyIn buffer maxchars) 0 =
        some (copied, .terminate used, [.copied (buffer.take maxchars)]) := by
      simp only [code, Pc.run, hcopy, Option.map_some]
    have hlast : code.run copied (.terminate used) 0 = some (terminated, .idle, [.wrote used]) := by
      simp only [code, Pc.run, hterm, Option.map_some]
    exact ⟨_, (hcall.append (path_act p pcs hfirst)).append (hself ▸ path_act p pcs hlast),
      by simp⟩
  · rename_i hge
    obtain ⟨rfl, rfl⟩ := Prod.mk.inj (Option.some.inj h)
    rw [if_neg hge, hself] at hcall
    exact ⟨_, hcall, by simp⟩

/-- and **a read alone** what `clipboardKifsRead` says. -/
theorem exists_path_read (hp : pcs p = .idle) {used left : ℕ} (hlen : C.strlen mem = some used)
    (hleft : left ≤ used) (maxchars : ℕ) :
    ∃ v out tr, clipboardKifsRead mem maxchars left = some (v, out) ∧
      (clipboard ι).Path (Alone p) ⟨mem, pcs⟩ tr ⟨mem, pcs⟩ ∧
        .read v out ∈ tr.flatMap Io.output := by
  have hself : update pcs p .idle = pcs := hp ▸ update_eq_self p pcs
  have hcall : (clipboard ι).Path (Alone p) ⟨mem, pcs⟩ _ ⟨mem, update pcs p _⟩ :=
    path_call mem hp (.read maxchars)
  rw [clipboardKifsRead, hlen, Option.map_some]
  by_cases hle : used ≤ maxchars
  · have hmeasure : code.run mem (.strlen maxchars) left = some (mem, .copyOut used, []) := by
      simp only [code, Pc.run, hlen, Option.map_some, if_pos hle]
    have hlast : code.run mem (.copyOut used) left =
        some (mem, .idle, [.read (used - left) (some (mem.take (used - left)))]) := if_pos hleft
    rw [if_pos hle]
    exact ⟨_, _, _, rfl,
      (hcall.append (path_act p pcs hmeasure)).append (hself ▸ path_act p pcs hlast), by simp⟩
  · have hlast : code.run mem (.strlen maxchars) left =
        some (mem, .idle, [.read (-enospc) none]) := by
      simp only [code, Pc.run, hlen, Option.map_some, if_neg hle]
    rw [if_neg hle]
    exact ⟨_, _, _, rfl, hcall.append (hself ▸ path_act p pcs hlast), by simp⟩

end

/-! ## The conditions -/

/-- The index at which a write is still going to store its NUL. -/
def Pc.pending : Pc → Option ℕ
  | .terminate used => some used
  | _ => none

/-- The length that a read has measured and is going to copy. -/
def Pc.measured : Pc → Option ℕ
  | .copyOut used => some used
  | _ => none

/-- Values are strings that the clipboard has room for, reads have room for what it holds, and
user copies do not fail. -/
def Fitting (l : Label ι) : Prop :=
  match l.input with
  | .call _ (.write buffer maxchars) =>
    buffer.length = maxchars ∧ maxchars < clipSize ∧ 0 ∉ buffer
  | .call _ (.read maxchars) => clipSize ≤ maxchars + 1
  | .act _ left => left = 0

instance : (l : Label ι) → Decidable (Fitting l)
  | ⟨.call _ (.write buffer maxchars), _⟩ =>
    inferInstanceAs (Decidable (buffer.length = maxchars ∧ maxchars < clipSize ∧ 0 ∉ buffer))
  | ⟨.call _ (.read maxchars), _⟩ => inferInstanceAs (Decidable (clipSize ≤ maxchars + 1))
  | ⟨.act _ left, _⟩ => inferInstanceAs (Decidable (left = 0))

/-- When a process may take its next step: a value is copied in while no shorter one still
waits for its NUL and no read has measured another length, except 0; and a string is measured
when there is a NUL up to where each write is going to store one. -/
def Pc.Apart (s : State ι) : Pc → Prop
  | .copyIn buffer _ => ∀ q, (∀ used ∈ (s.pc q).pending, buffer.length ≤ used) ∧
      ∀ used ∈ (s.pc q).measured, used = 0 ∨ used = buffer.length
  | .strlen _ => ∀ q, ∀ used ∈ (s.pc q).pending, 0 ∈ s.mem.take (used + 1)
  | _ => True

instance [Fintype ι] (s : State ι) : (pc : Pc) → Decidable (pc.Apart s)
  | .copyIn buffer _ => inferInstanceAs (Decidable (∀ q,
      (∀ used ∈ (s.pc q).pending, buffer.length ≤ used) ∧
        ∀ used ∈ (s.pc q).measured, used = 0 ∨ used = buffer.length))
  | .strlen _ => inferInstanceAs (Decidable (∀ q, ∀ used ∈ (s.pc q).pending,
      0 ∈ s.mem.take (used + 1)))
  | .idle | .terminate _ | .copyOut _ => .isTrue trivial

/-- The step does not come too close to those of others. -/
def Apart (s : State ι) (l : Label ι) : Prop :=
  Fitting l ∧ match l.input with
    | .act p _ => (s.pc p).Apart s
    | .call _ _ => True

instance [Fintype ι] (s : State ι) : (l : Label ι) → Decidable (Apart s l)
  | ⟨.act p left, out⟩ =>
    inferInstanceAs (Decidable (Fitting (⟨.act p left, out⟩ : Label ι) ∧ (s.pc p).Apart s))
  | ⟨.call p c, out⟩ =>
    inferInstanceAs (Decidable (Fitting (⟨.call p c, out⟩ : Label ι) ∧ True))

/-! ## The invariant -/

/-- What the calls that fit have put at a control point. -/
def Pc.Fitting : Pc → Prop
  | .copyIn buffer maxchars => buffer.length = maxchars ∧ maxchars < clipSize ∧ 0 ∉ buffer
  | .strlen maxchars => clipSize ≤ maxchars + 1
  | .terminate used | .copyOut used => used < clipSize
  | .idle => True

/-- The value at the beginning of the clipboard: its NUL is behind it or on its way, and no
other is going to be stored into it. -/
structure Current (s : State ι) (xs : List Byte) : Prop where
  prefix_clipboard : xs <+: s.mem
  zero_notMem : 0 ∉ xs
  length_lt : xs.length < clipSize
  le_pending : ∀ q, ∀ used ∈ (s.pc q).pending, xs.length ≤ used
  terminated : s.mem[xs.length]? = some 0 ∨ ∃ q, (s.pc q).pending = some xs.length

/-- The invariant: there is such a value, and what the reads have measured is one as well, and
stays one. -/
structure Whole (tr : List (Label ι)) (s : State ι) : Prop where
  length_eq : s.mem.length = clipSize
  fitting : ∀ q, (s.pc q).Fitting
  current : ∃ xs ∈ payloads tr, Current s xs
  measured : ∀ q, ∀ used ∈ (s.pc q).measured, s.mem.take used ∈ payloads tr ∧
    ∀ q', ∀ used' ∈ (s.pc q').pending, used ≤ used'

theorem payloads_subset (tr : List (Label ι)) (l : Label ι) :
    payloads tr ⊆ payloads (tr ++ [l]) := by
  rw [payloads, payloads, List.flatMap_append, List.filterMap_append, ← List.cons_append]
  exact List.subset_append_left _ _

theorem mem_payloads_snoc {tr : List (Label ι)} {l : Label ι} {xs : List Byte}
    (h : .copied xs ∈ l.output) : xs ∈ payloads (tr ++ [l]) := by
  refine List.mem_cons_of_mem _ (List.mem_filterMap.mpr ⟨.copied xs, ?_, rfl⟩)
  rw [List.flatMap_append, List.flatMap_singleton]
  exact List.mem_append_right _ h

/-- Where a NUL is due, there is one when the string may be measured. -/
theorem Current.eq_append {s : State ι} {xs : List Byte} (h : Current s xs)
    (hnul : ∀ q, ∀ used ∈ (s.pc q).pending, 0 ∈ s.mem.take (used + 1)) :
    ∃ rest, s.mem = xs ++ 0 :: rest := by
  obtain ⟨⟨rest, hrest⟩, hxs, -, -, hterm⟩ := h
  cases rest with
  | nil =>
      rw [List.append_nil] at hrest
      rcases hterm with hget | ⟨q, hq⟩
      · rw [← hrest, List.getElem?_eq_none le_rfl] at hget
        cases hget
      · have hmem := List.mem_of_mem_take (hnul q _ hq)
        exact absurd (hrest ▸ hmem) hxs
  | cons c rest =>
      have hc : c = 0 := by
        rcases hterm with hget | ⟨q, hq⟩
        · rw [← hrest] at hget
          simpa using hget
        · have hmem := hnul q _ hq
          rw [← hrest, List.take_append, List.take_of_length_le (by omega)] at hmem
          simpa [hxs, eq_comm] using hmem
      exact ⟨rest, by rw [← hrest, hc]⟩

section

variable [DecidableEq ι] {tr tr' : List (Label ι)} {s t : State ι} {l : Label ι} {p : ι}

/-- A step that leaves the clipboard and the NULs that are due alone. -/
theorem Whole.goto {pc : Pc} (h : Whole tr s) (hsub : payloads tr ⊆ payloads tr')
    (hpending : pc.pending = (s.pc p).pending) (hfit : pc.Fitting)
    (hmeasured : ∀ used ∈ pc.measured, s.mem.take used ∈ payloads tr' ∧
      ∀ q, ∀ used' ∈ (s.pc q).pending, used ≤ used') :
    Whole tr' { s with pc := update s.pc p pc } := by
  have hsame : ∀ q, (update s.pc p pc q).pending = (s.pc q).pending := fun q ↦ by
    by_cases hq : q = p
    · rw [hq, update_self, hpending]
    · rw [update_of_ne hq]
  obtain ⟨hlen, hfitting, ⟨xs, hxs, hcurrent⟩, hmeas⟩ := h
  refine ⟨hlen, (forall_update_iff _ _).mpr ⟨hfit, fun q _ ↦ hfitting q⟩,
    ⟨xs, hsub hxs, ?_⟩, fun q used hused ↦ ?_⟩
  · obtain ⟨hpre, hnul, hlt, hle, hterm⟩ := hcurrent
    refine ⟨hpre, hnul, hlt, fun q ↦ ?_, ?_⟩
    · simp only [hsame]
      exact hle q
    · simpa only [hsame] using hterm
  · simp only [hsame]
    by_cases hq : q = p
    · subst hq
      simp only [update_self] at hused
      exact hmeasured used hused
    · simp only [update_of_ne hq] at hused
      exact (hmeas q used hused).imp_left (@hsub _)

/-- A value that may be copied in is the new one. -/
theorem Whole.copyIn {buffer : List Byte} (h : Whole tr s)
    (hmem : buffer ∈ payloads tr') (hp : s.pc p = .copyIn buffer buffer.length)
    (hapart : (s.pc p).Apart s) :
    Whole tr' ⟨blit s.mem 0 buffer, update s.pc p (.terminate buffer.length)⟩ := by
  obtain ⟨hlen, hfitting, -, hmeas⟩ := h
  have hfit := hfitting p
  rw [hp] at hfit hapart
  obtain ⟨-, hlt, hnul⟩ := hfit
  have hpre : buffer <+: blit s.mem 0 buffer := by
    simpa using append_prefix_blit (List.nil_prefix (l := s.mem)) buffer
  have hpending : ∀ q, ∀ used ∈ (update s.pc p (.terminate buffer.length) q).pending,
      buffer.length ≤ used := by
    refine (forall_update_iff s.pc fun _ pc ↦ ∀ used ∈ pc.pending, buffer.length ≤ used).mpr
      ⟨?_, fun q _ ↦ (hapart q).1⟩
    rintro _ ⟨⟩
    exact le_rfl
  refine ⟨(length_blit (by omega)).trans hlen,
    (forall_update_iff _ _).mpr ⟨hlt, fun q _ ↦ hfitting q⟩, ⟨buffer, hmem, hpre, hnul, hlt,
    hpending, .inr ⟨p, by simp [Pc.pending]⟩⟩, fun q used hused ↦ ?_⟩
  · by_cases hq : q = p
    · subst hq
      simp only [update_self] at hused
      cases hused
    · simp only [update_of_ne hq] at hused
      rcases (hapart q).2 used hused with rfl | rfl
      · exact ⟨by simp [payloads], fun _ _ _ ↦ Nat.zero_le _⟩
      · exact ⟨by rwa [← List.prefix_iff_eq_take.mp hpre], hpending⟩

/-- Who leaves the callbacks has no NUL to store. -/
theorem pending_update_idle {q : ι} {used : ℕ} (h : used ∈ (update s.pc p .idle q).pending) :
    q ≠ p ∧ used ∈ (s.pc q).pending := by
  by_cases hq : q = p
  · rw [hq, update_self] at h
    cases h
  · rw [update_of_ne hq] at h
    exact ⟨hq, h⟩

/-- A NUL that is stored goes behind the value, -/
theorem Current.terminate {xs : List Byte} {used : ℕ} (h : Current s xs)
    (hp : s.pc p = .terminate used) (hused : used < s.mem.length) :
    Current ⟨blit s.mem used [0], update s.pc p .idle⟩ xs := by
  obtain ⟨hpre, hnul, hlt, hle, hterm⟩ := h
  have hmine : used ∈ (s.pc p).pending := by rw [hp]; rfl
  have hbound : used + ([0] : List Byte).length ≤ s.mem.length := hused
  refine ⟨?_, hnul, hlt, fun q used' hused' ↦ hle q used' (pending_update_idle hused').2, ?_⟩
  · rw [List.prefix_iff_eq_take, take_blit (hle p used hmine) hused.le]
    exact List.prefix_iff_eq_take.mp hpre
  · simp only [getElem?_blit hbound]
    by_cases hhere : xs.length = used
    · left
      simp [hhere]
    · rcases hterm with hzero | ⟨q, hq⟩
      · left
        rw [if_neg (by rw [List.length_singleton]; omega), hzero]
      · right
        refine ⟨q, ?_⟩
        have hne : q ≠ p := by
          rintro rfl
          rw [hp] at hq
          exact hhere (Option.some.inj hq).symm
        rwa [update_of_ne hne]

/-- and behind what the reads have measured. -/
theorem Whole.terminate {used : ℕ} (h : Whole tr s) (hsub : payloads tr ⊆ payloads tr')
    (hp : s.pc p = .terminate used) :
    Whole tr' ⟨blit s.mem used [0], update s.pc p .idle⟩ := by
  obtain ⟨hlen, hfitting, ⟨xs, hxs, hcurrent⟩, hmeas⟩ := h
  have hmine : used ∈ (s.pc p).pending := by rw [hp]; rfl
  have hused : used < s.mem.length := by
    have hfit := hfitting p
    rw [hp] at hfit
    exact hfit.trans_eq hlen.symm
  refine ⟨(length_blit hused).trans hlen,
    (forall_update_iff _ _).mpr ⟨trivial, fun q _ ↦ hfitting q⟩,
    ⟨xs, hsub hxs, hcurrent.terminate hp hused⟩, fun q used' hused' ↦ ?_⟩
  have hq : q ≠ p := by
    rintro rfl
    simp only [update_self] at hused'
    cases hused'
  simp only [update_of_ne hq] at hused'
  obtain ⟨hin, hmin⟩ := hmeas q used' hused'
  refine ⟨?_, fun q' used'' h'' ↦ hmin q' used'' (pending_update_idle h'').2⟩
  rw [take_blit (hmin p used hmine) hused.le]
  exact hsub hin

omit [DecidableEq ι] in
/-- A read that has measured a value delivers it. -/
theorem Whole.delivers {used : ℕ} (h : Whole tr s) (hp : s.pc p = .copyOut used) :
    ∃ xs ∈ payloads tr, s.mem.take used = xs ∧ used = xs.length := by
  have hfit := h.fitting p
  rw [hp] at hfit
  have hlt : used < clipSize := hfit
  have hlen := h.length_eq
  refine ⟨_, (h.measured p used (by rw [hp]; rfl)).1, rfl, ?_⟩
  rw [List.length_take_of_le (by omega)]

omit [DecidableEq ι] in
/-- What a call that fits puts at its control point. -/
theorem fitting_enter {c : Call} {evs : List Event}
    (h : Clipboard.Fitting (⟨.call p c, evs⟩ : Label ι)) :
    (enter c).1.Fitting ∧ (enter c).1.pending = none ∧ (enter c).1.measured = none ∧
      ∀ (v : ℤ) out, .read v out ∉ (enter c).2 := by
  cases c with
  | read maxchars => exact ⟨h, rfl, rfl, fun _ _ hmem ↦ (by cases hmem)⟩
  | write buffer maxchars =>
      have hlt : maxchars < clipSize := h.2.1
      rw [enter, if_pos hlt]
      exact ⟨h, rfl, rfl, fun _ _ hmem ↦ (by cases hmem)⟩

/-- **A step** keeps the invariant, and a read that returns delivers a value. -/
theorem Whole.step (h : Whole tr s) (hP : Apart s l) (hst : (clipboard ι).Step s l t) :
    Whole (tr ++ [l]) t ∧ ∀ (v : ℤ) out, .read v out ∈ l.output →
      ∃ xs ∈ payloads tr, out = some xs ∧ v = xs.length := by
  have hsub := payloads_subset tr l
  obtain ⟨hfits, hapart⟩ := hP
  cases step_iff.mp hst with
  | @call p c hp =>
      obtain ⟨hfit, hpending, hmeasured, hnone⟩ := fitting_enter hfits
      have hidle : s.pc p = .idle := hp
      refine ⟨h.goto hsub (by rw [hidle]; exact hpending) hfit ?_, fun v out hmem ↦ ?_⟩
      · rw [show (code.enter c).1.measured = none from hmeasured]
        exact fun _ hused ↦ (by cases hused)
      · exact absurd hmem (hnone v out)
  | @act p left mem pc evs hr =>
      obtain rfl : left = 0 := hfits
      change (s.pc p).run s.mem 0 = _ at hr
      have hlen := h.length_eq
      have hfit := h.fitting p
      generalize hpc : s.pc p = pc at hr hfit
      cases pc with
      | idle => cases hr
      | copyIn buffer maxchars =>
          obtain ⟨rfl, hlt, -⟩ := hfit
          rw [Pc.run, copyIn_eq hlen hlt le_rfl, Option.map_some, List.take_length] at hr
          cases hr
          exact ⟨h.copyIn (mem_payloads_snoc List.mem_cons_self) hpc hapart, by simp⟩
      | terminate used =>
          rw [Pc.run, terminate_eq (hlen ▸ hfit), Option.map_some] at hr
          cases hr
          exact ⟨h.terminate hsub hpc, by simp⟩
      | strlen maxchars =>
          obtain ⟨xs, hxs, hcurrent⟩ := h.current
          dsimp only at hapart
          rw [hpc] at hapart
          obtain ⟨rest, hrest⟩ := hcurrent.eq_append hapart
          have hroom : xs.length ≤ maxchars := by
            have hlt := hcurrent.length_lt
            have hmax : clipSize ≤ maxchars + 1 := hfit
            omega
          rw [Pc.run, hrest, strlen_append hcurrent.zero_notMem, Option.map_some,
            if_pos hroom, ← hrest] at hr
          cases hr
          refine ⟨h.goto hsub (by rw [hpc]; rfl) hcurrent.length_lt ?_, by simp⟩
          rintro _ ⟨⟩
          rw [← List.prefix_iff_eq_take.mp hcurrent.prefix_clipboard]
          exact ⟨hsub hxs, hcurrent.le_pending⟩
      | copyOut used =>
          rw [Pc.run, if_pos (Nat.zero_le used)] at hr
          cases hr
          refine ⟨h.goto hsub (by rw [hpc]; rfl) trivial (fun _ hused ↦ (by cases hused)), ?_⟩
          obtain ⟨xs, hxs, htake, hused⟩ := h.delivers hpc
          rintro v out hmem
          simp only [List.mem_singleton, Event.read.injEq] at hmem
          exact ⟨xs, hxs, by rw [hmem.2, Nat.sub_zero, htake], by rw [hmem.1, hused]; simp⟩

theorem whole_of_run (h : (clipboard ι).Run Apart tr s) : Whole tr s := by
  refine Run.induction (J := fun tr s ↦ Whole tr s) ?_ ?_ h
  · rintro _ rfl
    refine ⟨List.length_replicate, fun _ ↦ trivial, ⟨[], List.mem_cons_self, List.nil_prefix,
      List.not_mem_nil, by decide, fun _ _ hused ↦ (by cases hused), .inl rfl⟩,
      fun _ _ hused ↦ (by cases hused)⟩
  · intro tr s l t _ ih hP hst
    exact (ih.step hP hst).1

/-- **Values are not torn** in a run in which the steps keep apart: a read that returns
delivers the whole of one value that has been written, or the empty one. -/
theorem read_whole (h : (clipboard ι).Run Apart tr s) (hP : Apart s l)
    (hst : (clipboard ι).Step s l t) {v : ℤ} {out : Option (List Byte)}
    (hread : .read v out ∈ l.output) :
    ∃ xs ∈ payloads tr, out = some xs ∧ v = xs.length :=
  ((whole_of_run h).step hP hst).2 v out hread

end

/-! ## Two processes -/

/-- Process 0 reads while process 1 is about to replace a value of three bytes by another. -/
theorem read_whole_abc :
    ∃ (tr : List (Label (Fin 2))) (s t : State (Fin 2)) (l : Label (Fin 2)) (v : ℤ)
      (out : Option (List Byte)), (clipboard (Fin 2)).Run Apart tr s ∧ Apart s l ∧
      (clipboard (Fin 2)).Step s l t ∧ .read v out ∈ l.output ∧
        ∃ xs ∈ payloads tr, out = some xs ∧ v = xs.length := by
  have hreplay : (replay (Processes.step code) (fun s l ↦ decide (Apart s l))
      (Processes.initial code (List.replicate clipSize 0) : State (Fin 2))
      [.call 1 (.write [97, 98, 99] 3), .act 1 0, .call 0 (.read 49), .act 1 0,
        .call 1 (.write [120, 121, 122] 3), .act 0 0, .act 1 0]).any
          (fun s ↦ decide (s.pc 0 = .copyOut 3)) = true := by decide +kernel
  obtain ⟨tr, s, hr, hg⟩ := exists_run_of_replay (fun s ↦ s = _) rfl hreplay
  have hp := of_decide_eq_true hg
  have hr' : (clipboard (Fin 2)).Run Apart tr s := hr.mono fun _ _ ↦ of_decide_eq_true
  have hP : Apart s ⟨.act 0 0, [.read 3 (some (s.mem.take 3))]⟩ :=
    ⟨rfl, by simp only [hp]; trivial⟩
  have hst : (clipboard (Fin 2)).Step s ⟨.act 0 0, [.read 3 (some (s.mem.take 3))]⟩
      ⟨s.mem, update s.pc 0 .idle⟩ := step_iff.mpr (.act (by rw [hp]; rfl))
  exact ⟨tr, s, _, _, 3, _, hr', hP, hst, List.mem_cons_self,
    read_whole hr' hP hst List.mem_cons_self⟩

/-- The values that writes have been called with, the empty one first. -/
def called (tr : List (Label ι)) : List (List Byte) :=
  [] :: tr.filterMap fun l ↦ match l.input with
    | .call _ (.write buffer _) => some buffer
    | _ => none

/-- **A torn value**: over `abc`, process 1 has copied an `x` and not stored its NUL yet, and
process 0 reads `xbc`, which nobody has written. -/
theorem exists_torn_read :
    ∃ (tr : List (Label (Fin 2))) (s : State (Fin 2)),
      (clipboard (Fin 2)).Run (fun _ l ↦ Fitting l) tr s ∧
        .read 3 (some [120, 98, 99]) ∈ tr.flatMap Io.output ∧ [120, 98, 99] ∉ called tr := by
  have hexec : (execute (Processes.step code)
      (Processes.initial code (List.replicate clipSize 0) : State (Fin 2))
      [.call 0 (.write [97, 98, 99] 3), .act 0 0, .act 0 0, .call 1 (.write [120] 1), .act 1 0,
        .call 0 (.read 49), .act 0 0, .act 0 0]).map Prod.snd =
      some [[], [.copied [97, 98, 99]], [.wrote 3], [], [.copied [120]], [], [],
        [.read 3 (some [120, 98, 99])]] := by decide +kernel
  obtain ⟨⟨t, os⟩, hexec, rfl⟩ := Option.map_eq_some_iff.mp hexec
  have hpath : (clipboard (Fin 2)).Path anyStep _ _ t := path_of_execute hexec
  exact ⟨_, t, ⟨_, rfl, hpath.of_forall_mem (by decide)⟩, by decide, by decide⟩

end DsoFifo.Kifs.Clipboard
