import DsoFifo.Prodcons.Basic

/-!
# What both versions do

`Stage` is how far a call has come, as far as the items go, and `Touches` is what a step can do
to the buffer, to the memory and to the stage of its process, whatever the semaphores are.  A
`Version` is a module all of whose steps are of this kind.

The runs of a version are runs of a `mailbox` (`Version.exists_mailbox`), so that no step is on
an item that is not allocated, unless `vmalloc` has found no memory, and the numbers go through
the buffer in the order of a queue.  With that, every call does what `Completes` says, from its
beginning to its end.
-/

namespace DsoFifo.Prodcons

open DsoFifo.C DsoFifo.LTS Function

variable {ι ν : Type}

/-! ## How far a call has come -/

/-- How far a call has come. -/
inductive Stage (ν : Type) where
  | idle
  | /-- At `vmalloc`. -/ vmalloc (val : CInt) (longitud : ℕ)
  | /-- On its way to the buffer. -/ wait (r : Role ν)
  | /-- It has changed the buffer. -/ done (d : Done ν)
  | /-- It has printed the number. -/ vfree (item : Option ν) (len : ℤ)
deriving DecidableEq

/-- What a process has. -/
def Stage.hand : Stage ν → Hand ν CInt
  | .wait r => r.hand
  | .done d => d.hand
  | .vfree (some item) _ => .used item
  | _ => .empty

/-- `prodcons_write`, of this number in so many characters. -/
def Call.Writes (val : CInt) (longitud : ℕ) (c : Call) : Prop :=
  ∃ buffer, c = .prodconsWrite buffer longitud ∧ scanWrite buffer longitud = .ok val

/-- `prodcons_read`, from the beginning of the file. -/
def Call.Reads (c : Call) : Prop := ∃ offset ≤ 0, c = .prodconsRead offset

/-- **What a call does, from its beginning to its end.** -/
inductive Completes (c : Call) : List (Event ν) → Prop
  | /-- There is no number in the user's buffer. -/
    refused {buffer : List Byte} {longitud : ℕ} {e : ℤ} : c = .prodconsWrite buffer longitud →
      scanWrite buffer longitud = .error e → Completes c [.wrote e]
  | /-- `vmalloc` has found no memory, and its result is used. -/
    fault {val : CInt} {longitud : ℕ} : c.Writes val longitud → Completes c [.fault none]
  | /-- Interrupted, and the item is freed. -/
    freed {val : CInt} {longitud : ℕ} {item : ν} : c.Writes val longitud →
      Completes c [.vmalloc item, .vfree item, .wrote (-eintr)]
  | /-- Interrupted, and the item is lost. -/
    lost {val : CInt} {longitud : ℕ} {item : ν} : c.Writes val longitud →
      Completes c [.vmalloc item, .lost item, .wrote (-eintr)]
  | wrote {val : CInt} {longitud : ℕ} {item : ν} : c.Writes val longitud →
      Completes c [.vmalloc item, .insert val, .wrote longitud]
  | /-- There is no more to read. -/
    ended {offset : ℤ} : c = .prodconsRead offset → offset > 0 → Completes c [.read 0]
  | interrupted : c.Reads → Completes c [.read (-eintr)]
  | read {val : CInt} {item : ν} : c.Reads →
      Completes c [.remove (some val), .sprintf val, .vfree item, .read (text val).length]

/-- What a call has done that has come to this stage. -/
def Stage.Log (s : Memory ν) (c : Call) (evs : List (Event ν)) : Stage ν → Prop
  | .idle => Completes c evs
  | .vmalloc val longitud => c.Writes val longitud ∧ evs = []
  | .wait (.write item val longitud) => c.Writes val longitud ∧ evs = [.vmalloc item]
  | .wait .read => c.Reads ∧ evs = []
  | .done (.write longitud) =>
    ∃ item val, c.Writes val longitud ∧ evs = [.vmalloc item, .insert val]
  | .done (.read item) =>
    c.Reads ∧ ∃ n val, item = some n ∧ s.heap n = some val ∧ evs = [.remove (some val)]
  | .vfree item len => c.Reads ∧ ∃ n val, item = some n ∧ len = (text val).length ∧
      evs = [.remove (some val), .sprintf val]

/-- Where a call begins. -/
def Call.begin (c : Call) : Stage ν × List (Event ν) := c.enter .idle .vmalloc (.wait .read)

/-- A call begins with nothing in hand. -/
theorem Call.begin_eq (c : Call) :
    (c.begin (ν := ν)).1.hand = .empty ∧ ops (c.begin (ν := ν)).2 = [] := by
  obtain ⟨hcases, hops⟩ := c.enter_cases (ν := ν) Stage.idle .vmalloc (.wait .read)
  refine ⟨?_, hops⟩
  rcases hcases with ⟨val, longitud, hc⟩ | hc | hc <;> rw [begin, hc] <;> rfl

theorem Call.log_begin (s : Memory ν) (c : Call) : c.begin.1.Log s c c.begin.2 := by
  cases c with
  | prodconsWrite buffer longitud =>
      cases hscan : scanWrite buffer longitud with
      | ok val =>
          simp only [begin, enter, hscan]
          exact ⟨⟨buffer, rfl, hscan⟩, rfl⟩
      | error e =>
          simp only [begin, enter, hscan]
          exact .refused rfl hscan
  | prodconsRead offset =>
      by_cases hoff : offset > 0
      · simp only [begin, enter, if_pos hoff]
        exact .ended rfl hoff
      · simp only [begin, enter, if_neg hoff]
        exact ⟨⟨offset, by omega, rfl⟩, rfl⟩

/-- Where a call has events when it begins, it is over. -/
theorem Call.eq_of_mem_begin {c : Call} {e : Event ν} (he : e ∈ c.begin.2) :
    e = .read 0 ∨ ∃ ret, e = .wrote ret ∧ ret ≠ -eintr := by
  cases c with
  | prodconsWrite buffer longitud =>
      cases hscan : scanWrite buffer longitud with
      | ok val => simp [begin, enter, hscan] at he
      | error err =>
          simp only [begin, enter, hscan, List.mem_singleton] at he
          refine .inr ⟨err, he, ?_⟩
          rcases eq_of_scanWrite_eq_error hscan with rfl | rfl | rfl <;> decide
  | prodconsRead offset =>
      by_cases hoff : offset > 0
      · simp only [begin, enter, if_pos hoff, List.mem_singleton] at he
        exact .inl he
      · simp [begin, enter, hoff] at he

/-! ## What a step can do -/

/-- What the step of a process can do to the memory and to its stage, with these events. -/
inductive Touches [DecidableEq ν] (s : Memory ν) :
    Stage ν → Act ν → Memory ν → Stage ν → List (Event ν) → Prop
  | stay (x : Stage ν) {a : Act ν} : Touches s x a s x []
  | vmalloc {a : Act ν} {val : CInt} {longitud : ℕ} {item : ν} : s.heap item = none →
      Touches s (.vmalloc val longitud) a { s with heap := update s.heap item (some val) }
        (.wait (.write item val longitud)) [.vmalloc item]
  | nomem {val : CInt} {longitud : ℕ} :
      Touches s (.vmalloc val longitud) .nomem s .idle [.fault none]
  | giveUp {a : Act ν} {val : CInt} {longitud : ℕ} {item : ν} : s.heap item ≠ none →
      Touches s (.wait (.write item val longitud)) a { s with heap := update s.heap item none }
        .idle [.vfree item, .wrote (-eintr)]
  | lose {a : Act ν} {val : CInt} {longitud : ℕ} {item : ν} :
      Touches s (.wait (.write item val longitud)) a s .idle [.lost item, .wrote (-eintr)]
  | insert {a : Act ν} {val : CInt} {longitud : ℕ} {item : ν}
      {cbuf : Pointers.Cbuffer (Option ν)} : s.cbuf.size < maxItemsCbuf →
      Pointers.insertCbuffer s.cbuf (some item) = some cbuf →
      Touches s (.wait (.write item val longitud)) a { s with cbuf := cbuf }
        (.done (.write longitud)) [.insert val]
  | wrote {a : Act ν} {longitud : ℕ} :
      Touches s (.done (.write longitud)) a s .idle [.wrote longitud]
  | giveUpRead {a : Act ν} : Touches s (.wait .read) a s .idle [.read (-eintr)]
  | remove {a : Act ν} {n : ν} {cbuf : Pointers.Cbuffer (Option ν)} :
      s.cbuf.content.head? = some (some n) → Pointers.removeCbuffer s.cbuf = some cbuf →
      Touches s (.wait .read) a { s with cbuf := cbuf } (.done (.read (some n)))
        [.remove (s.heap n)]
  | sprintf {a : Act ν} {n : ν} {val : CInt} : s.heap n = some val →
      Touches s (.done (.read (some n))) a s (.vfree (some n) (text val).length) [.sprintf val]
  | vfree {a : Act ν} {n : ν} {len : ℤ} : s.heap n ≠ none → Touches s (.vfree (some n) len) a
      { s with heap := update s.heap n none } .idle [.vfree n, .read len]
  | fault {a : Act ν} {x : Stage ν} {n : ν} : n ∈ x.hand.nodes → s.heap n = none →
      Touches s x a s .idle [.fault (some n)]

section

variable [DecidableEq ν] {s s' : Memory ν} {x x' : Stage ν} {a : Act ν}
  {evs before : List (Event ν)} {c : Call} {n : ν}

/-- The buffer stays as both modules need it. -/
theorem Touches.wf (ht : Touches s x a s' x' evs) (hwf : s.Wf) : s'.Wf := by
  cases ht with
  | insert hroom hins =>
      obtain ⟨hc, -, hb, hm⟩ := hwf.insert hroom hins
      refine ⟨hb, hm, ?_⟩
      rw [hc, List.mem_append, not_or]
      exact ⟨hwf.ne_null, by simp⟩
  | remove _ hrem =>
      obtain ⟨hc, -, hb, hm⟩ := hwf.remove hrem
      refine ⟨hb, hm, fun hnull ↦ hwf.ne_null ?_⟩
      exact List.mem_of_mem_tail (hc ▸ hnull)
  | stay | vmalloc | nomem | giveUp | lose | wrote | giveUpRead | sprintf | vfree | fault =>
      exact ⟨hwf.cbuf, hwf.maxSize_eq, hwf.ne_null⟩

/-- A step leaves the allocated items alone that its process does not have. -/
theorem Touches.heap_eq (ht : Touches s x a s' x' evs) (hlive : s.heap n ≠ none)
    (hn : n ∉ x.hand.nodes) : s'.heap n = s.heap n := by
  cases ht with
  | vmalloc hnone => exact update_of_ne (fun h ↦ hlive (by rw [h, hnone])) _ _
  | giveUp _ | vfree _ =>
      exact update_of_ne (fun h ↦ hn (by rw [h]; exact List.mem_singleton_self _)) _ _
  | stay | nomem | lose | insert | wrote | giveUpRead | remove | sprintf | fault => rfl

omit [DecidableEq ν] in
/-- What is known of a call depends on the item of its process only. -/
theorem Stage.Log.frame (h : x.Log s c evs)
    (hheap : ∀ n ∈ x.hand.nodes, s'.heap n = s.heap n) : x.Log s' c evs := by
  cases x with
  | done d =>
      cases d with
      | write longitud => exact h
      | read item =>
          obtain ⟨hc, n, val, rfl, hval, hevs⟩ := h
          exact ⟨hc, n, val, rfl, (hheap n (List.mem_singleton_self n)).trans hval, hevs⟩
  | wait r => cases r <;> exact h
  | idle | vmalloc | vfree => exact h

/-- **A step** adds its events to what its call has done. -/
theorem Touches.log (ht : Touches s x a s' x' evs)
    (hbox : ∀ n, s.cbuf.content.head? = some (some n) → s.heap n ≠ none)
    (hhand : ∀ n ∈ x.hand.nodes, s.heap n ≠ none) (h : x.Log s c before) :
    x'.Log s' c (before ++ evs) := by
  cases ht with
  | stay x =>
      rw [List.append_nil]
      exact h
  | vmalloc _ =>
      obtain ⟨hc, rfl⟩ := h
      exact ⟨hc, rfl⟩
  | nomem =>
      obtain ⟨hc, rfl⟩ := h
      exact .fault hc
  | giveUp _ =>
      obtain ⟨hc, rfl⟩ := h
      exact .freed hc
  | lose =>
      obtain ⟨hc, rfl⟩ := h
      exact .lost hc
  | insert _ _ =>
      obtain ⟨hc, rfl⟩ := h
      exact ⟨_, _, hc, rfl⟩
  | wrote =>
      obtain ⟨item, val, hc, rfl⟩ := h
      exact .wrote hc
  | giveUpRead =>
      obtain ⟨hc, rfl⟩ := h
      exact .interrupted hc
  | @remove _ n cbuf hhead _ =>
      obtain ⟨hc, rfl⟩ := h
      obtain ⟨val, hval⟩ := Option.ne_none_iff_exists'.mp (hbox n hhead)
      exact ⟨hc, n, val, rfl, hval, by rw [hval]; rfl⟩
  | @sprintf _ n val hval =>
      obtain ⟨hc, n', val', hn, hval', rfl⟩ := h
      obtain rfl := Option.some.inj hn
      obtain rfl := Option.some.inj (hval.symm.trans hval')
      exact ⟨hc, n, val, rfl, rfl, rfl⟩
  | vfree _ =>
      obtain ⟨hc, n', val, -, rfl, rfl⟩ := h
      exact .read hc
  | fault hn hnone => exact absurd hnone (hhand _ hn)

/-- Where the items of the process are allocated, a fault is that of a `NULL` from `vmalloc`. -/
theorem Touches.eq_of_fault (ht : Touches s x a s' x' evs)
    (hhand : ∀ n ∈ x.hand.nodes, s.heap n ≠ none) {item : Option ν} (hf : .fault item ∈ evs) :
    item = none ∧ a = .nomem := by
  cases ht with
  | nomem => exact ⟨Event.fault.inj (List.mem_singleton.mp hf), rfl⟩
  | fault hn hnone => exact absurd hnone (hhand _ hn)
  | stay | vmalloc | giveUp | lose | insert | wrote | giveUpRead | remove | sprintf | vfree =>
      simp at hf

end

/-- A mailbox that is what the memory and the processes are. -/
structure Backs (s : Memory ν) (stage : ι → Stage ν) (m : Mailbox ι ν CInt) : Prop where
  box : s.cbuf.content = m.box.map some
  heap : s.heap = m.heap
  hand : (fun p ↦ (stage p).hand) = m.hand

/-- Where what the process has is as before, the mailbox is. -/
theorem Backs.of_hand_eq [DecidableEq ι] {s : Memory ν} {stage : ι → Stage ν} {p : ι}
    {x : Stage ν} {m : Mailbox ι ν CInt} (hm : Backs s stage m)
    (hx : x.hand = (stage p).hand) : Backs s (update stage p x) m := by
  refine ⟨hm.box, hm.heap, ?_⟩
  rw [← hm.hand, ← update_eq_self p fun q ↦ (stage q).hand, ← hx]
  exact Function.comp_update Stage.hand stage p x

/-- **A step of a process is a path of the mailbox.** -/
theorem Backs.path [DecidableEq ι] [DecidableEq ν] {s s' : Memory ν} {x' : Stage ν} {a : Act ν}
    {evs : List (Event ν)} {stage : ι → Stage ν} {p : ι} {m : Mailbox ι ν CInt}
    (hm : Backs s stage m) (hwf : s.Wf) (ht : Touches s (stage p) a s' x' evs) :
    ∃ m', (mailbox ι ν CInt maxItemsCbuf).Path anyStep m ((ops evs).map (p, ·)) m' ∧
      Backs s' (update stage p x') m' := by
  have hbox := hm.box
  have hheap := hm.heap
  have hhand : m.hand p = (stage p).hand := (congrFun hm.hand p).symm
  have hupdate : (fun q ↦ (update stage p x' q).hand) = update m.hand p x'.hand := by
    rw [← hm.hand]
    exact Function.comp_update Stage.hand stage p x'
  generalize hx : stage p = x at ht
  rw [hx] at hhand
  cases ht with
  | stay x => exact ⟨m, .nil, hm.of_hand_eq (by rw [hx])⟩
  | nomem | wrote | giveUpRead => exact ⟨m, .nil, hm.of_hand_eq (by rw [hx]; rfl)⟩
  | @vmalloc _ val longitud n hnone =>
      refine ⟨_, .single trivial (.alloc n val hhand (hheap ▸ hnone)), hbox, ?_, hupdate⟩
      simp only [hheap]
  | @giveUp _ val longitud n hlive =>
      refine ⟨_, .single trivial (.free (n := n) (.inl ⟨val, hhand⟩) (hheap ▸ hlive)), hbox, ?_,
        hupdate⟩
      simp only [hheap]
  | @vfree _ n len hlive =>
      refine ⟨_, .single trivial (.free (n := n) (.inr hhand) (hheap ▸ hlive)), hbox, ?_, hupdate⟩
      simp only [hheap]
  | lose => exact ⟨_, .single trivial (.lose hhand), hbox, hheap, hupdate⟩
  | @insert _ val longitud n cbuf hroom hins =>
      obtain ⟨hc, -⟩ := hwf.insert hroom hins
      have hlen : m.box.length < maxItemsCbuf := by
        rw [← List.length_map (f := some), ← hbox, Pointers.Cbuffer.length_content]
        exact hroom
      refine ⟨_, .single trivial (.put hhand hlen), ?_, hheap, hupdate⟩
      simp only [hc, hbox, List.map_append, List.map_singleton]
  | @remove _ n cbuf hhead hrem =>
      obtain ⟨hc, -⟩ := hwf.remove hrem
      cases hb : m.box with
      | nil =>
          rw [hbox, hb] at hhead
          cases hhead
      | cons n' box =>
          rw [hbox, hb, List.map_cons] at hc
          rw [hbox, hb] at hhead
          obtain rfl : n' = n := Option.some.inj (Option.some.inj hhead)
          rw [hheap]
          exact ⟨_, .single trivial (.take hhand hb), hc, rfl, hupdate⟩
  | @sprintf _ n val hval =>
      exact ⟨_, .single trivial (.use hhand (hheap ▸ hval)), hbox, hheap, hupdate⟩
  | @fault _ x n hn hnone =>
      exact ⟨_, .single trivial (.fault (hhand ▸ hn) (hheap ▸ hnone)), hbox, hheap, hupdate⟩

/-! ## Versions -/

/-- A move with its events. -/
abbrev Label (ι ν : Type) : Type := Processes.Label ι Call (Act ν) (Event ν)

/-- A version of the module: where its memory and the stages of its calls are, and that it does
nothing else to them than `Touches`. -/
structure Version (ι : Type) [DecidableEq ι] [DecidableEq ν] {μ κ : Type} [DecidableEq κ]
    (code : Processes.Code Call (Act ν) μ κ (Event ν)) (mem₀ : μ) (memory : μ → Memory ν)
    (stage : κ → Stage ν) : Prop where
  cbuf : (memory mem₀).cbuf.content = []
  heap : (memory mem₀).heap = fun _ ↦ none
  idle : stage code.idle = .idle
  run_idle : ∀ mem a, code.run mem code.idle a = none
  run_nomem : ∀ {mem mem' pc pc' evs}, code.run mem pc .nomem = some (mem', pc', evs) →
    evs = [.fault none]
  enter : ∀ c, stage (code.enter c).1 = c.begin.1 ∧ (code.enter c).2 = c.begin.2
  act : ∀ {tr s p a mem pc evs}, (Processes.system ι code mem₀).Run anyStep tr s →
    code.run s.mem (s.pc p) a = some (mem, pc, evs) →
    (memory s.mem).Wf ∧ Touches (memory s.mem) (stage (s.pc p)) a (memory mem) (stage pc) evs

/-- The operations of a step on the mailbox, with the process. -/
def mailboxOps (l : Label ι ν) : List (ι × Mailbox.Op ν CInt) :=
  (ops l.output).map (l.input.proc, ·)

section

variable {μ κ : Type} [DecidableEq ι] [DecidableEq ν] [DecidableEq κ]
  {code : Processes.Code Call (Act ν) μ κ (Event ν)} {mem₀ : μ} {memory : μ → Memory ν}
  {stage : κ → Stage ν} {tr : List (Label ι ν)} {s : Processes.State ι μ κ}

/-- **Runs are runs of a mailbox.** -/
theorem Version.exists_mailbox (hv : Version ι code mem₀ memory stage)
    (h : (Processes.system ι code mem₀).Run anyStep tr s) :
    ∃ m, (mailbox ι ν CInt maxItemsCbuf).Run anyStep (tr.flatMap mailboxOps) m ∧
      Backs (memory s.mem) (fun p ↦ stage (s.pc p)) m := by
  refine Run.simulate (R := fun s m ↦ Backs (memory s.mem) (fun p ↦ stage (s.pc p)) m)
    mailboxOps ?_ ?_ h
  · rintro s rfl
    exact ⟨_, rfl, hv.cbuf, hv.heap, funext fun _ ↦ congrArg Stage.hand hv.idle⟩
  · rintro tr s l t m hr - hm - hst
    have hpc (p : ι) (pc : κ) : (fun q ↦ stage (update s.pc p pc q)) =
        update (fun q ↦ stage (s.pc q)) p (stage pc) := Function.comp_update stage s.pc p pc
    cases Processes.step_iff.mp hst with
    | @call p c hp =>
        obtain ⟨hstage, hout⟩ := hv.enter c
        obtain ⟨hhand, hops⟩ := c.begin_eq (ν := ν)
        refine ⟨m, ?_, ?_⟩
        · simp only [mailboxOps, hout, hops]
          exact .nil
        · rw [hpc]
          exact hm.of_hand_eq (by rw [hstage, hhand, hp, hv.idle]; rfl)
    | @act p a mem pc evs hrun =>
        obtain ⟨hwf, ht⟩ := hv.act hr hrun
        obtain ⟨m', hpath, hm'⟩ := hm.path hwf ht
        refine ⟨m', hpath, ?_⟩
        rw [hpc]
        exact hm'

/-- What is used is allocated, and belongs to one process, in every state that is reached. -/
structure Memory.Live (s : Memory ν) (stage : ι → Stage ν) : Prop where
  box : ∀ n, s.cbuf.content.head? = some (some n) → s.heap n ≠ none
  hand : ∀ p, ∀ n ∈ (stage p).hand.nodes, s.heap n ≠ none
  own : ∀ p q n, n ∈ (stage p).hand.nodes → n ∈ (stage q).hand.nodes → p = q

variable [Fintype ι]

theorem Version.live (hv : Version ι code mem₀ memory stage)
    (h : (Processes.system ι code mem₀).Run anyStep tr s) :
    (memory s.mem).Live fun p ↦ stage (s.pc p) := by
  obtain ⟨m, hr, hbox, hheap, hhand⟩ := hv.exists_mailbox h
  have hinv := Mailbox.inv_of_run hr
  have hnodes (p : ι) : (stage (s.pc p)).hand = m.hand p := congrFun hhand p
  refine ⟨fun n hn ↦ ?_, fun p n hn ↦ ?_, fun p q n hp hq ↦ ?_⟩
  · rw [hbox] at hn
    obtain ⟨n', hn', heq⟩ := List.mem_map.mp (List.mem_of_mem_head? hn)
    obtain rfl := Option.some.inj heq
    rw [hheap]
    exact hinv.live_of_mem_box hn'
  · rw [hnodes] at hn
    rw [hheap]
    exact hinv.live_of_mem_hand hn
  · rw [hnodes] at hp hq
    exact hinv.ledger.eq_of_mem_own hp hq

/-- **Every call** has done what one at its stage has done, and those that are over what a call
does from its beginning to its end. -/
theorem Version.logged (hv : Version ι code mem₀ memory stage)
    (h : (Processes.system ι code mem₀).Run anyStep tr s) (p : ι) :
    Processes.Logged (fun x c evs ↦ x.Log (memory s.mem) c evs) Stage.idle (stage (s.pc p))
      (Processes.calls p tr) := by
  have hlog := Processes.logged_of_run
    (K := fun mem pc c evs ↦ (stage pc).Log (memory mem) c evs) hv.run_idle ?_ ?_ ?_ ?_ h p
  · rw [← hv.idle]
    exact hlog.map stage
  · intro mem mem' c evs hdone
    rw [hv.idle] at hdone ⊢
    exact hdone
  · intro mem c
    obtain ⟨hstage, hout⟩ := hv.enter c
    rw [hstage, hout]
    exact c.log_begin _
  · intro tr s p a mem pc evs hr hrun c before hbefore
    have hlive := hv.live hr
    exact (hv.act hr hrun).2.log hlive.box (hlive.hand p) hbefore
  · intro tr s p a mem pc evs q hr hrun hq c before hbefore
    have hlive := hv.live hr
    exact hbefore.frame fun n hn ↦
      (hv.act hr hrun).2.heap_eq (hlive.hand q n hn) fun hn' ↦ hq (hlive.own q p n hn hn')

end

/-! ## What the users see -/

/-- What a step does to the queue of the numbers. -/
def Event.blocks : Event ν → List (BlockOp CInt)
  | .insert val => [.insert [val]]
  | .remove val => [.remove val.toList]
  | _ => []

/-- The number that a step takes out of the buffer. -/
def Event.removed : Event ν → List CInt
  | .remove val => val.toList
  | _ => []

/-- The text that a step prints. -/
def Event.printed : Event ν → List (List Byte)
  | .sprintf val => [text val]
  | _ => []

/-- The step is an insertion. -/
def Event.isInsert : Event ν → Bool
  | .insert _ => true
  | _ => false

/-- In this step a `prodcons_write` succeeds. -/
def Event.isSuccess : Event ν → Bool
  | .wrote ret => 0 ≤ ret
  | _ => false

/-- The call has inserted its number, and is about to return. -/
def Stage.isInserted : Stage ν → Bool
  | .done (.write _) => true
  | _ => false

/-- The item that a step loses. -/
def Event.lose : Event ν → List ν
  | .lost item => [item]
  | _ => []

/-- What a process has done. -/
def eventsOf [DecidableEq ι] (p : ι) (tr : List (Label ι ν)) : List (Event ν) :=
  (tr.filter (·.input.proc = p)).flatMap Io.output

/-- The items that were lost. -/
def lostItems (tr : List (Label ι ν)) : List ν := tr.flatMap fun l ↦ l.output.flatMap Event.lose

/-- **The numbers go through a queue.** -/
structure Delivers [DecidableEq ι] (tr : List (Label ι ν)) (s : Memory ν)
    (stage : ι → Stage ν) : Prop where
  /-- The numbers in the buffer are what a queue with room for `MAX_ITEMS_CBUF` would hold. -/
  queue : ∃ q, (blockQueue CInt).Run anyStep
      (tr.flatMap fun l ↦ l.output.flatMap Event.blocks) q ∧
    s.cbuf.content.map (fun item ↦ item.bind s.heap) = q.map some ∧ q.length ≤ maxItemsCbuf
  /-- What is used or freed is allocated, but for the `NULL` of a `vmalloc` without memory. -/
  fault : ∀ l ∈ tr, ∀ item, .fault item ∈ l.output ↔ item = none ∧ ∃ p, l.input = .act p .nomem
  /-- What a process has taken out, it has printed, but for the number it is about to print. -/
  printed : ∀ p, ((eventsOf p tr).flatMap Event.removed).map text =
    (eventsOf p tr).flatMap Event.printed ++ ((stage p).hand.pending s.heap).map text
  /-- A process has inserted as often as a `prodcons_write` of it has succeeded, but for the one
  that is about to. -/
  inserted : ∀ p, (eventsOf p tr).countP Event.isInsert =
    (eventsOf p tr).countP Event.isSuccess + (stage p).isInserted.toNat
  /-- What a process has done, its calls have done, and each of them what `Completes` says. -/
  events : ∀ p, eventsOf p tr = (Processes.calls p tr).reverse.flatMap Prod.snd
  calls : ∀ p, Processes.Logged (fun x c evs ↦ x.Log s c evs) .idle (stage p)
    (Processes.calls p tr)

/-- **The items are accounted for**: an item that is allocated is in the buffer, with one of
the processes, or lost; and it is in one of these places only. -/
def Accounts [Fintype ι] [DecidableEq ν] (tr : List (Label ι ν)) (s : Memory ν)
    (stage : ι → Stage ν) : Prop :=
  Ledger (fun item ↦ (s.heap item).isSome) (s.cbuf.content.filterMap id ++ lostItems tr)
    fun p ↦ (stage p).hand.nodes

section

variable {tr : List (Label ι ν)} {m : Memory ν} {c : Call} {evs : List (Event ν)} {x : Stage ν}

theorem Event.blocks_op (e : Event ν) : e.op.toList.flatMap Mailbox.Op.blocks = e.blocks := by
  cases e with
  | fault item => cases item <;> rfl
  | vmalloc | vfree | lost | insert | remove | sprintf | wrote | read => rfl

theorem Event.takes_op (e : Event ν) : e.op.toList.flatMap Mailbox.Op.takes = e.removed := by
  cases e with
  | fault item => cases item <;> rfl
  | remove val => exact List.append_nil _
  | vmalloc | vfree | lost | insert | sprintf | wrote | read => rfl

theorem Event.uses_op (e : Event ν) :
    (e.op.toList.flatMap Mailbox.Op.uses).map text = e.printed := by
  cases e with
  | fault item => cases item <;> rfl
  | vmalloc | vfree | lost | insert | remove | sprintf | wrote | read => rfl

theorem Event.loses_op (e : Event ν) : e.op.toList.flatMap Mailbox.Op.loses = e.lose := by
  cases e with
  | fault item => cases item <;> rfl
  | vmalloc | vfree | lost | insert | remove | sprintf | wrote | read => rfl

theorem flatMap_ops {β : Type} (f : Mailbox.Op ν CInt → List β) (g : Event ν → List β)
    (hfg : ∀ e : Event ν, e.op.toList.flatMap f = g e) (evs : List (Event ν)) :
    (ops evs).flatMap f = evs.flatMap g := by
  induction evs with
  | nil => rfl
  | cons e evs ih =>
      rw [List.flatMap_cons, ← hfg e, ← ih, ops, List.filterMap_cons]
      cases e.op <;> simp

/-- The history of the mailbox, read as a history of the events. -/
theorem flatMap_mailboxOps {β : Type} (f : Mailbox.Op ν CInt → List β) (g : Event ν → List β)
    (hfg : ∀ e : Event ν, e.op.toList.flatMap f = g e) :
    (tr.flatMap mailboxOps).flatMap (f ·.2) = tr.flatMap fun l ↦ l.output.flatMap g := by
  rw [List.flatMap_assoc]
  refine List.flatMap_congr fun l _ ↦ ?_
  rw [mailboxOps, List.flatMap_map]
  exact flatMap_ops f g hfg l.output

theorem opsOf_mailboxOps [DecidableEq ι] (p : ι) :
    Mailbox.opsOf p (tr.flatMap mailboxOps) = ops (eventsOf p tr) := by
  induction tr with
  | nil => rfl
  | cons l tr ih =>
      rw [Mailbox.opsOf, List.flatMap_cons, List.filter_append, List.map_append,
        ← Mailbox.opsOf, ← Mailbox.opsOf, ih]
      by_cases hl : l.input.proc = p
      · simp [Mailbox.opsOf, mailboxOps, hl, eventsOf, List.filter_map, Function.comp_def]
      · simp [Mailbox.opsOf, mailboxOps, hl, eventsOf, List.filter_map, Function.comp_def]

/-- A call succeeds if and only if it has inserted. -/
theorem Completes.countP_eq (h : Completes c evs) :
    evs.countP Event.isInsert = evs.countP Event.isSuccess := by
  cases h with
  | refused _ hscan => rcases eq_of_scanWrite_eq_error hscan with rfl | rfl | rfl <;> rfl
  | wrote _ => simp [List.countP_cons, Event.isInsert, Event.isSuccess]
  | fault | freed | lost | ended | interrupted | read => rfl

/-- A call that has come to this stage has inserted as often as it has succeeded, or is about
to succeed. -/
theorem Stage.Log.countP_eq (h : x.Log m c evs) :
    evs.countP Event.isInsert = evs.countP Event.isSuccess + x.isInserted.toNat := by
  cases x with
  | idle => exact Completes.countP_eq h
  | vmalloc val longitud =>
      obtain ⟨-, rfl⟩ := h
      rfl
  | wait r =>
      cases r with
      | write item val longitud =>
          obtain ⟨-, rfl⟩ := h
          rfl
      | read =>
          obtain ⟨-, rfl⟩ := h
          rfl
  | done d =>
      cases d with
      | write longitud =>
          obtain ⟨item, val, -, rfl⟩ := h
          rfl
      | read item =>
          obtain ⟨-, n, val, -, -, rfl⟩ := h
          rfl
  | vfree item len =>
      obtain ⟨-, n, val, -, -, rfl⟩ := h
      rfl

theorem countP_calls {cs : List (Call × List (Event ν))}
    (h : Processes.Logged (fun x c evs ↦ x.Log m c evs) .idle x cs) :
    (cs.reverse.flatMap Prod.snd).countP Event.isInsert =
      (cs.reverse.flatMap Prod.snd).countP Event.isSuccess + x.isInserted.toNat := by
  cases cs with
  | nil =>
      rw [show x = .idle from h]
      rfl
  | cons e cs =>
      obtain ⟨hlast, hcs⟩ := h
      have hover : (cs.reverse.flatMap Prod.snd).countP Event.isInsert =
          (cs.reverse.flatMap Prod.snd).countP Event.isSuccess := by
        rw [List.countP_flatMap, List.countP_flatMap]
        exact congrArg List.sum <| List.map_congr_left fun e' he' ↦
          (hcs e' (List.mem_reverse.mp he')).countP_eq
      rw [List.reverse_cons, List.flatMap_append, List.countP_append, List.countP_append, hover,
        List.flatMap_singleton, hlast.countP_eq, Nat.add_assoc]

end

section

variable {μ κ : Type} [DecidableEq ι] [Fintype ι] [DecidableEq ν] [DecidableEq κ]
  {code : Processes.Code Call (Act ν) μ κ (Event ν)} {mem₀ : μ} {memory : μ → Memory ν}
  {stage : κ → Stage ν} {tr : List (Label ι ν)} {s : Processes.State ι μ κ} {l : Label ι ν}

/-- A step of a run is at fault where it uses the `NULL` of a `vmalloc`. -/
theorem Version.fault_iff (hv : Version ι code mem₀ memory stage)
    (h : (Processes.system ι code mem₀).Run anyStep tr s) (hl : l ∈ tr) (item : Option ν) :
    .fault item ∈ l.output ↔ item = none ∧ ∃ p, l.input = .act p .nomem := by
  obtain ⟨tr₀, s₀, s₁, -, hr, -, hst⟩ := h.exists_of_mem hl
  have hlive := hv.live hr
  cases Processes.step_iff.mp hst with
  | @call p c hp =>
      rw [(hv.enter c).2]
      constructor
      · intro hf
        rcases Call.eq_of_mem_begin hf with hf | ⟨_, hf, -⟩ <;> cases hf
      · rintro ⟨-, q, hq⟩
        cases hq
  | @act p a mem pc evs hrun =>
      constructor
      · intro hf
        obtain ⟨hnull, rfl⟩ := (hv.act hr hrun).2.eq_of_fault (hlive.hand p) hf
        exact ⟨hnull, p, rfl⟩
      · rintro ⟨rfl, q, hq⟩
        obtain ⟨-, rfl⟩ := Processes.Move.act.inj hq
        rw [hv.run_nomem hrun]
        exact List.mem_singleton_self _

/-- **The numbers go through a queue**, in every run of a version. -/
theorem Version.delivers (hv : Version ι code mem₀ memory stage)
    (h : (Processes.system ι code mem₀).Run anyStep tr s) :
    Delivers tr (memory s.mem) fun p ↦ stage (s.pc p) := by
  obtain ⟨m, hr, hbox, hheap, hhand⟩ := hv.exists_mailbox h
  have hinv := Mailbox.inv_of_run hr
  have hevents (p : ι) := Processes.outputs_eq_flatMap_calls hv.run_idle h p
  refine ⟨?_, fun l hl ↦ hv.fault_iff h hl, fun p ↦ ?_, fun p ↦ ?_, hevents, hv.logged h⟩
  · obtain ⟨q, hq, hmap⟩ := hinv.stream
    rw [Mailbox.blocks, flatMap_mailboxOps _ Event.blocks Event.blocks_op] at hq
    refine ⟨q, hq, ?_, ?_⟩
    · rw [hbox, hheap, List.map_map, ← hmap]
      rfl
    · rw [← List.length_map (f := some), ← hmap, List.length_map]
      exact hinv.length_le
  · have htaken := hinv.taken p
    rw [Mailbox.takenBy, Mailbox.usedBy, opsOf_mailboxOps,
      flatMap_ops _ Event.removed Event.takes_op,
      flatMap_ops _ (fun e : Event ν ↦ e.op.toList.flatMap Mailbox.Op.uses) fun _ ↦ rfl] at htaken
    rw [htaken, List.map_append, List.map_flatMap, ← hhand, ← hheap]
    simp only [Event.uses_op]
  · rw [eventsOf, hevents]
    exact countP_calls (hv.logged h p)

/-- **The items are accounted for**, in every run of a version. -/
theorem Version.accounts (hv : Version ι code mem₀ memory stage)
    (h : (Processes.system ι code mem₀).Run anyStep tr s) :
    Accounts tr (memory s.mem) fun p ↦ stage (s.pc p) := by
  obtain ⟨m, hr, hbox, hheap, hhand⟩ := hv.exists_mailbox h
  have hled := (Mailbox.inv_of_run hr).ledger
  rw [Mailbox.lost, flatMap_mailboxOps _ Event.lose Event.loses_op, ← hheap, ← hhand] at hled
  rw [Accounts, hbox, List.filterMap_map]
  simpa [lostItems, Function.comp_def] using hled

end

end DsoFifo.Prodcons
