import DsoFifo.Prodcons.Version
import DsoFifo.Transition.Pool

/-!
# Producers and consumers, first version

`prodcons1.c`: the semaphores `huecos` and `elementos` count the free and the full cells of the
buffer, and `mtx` protects it.  Any number of processes call `prodcons_write` and
`prodcons_read`.

A step is what a process does from one operation on shared data to the next.  As in the FIFO
driver, a `down_interruptible` may be interrupted whenever it has not succeeded.  A `vmalloc` may
always find no memory, and the writer is then at fault.
-/

namespace DsoFifo.Prodcons1

open DsoFifo.C DsoFifo.LTS DsoFifo.Pool DsoFifo.Prodcons Function

variable {ι ν : Type}

/-! ## The module -/

/-- The globals. -/
structure Globals (ν : Type) extends Memory ν where
  /-- `huecos`, which producers wait for, and `elementos`, which consumers wait for. -/
  sem : Side → ℕ
  mtx : ℕ

/-- After `init_prodcons_module`. -/
def initProdconsModule (garbage : Fin maxItemsCbuf → Option ν) : Globals ν where
  toMemory := .created garbage
  sem
    | .prod => maxItemsCbuf
    | .cons => 0
  mtx := 1

/-- A control point. -/
inductive Pc (ν : Type) where
  | idle
  | vmalloc (val : CInt) (longitud : ℕ)
  | /-- At `down_interruptible(&huecos)` or `down_interruptible(&elementos)`. -/ wait (r : Role ν)
  | /-- At `down_interruptible(&mtx)`. -/ lock (r : Role ν)
  | /-- At `insert_cbuffer_t`. -/ insert (item : ν) (val : CInt) (longitud : ℕ)
  | /-- At `head_cbuffer_t`. -/ head
  | /-- At `remove_cbuffer_t`. -/ remove (item : Option ν)
  | /-- At `up(&mtx)`. -/ unlock (d : Done ν)
  | /-- At `up(&elementos)` or `up(&huecos)`. -/ post (d : Done ν)
  | sprintf (item : Option ν)
  | vfree (item : Option ν) (len : ℤ)
deriving DecidableEq

/-- The globals, the process and its events after a step. -/
abbrev Outcome (ν : Type) : Type := Globals ν × Pc ν × List (Event ν)

/-- `up`. -/
def Globals.up (s : Globals ν) (x : Side) : Globals ν :=
  { s with sem := update s.sem x (s.sem x + 1) }

/-- Behind `down_interruptible(&mtx)`. -/
def enter : Role ν → Pc ν
  | .write item val longitud => .insert item val longitud
  | .read => .head

/-- Behind the last `up`. -/
def leave : Done ν → Pc ν × List (Event ν)
  | .write longitud => (.idle, [.wrote longitud])
  | .read item => (.sprintf item, [])

variable [DecidableEq ν]

/-- `vfree`, and `return`. -/
def freeItem (s : Globals ν) (item : Option ν) (ret : Event ν) : Outcome ν :=
  match item with
  | some n =>
    if (s.heap n).isSome then
      ({ s with heap := update s.heap n none }, .idle, [.vfree n, ret])
    else (s, .idle, [.fault item])
  | none => (s, .idle, [ret])

/-- A step of a process. -/
def Pc.run (s : Globals ν) : Pc ν → Act ν → Option (Outcome ν)
  | .vmalloc val longitud, .vmalloc item =>
    if (s.heap item).isNone then
      some ({ s with heap := update s.heap item (some val) }, .wait (.write item val longitud),
        [.vmalloc item])
    else none
  | .vmalloc _ _, .nomem => some (s, .idle, [.fault none])
  | .wait r, .go =>
    if 0 < s.sem r.side then
      some ({ s with sem := update s.sem r.side (s.sem r.side - 1) }, .lock r, [])
    else none
  | .wait (.write item _ _), .intr => some (freeItem s (some item) (.wrote (-eintr)))
  | .wait .read, .intr => some (s, .idle, [.read (-eintr)])
  | .lock r, .go => if 0 < s.mtx then some ({ s with mtx := s.mtx - 1 }, enter r, []) else none
  | .lock (.write item _ _), .intr => some (s.up .prod, .idle, [.lost item, .wrote (-eintr)])
  | .lock .read, .intr => some (s.up .cons, .idle, [.read (-eintr)])
  | .insert item val longitud, .go =>
    (Pointers.insertCbuffer s.cbuf (some item)).map fun cbuf ↦
      ({ s with cbuf := cbuf }, .unlock (.write longitud), [.insert val])
  | .head, .go => (Pointers.headCbuffer s.cbuf).map fun item ↦ (s, .remove item, [])
  | .remove item, .go =>
    (Pointers.removeCbuffer s.cbuf).map fun cbuf ↦
      ({ s with cbuf := cbuf }, .unlock (.read item), [.remove (item.bind s.heap)])
  | .unlock d, .go => some ({ s with mtx := s.mtx + 1 }, .post d, [])
  | .post d, .go => some (s.up d.side, leave d)
  | .sprintf item, .go =>
    match item.bind s.heap with
    | some val => some (s, .vfree item (text val).length, [.sprintf val])
    | none => some (s, .idle, [.fault item])
  | .vfree item len, .go => some (freeItem s item (.read len))
  | _, _ => none

/-- The module's code. -/
def code (ν : Type) [DecidableEq ν] :
    Processes.Code Prodcons.Call (Act ν) (Globals ν) (Pc ν) (Event ν) where
  idle := .idle
  enter := Prodcons.Call.enter .idle .vmalloc (.wait .read)
  run := Pc.run

variable [DecidableEq ι]

/-- The memory, and where the processes are. -/
abbrev State (ι ν : Type) : Type := Processes.State ι (Globals ν) (Pc ν)

/-- The module and its processes. -/
def prodcons1 (ι : Type) [DecidableEq ι] (garbage : Fin maxItemsCbuf → Option ν) :
    LTS (State ι ν) (Label ι ν) :=
  Processes.system ι (code ν) (initProdconsModule garbage)

/-! ## What a step can be -/

/-- The pointer that a process uses or frees next. -/
def Pc.uses : Pc ν → Option (Option ν)
  | .wait (.write item _ _) => some (some item)
  | .sprintf item | .vfree item _ => some item
  | _ => none

omit [DecidableEq ι] in
/-- Every way a process takes a step. -/
inductive Runs (s : Globals ν) : Pc ν → Act ν → Outcome ν → Prop
  | vmalloc {val : CInt} {longitud : ℕ} {item : ν} : s.heap item = none →
      Runs s (.vmalloc val longitud) (.vmalloc item)
      ({ s with heap := update s.heap item (some val) }, .wait (.write item val longitud),
        [.vmalloc item])
  | nomem {val : CInt} {longitud : ℕ} :
      Runs s (.vmalloc val longitud) .nomem (s, .idle, [.fault none])
  | wait {r : Role ν} : 0 < s.sem r.side → Runs s (.wait r) .go
      ({ s with sem := update s.sem r.side (s.sem r.side - 1) }, .lock r, [])
  | giveUp {item : ν} {val : CInt} {longitud : ℕ} : s.heap item ≠ none →
      Runs s (.wait (.write item val longitud)) .intr ({ s with heap := update s.heap item none },
        .idle, [.vfree item, .wrote (-eintr)])
  | giveUpRead : Runs s (.wait .read) .intr (s, .idle, [.read (-eintr)])
  | lock {r : Role ν} : 0 < s.mtx →
      Runs s (.lock r) .go ({ s with mtx := s.mtx - 1 }, enter r, [])
  | lose {item : ν} {val : CInt} {longitud : ℕ} : Runs s (.lock (.write item val longitud)) .intr
      (s.up .prod, .idle, [.lost item, .wrote (-eintr)])
  | loseRead : Runs s (.lock .read) .intr (s.up .cons, .idle, [.read (-eintr)])
  | insert {item : ν} {val : CInt} {longitud : ℕ} {cbuf : Pointers.Cbuffer (Option ν)} :
      Pointers.insertCbuffer s.cbuf (some item) = some cbuf → Runs s (.insert item val longitud) .go
      ({ s with cbuf := cbuf }, .unlock (.write longitud), [.insert val])
  | head {item : Option ν} : Pointers.headCbuffer s.cbuf = some item →
      Runs s .head .go (s, .remove item, [])
  | remove {item : Option ν} {cbuf : Pointers.Cbuffer (Option ν)} :
      Pointers.removeCbuffer s.cbuf = some cbuf → Runs s (.remove item) .go
      ({ s with cbuf := cbuf }, .unlock (.read item), [.remove (item.bind s.heap)])
  | unlock {d : Done ν} : Runs s (.unlock d) .go ({ s with mtx := s.mtx + 1 }, .post d, [])
  | post {d : Done ν} : Runs s (.post d) .go (s.up d.side, leave d)
  | sprintf {n : ν} {val : CInt} : s.heap n = some val →
      Runs s (.sprintf (some n)) .go (s, .vfree (some n) (text val).length, [.sprintf val])
  | vfree {n : ν} {len : ℤ} : s.heap n ≠ none → Runs s (.vfree (some n) len) .go
      ({ s with heap := update s.heap n none }, .idle, [.vfree n, .read len])
  | vfreeNull {len : ℤ} : Runs s (.vfree none len) .go (s, .idle, [.read len])
  | fault {pc : Pc ν} {a : Act ν} {item : Option ν} : pc.uses = some item →
      item.bind s.heap = none → Runs s pc a (s, .idle, [.fault item])

variable {s : Globals ν} {pc : Pc ν} {a : Act ν} {o : Outcome ν}

omit [DecidableEq ι] in
theorem runs_of_run (h : pc.run s a = some o) : Runs s pc a o := by
  unfold Pc.run at h
  split at h
  · split at h
    · cases h
      exact .vmalloc (Option.isNone_iff_eq_none.mp ‹_›)
    · cases h
  · cases h
    exact .nomem
  · split at h
    · cases h
      exact .wait ‹_›
    · cases h
  · obtain rfl := Option.some.inj h
    unfold freeItem
    dsimp only
    split
    · exact .giveUp (Option.isSome_iff_ne_none.mp ‹_›)
    · exact .fault rfl (Option.not_isSome_iff_eq_none.mp ‹_›)
  · cases h
    exact .giveUpRead
  · split at h
    · cases h
      exact .lock ‹_›
    · cases h
  · cases h
    exact .lose
  · cases h
    exact .loseRead
  · obtain ⟨cbuf, hins, rfl⟩ := Option.map_eq_some_iff.mp h
    exact .insert hins
  · obtain ⟨item, hhead, rfl⟩ := Option.map_eq_some_iff.mp h
    exact .head hhead
  · obtain ⟨cbuf, hrem, rfl⟩ := Option.map_eq_some_iff.mp h
    exact .remove hrem
  · cases h
    exact .unlock
  · cases h
    exact .post
  · split at h
    · rename_i item val hval
      cases h
      obtain ⟨n, rfl, hn⟩ := Option.bind_eq_some_iff.mp hval
      exact .sprintf hn
    · cases h
      exact .fault rfl ‹_›
  · rename_i item len
    obtain rfl := Option.some.inj h
    unfold freeItem
    cases item with
    | none => exact .vfreeNull
    | some n =>
        dsimp only
        split
        · exact .vfree (Option.isSome_iff_ne_none.mp ‹_›)
        · exact .fault rfl (Option.not_isSome_iff_eq_none.mp ‹_›)
  · cases h

omit [DecidableEq ι] in
/-- The result of a `vmalloc` without memory is used. -/
theorem run_nomem (h : pc.run s .nomem = some o) : o.2.2 = [.fault none] := by
  cases pc with
  | vmalloc => exact congrArg (·.2.2) (Option.some.inj h).symm
  | _ => cases h

omit [DecidableEq ι] in
/-- An item is lost where its writer is interrupted at `mtx`. -/
theorem Runs.eq_of_lost (h : Runs s pc a o) {item : ν} (hlost : .lost item ∈ o.2.2) :
    ∃ val longitud, pc = .lock (.write item val longitud) ∧ a = .intr ∧
      o.2.2 = [.lost item, .wrote (-eintr)] := by
  cases h with
  | lose =>
      obtain rfl : item = _ := by simpa using hlost
      exact ⟨_, _, rfl, rfl, rfl⟩
  | @post d => cases d <;> simp [leave] at hlost
  | vmalloc | nomem | wait | giveUp | giveUpRead | lock | loseRead | insert | head | remove
  | unlock | sprintf | vfree | vfreeNull | fault => simp at hlost

/-! ## The semaphores -/

/-- Between `down_interruptible(&mtx)` and `up(&mtx)`. -/
def Pc.inside : Pc ν → Bool
  | .insert _ _ _ | .head | .remove _ | .unlock _ => true
  | _ => false

/-- A unit of the semaphore that the process has taken and not used, or made and not posted. -/
def Pc.token (x : Side) : Pc ν → Bool
  | .lock r => r.side = x
  | .insert _ _ _ => Side.prod = x
  | .head | .remove _ => Side.cons = x
  | .unlock d | .post d => d.side = x
  | _ => false

/-- What a process knows of the buffer. -/
def Pc.Local (s : Memory ν) : Pc ν → Prop
  | .remove item => s.cbuf.content.head? = some item
  | .unlock (.read item) | .post (.read item) | .sprintf item | .vfree item _ => item ≠ none
  | _ => True

section

omit [DecidableEq ι]

/-- The lock, where `n` of the others are inside. -/
theorem Runs.mutex (h : Runs s pc a o) (n : ℕ) (hn : s.mtx + (n + pc.inside.toNat) = 1) :
    o.1.mtx + (n + o.2.1.inside.toNat) = 1 := by
  cases h with
  | @lock r hpos =>
      simp only [Pc.inside, Bool.toNat_false] at hn
      cases r <;> simp only [enter, Pc.inside, Bool.toNat_true] <;> omega
  | @post d => cases d <;> exact hn
  | unlock =>
      simp only [Pc.inside, Bool.toNat_false, Bool.toNat_true] at hn ⊢
      omega
  | fault huses _ =>
      unfold Pc.uses at huses
      split at huses
      · exact hn
      · exact hn
      · exact hn
      · cases huses
  | vmalloc | nomem | wait | giveUp | giveUpRead | lose | loseRead | insert | head | remove
  | sprintf | vfree | vfreeNull => exact hn

/-- **The semaphores count**: where the others have `n` units, a semaphore and the units that
were taken from it are what there is of it in the buffer. -/
theorem Runs.tokens (h : Runs s pc a o) (hwf : s.toMemory.Wf)
    (hroom : pc.token .prod = true → s.cbuf.size < maxItemsCbuf)
    (hsome : pc.token .cons = true → s.cbuf.size ≠ 0) {x : Side} (n : ℕ)
    (hkx : s.sem x + (n + (pc.token x).toNat) = x.avail s.cbuf.size) :
    o.1.sem x + (n + (o.2.1.token x).toNat) = x.avail o.1.cbuf.size := by
  cases h with
  | @wait r hpos =>
      by_cases hx : r.side = x
      · subst hx
        simp only [Pc.token, update_self, decide_true, Bool.toNat_true, Bool.toNat_false] at hkx ⊢
        omega
      · simpa [Pc.token, update_of_ne (Ne.symm hx), hx] using hkx
  | @lock r hpos => cases r <;> exact hkx
  | lose | loseRead =>
      cases x <;> simp [Pc.token, Role.side, Globals.up] at hkx ⊢ <;> omega
  | @insert item val longitud cbuf hins =>
      have hlt := hroom rfl
      obtain ⟨-, hsize, -⟩ := hwf.insert hlt hins
      cases x <;> simp [Pc.token, Done.side, Side.avail, hsize] at hkx ⊢ <;> omega
  | @remove item cbuf hrem =>
      obtain ⟨-, hsize, -⟩ := hwf.remove hrem
      have hne := hsome rfl
      have hle := hwf.cbuf.size_le
      rw [hwf.maxSize_eq] at hle
      cases x <;> simp [Pc.token, Done.side, Side.avail, hsize] at hkx ⊢ <;> omega
  | @post d =>
      by_cases hx : d.side = x
      · subst hx
        cases d <;> simp [Pc.token, leave, Globals.up, Done.side] at hkx ⊢ <;> omega
      · cases d <;> simpa [Pc.token, leave, Globals.up, update_of_ne (Ne.symm hx), hx] using hkx
  | fault huses _ =>
      unfold Pc.uses at huses
      split at huses
      · exact hkx
      · exact hkx
      · exact hkx
      · cases huses
  | vmalloc | nomem | giveUp | giveUpRead | head | unlock | sprintf | vfree | vfreeNull =>
      exact hkx

/-! ## One step of a process -/

/-- How far the call has come. -/
def Pc.stage : Pc ν → Stage ν
  | .idle => .idle
  | .vmalloc val longitud => .vmalloc val longitud
  | .wait r | .lock r => .wait r
  | .insert item val longitud => .wait (.write item val longitud)
  | .head | .remove _ => .wait .read
  | .unlock d | .post d => .done d
  | .sprintf item => .done (.read item)
  | .vfree item len => .vfree item len

/-- Outside of the section the buffer stays as it is. -/
theorem Runs.cbuf_eq (h : Runs s pc a o) (hpc : pc.inside = false) : o.1.cbuf = s.cbuf := by
  cases h with
  | insert _ | remove _ => cases hpc
  | vmalloc | nomem | wait | giveUp | giveUpRead | lock | lose | loseRead | head | unlock | post
  | sprintf | vfree | vfreeNull | fault => rfl

omit [DecidableEq ν] in
/-- What a process knows stays true while the buffer stays as it is, and outside of the section
in any case. -/
theorem Pc.Local.frame {m m' : Memory ν} (h : pc.Local m)
    (hm : m'.cbuf = m.cbuf ∨ pc.inside = false) : pc.Local m' := by
  cases pc with
  | remove item =>
      rcases hm with hm | hm
      · exact (congrArg (fun b : Pointers.Cbuffer (Option ν) ↦ b.content.head?) hm).trans h
      · cases hm
  | unlock d | post d => cases d <;> exact h
  | idle | vmalloc | wait | lock | insert | head | sprintf | vfree => exact h

/-- What a process knows when it has taken a step. -/
theorem Runs.known (h : Runs s pc a o) (hwf : s.toMemory.Wf)
    (hsome : pc.token .cons = true → s.cbuf.size ≠ 0) (hpc : pc.Local s.toMemory) :
    o.2.1.Local o.1.toMemory := by
  cases h with
  | @head item hhead =>
      rw [hwf.cbuf.headCbuffer_eq] at hhead
      have hne : s.cbuf.content ≠ [] := fun hnil ↦ hsome rfl (by
        rw [← Pointers.Cbuffer.length_content, hnil, List.length_nil])
      obtain ⟨c, cs, hcs⟩ := List.exists_cons_of_ne_nil hne
      rw [hcs] at hhead
      exact (congrArg List.head? hcs).trans hhead
  | remove _ =>
      intro hnull
      exact hwf.ne_null (hnull ▸ List.mem_of_mem_head? hpc)
  | @lock r _ => cases r <;> trivial
  | @unlock d => cases d <;> exact hpc
  | @post d => cases d <;> exact hpc
  | sprintf => exact hpc
  | vmalloc | nomem | wait | giveUp | giveUpRead | lose | loseRead | insert | vfree | vfreeNull
  | fault => trivial

/-- **What a step does to the memory** and to the stage. -/
theorem Runs.touches (h : Runs s pc a o) (hwf : s.toMemory.Wf)
    (hroom : pc.token .prod = true → s.cbuf.size < maxItemsCbuf) (hpc : pc.Local s.toMemory) :
    Touches s.toMemory pc.stage a o.1.toMemory o.2.1.stage o.2.2 := by
  cases h with
  | vmalloc hnone => exact .vmalloc hnone
  | nomem => exact .nomem
  | giveUp hlive => exact .giveUp hlive
  | lose => exact .lose
  | giveUpRead | loseRead => exact .giveUpRead
  | insert hins => exact .insert (hroom rfl) hins
  | @remove item cbuf hrem =>
      cases item with
      | none => exact absurd (List.mem_of_mem_head? hpc) hwf.ne_null
      | some n => exact .remove hpc hrem
  | sprintf hval => exact .sprintf hval
  | vfree hlive => exact .vfree hlive
  | vfreeNull => exact absurd rfl hpc
  | @lock r _ => cases r <;> exact .stay _
  | @post d =>
      cases d with
      | write longitud => exact .wrote
      | read item => exact .stay _
  | wait | unlock | head => exact .stay _
  | @fault pc _ item huses hnone =>
      have hitem : item ≠ none ∧ pc.stage.hand.nodes = item.toList := by
        unfold Pc.uses at huses
        split at huses
        · cases huses
          exact ⟨nofun, rfl⟩
        · cases huses
          exact ⟨hpc, by cases item <;> rfl⟩
        · cases huses
          exact ⟨hpc, by cases item <;> rfl⟩
        · cases huses
      obtain ⟨n, rfl⟩ := Option.ne_none_iff_exists'.mp hitem.1
      exact .fault (by rw [hitem.2]; exact List.mem_singleton_self n) hnone

end

/-! ## A run -/

/-- One process writes `42` twice, and is interrupted at `mtx` when it writes `7`; the other
reads a number as far as `vfree`. -/
def exampleMoves : List (Processes.Move Bool Prodcons.Call (Act (Fin 4))) :=
  let write (item : Fin 4) : List (Processes.Move Bool Prodcons.Call (Act (Fin 4))) :=
    .call false (.prodconsWrite [52, 50] 2) :: .act false (.vmalloc item) ::
      List.replicate 5 (.act false .go)
  write 0 ++ write 1 ++
    [.call false (.prodconsWrite [55] 1), .act false (.vmalloc 2), .act false .go,
      .act false .intr, .call true (.prodconsRead 0)] ++ List.replicate 7 (.act true .go)

/-- The module with two processes and four items. -/
abbrev exampleSystem : LTS (State Bool (Fin 4)) (Label Bool (Fin 4)) :=
  prodcons1 Bool fun _ ↦ none

theorem exists_exampleRun : ∃ tr st, exampleSystem.Run anyStep tr st ∧ st.mem.cbuf.size = 1 ∧
    st.pc true = .vfree (some 0) 3 ∧ st.mem.heap 2 = some (.ofInt 7) := by
  obtain ⟨tr, st, hr, hg⟩ := Processes.exists_run (code (Fin 4)) (initProdconsModule fun _ ↦ none)
    anyStep exampleMoves (fun st ↦ decide (st.mem.cbuf.size = 1 ∧ st.pc true = .vfree (some 0) 3 ∧
      st.mem.heap 2 = some (.ofInt 7))) (by decide +kernel)
  exact ⟨tr, st, hr, of_decide_eq_true hg⟩

/-! ## Runs -/

section

variable [Fintype ι] {garbage : Fin maxItemsCbuf → Option ν}
  {tr : List (Label ι ν)} {l : Label ι ν} {st st' : State ι ν}

omit [DecidableEq ν] [DecidableEq ι] in
/-- What holds in every state reached. -/
structure Inv (st : State ι ν) : Prop where
  wf : st.mem.toMemory.Wf
  /-- At most one process is between the `down` and the `up` of `mtx`. -/
  mutex : st.mem.mtx + count Pc.inside st.pc = 1
  tokens : ∀ x, st.mem.sem x + count (Pc.token x) st.pc = x.avail st.mem.cbuf.size
  known : ∀ p, (st.pc p).Local st.mem.toMemory

namespace Inv

omit [DecidableEq ν]

/-- The units of a semaphore, with one process and the others. -/
theorem tokens_split (h : Inv st) (p : ι) (x : Side) : st.mem.sem x +
    (count (Pc.token x) (update st.pc p .idle) + ((st.pc p).token x).toNat) =
      x.avail st.mem.cbuf.size := by
  rw [← count_eq_add st.pc p (z := .idle) rfl]
  exact h.tokens x

/-- A unit of `huecos` is room. -/
theorem room (h : Inv st) (p : ι) (hp : (st.pc p).token .prod = true) :
    st.mem.cbuf.size < maxItemsCbuf := by
  have hk := h.tokens_split p .prod
  simp only [hp, Bool.toNat_true, Side.avail] at hk
  omega

/-- A unit of `elementos` is an element. -/
theorem size_ne_zero (h : Inv st) (p : ι) (hp : (st.pc p).token .cons = true) :
    st.mem.cbuf.size ≠ 0 := by
  have hk := h.tokens_split p .cons
  simp only [hp, Bool.toNat_true, Side.avail] at hk
  omega

/-- When one process is inside, the others are not. -/
theorem inside_eq_false (h : Inv st) {p q : ι} (hpq : p ≠ q) (hp : (st.pc p).inside = true) :
    (st.pc q).inside = false := by
  by_contra hq
  have htwo := two_le_count hpq hp (eq_true_of_ne_false hq)
  have hmutex := h.mutex
  omega

end Inv

omit [DecidableEq ι] [Fintype ι] in
/-- A call begins with no unit. -/
theorem enter_eq (c : Prodcons.Call) (s : Memory ν) :
    ((code ν).enter c).1.inside = false ∧ (∀ x, ((code ν).enter c).1.token x = false) ∧
      ((code ν).enter c).1.Local s := by
  rcases (Prodcons.Call.enter_cases (ν := ν) Pc.idle Pc.vmalloc (.wait .read) c).1 with
    ⟨val, longitud, hc⟩ | hc | hc <;> change _ = _ at hc <;> rw [code, hc] <;>
    exact ⟨rfl, fun _ ↦ rfl, trivial⟩

/-- **A step touches the memory** in one of the ways that both versions have. -/
theorem Inv.touches (h : Inv st) {p : ι} (hrun : (st.pc p).run st.mem a = some o) :
    Touches st.mem.toMemory (st.pc p).stage a o.1.toMemory o.2.1.stage o.2.2 :=
  (runs_of_run hrun).touches h.wf (h.room p) (h.known p)

/-- **A step** keeps the invariant. -/
theorem Inv.step (h : Inv st) (hst : (prodcons1 ι garbage).Step st l st') : Inv st' where
  wf := by
    cases Processes.step_iff.mp hst with
    | call _ _ => exact h.wf
    | act hrun => exact (h.touches hrun).wf h.wf
  mutex := Processes.count_step (R := fun mem n ↦ mem.mtx + n = 1) rfl
    (fun c ↦ (enter_eq c st.mem.toMemory).1) hst
    (fun _ _ _ _ _ n hrun hn ↦ (runs_of_run hrun).mutex n hn) h.mutex
  tokens x := Processes.count_step (R := fun mem n ↦ mem.sem x + n = x.avail mem.cbuf.size) rfl
    (fun c ↦ (enter_eq c st.mem.toMemory).2.1 x) hst
    (fun p _ _ _ _ n hrun hn ↦
      (runs_of_run hrun).tokens h.wf (h.room p) (h.size_ne_zero p) n hn) (h.tokens x)
  known := Processes.known_step (K := fun mem pc ↦ pc.Local mem.toMemory) hst
    (fun c ↦ (enter_eq c st.mem.toMemory).2.2)
    (fun p _ _ _ _ hrun ↦
      (runs_of_run hrun).known h.wf (h.size_ne_zero p) (h.known p))
    (fun p _ _ _ _ q hrun hq ↦ (h.known q).frame <| by
      by_cases hp : (st.pc p).inside = true
      · exact .inr (h.inside_eq_false (Ne.symm hq) hp)
      · exact .inl ((runs_of_run hrun).cbuf_eq (Bool.eq_false_iff.mpr hp)))
    h.known

theorem inv_of_run {P : State ι ν → Label ι ν → Prop}
    (h : (prodcons1 ι garbage).Run P tr st) : Inv st := by
  refine Run.invariant ?_ (fun st l st' ih _ hst ↦ ih.step hst) h
  rintro st rfl
  refine ⟨Memory.wf_created garbage, ?_, fun x ↦ ?_, fun p ↦ trivial⟩
  · exact congrArg (1 + ·) (count_const_false rfl)
  · exact (congrArg (_ + ·) (count_const_false rfl)).trans (by cases x <;> rfl)

/-- The module is one of the versions. -/
theorem version (garbage : Fin maxItemsCbuf → Option ν) :
    Version ι (code ν) (initProdconsModule garbage) Globals.toMemory Pc.stage where
  cbuf := rfl
  heap := rfl
  idle := rfl
  run_idle _ a := by cases a <;> rfl
  run_nomem hrun := run_nomem hrun
  enter c := Prodcons.Call.enter_map Pc.stage .idle .vmalloc (.wait .read) c
  act hr hrun := ⟨(inv_of_run hr).wf, (inv_of_run hr).touches hrun⟩

/-- **The numbers go through a queue**, in every run of the first version, whatever is
interrupted. -/
theorem prodcons1_delivers (h : (prodcons1 ι garbage).Run anyStep tr st) :
    Delivers tr st.mem.toMemory fun p ↦ (st.pc p).stage := (version garbage).delivers h

theorem prodcons1_delivers_example : ∃ tr st, exampleSystem.Run anyStep tr st ∧
    st.mem.cbuf.size = 1 ∧ Delivers tr st.mem.toMemory fun p ↦ (st.pc p).stage := by
  obtain ⟨tr, st, hr, hsize, -⟩ := exists_exampleRun
  exact ⟨tr, st, hr, hsize, prodcons1_delivers hr⟩

/-- A step in which an item is lost. -/
theorem lost_of_mem (hst : (prodcons1 ι garbage).Step st l st') {item : ν}
    (hlost : .lost item ∈ l.output) :
    ∃ p val longitud, st.pc p = .lock (.write item val longitud) ∧
      l = ⟨.act p .intr, [.lost item, .wrote (-eintr)]⟩ := by
  cases Processes.step_iff.mp hst with
  | @call p c hp =>
      rw [((version (ι := ι) garbage).enter c).2] at hlost
      rcases Prodcons.Call.eq_of_mem_begin hlost with heq | ⟨_, heq, -⟩ <;> cases heq
  | @act p a mem pc evs hrun =>
      obtain ⟨val, longitud, hpc, rfl, hevs⟩ := (runs_of_run hrun).eq_of_lost hlost
      exact ⟨p, val, longitud, hpc, congrArg _ hevs⟩

/-- **The items are accounted for**, in every run: what is allocated is in the buffer, with a
process that is going to insert or to free it, or was lost.  It is lost where its writer is
interrupted at `mtx`, and nowhere else. -/
theorem prodcons1_accounts (h : (prodcons1 ι garbage).Run anyStep tr st) :
    Accounts tr st.mem.toMemory (fun p ↦ (st.pc p).stage) ∧
      ∀ l ∈ tr, ∀ item, .lost item ∈ l.output → ∃ tr₀ st₀ p val longitud, tr₀ ++ [l] <+: tr ∧
        (prodcons1 ι garbage).Run anyStep tr₀ st₀ ∧
        st₀.pc p = .lock (.write item val longitud) ∧
        l = ⟨.act p .intr, [.lost item, .wrote (-eintr)]⟩ := by
  refine ⟨(version garbage).accounts h, fun l hl item hlost ↦ ?_⟩
  obtain ⟨tr₀, st₀, st₁, hpre, hr, -, hst⟩ := h.exists_of_mem hl
  obtain ⟨p, val, longitud, hpc, hlabel⟩ := lost_of_mem hst hlost
  exact ⟨tr₀, st₀, p, val, longitud, hpre, hr, hpc, hlabel⟩

theorem prodcons1_accounts_example : ∃ tr st, exampleSystem.Run anyStep tr st ∧
    st.mem.heap 2 = some (.ofInt 7) ∧
      Accounts tr st.mem.toMemory fun p ↦ (st.pc p).stage := by
  obtain ⟨tr, st, hr, -, -, hlost⟩ := exists_exampleRun
  exact ⟨tr, st, hr, hlost, (prodcons1_accounts hr).1⟩

/-- **The semaphores count.**  `mtx` keeps all but one process out; `elementos` and `huecos`,
with the units that are under way, are the elements and the gaps of the buffer.  So nobody
inserts in a full buffer or takes an element from an empty one, and the element that goes is
the one that was looked at. -/
theorem prodcons1_semaphores (h : (prodcons1 ι garbage).Run anyStep tr st) :
    st.mem.mtx + count Pc.inside st.pc = 1 ∧
      st.mem.sem .cons + count (Pc.token .cons) st.pc = st.mem.cbuf.size ∧
      st.mem.sem .prod + count (Pc.token .prod) st.pc = maxItemsCbuf - st.mem.cbuf.size ∧
      ∀ p, match st.pc p with
        | .insert _ _ _ => st.mem.cbuf.size < maxItemsCbuf
        | .head => st.mem.cbuf.size ≠ 0
        | .remove item => st.mem.cbuf.content.head? = some item ∧ item ≠ none
        | _ => True := by
  have hinv := inv_of_run h
  refine ⟨hinv.mutex, hinv.tokens .cons, hinv.tokens .prod, fun p ↦ ?_⟩
  have hknown := hinv.known p
  cases hp : st.pc p with
  | insert item val longitud => exact hinv.room p (by rw [hp]; rfl)
  | head => exact hinv.size_ne_zero p (by rw [hp]; rfl)
  | remove item =>
      rw [hp] at hknown
      exact ⟨hknown, fun hnull ↦ hinv.wf.ne_null (hnull ▸ List.mem_of_mem_head? hknown)⟩
  | idle | vmalloc | wait | lock | unlock | post | sprintf | vfree => trivial

theorem prodcons1_semaphores_example : ∃ tr st, exampleSystem.Run anyStep tr st ∧
    st.mem.cbuf.size = 1 ∧
      st.mem.sem .cons + count (Pc.token .cons) st.pc = st.mem.cbuf.size := by
  obtain ⟨tr, st, hr, hsize, -⟩ := exists_exampleRun
  exact ⟨tr, st, hr, hsize, (prodcons1_semaphores hr).2.1⟩

/-! ### Nobody can go on -/

omit [DecidableEq ι] [Fintype ι] in
/-- No process can take a step, but for calls, interrupts and a `vmalloc` without memory. -/
def Stuck (st : State ι ν) : Prop :=
  ∀ p a, a ≠ .intr → a ≠ .nomem → (st.pc p).run st.mem a = none

omit [DecidableEq ι] [Fintype ι] in
/-- Where a process can be that cannot go on. -/
theorem Pc.blocked {s : Globals ν} {pc : Pc ν} (hwf : s.toMemory.Wf)
    (hgo : ∀ a, a ≠ .intr → a ≠ .nomem → pc.run s a = none) :
    pc = .idle ∨ (∃ val longitud, pc = .vmalloc val longitud ∧ ∀ item, s.heap item ≠ none) ∨
      (∃ r, pc = .wait r ∧ s.sem r.side = 0) ∨ ∃ r, pc = .lock r ∧ s.mtx = 0 := by
  have hgo' := hgo .go nofun nofun
  cases pc with
  | idle => exact .inl rfl
  | vmalloc val longitud =>
      refine .inr (.inl ⟨val, longitud, rfl, fun item hnone ↦ ?_⟩)
      have hitem := hgo (.vmalloc item) nofun nofun
      simp [Pc.run, hnone] at hitem
  | wait r =>
      refine .inr (.inr (.inl ⟨r, rfl, ?_⟩))
      by_contra hpos
      cases r <;> simp [Pc.run, Nat.pos_of_ne_zero hpos] at hgo'
  | lock r =>
      refine .inr (.inr (.inr ⟨r, rfl, ?_⟩))
      by_contra hpos
      cases r <;> simp [Pc.run, Nat.pos_of_ne_zero hpos] at hgo'
  | insert item val longitud =>
      obtain ⟨b, hb, -⟩ := hwf.cbuf.insertCbuffer_eq (some item)
      simp [Pc.run, hb] at hgo'
  | head => simp [Pc.run, hwf.cbuf.headCbuffer_eq] at hgo'
  | remove item =>
      obtain ⟨b, hb, -⟩ := hwf.cbuf.removeCbuffer_eq
      simp [Pc.run, hb] at hgo'
  | unlock d | post d | vfree item len => cases hgo'
  | sprintf item =>
      simp only [Pc.run] at hgo'
      split at hgo' <;> cases hgo'

/-- **No deadlock.**  When nobody can go on, every process that is in a call is at a `vmalloc` for
which there is no memory, or is a writer and the buffer is full, or is a reader and the buffer is
empty. -/
theorem prodcons1_blocked (h : (prodcons1 ι garbage).Run anyStep tr st) (hst : Stuck st) (p : ι) :
    st.pc p = .idle ∨
      (∃ val longitud, st.pc p = .vmalloc val longitud ∧ ∀ item, st.mem.heap item ≠ none) ∨
      (∃ item val longitud, st.pc p = .wait (.write item val longitud) ∧
        st.mem.cbuf.size = maxItemsCbuf) ∨
      (st.pc p = .wait .read ∧ st.mem.cbuf.size = 0) := by
  have hinv := inv_of_run h
  have hblocked (q : ι) := Pc.blocked hinv.wf (hst q)
  -- nobody is inside, so the lock is free, so nobody is at the lock
  have hinside : count Pc.inside st.pc = 0 := count_eq_zero.mpr fun q ↦ by
    rcases hblocked q with hq | ⟨_, _, hq, -⟩ | ⟨_, hq, -⟩ | ⟨_, hq, -⟩ <;> rw [hq] <;> rfl
  have hmtx : st.mem.mtx = 1 := by
    have hmutex := hinv.mutex
    omega
  have hlock (q : ι) (r : Role ν) : st.pc q ≠ .lock r := fun hq ↦ by
    rcases hblocked q with hq' | ⟨_, _, hq', -⟩ | ⟨_, hq', -⟩ | ⟨_, -, hzero⟩
    · cases hq.symm.trans hq'
    · cases hq.symm.trans hq'
    · cases hq.symm.trans hq'
    · omega
  -- so no unit is under way
  have htoken (x : Side) : count (Pc.token x) st.pc = 0 := count_eq_zero.mpr fun q ↦ by
    rcases hblocked q with hq | ⟨_, _, hq, -⟩ | ⟨_, hq, -⟩ | ⟨r, hq, -⟩
    · rw [hq]; rfl
    · rw [hq]; rfl
    · rw [hq]; rfl
    · exact absurd hq (hlock q r)
  have hsem (x : Side) : st.mem.sem x = x.avail st.mem.cbuf.size := by
    have htok := hinv.tokens x
    rwa [htoken x] at htok
  have hle := hinv.wf.cbuf.size_le
  rw [hinv.wf.maxSize_eq] at hle
  rcases hblocked p with hp | hp | ⟨r, hp, hzero⟩ | ⟨r, hp, -⟩
  · exact .inl hp
  · exact .inr (.inl hp)
  · rw [hsem] at hzero
    cases r with
    | write item val longitud =>
        refine .inr (.inr (.inl ⟨item, val, longitud, hp, ?_⟩))
        simp only [Role.side, Side.avail] at hzero
        omega
    | read => exact .inr (.inr (.inr ⟨hp, hzero⟩))
  · exact absurd hp (hlock p r)

/-- A reader waits for the first number. -/
theorem prodcons1_blocked_reader : ∃ tr st, exampleSystem.Run anyStep tr st ∧ Stuck st ∧
    st.pc true ≠ .idle ∧ st.mem.cbuf.size = 0 := by
  obtain ⟨tr, st, hr, hg⟩ := Processes.exists_run (code (Fin 4)) (initProdconsModule fun _ ↦ none)
    anyStep [.call true (.prodconsRead 0)]
    (fun st ↦ decide (st.pc true = .wait .read ∧ st.pc false = .idle ∧ st.mem.sem .cons = 0))
    (by decide +kernel)
  obtain ⟨htrue, hfalse, hsem⟩ := of_decide_eq_true hg
  have hstuck : Stuck st := fun p a ha _ ↦ by
    cases p with
    | false => rw [hfalse]; cases a <;> rfl
    | true =>
        rw [htrue]
        cases a with
        | go => simp [Pc.run, Role.side, hsem]
        | intr => exact absurd rfl ha
        | vmalloc _ | nomem => rfl
  refine ⟨tr, st, hr, hstuck, by rw [htrue]; nofun, ?_⟩
  rcases prodcons1_blocked hr hstuck true with hp | ⟨_, _, hp, -⟩ | ⟨_, _, _, hp, -⟩ | ⟨-, hsize⟩
  · cases htrue.symm.trans hp
  · cases htrue.symm.trans hp
  · cases htrue.symm.trans hp
  · exact hsize

end

end DsoFifo.Prodcons1
