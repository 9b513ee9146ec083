import DsoFifo.Buffer.ByteQueue
import DsoFifo.Store.Ledger

/-!
# Values handed over in allocated nodes

A process allocates a node, writes a value in it and puts it in a box with room for `m`
nodes; another one takes it out, uses the value and frees the node.  `mailbox m` is the
transition system of that discipline, apart from how the processes synchronise: a node goes
in only where there is room, one comes out only where there is one, and a process may also
give up, and then either frees its node or loses it.

That a process uses or frees a node which is not allocated is a step of the system, a
`fault`.  `Mailbox.Inv` holds along every run (`Mailbox.inv_of_run`), and says that there is
none: the nodes are accounted for, the values go through the box in the order of a queue, and
each process uses what it has taken.  A program whose steps are matched by those of a mailbox
has all that, whatever its locks are.
-/

namespace DsoFifo

open DsoFifo.LTS Function

/-- What a process has in its hands. -/
inductive Hand (ν V : Type) where
  | empty
  | /-- A node that it has allocated, with this value. -/ fresh (n : ν) (x : V)
  | /-- A node that it has taken out of the box. -/ taken (n : ν)
  | /-- The same, after the value was used. -/ used (n : ν)
deriving DecidableEq

/-- The nodes in the hands of a process. -/
def Hand.nodes {ν V : Type} : Hand ν V → List ν
  | .empty => []
  | .fresh n _ | .taken n | .used n => [n]

/-- The box, the memory and the processes. -/
@[ext]
structure Mailbox (ι ν V : Type) where
  box : List ν
  heap : ν → Option V
  hand : ι → Hand ν V

/-- The value that a process has taken out and not used yet. -/
def Hand.pending {ν V : Type} (heap : ν → Option V) : Hand ν V → List V
  | .taken n => (heap n).toList
  | _ => []

namespace Mailbox

/-- What a process does. -/
inductive Op (ν V : Type) where
  | alloc (n : ν)
  | free (n : ν)
  | /-- The process forgets a node that it has allocated. -/ lose (n : ν)
  | put (x : V)
  | /-- The node that comes out has this value, if it is allocated. -/ take (x : Option V)
  | use (x : V)
  | fault
deriving DecidableEq

variable {ι ν V : Type} [DecidableEq ι] [DecidableEq ν]

/-- The steps of a mailbox with room for `m` nodes. -/
inductive Step (m : ℕ) (s : Mailbox ι ν V) : ι × Op ν V → Mailbox ι ν V → Prop
  | alloc {p : ι} (n : ν) (x : V) : s.hand p = .empty → s.heap n = none → Step m s (p, .alloc n)
      { s with heap := update s.heap n (some x), hand := update s.hand p (.fresh n x) }
  | free {p : ι} {n : ν} : (∃ x, s.hand p = .fresh n x) ∨ s.hand p = .used n →
      s.heap n ≠ none → Step m s (p, .free n)
      { s with heap := update s.heap n none, hand := update s.hand p .empty }
  | lose {p : ι} {n : ν} {x : V} : s.hand p = .fresh n x → Step m s (p, .lose n)
      { s with hand := update s.hand p .empty }
  | put {p : ι} {n : ν} {x : V} : s.hand p = .fresh n x → s.box.length < m →
      Step m s (p, .put x) { s with box := s.box ++ [n], hand := update s.hand p .empty }
  | take {p : ι} {n : ν} {box : List ν} : s.hand p = .empty → s.box = n :: box →
      Step m s (p, .take (s.heap n)) { s with box := box, hand := update s.hand p (.taken n) }
  | use {p : ι} {n : ν} {x : V} : s.hand p = .taken n → s.heap n = some x →
      Step m s (p, .use x) { s with hand := update s.hand p (.used n) }
  | fault {p : ι} {n : ν} : n ∈ (s.hand p).nodes → s.heap n = none →
      Step m s (p, .fault) { s with hand := update s.hand p .empty }

end Mailbox

/-- The transition system of a mailbox, empty at first. -/
def mailbox (ι ν V : Type) [DecidableEq ι] [DecidableEq ν] (m : ℕ) :
    LTS (Mailbox ι ν V) (ι × Mailbox.Op ν V) where
  Init s := s = ⟨[], fun _ ↦ none, fun _ ↦ .empty⟩
  Step := Mailbox.Step m

namespace Mailbox

variable {ι ν V : Type}

/-! ## Reading a history -/

/-- What an operation does to the queue of the values. -/
def Op.blocks : Op ν V → List (BlockOp V)
  | .put x => [.insert [x]]
  | .take x => [.remove x.toList]
  | _ => []

/-- The values that an operation takes out. -/
def Op.takes : Op ν V → List V
  | .take x => x.toList
  | _ => []

/-- The values that an operation uses. -/
def Op.uses : Op ν V → List V
  | .use x => [x]
  | _ => []

/-- The node that an operation loses. -/
def Op.loses : Op ν V → List ν
  | .lose n => [n]
  | _ => []

/-- The operation is on an allocated node. -/
def Op.Sound : Op ν V → Prop
  | .take none | .fault => False
  | _ => True

/-- The operations of one process. -/
def opsOf [DecidableEq ι] (p : ι) (tr : List (ι × Op ν V)) : List (Op ν V) :=
  (tr.filter (·.1 = p)).map Prod.snd

/-- The values that were put in and taken out. -/
def blocks (tr : List (ι × Op ν V)) : List (BlockOp V) := tr.flatMap (·.2.blocks)

/-- The nodes that were lost. -/
def lost (tr : List (ι × Op ν V)) : List ν := tr.flatMap (·.2.loses)

/-- The values that a process has taken out. -/
def takenBy [DecidableEq ι] (p : ι) (tr : List (ι × Op ν V)) : List V :=
  (opsOf p tr).flatMap Op.takes

/-- The values that a process has used. -/
def usedBy [DecidableEq ι] (p : ι) (tr : List (ι × Op ν V)) : List V :=
  (opsOf p tr).flatMap Op.uses

/-! ## The invariant -/

variable [DecidableEq ι] [DecidableEq ν]

/-- What a history and the state after it have in common. -/
structure Inv [Fintype ι] (m : ℕ) (tr : List (ι × Op ν V)) (s : Mailbox ι ν V) : Prop where
  /-- No operation was on a node that is not allocated. -/
  sound : ∀ l ∈ tr, l.2.Sound
  length_le : s.box.length ≤ m
  /-- An allocated node is in the box, in the hands of a process or lost. -/
  ledger : Ledger (fun n ↦ (s.heap n).isSome) (s.box ++ lost tr) fun p ↦ (s.hand p).nodes
  fresh : ∀ p n x, s.hand p = .fresh n x → s.heap n = some x
  /-- The values go through a queue. -/
  stream : ∃ q, (blockQueue V).Run anyStep (blocks tr) q ∧ s.box.map s.heap = q.map some
  /-- A process uses what it has taken out. -/
  taken : ∀ p, takenBy p tr = usedBy p tr ++ (s.hand p).pending s.heap

variable {m : ℕ} {tr : List (ι × Op ν V)} {s t : Mailbox ι ν V} {l : ι × Op ν V} {n : ν} {p : ι}

omit [DecidableEq ι] [DecidableEq ν] in
@[simp] theorem lost_snoc (tr : List (ι × Op ν V)) (l : ι × Op ν V) :
    lost (tr ++ [l]) = lost tr ++ l.2.loses := by simp [lost]

omit [DecidableEq ι] [DecidableEq ν] in
@[simp] theorem blocks_snoc (tr : List (ι × Op ν V)) (l : ι × Op ν V) :
    blocks (tr ++ [l]) = blocks tr ++ l.2.blocks := by simp [blocks]

omit [DecidableEq ν] in
theorem takenBy_snoc (p : ι) (tr : List (ι × Op ν V)) (l : ι × Op ν V) :
    takenBy p (tr ++ [l]) = takenBy p tr ++ if l.1 = p then l.2.takes else [] := by
  unfold takenBy opsOf
  split <;> simp [*]

omit [DecidableEq ν] in
theorem usedBy_snoc (p : ι) (tr : List (ι × Op ν V)) (l : ι × Op ν V) :
    usedBy p (tr ++ [l]) = usedBy p tr ++ if l.1 = p then l.2.uses else [] := by
  unfold usedBy opsOf
  split <;> simp [*]

/-! ### One step -/

/-- A step changes the hands of one process. -/
theorem Step.hand_of_ne (hst : Step m s l t) (hp : p ≠ l.1) : t.hand p = s.hand p := by
  cases hst <;> exact update_of_ne hp _ _

/-- A step leaves the allocated nodes alone that its process does not have. -/
theorem Step.heap_eq (hst : Step m s l t) (hlive : s.heap n ≠ none)
    (hn : n ∉ (s.hand l.1).nodes) : t.heap n = s.heap n := by
  cases hst with
  | alloc n' x _ hnone => exact update_of_ne (fun h ↦ hlive (by rw [h, hnone])) _ _
  | free hhand _ =>
      refine update_of_ne (fun h ↦ hn ?_) _ _
      rcases hhand with ⟨x, h'⟩ | h' <;> rw [h', h] <;> exact List.mem_singleton_self _
  | lose | put | take | use | fault => rfl

variable [Fintype ι]

namespace Inv

omit [DecidableEq ι] [DecidableEq ν] in
/-- What is on the account is allocated. -/
theorem ne_none_of_isSome {h : ν → Option V} (hn : (h n).isSome = true) : h n ≠ none :=
  fun hnone ↦ by rw [hnone] at hn; cases hn

/-- What a process has is allocated. -/
theorem live_of_mem_hand (h : Inv m tr s) (hn : n ∈ (s.hand p).nodes) : s.heap n ≠ none :=
  ne_none_of_isSome (h.ledger.live_of_mem_own hn)

theorem live_of_mem_box (h : Inv m tr s) (hn : n ∈ s.box) : s.heap n ≠ none :=
  ne_none_of_isSome (h.ledger.live_of_mem_shared (List.mem_append_left _ hn))

/-- The nodes of the others do not change. -/
theorem heap_of_mem_hand (h : Inv m tr s) (hst : Step m s l t) (hp : p ≠ l.1)
    (hn : n ∈ (s.hand p).nodes) : t.heap n = s.heap n :=
  hst.heap_eq (h.live_of_mem_hand hn) fun hl ↦ hp (h.ledger.eq_of_mem_own hn hl)

/-- The nodes in the box do not change. -/
theorem heap_of_mem_box (h : Inv m tr s) (hst : Step m s l t) (hn : n ∈ s.box) :
    t.heap n = s.heap n :=
  hst.heap_eq (h.live_of_mem_box hn) fun hl ↦
    h.ledger.notMem_shared hl (List.mem_append_left _ hn)

theorem ledger_step (h : Inv m tr s) (hst : Step m s l t) :
    Ledger (fun n ↦ (t.heap n).isSome) (t.box ++ lost (tr ++ [l])) fun p ↦ (t.hand p).nodes := by
  have hlive (n : ν) (x : Option V) : (fun n' ↦ (update s.heap n x n').isSome) =
      update (fun n' ↦ (s.heap n').isSome) n x.isSome :=
    Function.comp_update (fun x : Option V ↦ x.isSome) s.heap n x
  have hown (p : ι) (a : Hand ν V) : (fun q ↦ (update s.hand p a q).nodes) =
      update (fun q ↦ (s.hand q).nodes) p a.nodes := Function.comp_update Hand.nodes s.hand p a
  have hled := h.ledger
  rw [lost_snoc]
  cases hst with
  | @alloc p n x hhand hnone =>
      rw [hown, hlive]
      simp only [Op.loses, List.append_nil]
      have halloc := hled.alloc (p := p) (n := n) (by rw [hnone]; rfl)
      rwa [hhand] at halloc
  | @free p n hhand hlive' =>
      have hnodes : (s.hand p).nodes = [n] := by rcases hhand with ⟨x, h'⟩ | h' <;> rw [h'] <;> rfl
      rw [hown, hlive]
      simp only [Op.loses, List.append_nil]
      exact hled.release (Option.isSome_iff_ne_none.mpr hlive') (by rw [hnodes]; exact .refl _)
  | @lose p n x hhand =>
      rw [hown, ← List.append_assoc]
      refine hled.hand ?_
      simp only [hhand, Hand.nodes, Op.loses, List.append_nil]
      exact List.Perm.refl _
  | @put p n x hhand _ =>
      rw [hown]
      refine hled.hand ?_
      simp only [hhand, Hand.nodes, Op.loses, List.append_nil, List.append_assoc]
      exact List.perm_append_comm.append_left _
  | @take p n box hhand hbox =>
      rw [hown]
      refine hled.hand ?_
      simp only [hhand, hbox, Hand.nodes, Op.loses, List.append_nil, List.cons_append]
      exact List.perm_append_comm
  | @use p n x hhand _ =>
      rw [hown]
      refine hled.hand ?_
      simp only [hhand, Hand.nodes, Op.loses, List.append_nil]
      exact List.Perm.refl _
  | fault hn hnone => exact absurd hnone (h.live_of_mem_hand hn)

theorem sound_step (h : Inv m tr s) (hst : Step m s l t) : l.2.Sound := by
  cases hst with
  | @take p n box _ hbox =>
      have hne := h.live_of_mem_box (n := n) (by rw [hbox]; exact List.mem_cons_self)
      obtain ⟨x, hx⟩ := Option.ne_none_iff_exists'.mp hne
      simp only [hx]
      trivial
  | fault hn hnone => exact absurd hnone (h.live_of_mem_hand hn)
  | alloc | free | lose | put | use => trivial

theorem fresh_step (h : Inv m tr s) (hst : Step m s l t) :
    ∀ p n x, t.hand p = .fresh n x → t.heap n = some x := by
  intro q n x hq
  by_cases hqp : q = l.1
  · subst hqp
    cases hst with
    | alloc n' x' _ _ =>
        simp only [update_self] at hq
        cases hq
        exact update_self _ _ _
    | free | lose | put | take | use | fault =>
        simp only [update_self] at hq
        cases hq
  · rw [hst.hand_of_ne hqp] at hq
    rw [h.heap_of_mem_hand hst hqp (by rw [hq]; exact List.mem_singleton_self n)]
    exact h.fresh q n x hq

theorem stream_step (h : Inv m tr s) (hst : Step m s l t) :
    ∃ q, (blockQueue V).Run anyStep (blocks (tr ++ [l])) q ∧ t.box.map t.heap = q.map some := by
  obtain ⟨q, hr, hq⟩ := h.stream
  have hmap : s.box.map t.heap = q.map some := by
    rw [← hq]
    exact List.map_congr_left fun n hn ↦ h.heap_of_mem_box hst hn
  rw [blocks_snoc]
  cases hst with
  | @put p n x hhand _ =>
      refine ⟨q ++ [x], hr.snoc trivial (.insert q [x]), ?_⟩
      rw [List.map_append, List.map_append, hmap, List.map_singleton, List.map_singleton,
        h.fresh p n x hhand]
  | @take p n box _ hbox =>
      rw [hbox] at hmap
      obtain ⟨x, q, rfl⟩ := List.exists_cons_of_ne_nil (l := q) fun hnil ↦ by
        rw [hnil] at hmap
        cases hmap
      obtain ⟨hx, hrest⟩ := List.cons.inj hmap
      refine ⟨q, hr.snoc trivial ?_, hrest⟩
      rw [show s.heap n = some x from hx]
      exact .remove [x] q
  | alloc | free | lose | use | fault => exact ⟨q, by simpa [Op.blocks] using hr, hmap⟩

/-- The others have what they had. -/
theorem pending_of_ne (h : Inv m tr s) (hst : Step m s l t) (hp : p ≠ l.1) :
    (t.hand p).pending t.heap = (s.hand p).pending s.heap := by
  rw [hst.hand_of_ne hp]
  cases hhand : s.hand p with
  | taken n =>
      have hheap := h.heap_of_mem_hand hst hp (n := n) (by rw [hhand]; exact List.mem_cons_self)
      simp only [Hand.pending, hheap]
  | empty | fresh | used => rfl

theorem taken_step (h : Inv m tr s) (hst : Step m s l t) (p : ι) :
    takenBy p (tr ++ [l]) = usedBy p (tr ++ [l]) ++ (t.hand p).pending t.heap := by
  have hp := h.taken p
  rw [takenBy_snoc, usedBy_snoc]
  by_cases hl : l.1 = p
  · subst hl
    rw [if_pos rfl, if_pos rfl, hp]
    cases hst with
    | alloc n x hhand _ | put hhand _ | lose hhand =>
        simp [Hand.pending, hhand, Op.takes, Op.uses]
    | free hhand _ =>
        rcases hhand with ⟨x, hhand⟩ | hhand <;> simp [Hand.pending, hhand, Op.takes, Op.uses]
    | take hhand _ => simp [Hand.pending, hhand, Op.takes, Op.uses]
    | use hhand hx => simp [Hand.pending, hhand, hx, Op.takes, Op.uses]
    | fault hn hnone => exact absurd hnone (h.live_of_mem_hand hn)
  · rw [if_neg hl, if_neg hl, List.append_nil, List.append_nil, hp,
      h.pending_of_ne hst (Ne.symm hl)]

/-- **A step** keeps the invariant. -/
theorem step (h : Inv m tr s) (hst : Step m s l t) : Inv m (tr ++ [l]) t where
  sound := by
    rw [List.forall_mem_append]
    exact ⟨h.sound, fun l' hl' ↦ List.mem_singleton.mp hl' ▸ h.sound_step hst⟩
  length_le := by
    have hle := h.length_le
    cases hst with
    | put _ hroom => exact (List.length_append).trans_le hroom
    | take _ hbox =>
        rw [hbox, List.length_cons] at hle
        exact Nat.le_of_succ_le hle
    | alloc | free | lose | use | fault => exact hle
  ledger := h.ledger_step hst
  fresh := h.fresh_step hst
  stream := h.stream_step hst
  taken := h.taken_step hst

end Inv

/-- **Values handed over in allocated nodes.**  The invariant holds along every run. -/
theorem inv_of_run (h : (mailbox ι ν V m).Run anyStep tr s) : Inv m tr s := by
  refine Run.induction (J := Inv m) ?_ (fun tr s l t _ ih _ hst ↦ ih.step hst) h
  rintro s rfl
  exact ⟨fun l hl ↦ (by cases hl), Nat.zero_le _, Ledger.empty, fun p n x hp ↦ (by cases hp),
    ⟨[], .init rfl, rfl⟩, fun p ↦ rfl⟩

end Mailbox

end DsoFifo
