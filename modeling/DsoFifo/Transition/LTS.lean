import Mathlib.Data.List.Basic

/-!
# Guarded runs of a labelled transition system

Every component of this development that takes step after step is an `LTS`: a
set of initial states and a labelled step relation.  A run carries two things
besides its last state:

* the list of labels it produced, oldest first, so that statements about *what
  happened* need no ghost fields in the state;
* a guard `P`, met by every one of its steps in the state the step is taken
  from.  `anyStep` is the guard that allows everything.

The guard is what makes conditional results about runs statable: "in every run
whose steps all meet `P`, …" is a statement about `S.Run P`, and the same
induction rule serves guarded and unguarded runs.
-/

universe u v w x y

namespace DsoFifo

/-- A labelled transition system. -/
structure LTS (σ : Type u) (α : Type v) where
  /-- The initial states. -/
  Init : σ → Prop
  /-- `Step s a t`: the system can go from `s` to `t`, producing the label `a`. -/
  Step : σ → α → σ → Prop

namespace LTS

variable {σ : Type u} {α : Type v}

/-- The guard that allows every step. -/
def anyStep : σ → α → Prop := fun _ _ ↦ True

instance (s : σ) (a : α) : Decidable (anyStep s a) := .isTrue trivial

/-- `S.Path P s tr t`: steps meeting `P` lead from `s` to `t` with labels `tr`. -/
inductive Path (S : LTS σ α) (P : σ → α → Prop) (s : σ) : List α → σ → Prop
  | /-- No step. -/ nil : Path S P s [] s
  | /-- One more step, at the end. -/
    snoc {tr : List α} {t : σ} {a : α} {u : σ} : Path S P s tr t → P t a → S.Step t a u →
      Path S P s (tr ++ [a]) u

/-- `S.Run P tr t`: a path from some initial state. -/
def Run (S : LTS σ α) (P : σ → α → Prop) (tr : List α) (t : σ) : Prop :=
  ∃ s, S.Init s ∧ S.Path P s tr t

variable {S : LTS σ α} {P Q : σ → α → Prop}

/-! ## Induction rules -/

namespace Path

/-- One step. -/
theorem single {s t : σ} {a : α} (hP : P s a) (hst : S.Step s a t) : S.Path P s [a] t :=
  .snoc .nil hP hst

/-- What every step preserves, a path preserves. -/
theorem invariant {I : σ → Prop} (hstep : ∀ s a t, I s → P s a → S.Step s a t → I t)
    {s t : σ} {tr : List α} (h : S.Path P s tr t) (hs : I s) : I t := by
  induction h with
  | nil => exact hs
  | snoc _ hP hst ih => exact hstep _ _ _ ih hP hst

/-- A path under a guard is a path under any weaker one. -/
theorem mono (hPQ : ∀ s a, P s a → Q s a) {s t : σ} {tr : List α} (h : S.Path P s tr t) :
    S.Path Q s tr t := by
  induction h with
  | nil => exact .nil
  | snoc _ hP hst ih => exact .snoc ih (hPQ _ _ hP) hst

/-- A path all of whose labels pass a test is a path under the test. -/
theorem of_forall_mem {p : α → Prop} {s t : σ} {tr : List α} (h : S.Path P s tr t)
    (hp : ∀ a ∈ tr, p a) : S.Path (fun _ a ↦ p a) s tr t := by
  induction h with
  | nil => exact .nil
  | snoc _ _ hst ih =>
      rw [List.forall_mem_append] at hp
      exact .snoc (ih hp.1) (hp.2 _ (List.mem_singleton_self _)) hst

/-- Paths compose. -/
theorem append {s t u : σ} {tr tr' : List α} (h : S.Path P s tr t) (h' : S.Path P t tr' u) :
    S.Path P s (tr ++ tr') u := by
  induction h' with
  | nil => simpa using h
  | snoc _ hP hst ih =>
      rw [← List.append_assoc]
      exact .snoc ih hP hst

end Path

namespace Run

/-- An initial state, before any step. -/
theorem init {s : σ} (h : S.Init s) : S.Run P [] s := ⟨s, h, .nil⟩

/-- A run goes on with one more step. -/
theorem snoc {tr : List α} {s t : σ} {a : α} (h : S.Run P tr s) (hP : P s a)
    (hst : S.Step s a t) : S.Run P (tr ++ [a]) t := by
  obtain ⟨s₀, h₀, h⟩ := h
  exact ⟨s₀, h₀, h.snoc hP hst⟩

/-- A run goes on along a path. -/
theorem append {tr tr' : List α} {s t : σ} (h : S.Run P tr s) (h' : S.Path P s tr' t) :
    S.Run P (tr ++ tr') t := by
  obtain ⟨s₀, h₀, h⟩ := h
  exact ⟨s₀, h₀, h.append h'⟩

theorem mono (hPQ : ∀ s a, P s a → Q s a) {tr : List α} {s : σ} (h : S.Run P tr s) :
    S.Run Q tr s := by
  obtain ⟨s₀, h₀, h⟩ := h
  exact ⟨s₀, h₀, h.mono hPQ⟩

/-- A guarded run is a run. -/
theorem free {tr : List α} {s : σ} (h : S.Run P tr s) : S.Run anyStep tr s :=
  h.mono fun _ _ _ ↦ trivial

/-- **Invariants with a history.**  What holds initially of the empty history, and
is preserved when a step extends both the history and the state, holds of every
run. -/
theorem induction {J : List α → σ → Prop} (hinit : ∀ s, S.Init s → J [] s)
    (hstep : ∀ tr s a t, S.Run P tr s → J tr s → P s a → S.Step s a t → J (tr ++ [a]) t)
    {tr : List α} {s : σ} (h : S.Run P tr s) : J tr s := by
  obtain ⟨s₀, h₀, h⟩ := h
  induction h with
  | nil => exact hinit _ h₀
  | snoc hp hP hst ih => exact hstep _ _ _ _ ⟨s₀, h₀, hp⟩ ih hP hst

/-- **Invariants.**  What holds initially and is preserved by every step holds in
every state reached. -/
theorem invariant {I : σ → Prop} (hinit : ∀ s, S.Init s → I s)
    (hstep : ∀ s a t, I s → P s a → S.Step s a t → I t)
    {tr : List α} {s : σ} (h : S.Run P tr s) : I s := by
  obtain ⟨s₀, h₀, h⟩ := h
  exact h.invariant hstep (hinit _ h₀)

/-- Every label of a run is that of a step from a state that the run has reached. -/
theorem exists_of_mem {tr : List α} {t : σ} (h : S.Run P tr t) {a : α} (ha : a ∈ tr) :
    ∃ tr₀ s s', tr₀ ++ [a] <+: tr ∧ S.Run P tr₀ s ∧ P s a ∧ S.Step s a s' := by
  refine Run.induction (J := fun tr _ ↦ a ∈ tr →
    ∃ tr₀ s s', tr₀ ++ [a] <+: tr ∧ S.Run P tr₀ s ∧ P s a ∧ S.Step s a s') ?_ ?_ h ha
  · intro s _ ha
    cases ha
  · intro tr s b t hr ih hP hst ha
    rcases List.mem_append.mp ha with ha | ha
    · obtain ⟨tr₀, s₀, s₁, hpre, hstep⟩ := ih ha
      exact ⟨tr₀, s₀, s₁, hpre.trans (List.prefix_append _ _), hstep⟩
    · obtain rfl := List.mem_singleton.mp ha
      exact ⟨tr, s, t, List.prefix_refl _, hr, hP, hst⟩

theorem countP_singleton_toNat (q : α → Bool) (a : α) : [a].countP q = (q a).toNat := by
  rw [List.countP_singleton]
  cases q a <;> rfl

/-- **Amortized costs.**  If every step takes something off `Φ`, but for what the steps of one
kind add to it, then a path is as long as `Φ` and these steps allow. -/
theorem length_le (Φ : σ → ℕ) (q : α → Bool) (c : ℕ)
    (hstep : ∀ tr s a t, S.Run P tr s → P s a → S.Step s a t → Φ t + 1 ≤ Φ s + c * (q a).toNat)
    {tr tr' : List α} {s t : σ} (h : S.Run P tr s) (h' : S.Path P s tr' t) :
    tr'.length + Φ t ≤ Φ s + c * tr'.countP q := by
  induction h' with
  | nil => simp
  | @snoc tr' t a u hp hP hst ih =>
      have hle := hstep _ _ _ _ (h.append hp) hP hst
      rw [List.countP_append, countP_singleton_toNat, List.length_append, List.length_singleton,
        Nat.mul_add]
      omega

/-- If the runs are not longer than `n`, then every run goes on to where no step is left. -/
theorem exists_stuck {n : ℕ} (hn : ∀ tr s, S.Run P tr s → tr.length ≤ n) {tr : List α} {s : σ}
    (h : S.Run P tr s) : ∃ tr' t, S.Path P s tr' t ∧ ∀ a u, P t a → ¬S.Step t a u := by
  generalize hm : n - tr.length = m
  induction m generalizing tr s with
  | zero =>
      refine ⟨[], s, .nil, fun a u hP hst ↦ ?_⟩
      have hle := hn _ _ (h.snoc hP hst)
      rw [List.length_append, List.length_singleton] at hle
      omega
  | succ m ih =>
      by_cases hstuck : ∀ a u, P s a → ¬S.Step s a u
      · exact ⟨[], s, .nil, hstuck⟩
      · push Not at hstuck
        obtain ⟨a, u, hP, hst⟩ := hstuck
        obtain ⟨tr', t, hpath, ht⟩ := ih (h.snoc hP hst) (by
          rw [List.length_append, List.length_singleton]
          omega)
        exact ⟨[a] ++ tr', t, (Path.single hP hst).append hpath, ht⟩

end Run

/-! ## Refinement -/

variable {τ : Type w} {β : Type x} {T : LTS τ β} {R : τ → β → Prop}

/-- **Forward simulation.**  If `f` takes initial states to initial states and
every step to a path whose labels are `g` of the step's label, then it takes every
run to a run.  The steps need only be simulated from states met by a run. -/
theorem Run.map (f : σ → τ) (g : α → List β) (hinit : ∀ s, S.Init s → T.Init (f s))
    (hstep : ∀ tr s a t, S.Run P tr s → P s a → S.Step s a t → T.Path R (f s) (g a) (f t))
    {tr : List α} {s : σ} (h : S.Run P tr s) : T.Run R (tr.flatMap g) (f s) := by
  refine Run.induction (J := fun tr s ↦ T.Run R (tr.flatMap g) (f s))
    (fun s hs ↦ Run.init (hinit s hs)) (fun tr s a t hr ih hP hst ↦ ?_) h
  rw [List.flatMap_append, List.flatMap_singleton]
  exact ih.append (hstep tr s a t hr hP hst)

/-- **Refinement.**  Every step between states related by `R` is matched by a path of any
length that looks the same from outside and leads to related states; what is known of the runs
of both systems may be used for it.  Then every run looks like a run of the other system. -/
theorem Run.refine {ο : Type y} {R : σ → τ → Prop} {Q : τ → β → Prop} (view : α → List ο)
    (view' : β → List ο) (hinit : ∀ s, S.Init s → ∃ t, T.Init t ∧ R s t)
    (hstep : ∀ tr ops s a s' t, S.Run P tr s → T.Run Q ops t →
      ops.flatMap view' = tr.flatMap view → R s t → P s a → S.Step s a s' →
        ∃ ops' t', T.Path Q t ops' t' ∧ ops'.flatMap view' = view a ∧ R s' t')
    {tr : List α} {s : σ} (h : S.Run P tr s) :
    ∃ ops t, T.Run Q ops t ∧ ops.flatMap view' = tr.flatMap view ∧ R s t := by
  refine Run.induction (J := fun tr s ↦
    ∃ ops t, T.Run Q ops t ∧ ops.flatMap view' = tr.flatMap view ∧ R s t) ?_ ?_ h
  · intro s hs
    obtain ⟨t, ht, hR⟩ := hinit s hs
    exact ⟨[], t, .init ht, rfl, hR⟩
  · rintro tr s a s' hr ⟨ops, t, ht, hview, hR⟩ hP hst
    obtain ⟨ops', t', hp, hview', hR'⟩ := hstep tr ops s a s' t hr ht hview hR hP hst
    refine ⟨ops ++ ops', t', ht.append hp, ?_, hR'⟩
    rw [List.flatMap_append, List.flatMap_append, List.flatMap_singleton, hview, hview']

/-- **Forward simulation by a relation**: the refinement in which all labels can be seen. -/
theorem Run.simulate {R : σ → τ → Prop} {Q : τ → β → Prop} (g : α → List β)
    (hinit : ∀ s, S.Init s → ∃ t, T.Init t ∧ R s t)
    (hstep : ∀ tr s a s' t, S.Run P tr s → T.Run Q (tr.flatMap g) t → R s t → P s a →
      S.Step s a s' → ∃ t', T.Path Q t (g a) t' ∧ R s' t')
    {tr : List α} {s : σ} (h : S.Run P tr s) : ∃ t, T.Run Q (tr.flatMap g) t ∧ R s t := by
  obtain ⟨ops, t, ht, hview, hR⟩ : ∃ ops t, T.Run Q ops t ∧
      (ops.flatMap fun b ↦ [b]) = tr.flatMap g ∧ R s t := by
    refine Run.refine g (fun b ↦ [b]) hinit (fun tr ops s a s' t hr ht hview hR hP hst ↦ ?_) h
    rw [List.flatMap_singleton'] at hview
    obtain ⟨t', hp, hR'⟩ := hstep tr s a s' t hr (hview ▸ ht) hR hP hst
    exact ⟨g a, t', hp, List.flatMap_singleton' _, hR'⟩
  rw [List.flatMap_singleton'] at hview
  exact ⟨t, hview ▸ ht, hR⟩

/-! ## Systems that can be run

Where a component's step is computed by a function, the system it makes has the
input and the output of that function as its label, and a concrete run is checked
by evaluating `replay`. -/

/-- The label of a computed step: what it was given and what it produced. -/
structure Io (β : Type w) (ε : Type x) where
  input : β
  output : ε

variable {ε : Type x}

/-- The system of a step function. -/
def ofStep (init : σ → Prop) (next : σ → β → Option (σ × ε)) : LTS σ (Io β ε) where
  Init := init
  Step s l t := next s l.input = some (t, l.output)

/-- Take the steps of a list of inputs, each of them meeting `P`. -/
def replay (next : σ → β → Option (σ × ε)) (P : σ → Io β ε → Bool) : σ → List β → Option σ
  | s, [] => some s
  | s, i :: is =>
    match next s i with
    | some (t, o) => if P s ⟨i, o⟩ then replay next P t is else none
    | none => none

/-- A successful replay begins with a step. -/
theorem step_of_replay {init : σ → Prop} {next : σ → β → Option (σ × ε)}
    {P : σ → Io β ε → Bool} {s t : σ} {i : β} {is : List β}
    (h : replay next P s (i :: is) = some t) :
    ∃ u o, (ofStep init next).Step s ⟨i, o⟩ u ∧ P s ⟨i, o⟩ = true ∧
      replay next P u is = some t := by
  simp only [replay] at h
  split at h
  · rename_i u o hu
    split at h
    · exact ⟨u, o, hu, ‹_›, h⟩
    · cases h
  · cases h

/-- A successful replay is a path with the inputs that were given. -/
theorem path_of_replay {init : σ → Prop} {next : σ → β → Option (σ × ε)}
    {P : σ → Io β ε → Bool} {s t : σ} {is : List β} (h : replay next P s is = some t) :
    ∃ tr, tr.map Io.input = is ∧ (ofStep init next).Path (fun s l ↦ P s l = true) s tr t := by
  induction is generalizing s with
  | nil =>
      obtain rfl : s = t := by simpa [replay] using h
      exact ⟨[], rfl, .nil⟩
  | cons i is ih =>
      obtain ⟨u, o, hu, hP, hrest⟩ := step_of_replay h
      obtain ⟨tr, htr, hp⟩ := ih hrest
      refine ⟨[⟨i, o⟩] ++ tr, by simp [htr], Path.append ?_ hp⟩
      exact .single hP hu

/-- A replay from an initial state whose last state passes a test gives a run, guarded
by what the replay checked, to a state that passes it. -/
theorem exists_run_of_replay (init : σ → Prop) {next : σ → β → Option (σ × ε)}
    {P : σ → Io β ε → Bool} {good : σ → Bool} {s : σ} {is : List β} (hs : init s)
    (h : (replay next P s is).any good = true) :
    ∃ tr t, (ofStep init next).Run (fun s l ↦ P s l = true) tr t ∧ good t = true := by
  cases hr : replay next P s is with
  | none => simp [hr] at h
  | some t =>
      obtain ⟨tr, -, hp⟩ := path_of_replay hr
      exact ⟨tr, t, ⟨s, hs, hp⟩, by simpa [hr] using h⟩

end LTS

end DsoFifo
