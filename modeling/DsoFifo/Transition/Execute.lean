import DsoFifo.Transition.LTS

/-!
# Deterministic components

A component that is called and answers, apart from any program: `next s i` is the
state and the answer after the call `i`, or `none` where the call has no meaning.
`execute` makes a list of calls and collects the answers; `transduce` does the same
for a specification, which always has an answer.

`Lockstep.execute_eq` is data refinement: an implementation that matches the
specification call by call, answer by answer, matches it over every list of calls.  The
calls with their answers are a path of the component's transition system
(`path_of_execute`).
-/

universe u v w x

namespace DsoFifo

variable {σ : Type u} {τ : Type v} {β : Type w} {ε : Type x}

/-- The calls of a list, one after the other. -/
def execute (next : σ → β → Option (σ × ε)) : σ → List β → Option (σ × List ε)
  | s, [] => some (s, [])
  | s, i :: is =>
    (next s i).bind fun (t, o) ↦ (execute next t is).map fun (u, os) ↦ (u, o :: os)

theorem execute_cons {next : σ → β → Option (σ × ε)} {s t u : σ} {i : β} {is : List β} {o : ε}
    {os : List ε} (hnext : next s i = some (t, o)) (hrest : execute next t is = some (u, os)) :
    execute next s (i :: is) = some (u, o :: os) := by
  simp only [execute, hnext, Option.bind_some, hrest, Option.map_some]

/-- The calls of a list, on a specification. -/
def transduce (spec : τ → β → τ × ε) : τ → List β → τ × List ε
  | t, [] => (t, [])
  | t, i :: is =>
    let (u, o) := spec t i
    let (v, os) := transduce spec u is
    (v, o :: os)

/-- From states related by `R`, every call has a meaning, gets the answer that the
specification gives, and leads to related states. -/
def Lockstep (R : σ → τ → Prop) (next : σ → β → Option (σ × ε)) (spec : τ → β → τ × ε) : Prop :=
  ∀ s t i, R s t → ∃ s', next s i = some (s', (spec t i).2) ∧ R s' (spec t i).1

/-- **Refinement of lists of calls.** -/
theorem Lockstep.execute_eq {R : σ → τ → Prop} {next : σ → β → Option (σ × ε)}
    {spec : τ → β → τ × ε} (h : Lockstep R next spec) {s : σ} {t : τ} (hst : R s t)
    (is : List β) :
    ∃ s', execute next s is = some (s', (transduce spec t is).2) ∧
      R s' (transduce spec t is).1 := by
  induction is generalizing s t with
  | nil => exact ⟨s, rfl, hst⟩
  | cons i is ih =>
      obtain ⟨u, hu, hR⟩ := h s t i hst
      obtain ⟨v, hv, hR'⟩ := ih hR
      exact ⟨v, execute_cons hu hv, hR'⟩

/-- A list of calls is a path, with the answers on its labels. -/
theorem path_of_execute {β ε : Type w} {init : σ → Prop} {next : σ → β → Option (σ × ε)}
    {s t : σ} {is : List β} {os : List ε} (h : execute next s is = some (t, os)) :
    (LTS.ofStep init next).Path LTS.anyStep s (List.zipWith LTS.Io.mk is os) t := by
  induction is generalizing s os with
  | nil =>
      obtain ⟨rfl, rfl⟩ := Prod.mk.inj (Option.some.inj h)
      exact .nil
  | cons i is ih =>
      simp only [execute, Option.bind_eq_some_iff, Option.map_eq_some_iff] at h
      obtain ⟨⟨u, o⟩, hnext, ⟨t', os'⟩, hrest, heq⟩ := h
      obtain ⟨rfl, rfl⟩ := Prod.mk.inj heq
      have hst : (LTS.ofStep init next).Step s ⟨i, o⟩ u := hnext
      exact (LTS.Path.single trivial hst).append (ih hrest)

end DsoFifo
