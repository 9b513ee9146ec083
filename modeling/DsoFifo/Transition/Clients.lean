import Mathlib.Logic.Function.Basic
import DsoFifo.Transition.LTS

/-!
# Programs that use a service

A service is a transition system that several processes call.  What a process sees of a step
of the service, such as the results of its calls, are observations, and a program is a partial
function that goes from one state to the next with an observation, or does not allow it.  In
`serving` the service and the programs run together: a step of the service is allowed if the
programs of the processes that see something of it allow what they see.

`serving_run_iff` says that the programs do nothing but restrict the runs of the service.  So
if all runs of a service look like runs of another one, they do so with any programs
(`serving_of_view_eq`), and what programs achieve with a service can be proved with the
simpler of two.
-/

universe u v w x y z

namespace DsoFifo.LTS

open Function

variable {σ : Type u} {α : Type v} {τ : Type w} {β : Type x} {ι ο : Type y} {κ : Type z}

/-- The programs after some observations, if they allow them. -/
def observe [DecidableEq ι] (next : κ → ο → Option κ) :
    (ι → κ) → List (ι × ο) → Option (ι → κ)
  | k, [] => some k
  | k, (p, o) :: os => (next (k p) o).bind fun k' ↦ observe next (update k p k') os

/-- The service together with the programs of its processes. -/
def serving [DecidableEq ι] (S : LTS σ α) (view : α → List (ι × ο)) (next : κ → ο → Option κ)
    (programs : ι → κ) : LTS (σ × (ι → κ)) α where
  Init s := S.Init s.1 ∧ s.2 = programs
  Step s a t := S.Step s.1 a t.1 ∧ observe next s.2 (view a) = some t.2

variable [DecidableEq ι] {S : LTS σ α} {T : LTS τ β} {view : α → List (ι × ο)}
  {view' : β → List (ι × ο)} {next : κ → ο → Option κ} {programs : ι → κ}
  {P : σ → α → Prop} {Q : τ → β → Prop}

theorem observe_append (k : ι → κ) (os os' : List (ι × ο)) :
    observe next k (os ++ os') = (observe next k os).bind fun k' ↦ observe next k' os' := by
  induction os generalizing k with
  | nil => rfl
  | cons o os ih =>
      rw [List.cons_append, observe, observe, Option.bind_assoc]
      congr 1
      funext k'
      exact ih _

/-- One process observes several things. -/
theorem observe_map (k : ι → κ) (p : ι) (os : List ο) :
    observe next k (os.map (p, ·)) = (os.foldlM next (k p)).map (update k p) := by
  induction os generalizing k with
  | nil => exact congrArg some (update_eq_self p k).symm
  | cons o os ih =>
      rw [List.map_cons, observe, List.foldlM_cons]
      cases next (k p) o with
      | none => rfl
      | some k' =>
          rw [Option.bind_some, ih, update_self]
          exact congrFun (congrArg Option.map (funext fun k'' ↦ update_idem ..)) _

/-- **Programs restrict the runs of a service** to those in which they allow what they see. -/
theorem serving_run_iff {tr : List α} {s : σ} {k : ι → κ} :
    (S.serving view next programs).Run (fun s a ↦ P s.1 a) tr (s, k) ↔
      S.Run P tr s ∧ observe next programs (tr.flatMap view) = some k := by
  constructor
  · intro h
    refine Run.induction (J := fun tr (s : σ × (ι → κ)) ↦
      S.Run P tr s.1 ∧ observe next programs (tr.flatMap view) = some s.2) ?_ ?_ h
    · rintro ⟨s, k⟩ ⟨hs, rfl⟩
      exact ⟨.init hs, rfl⟩
    · rintro tr s a t - ⟨hr, hk⟩ hP ⟨hst, hobs⟩
      refine ⟨hr.snoc hP hst, ?_⟩
      rw [List.flatMap_append, List.flatMap_singleton, observe_append, hk, Option.bind_some, hobs]
  · rintro ⟨h, hk⟩
    refine Run.induction (J := fun tr s ↦ ∀ k, observe next programs (tr.flatMap view) = some k →
      (S.serving view next programs).Run (fun s a ↦ P s.1 a) tr (s, k)) ?_ ?_ h k hk
    · intro s hs k hk
      exact .init ⟨hs, (Option.some.inj hk).symm⟩
    · intro tr s a t _ ih hP hst k hk
      rw [List.flatMap_append, List.flatMap_singleton, observe_append] at hk
      obtain ⟨k', hk', hobs⟩ := Option.bind_eq_some_iff.mp hk
      exact (ih k' hk').snoc hP ⟨hst, hobs⟩

/-- **What programs achieve carries over** from a service to another one of which a run looks
the same. -/
theorem serving_of_view_eq {tr : List α} {ops : List β} {s : σ} {t : τ} {k : ι → κ}
    (h : (S.serving view next programs).Run (fun s a ↦ P s.1 a) tr (s, k)) (ht : T.Run Q ops t)
    (hview : ops.flatMap view' = tr.flatMap view) :
    (T.serving view' next programs).Run (fun t b ↦ Q t.1 b) ops (t, k) :=
  serving_run_iff.mpr ⟨ht, hview ▸ (serving_run_iff.mp h).2⟩

/-! ## Services that are computed -/

section

variable {ε : Type x} {step : σ → β → Option (σ × ε)} {view : Io β ε → List (ι × ο)}

/-- A step of a computed service with its programs. -/
def serve (step : σ → β → Option (σ × ε)) (view : Io β ε → List (ι × ο))
    (next : κ → ο → Option κ) (s : σ × (ι → κ)) (i : β) : Option ((σ × (ι → κ)) × ε) :=
  (step s.1 i).bind fun r ↦ (observe next s.2 (view ⟨i, r.2⟩)).map fun k ↦ ((r.1, k), r.2)

/-- A computed service with its programs is computed. -/
theorem serving_ofStep (init : σ → Prop) : (ofStep init step).serving view next programs =
    ofStep (fun s ↦ init s.1 ∧ s.2 = programs) (serve step view next) := by
  unfold serving ofStep
  congr 1
  funext s l t
  obtain ⟨t, k⟩ := t
  simp [serve, Option.bind_eq_some_iff, and_left_comm, and_assoc]

end

end DsoFifo.LTS
