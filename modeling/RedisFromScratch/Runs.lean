import Mathlib.Logic.Function.Basic
import Mathlib.Logic.Relation

/-!
Runs of a step relation. A property kept by every step holds along every run,
and a run whose steps all meet a condition is a run. Where a state has a place for
each of many parties, a step moves one of them.
-/
namespace RedisFromScratch.Runs

open Relation

variable {S : Type*} {step : S → S → Prop}

/-- The steps that also meet a condition on the states before and after. -/
def Guarded (step cond : S → S → Prop) (s s' : S) : Prop := step s s' ∧ cond s s'

/-- The steps whose label is allowed in the state before. -/
def Taking {A : Type*} (step : S → A → S → Prop) (ok : S → A → Prop) (s s' : S) : Prop :=
  ∃ a, step s a s' ∧ ok s a

/-- The invariant rule: what one step preserves, a run preserves. -/
theorem run_preserves (inv : S → Prop) (hstep : ∀ s s', inv s → step s s' → inv s')
    {s t : S} (hrun : ReflTransGen step s t) (hs : inv s) : inv t := by
  induction hrun with
  | refl => exact hs
  | tail _ hlast ih => exact hstep _ _ ih hlast

theorem guarded_run_is_run {cond : S → S → Prop} {s t : S}
    (hrun : ReflTransGen (Guarded step cond) s t) : ReflTransGen step s t :=
  ReflTransGen.mono (fun _ _ h => h.1) _ _ hrun

/-- One step, and then a run to a state as wanted. -/
theorem exists_run_head {wanted : S → Prop} {s t : S} (hstep : step s t)
    (hrest : ∃ u, ReflTransGen step t u ∧ wanted u) : ∃ u, ReflTransGen step s u ∧ wanted u := by
  obtain ⟨u, hrun, hu⟩ := hrest
  exact ⟨u, hrun.head hstep, hu⟩

/-- What reads the same of the party that moves reads the same of all parties. -/
theorem read_update {I P V : Type*} [DecidableEq I] (read : P → V) {places : I → P} {i : I} {p : P}
    (h : read p = read (places i)) (j : I) :
    read (Function.update places i p j) = read (places j) := by
  by_cases hj : j = i
  · subst hj
    rw [Function.update_self, h]
  · rw [Function.update_of_ne hj]

end RedisFromScratch.Runs
