import Hipert.Lib.Fueled
import Mathlib.Order.Bounds.Basic
import Mathlib.Order.Interval.Set.Basic
import Mathlib.Data.Set.Card

/-!
# Ascending fixpoint loops

`doWhile step x` is the loop `do { x = y; y = step(x); } while (y > x)` entered with `y = x` and
leaving with the last `y`. For a monotone `step` that does not lower its start the result is the
least pre-fixpoint above the start. The loop ends when `step` takes finitely many values on a set it
does not leave, in particular below a pre-fixpoint.
-/

namespace Hipert

universe u

variable {α : Type u} [LinearOrder α] {step : α → α}

/-- `do { x = y; y = step(x); } while (y > x)`, entered with `y`, returning the last `y`. -/
def doWhile (step : α → α) : α → Fueled α :=
  Fueled.loop fun x => pure (if x < step x then .inl (step x) else .inr (step x))

theorem doWhile_returns {x r : α} :
    (doWhile step x).Returns r ↔
      (x < step x ∧ (doWhile step (step x)).Returns r) ∨ (step x ≤ x ∧ step x = r) := by
  unfold doWhile
  rw [Fueled.loop_returns]
  by_cases ascends : x < step x
  · simp [ascends]
  · simp [ascends, not_lt.mp ascends]

/-- **Least pre-fixpoint.** Started where a monotone step does not go down, the loop returns the
least pre-fixpoint above its start. -/
theorem doWhile_isLeast (mono : Monotone step) {x r : α} (start : x ≤ step x)
    (returned : (doWhile step x).Returns r) : IsLeast {w | x ≤ w ∧ step w ≤ w} r := by
  -- every pre-fixpoint above the start stays above the iterate, which stays a post-fixpoint
  refine Fueled.loop_invariant
    (fun y => x ≤ y ∧ y ≤ step y ∧ ∀ w, x ≤ w → step w ≤ w → y ≤ w)
    (fun r => IsLeast {w | x ≤ w ∧ step w ≤ w} r) ?_ ?_ ⟨le_rfl, start, fun w above _ => above⟩
    returned
  · rintro y z ⟨above, post, below⟩ round
    split at round
    · cases Fueled.returns_pure.mp round
      refine ⟨above.trans post, mono post, fun w hw pre => ?_⟩
      exact (mono (below w hw pre)).trans pre
    · cases Fueled.returns_pure.mp round
  · rintro y z ⟨above, post, below⟩ round
    split at round
    · cases Fueled.returns_pure.mp round
    · rename_i stops
      cases Fueled.returns_pure.mp round
      have fixed : step y = y := le_antisymm (not_lt.mp stops) post
      rw [fixed]
      exact ⟨⟨above, fixed.le⟩, fun w hw => below w hw.1 hw.2⟩

/-- A least pre-fixpoint of a monotone step above a post-fixpoint is a fixpoint. -/
theorem step_eq_of_isLeast (mono : Monotone step) {x r : α} (start : x ≤ step x)
    (least : IsLeast {w | x ≤ w ∧ step w ≤ w} r) : step r = r := by
  refine le_antisymm least.1.2 (least.2 ⟨start.trans (mono least.1.1), ?_⟩)
  exact mono least.1.2

/-! ## Termination and divergence -/

/-- The loop ends when its step takes finitely many values on a set that its ascents do not
leave. -/
theorem doWhile_ends (P : α → Prop) (finite : (step '' {x | P x}).Finite)
    (keep : ∀ x, P x → x < step x → P (step x)) {x : α} (start : P x) :
    (doWhile step x).Ends := by
  -- the values still above the iterate form a set that every ascent makes smaller
  have above : ∀ y, ((step '' {x | P x}) ∩ Set.Ioi y).Finite := fun y => finite.inter_of_left _
  refine Fueled.loop_ends P (fun y => ((step '' {x | P x}) ∩ Set.Ioi y).ncard) ?_ ?_ start
  · intro y _
    exact Fueled.ends_pure _
  · intro y z holds round
    split at round
    · rename_i ascends
      cases Fueled.returns_pure.mp round
      refine ⟨keep y holds ascends, Set.ncard_lt_ncard ?_ (above y)⟩
      refine ⟨fun v hv => ⟨hv.1, ascends.trans hv.2⟩, fun sub => ?_⟩
      exact lt_irrefl (step y) (sub ⟨⟨y, holds, rfl⟩, ascends⟩).2
    · cases Fueled.returns_pure.mp round

/-- A step with finitely many values makes the loop end from anywhere. -/
theorem doWhile_ends_of_finite_range (finite : (Set.range step).Finite) (x : α) :
    (doWhile step x).Ends :=
  doWhile_ends (fun _ => True) (finite.subset (Set.image_subset_range _ _))
    (fun _ _ _ => trivial) trivial

/-- Below a pre-fixpoint the loop ends as soon as the step takes finitely many values there. -/
theorem doWhile_ends_of_prefixpoint (mono : Monotone step) {x b : α} (bound : x ≤ b)
    (pre : step b ≤ b) (finite : (step '' Set.Icc x b).Finite) : (doWhile step x).Ends :=
  doWhile_ends (fun y => y ∈ Set.Icc x b) finite
    (fun _ holds ascends => ⟨holds.1.trans ascends.le, (mono holds.2).trans pre⟩)
    ⟨le_rfl, bound⟩

end Hipert
