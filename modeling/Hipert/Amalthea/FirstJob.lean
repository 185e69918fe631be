import Hipert.Amalthea.Responses

/-!
# The first-job iteration

The loop of `responseTimePreemptiveTask` for one runnable iterates the demand of the tasks above
from the execution time accumulated so far. It ends exactly when that time is zero or the tasks
above leave processor time over, and it ends at the least fixpoint of the demand.
-/

namespace Hipert.Amalthea

variable {c : Core} {n i : ℕ}

theorem firstJobLoop_eq_doWhile (c : Core) (n : ℕ) (p : ℚ) :
    firstJobLoop .unbounded c n p = doWhile (demand (c.higher n) p) p := by
  unfold firstJobLoop
  simp only [chargeHigher_eq_demand]

/-- `w` solves the first-job recurrence of runnable `i`, and no earlier time does. -/
def Core.FirstJobResponse (c : Core) (n i : ℕ) (w : ℚ) : Prop :=
  IsLeast {w | 0 ≤ w ∧ prefixTime (c.task n).runnables i ≤ w ∧
    w = prefixTime (c.task n).runnables i +
      ((c.tasks.take n).map fun t => (⌈w / t.period⌉ : ℚ) * t.executionTime).sum} w

theorem Core.firstJobResponse_of_leastWindow {w : ℚ}
    (least : LeastWindow (c.higher n) (prefixTime (c.task n).runnables i) w) :
    c.FirstJobResponse n i w := by
  have solved := least.isLeast_fixpoint (prefixTime_nonneg _ i)
  simp only [demand, interference_higher] at solved
  exact solved

/-- What the first pass over the runnables stores in runnable `i`. -/
theorem firstJobResponses_stored (lt : n < c.tasks.length) {responses : List ℚ}
    (returned : (firstJobResponses .unbounded c n).Returns responses) {r : Runnable}
    (at_i : (c.task n).runnables[i]? = some r) :
    ∃ w, (firstJobLoop .unbounded c n (prefixTime (c.task n).runnables i)).Returns w ∧
      ((c.setTask n ((c.task n).store responses)).task n).runnables[i]? =
        some { r with responseTime := w } := by
  obtain ⟨length, each⟩ := runnableLoop_returns returned
  have inside : i < responses.length := by
    rw [length]
    exact (List.getElem?_eq_some_iff.mp at_i).1
  have here : responses[i]? = some responses[i] := List.getElem?_eq_getElem inside
  have loop := each i r _ at_i here
  rw [zero_add] at loop
  refine ⟨_, loop, ?_⟩
  rw [Core.task_setTask_self lt]
  unfold Task.store
  simp only [List.getElem?_zipWith, at_i, here]

/-- **The first-job iteration is exact.** It ends exactly when there is nothing to run or the tasks
above leave processor time over, and then at the least solution of the recurrence, which is what the
runnable holds when the deadline check begins. -/
theorem firstJobLoop_exact (lt : n < c.tasks.length) {r : Runnable}
    (at_i : (c.task n).runnables[i]? = some r) :
    ((firstJobLoop .unbounded c n (prefixTime (c.task n).runnables i)).Ends ↔
      prefixTime (c.task n).runnables i = 0 ∨
        ((c.tasks.take n).map fun t => t.executionTime / t.period).sum < 1) ∧
    (∀ w, (firstJobLoop .unbounded c n (prefixTime (c.task n).runnables i)).Returns w →
      c.FirstJobResponse n i w) ∧
    ∀ responses, (firstJobResponses .unbounded c n).Returns responses →
      ∃ w, (firstJobLoop .unbounded c n (prefixTime (c.task n).runnables i)).Returns w ∧
        ((c.setTask n ((c.task n).store responses)).task n).runnables[i]? =
          some { r with responseTime := w } := by
  have nonneg := prefixTime_nonneg (c.task n).runnables i
  refine ⟨?_, ?_, ?_⟩
  · rw [firstJobLoop_eq_doWhile, doWhile_demand_ends_iff nonneg, Core.utilization_eq_sum]
  · intro w returned
    rw [firstJobLoop_eq_doWhile] at returned
    exact Core.firstJobResponse_of_leastWindow (leastWindow_of_returns nonneg returned)
  · intro responses returned
    exact firstJobResponses_stored lt returned at_i

/-! ## A quick task above a slow one -/

/-- A task of period 10 and execution time 4 above one of period 40 and execution time 8. -/
def quickAboveSlow : Core :=
  ((⟨[]⟩ : Core).addTask (singleRunnable 10 2 (whole_pos (nat_lit 9)) 800)).addTask
    (singleRunnable 40 1 (by decide) 1600)

theorem firstJobLoop_exact_quickAboveSlow :
    ((firstJobLoop .unbounded quickAboveSlow 1
        (prefixTime (quickAboveSlow.task 1).runnables 0)).Ends ↔
      prefixTime (quickAboveSlow.task 1).runnables 0 = 0 ∨
        ((quickAboveSlow.tasks.take 1).map fun t => t.executionTime / t.period).sum < 1) ∧
    (∀ w, (firstJobLoop .unbounded quickAboveSlow 1
        (prefixTime (quickAboveSlow.task 1).runnables 0)).Returns w →
      quickAboveSlow.FirstJobResponse 1 0 w) ∧
    ∀ responses, (firstJobResponses .unbounded quickAboveSlow 1).Returns responses →
      ∃ w, (firstJobLoop .unbounded quickAboveSlow 1
          (prefixTime (quickAboveSlow.task 1).runnables 0)).Returns w ∧
        ((quickAboveSlow.setTask 1 ((quickAboveSlow.task 1).store responses)).task 1).runnables[0]? =
          some { Runnable.new 1600 with responseTime := w } :=
  firstJobLoop_exact (by decide) rfl

end Hipert.Amalthea
