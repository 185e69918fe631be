import Hipert.Amalthea.Sustainable

/-!
# Preemptive tasks with implicit deadlines

A preemptive task whose execution time is that of its runnables and whose deadline is its period.
When its first job meets the deadline, later jobs of a busy period respond no later than the first
(`LeastWindow.exists_repeat_le`). So in every round, recomputed by `RTADeadlineMiss` or not, the
response of a runnable is the worst of the first `jobsExamined` jobs (`rtaCore_worst`).
-/

namespace Hipert.Amalthea

variable {c : Core} {z : ℕ}

/-- `f` is the end of the first `prefixTime` units of job `k`, released with all tasks above it at
the start of job `1`. -/
def Core.JobEnd (c : Core) (z i : ℕ) (k : ℤ) (f : ℚ) : Prop :=
  LeastWindow (c.higher z) ((c.task z).workBefore k (prefixTime (c.task z).runnables i)) f

/-- The task is preemptive, and has the execution time and the deadline that `addTask` and the
constructor give it. -/
structure Task.Regular (t : Task) : Prop where
  preemptive : t.preemptionType = .preemptive
  summed : t.executionTime = t.processInstructions
  implicit : t.deadline = t.period

instance (t : Task) : Decidable t.Regular :=
  decidable_of_iff (t.preemptionType = .preemptive ∧ t.executionTime = t.processInstructions ∧
    t.deadline = t.period) ⟨fun h => ⟨h.1, h.2.1, h.2.2⟩, fun h => ⟨h.1, h.2, h.3⟩⟩

theorem Core.JobEnd.unique {i : ℕ} {k : ℤ} {f f' : ℚ} (left : c.JobEnd z i k f)
    (right : c.JobEnd z i k f') : f = f' := LeastWindow.unique left right

theorem Core.jobEnd_one {i : ℕ} {f : ℚ} :
    c.JobEnd z i 1 f ↔ LeastWindow (c.higher z) (prefixTime (c.task z).runnables i) f := by
  simp [Core.JobEnd, Task.workBefore]

/-- If one job fits in the period, every job ends within its own offset of the first. -/
theorem Core.exists_jobEnd_le {i : ℕ} {r f : ℚ}
    (whole : LeastWindow (c.higher z) (c.task z).executionTime r)
    (within : r ≤ (c.task z).period) (first : c.JobEnd z i 1 f) {k : ℤ} (one : 1 ≤ k) :
    ∃ g, c.JobEnd z i k g ∧ g - (k - 1) * (c.task z).period ≤ f := by
  obtain ⟨n, rfl⟩ : ∃ n : ℕ, k = n + 1 := ⟨(k - 1).toNat, by omega⟩
  obtain ⟨g, least, le⟩ := (Core.jobEnd_one.mp first).exists_repeat_le whole within
    (prefixTime_nonneg _ i) (c.task z).executionTime_nonneg n
  refine ⟨g, ?_, ?_⟩
  · simpa [Core.JobEnd, Task.workBefore] using least
  · push_cast
    linarith

/-- The last response decides whether the task misses. -/
theorem firstJob_meets (lt : z < c.tasks.length) (regular : (c.task z).Regular) {fs : List ℚ}
    (first : (firstJobResponses .unbounded c z).Returns fs) (runs : (c.task z).runnables ≠ [])
    (meets : (c.setTask z ((c.task z).store fs)).misses z = false) :
    ∃ r, LeastWindow (c.higher z) (c.task z).executionTime r ∧ r ≤ (c.task z).period := by
  obtain ⟨r, v, -, hv, stored⟩ := Task.store_responseTime (length_firstJobResponses first) runs
  have window := firstJobResponses_value first hv
  rw [prefixTime_last, ← regular.summed] at window
  refine ⟨v, window, ?_⟩
  rw [Core.misses, Core.task_setTask_self lt, stored, Task.store_deadline, regular.implicit,
    decide_eq_false_iff_not, not_lt] at meets
  exact meets

/-- **One round.** Whichever branch the round takes, it leaves the worst of the first
`jobsExamined` jobs. -/
theorem RoundValues.worst (lt : z < c.tasks.length) (regular : (c.task z).Regular) {vs : List ℚ}
    (round : RoundValues .unbounded c z vs) {i : ℕ} {v : ℚ} (at_i : vs[i]? = some v) :
    WorstOf (c.JobEnd z i) (c.task z).period (c.jobsExamined z) v := by
  have length := round.length
  unfold RoundValues at round
  rw [regular.preemptive] at round
  rcases round with ⟨fs, first, ⟨meets, rfl⟩ | ⟨-, computed⟩⟩
  · have runs : (c.task z).runnables ≠ [] := by
      intro empty
      rw [empty, List.length_nil, List.length_eq_zero_iff] at length
      simp [length] at at_i
    obtain ⟨r, whole, within⟩ := firstJob_meets lt regular first runs (meets z lt)
    have window := Core.jobEnd_one.mpr (firstJobResponses_value first at_i)
    refine ⟨window.1.1, fun k one _ => Core.exists_jobEnd_le whole within window one, ?_⟩
    by_cases vacant : c.Vacant z
    · -- a task without execution time responds at once
      have none : prefixTime (c.task z).runnables i = 0 := by
        refine le_antisymm ?_ (prefixTime_nonneg _ i)
        rw [← vacant.2, regular.summed]
        exact prefixTime_le_processInstructions _ i
      rw [Core.jobEnd_one, none] at window
      exact Or.inl (leastWindow_zero.mp window)
    · exact Or.inr ⟨1, v, le_rfl, Core.one_le_jobsExamined vacant, window, by simp⟩
  · exact deadlineMissResponses_value lt computed at_i

/-- **Run lemma.** `RTAcore` leaves in every regular task the worst of the first `jobsExamined`
jobs. -/
theorem rtaCore_worst {d : Core} (returned : (rtaCore .unbounded c).Returns d)
    (lt : z < c.tasks.length) (regular : (c.task z).Regular) :
    ∃ vs, vs.length = (c.task z).runnables.length ∧ d.task z = (c.task z).store vs ∧
      ∀ i v, vs[i]? = some v →
        WorstOf (c.JobEnd z i) (c.task z).period (c.jobsExamined z) v := by
  obtain ⟨cz, vs, reached, values, stored, -⟩ := rtaCore_task returned lt
  obtain ⟨same, later⟩ := rtaPrefix_frame lt.le reached
  have here : cz.task z = c.task z := later z le_rfl
  refine ⟨vs, here ▸ values.length, stored, fun i v at_i => ?_⟩
  have lt' : z < cz.tasks.length := by rwa [Core.length_eq_of_erase same]
  have worst := values.worst lt' (here ▸ regular) at_i
  unfold Core.JobEnd at worst ⊢
  rwa [here, higher_congr same, jobsExamined_congr same] at worst

end Hipert.Amalthea
