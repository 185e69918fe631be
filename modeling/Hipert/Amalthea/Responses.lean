import Hipert.Amalthea.BusyPeriod

/-!
# The responses in closed form

Under the unbounded reading every response of `RTAcore` is a least fixpoint or the largest of
several: the first-job value of a runnable is its `LeastWindow`, and the values of `RTADeadlineMiss`
and of `responseTimeCooperativeTask` are the worst of the first `jobsExamined` jobs (`WorstOf`), a
preemptive job finishing after the `LeastWindow` of its work and a cooperative one at a
`JobFinish`.
-/

namespace Hipert.Amalthea

variable {c : Core} {z : ℕ}

/-- `response` is the largest of `0` and `finish - (k - 1) * period` over the jobs `1 ≤ k ≤ K`. -/
structure WorstOf (finish : ℤ → ℚ → Prop) (period : ℚ) (K : ℤ) (response : ℚ) : Prop where
  nonneg : 0 ≤ response
  upper : ∀ k, 1 ≤ k → k ≤ K → ∃ f, finish k f ∧ f - (k - 1) * period ≤ response
  attained : response = 0 ∨
    ∃ k f, 1 ≤ k ∧ k ≤ K ∧ finish k f ∧ response = f - (k - 1) * period

/-- More jobs that finish later have the worse response. -/
theorem WorstOf.mono {finish finish' : ℤ → ℚ → Prop} {period : ℚ} {K K' : ℤ} {r r' : ℚ}
    (left : WorstOf finish period K r) (right : WorstOf finish' period K' r') (le : K ≤ K')
    (later : ∀ k f f', 1 ≤ k → finish k f → finish' k f' → f ≤ f') : r ≤ r' := by
  rcases left.attained with rfl | ⟨k, f, one, within, finishes, rfl⟩
  · exact right.nonneg
  · obtain ⟨f', finishes', below⟩ := right.upper k one (within.trans le)
    have order := later k f f' one finishes finishes'
    linarith

/-- A single finish of every job leaves a single worst response. -/
theorem WorstOf.unique {finish : ℤ → ℚ → Prop} {period : ℚ} {K : ℤ} {r r' : ℚ}
    (single : ∀ k f f', finish k f → finish k f' → f = f')
    (left : WorstOf finish period K r) (right : WorstOf finish period K r') : r = r' := by
  apply le_antisymm
  · exact left.mono right le_rfl fun k f f' _ hf hf' => (single k f f' hf hf').le
  · exact right.mono left le_rfl fun k f f' _ hf hf' => (single k f f' hf hf').le

/-- Some job among the first `K` responds no earlier than job `k`, or job `k` responds within its
release offset. -/
def CoveredBy (finish : ℤ → ℚ → Prop) (period : ℚ) (K k : ℤ) : Prop :=
  ∀ f, finish k f → f - (k - 1) * period ≤ 0 ∨
    ∃ k' f', 1 ≤ k' ∧ k' ≤ K ∧ finish k' f' ∧ f - (k - 1) * period ≤ f' - (k' - 1) * period

/-- Examining another number of jobs leaves the worst response exactly when the jobs that both
examine cover the others. -/
theorem WorstOf.iff_covered {finish : ℤ → ℚ → Prop} {period : ℚ} {K K' : ℤ} {r : ℚ}
    (single : ∀ k f f', finish k f → finish k f' → f = f')
    (total : ∀ k, 1 ≤ k → k ≤ max K K' → ∃ f, finish k f) (worst : WorstOf finish period K r) :
    WorstOf finish period K' r ↔
      ∀ k, 1 ≤ k → k ≤ max K K' → CoveredBy finish period (min K K') k := by
  refine ⟨?_, ?_⟩
  · intro worst' k one within f finishes
    -- both maxima bound job `k`, and one of them is attained below the smaller count
    have below : f - (k - 1) * period ≤ r := by
      rcases le_max_iff.mp within with inside | inside
      · obtain ⟨g, same, below⟩ := worst.upper k one inside
        rwa [single k f g finishes same]
      · obtain ⟨g, same, below⟩ := worst'.upper k one inside
        rwa [single k f g finishes same]
    have attained : r = 0 ∨ ∃ k f, 1 ≤ k ∧ k ≤ min K K' ∧ finish k f ∧
        r = f - (k - 1) * period := by
      rcases le_total K K' with fewer | more
      · rw [min_eq_left fewer]
        exact worst.attained
      · rw [min_eq_right more]
        exact worst'.attained
    rcases attained with rfl | ⟨k', f', one', inside', finishes', rfl⟩
    · exact Or.inl below
    · exact Or.inr ⟨k', f', one', inside', finishes', below⟩
  · intro covered
    have upper : ∀ k, 1 ≤ k → k ≤ max K K' → ∀ f, finish k f → f - (k - 1) * period ≤ r := by
      intro k one within f finishes
      rcases covered k one within f finishes with early | ⟨k', f', one', inside', finishes', below⟩
      · exact early.trans worst.nonneg
      · obtain ⟨g, same, bound⟩ := worst.upper k' one' (inside'.trans (min_le_left K K'))
        rw [single k' f' g finishes' same] at below
        exact below.trans bound
    refine ⟨worst.nonneg, fun k one inside => ?_, ?_⟩
    · obtain ⟨f, finishes⟩ := total k one (inside.trans (le_max_right K K'))
      exact ⟨f, finishes, upper k one (inside.trans (le_max_right K K')) f finishes⟩
    · rcases worst.attained with zero | ⟨k, f, one, inside, finishes, rfl⟩
      · exact Or.inl zero
      · rcases covered k one (inside.trans (le_max_left K K')) f finishes with
          early | ⟨k', f', one', inside', finishes', below⟩
        · exact Or.inl (le_antisymm early worst.nonneg)
        · have bound := upper k' one' (inside'.trans min_le_max) f' finishes'
          exact Or.inr ⟨k', f', one', inside'.trans (min_le_right K K'), finishes',
            le_antisymm below bound⟩

/-- The work that has to be done before job `k` reaches the end of its first `accum` units. -/
def Task.workBefore (t : Task) (k : ℤ) (accum : ℚ) : ℚ := (k - 1) * t.executionTime + accum

theorem Task.workBefore_nonneg (t : Task) {k : ℤ} (one : 1 ≤ k) {accum : ℚ} (nonneg : 0 ≤ accum) :
    0 ≤ t.workBefore k accum := by
  have jobs : (0 : ℚ) ≤ k - 1 := by
    rw [sub_nonneg]
    exact_mod_cast one
  exact add_nonneg (mul_nonneg jobs t.executionTime_nonneg) nonneg

/-! ## Preemptive tasks -/

theorem firstJobResponses_value {vs : List ℚ} (returned : (firstJobResponses .unbounded c z).Returns vs)
    {i : ℕ} {v : ℚ} (at_i : vs[i]? = some v) :
    LeastWindow (c.higher z) (prefixTime (c.task z).runnables i) v := by
  obtain ⟨length, each⟩ := runnableLoop_returns returned
  obtain ⟨r, hr⟩ : ∃ r, (c.task z).runnables[i]? = some r := by
    have inside := (List.getElem?_eq_some_iff.mp at_i).1
    exact ⟨_, List.getElem?_eq_getElem (length ▸ inside)⟩
  have value := each i r v hr at_i
  simp only [firstJobLoop, chargeHigher_eq_demand, zero_add] at value
  exact leastWindow_of_returns (prefixTime_nonneg _ i) value

theorem jobFinishDM_returns {k : ℤ} (one : 1 ≤ k) {accum : ℚ} (nonneg : 0 ≤ accum) {f : ℚ}
    (returned : (jobFinishDM .unbounded c z k accum).Returns f) :
    LeastWindow (c.higher z) ((c.task z).workBefore k accum) f := by
  simp only [jobFinishDM, chargeHigher_eq_demand, IntReading.wrap_unbounded, Int.cast_sub,
    Int.cast_one] at returned
  exact leastWindow_of_returns ((c.task z).workBefore_nonneg one nonneg) returned

/-- The `WorstOf` that a body of `busy_period` and `worstJob` computes at position `i`. -/
theorem busyResponses_value (job : ℚ → Runnable → ℤ → Fueled ℚ) (finish : Runnable → ℤ → ℚ → Prop)
    (lt : z < c.tasks.length) {vs : List ℚ}
    (returned : (runnableLoop (fun accum r => do
      let length ← busyPeriod .unbounded c z
      worstJob .unbounded (job accum r) (c.task z).period
        (IntReading.unbounded.toInt (myCeil .unbounded length (c.task z).period)))
      0 (c.task z).runnables).Returns vs) {i : ℕ} {r : Runnable} {v : ℚ}
    (runnable : (c.task z).runnables[i]? = some r) (at_i : vs[i]? = some v)
    (spec : ∀ k f, 1 ≤ k → (job (prefixTime (c.task z).runnables i) r k).Returns f →
      finish r k f) :
    WorstOf (finish r) (c.task z).period (c.jobsExamined z) v := by
  obtain ⟨-, each⟩ := runnableLoop_returns returned
  have value := each i r v runnable at_i
  simp only [zero_add, Fueled.returns_bind, toInt_myCeil, IntReading.cast_unbounded] at value
  obtain ⟨length, busy, worst⟩ := value
  rw [count_eq_jobsExamined lt busy] at worst
  obtain ⟨nonneg, upper, attained⟩ := worstJob_returns worst
  refine ⟨nonneg, fun k one le => ?_, ?_⟩
  · obtain ⟨f, finishes, below⟩ := upper k one le
    exact ⟨f, spec k f one finishes, below⟩
  · refine attained.imp_right ?_
    intro given
    rcases given with ⟨k, f, one, le, finishes, eq⟩
    exact ⟨k, f, one, le, spec k f one finishes, eq⟩

theorem deadlineMissResponses_value (lt : z < c.tasks.length) {vs : List ℚ}
    (returned : (deadlineMissResponses .unbounded c z).Returns vs) {i : ℕ} {v : ℚ}
    (at_i : vs[i]? = some v) :
    WorstOf (fun k => LeastWindow (c.higher z)
      ((c.task z).workBefore k (prefixTime (c.task z).runnables i)))
      (c.task z).period (c.jobsExamined z) v := by
  obtain ⟨r, runnable⟩ : ∃ r, (c.task z).runnables[i]? = some r := by
    have inside := (List.getElem?_eq_some_iff.mp at_i).1
    exact ⟨_, List.getElem?_eq_getElem (length_deadlineMissResponses returned ▸ inside)⟩
  exact busyResponses_value (fun accum _ k => jobFinishDM .unbounded c z k accum)
    (fun _ k => LeastWindow (c.higher z)
      ((c.task z).workBefore k (prefixTime (c.task z).runnables i)))
    lt returned runnable at_i fun k f one finishes =>
      jobFinishDM_returns one (prefixTime_nonneg _ i) finishes

/-! ## Cooperative tasks -/

/-- The work that `job_start` accumulates: a closed window asks every task above for its releases. -/
def Core.startDemand (c : Core) (z : ℕ) (a w : ℚ) : ℚ := a + closedInterference (c.higher z) w

/-- What a task above charges up to the finish: its releases up to then if it preempts, else those up
to the start. -/
def Task.finishRequest (t : Task) (start w : ℚ) : ℚ :=
  match t.preemptionType with
  | .preemptive => t.load.request w
  | .cooperative => t.load.requestClosed start

/-- The work that has to be done up to the finish of a job started at `start`. -/
def Core.finishDemand (c : Core) (z : ℕ) (a start w : ℚ) : ℚ :=
  a + ((c.tasks.take z).map fun t => t.finishRequest start w).sum

/-- `f` is the finish of a job: the least fixpoint after its start and its last `e` units, where the
start is the least fixpoint for the work `a` before these units. -/
def JobFinish (c : Core) (z : ℕ) (a e f : ℚ) : Prop :=
  ∃ s, IsLeast {w | 0 ≤ w ∧ c.startDemand z a w ≤ w} s ∧
    IsLeast {x | s + e ≤ x ∧ c.finishDemand z (a + e) s x ≤ x} f

theorem interference_higher (c : Core) (z : ℕ) (w : ℚ) :
    interference (c.higher z) w =
      ((c.tasks.take z).map fun t => (⌈w / t.period⌉ : ℚ) * t.executionTime).sum := by
  rw [Core.higher, interference, List.map_map]
  rfl

theorem closedInterference_higher (c : Core) (z : ℕ) (w : ℚ) :
    closedInterference (c.higher z) w =
      ((c.tasks.take z).map fun t => t.load.requestClosed w).sum := by
  rw [Core.higher, closedInterference, List.map_map]
  rfl

theorem startDemand_mono (c : Core) (z : ℕ) (a : ℚ) : Monotone (c.startDemand z a) := by
  intro v w le
  exact add_le_add_right (List.sum_le_sum fun l _ => l.requestClosed_mono le) a

theorem le_startDemand (c : Core) (z : ℕ) (a : ℚ) {w : ℚ} (nonneg : 0 ≤ w) :
    a ≤ c.startDemand z a w :=
  le_add_of_nonneg_right (closedInterference_nonneg nonneg)

/-- The least window that takes the work before a start is filled by it. -/
theorem startDemand_eq_of_isLeast {a : ℚ} (nonneg : 0 ≤ a) {s : ℚ}
    (least : IsLeast {w | 0 ≤ w ∧ c.startDemand z a w ≤ w} s) : s = c.startDemand z a s := by
  obtain ⟨above, fits⟩ := least.1
  apply le_antisymm _ fits
  apply least.2
  exact ⟨nonneg.trans (le_startDemand c z a above), startDemand_mono c z a fits⟩

theorem jobStart_returns {a : ℚ} (nonneg : 0 ≤ a) {s : ℚ}
    (returned : (doWhile (fun start => c.chargeHigher z
      (fun t => (myFloor .unbounded start t.period + 1) * t.executionTime) a) a).Returns s) :
    IsLeast {w | 0 ≤ w ∧ c.startDemand z a w ≤ w} s ∧ s = c.startDemand z a s := by
  have step_eq : (fun start => c.chargeHigher z
      (fun t => (myFloor .unbounded start t.period + 1) * t.executionTime) a) =
      c.startDemand z a := by
    funext w
    simp only [chargeHigher_eq, floorCharge_unbounded, Core.startDemand, closedInterference_higher]
  rw [step_eq] at returned
  have above := le_startDemand c z a nonneg
  have from_work := doWhile_isLeast (startDemand_mono c z a) above returned
  have least : IsLeast {w | 0 ≤ w ∧ c.startDemand z a w ≤ w} s := by
    refine ⟨⟨nonneg.trans from_work.1.1, from_work.1.2⟩, fun w hw => from_work.2 ⟨?_, hw.2⟩⟩
    exact (le_startDemand c z a hw.1).trans hw.2
  exact ⟨least, startDemand_eq_of_isLeast nonneg least⟩

/-- The charges of `job_finish` and the requests up to the finish differ by what the start has seen. -/
theorem finishCharge_add (t : Task) (start w : ℚ) :
    finishCharge .unbounded (fun t => myFloor .unbounded start t.period + 1) w t +
      t.load.requestClosed start = t.finishRequest start w := by
  unfold finishCharge Task.finishRequest
  cases t.preemptionType with
  | cooperative => exact zero_add _
  | preemptive =>
      dsimp only
      rw [sub_mul, ceilCharge_unbounded, floorCharge_unbounded, sub_add_cancel]

theorem finishLoop_eq (c : Core) (z : ℕ) {a s : ℚ} (fixed : s = c.startDemand z a s) (e w : ℚ) :
    c.chargeHigher z (finishCharge .unbounded (fun t => myFloor .unbounded s t.period + 1) w)
      (s + e) = c.finishDemand z (a + e) s w := by
  rw [chargeHigher_eq, Core.finishDemand]
  simp only [← finishCharge_add]
  rw [List.sum_map_add, ← closedInterference_higher]
  rw [Core.startDemand] at fixed
  linarith

theorem finishDemand_mono (c : Core) (z : ℕ) (a s : ℚ) : Monotone (c.finishDemand z a s) := by
  intro v w le
  refine add_le_add_right (List.sum_le_sum fun t _ => ?_) a
  unfold Task.finishRequest
  cases t.preemptionType with
  | preemptive => exact t.load.request_mono le
  | cooperative => exact le_rfl

/-- A started job is not finished before its last units are: no release falls on the start. -/
theorem le_finishDemand {a s : ℚ} (nonneg : 0 ≤ a)
    (least : IsLeast {w | 0 ≤ w ∧ c.startDemand z a w ≤ w} s) (fixed : s = c.startDemand z a s)
    {e x : ℚ} (le : s ≤ x) : s + e ≤ c.finishDemand z (a + e) s x := by
  have each : ((c.tasks.take z).map fun t => t.load.requestClosed s).sum ≤
      ((c.tasks.take z).map fun t => t.finishRequest s x).sum := by
    refine List.sum_le_sum fun t mem => ?_
    unfold Task.finishRequest
    cases t.preemptionType with
    | cooperative => exact le_rfl
    | preemptive =>
        exact requestClosed_le_request_of_isLeast nonneg least (List.mem_map_of_mem mem) le
  rw [← closedInterference_higher] at each
  rw [Core.startDemand] at fixed
  rw [Core.finishDemand]
  linarith

/-- The work before job `k` of task `z` starts the runnable whose accumulated time is `accum`: what
blocks the job, the jobs before it and its runnables before this one. -/
def Core.startWork (c : Core) (z : ℕ) (k : ℤ) (accum : ℚ) (r : Runnable) : ℚ :=
  blocking c z + (c.task z).workBefore k (accum - r.executionTime)

theorem Core.startWork_nonneg {k : ℤ} (one : 1 ≤ k) {accum : ℚ} {r : Runnable}
    (own : r.executionTime ≤ accum) : 0 ≤ c.startWork z k accum r :=
  add_nonneg (blocking_nonneg c z) ((c.task z).workBefore_nonneg one (sub_nonneg.mpr own))

theorem jobStart_isLeast {k : ℤ} (one : 1 ≤ k) {accum : ℚ} {r : Runnable}
    (own : r.executionTime ≤ accum) {s : ℚ}
    (returned : (jobStart .unbounded c z k accum r).Returns s) :
    IsLeast {w | 0 ≤ w ∧ c.startDemand z (c.startWork z k accum r) w ≤ w} s ∧
      s = c.startDemand z (c.startWork z k accum r) s := by
  simp only [jobStart, IntReading.wrap_unbounded, Int.cast_sub, Int.cast_one, add_assoc] at returned
  apply jobStart_returns (Core.startWork_nonneg one own)
  simpa only [Core.startWork, Task.workBefore, add_assoc] using returned

/-- A returned finish comes with the start it was computed from. -/
theorem jobFinish_parts {k : ℤ} (one : 1 ≤ k) {accum : ℚ} {r : Runnable}
    (own : r.executionTime ≤ accum) {f : ℚ}
    (returned : (jobFinish .unbounded c z k accum r).Returns f) :
    ∃ s, (jobStart .unbounded c z k accum r).Returns s ∧
      IsLeast {x | s + r.executionTime ≤ x ∧
        c.finishDemand z (c.startWork z k accum r + r.executionTime) s x ≤ x} f := by
  simp only [jobFinish, Fueled.returns_bind] at returned
  obtain ⟨s, started, finished⟩ := returned
  obtain ⟨least, fixed⟩ := jobStart_isLeast one own started
  refine ⟨s, started, ?_⟩
  replace finished : (doWhile (fun w => c.chargeHigher z
      (finishCharge .unbounded (fun t => myFloor .unbounded s t.period + 1) w)
      (s + r.executionTime)) (s + r.executionTime)).Returns f := finished
  simp only [finishLoop_eq c z fixed] at finished
  exact doWhile_isLeast (finishDemand_mono c z _ s)
    (le_finishDemand (Core.startWork_nonneg one own) least fixed
      (le_add_of_nonneg_right r.executionTime_nonneg)) finished

theorem jobFinish_returns {k : ℤ} (one : 1 ≤ k) {accum : ℚ} {r : Runnable}
    (own : r.executionTime ≤ accum) {f : ℚ}
    (returned : (jobFinish .unbounded c z k accum r).Returns f) :
    JobFinish c z (blocking c z + (c.task z).workBefore k (accum - r.executionTime))
      r.executionTime f := by
  obtain ⟨s, started, finished⟩ := jobFinish_parts one own returned
  exact ⟨s, (jobStart_isLeast one own started).1, finished⟩

theorem cooperativeResponses_value (lt : z < c.tasks.length) {vs : List ℚ}
    (returned : (cooperativeResponses .unbounded c z).Returns vs) {i : ℕ} {r : Runnable} {v : ℚ}
    (runnable : (c.task z).runnables[i]? = some r) (at_i : vs[i]? = some v) :
    WorstOf (fun k => JobFinish c z (blocking c z + (c.task z).workBefore k
        (prefixTime (c.task z).runnables i - r.executionTime)) r.executionTime)
      (c.task z).period (c.jobsExamined z) v :=
  busyResponses_value (fun accum r k => jobFinish .unbounded c z k accum r)
    (fun r k => JobFinish c z (blocking c z + (c.task z).workBefore k
      (prefixTime (c.task z).runnables i - r.executionTime)) r.executionTime)
    lt returned runnable at_i fun _ _ one finishes =>
      jobFinish_returns one (executionTime_le_prefixTime runnable) finishes

end Hipert.Amalthea
