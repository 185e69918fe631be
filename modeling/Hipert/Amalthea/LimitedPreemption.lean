import Hipert.Amalthea.Termination
import Hipert.Amalthea.SubJobs

/-!
# The limited-preemption formula

The response of a runnable of a cooperative task under limited preemption: the worst of the jobs in
the level-`n` busy period, a job starting at the least solution of its start equation and finishing
at the least solution of its finish equation (`Core.LimitedPreemption`). `Core.java` computes the
blocking, the starts and the finishes of that formula, but counts the jobs with the period of the
analysed task in every ceiling. Its response is the formula's exactly when the busy period is bounded
and the jobs that both counts contain cover the others (`cooperative_formula_iff`).
-/

namespace Hipert.Amalthea

variable {c : Core} {n : ℕ}

/-! ## The formula -/

/-- `L` is the level-`n` busy period: the least value from `B + C_n` on that the blocking `B` and the
releases of the tasks down to position `n` fill. -/
def Core.LevelBusyPeriod (c : Core) (n : ℕ) (B L : ℚ) : Prop :=
  IsLeast {x | B + (c.task n).executionTime ≤ x ∧
    x = B + ((c.tasks.take (n + 1)).map fun t => (⌈x / t.period⌉ : ℚ) * t.executionTime).sum} L

/-- `s` is the least time that the work `a` and the releases of the tasks above up to `s` fill. -/
def Core.StartTime (c : Core) (n : ℕ) (a s : ℚ) : Prop :=
  IsLeast {x | x =
    a + ((c.tasks.take n).map fun t => ((⌊x / t.period⌋ : ℚ) + 1) * t.executionTime).sum} s

/-- `f` is the least time from `s + e` on that the start, the work `e` and the later releases of the
preemptive tasks above fill. -/
def Core.FinishTime (c : Core) (n : ℕ) (s e f : ℚ) : Prop :=
  IsLeast {x | s + e ≤ x ∧ x =
    s + e + (((c.tasks.take n).filter (·.preemptionType = .preemptive)).map fun t =>
      ((⌈x / t.period⌉ : ℚ) - ⌊s / t.period⌋ - 1) * t.executionTime).sum} f

/-- `f` is the finish of runnable `i`, with execution time `e`, in job `k` of task `n`. -/
def Core.SubJobFinish (c : Core) (n i : ℕ) (e B : ℚ) (k : ℤ) (f : ℚ) : Prop :=
  ∃ s, c.StartTime n (B + (k - 1) * (c.task n).executionTime +
    (((c.task n).runnables.take i).map (·.executionTime)).sum) s ∧ c.FinishTime n s e f

/-- `response` is the limited-preemption response of runnable `i` of task `n`. -/
structure Core.LimitedPreemption (c : Core) (n i : ℕ) (e B L response : ℚ) : Prop where
  blocking : c.LongestBelow n B
  busyPeriod : c.LevelBusyPeriod n B L
  response : WorstOf (c.SubJobFinish n i e B) (c.task n).period ⌈L / (c.task n).period⌉ response

/-! ## Starts and finishes -/

theorem startDemand_eq_sum (c : Core) (n : ℕ) (a x : ℚ) :
    c.startDemand n a x =
      a + ((c.tasks.take n).map fun t => ((⌊x / t.period⌋ : ℚ) + 1) * t.executionTime).sum := by
  rw [Core.startDemand, closedInterference_higher]
  rfl

/-- The start that `job_start` computes solves the start equation, and no other solution is
earlier. -/
theorem startTime_of_isLeast (room : Hipert.utilization (c.higher n) < 1) {a s : ℚ} (work : 0 ≤ a)
    (least : IsLeast {w | 0 ≤ w ∧ c.startDemand n a w ≤ w} s) : c.StartTime n a s := by
  unfold Core.StartTime
  simp only [← startDemand_eq_sum]
  refine ⟨?_, ?_⟩
  · exact startDemand_eq_of_isLeast work least
  · intro x solves
    rw [Set.mem_ofPred_eq] at solves
    -- a solution is not negative: the releases up to it are at least its share
    have share : x * Hipert.utilization (c.higher n) ≤ closedInterference (c.higher n) x :=
      le_interference.trans interference_le_closedInterference
    have nonneg : 0 ≤ x := by
      by_contra negative
      have idle : x < x * Hipert.utilization (c.higher n) :=
        lt_mul_of_lt_one_right (not_le.mp negative) room
      unfold Core.startDemand at solves
      linarith
    exact least.2 ⟨nonneg, solves.symm.le⟩

/-- The charges between start and finish are those of the preemptive tasks. -/
theorem sum_finishCharge (ts : List Task) (s x : ℚ) :
    (ts.map (finishCharge .unbounded (fun t => myFloor .unbounded s t.period + 1) x)).sum =
      ((ts.filter (·.preemptionType = .preemptive)).map fun t =>
        ((⌈x / t.period⌉ : ℚ) - ⌊s / t.period⌋ - 1) * t.executionTime).sum := by
  induction ts with
  | nil => rfl
  | cons t ts ih =>
      rw [List.map_cons, List.sum_cons, ih]
      cases kind : t.preemptionType with
      | preemptive =>
          have keeps : List.filter (·.preemptionType = .preemptive) (t :: ts) =
              t :: ts.filter (·.preemptionType = .preemptive) :=
            List.filter_cons_of_pos (by simp [kind])
          rw [keeps, List.map_cons, List.sum_cons]
          simp only [finishCharge, kind, myCeil_eq, myFloor_eq, IntReading.cast_unbounded, sub_sub]
      | cooperative =>
          have drops : List.filter (·.preemptionType = .preemptive) (t :: ts) =
              ts.filter (·.preemptionType = .preemptive) :=
            List.filter_cons_of_neg (by simp [kind])
          rw [drops]
          simp only [finishCharge, kind, zero_add]

theorem finishTime_of_isLeast {a e s f : ℚ} (work : 0 ≤ a) (exec : 0 ≤ e)
    (least : IsLeast {w | 0 ≤ w ∧ c.startDemand n a w ≤ w} s)
    (finish : IsLeast {x | s + e ≤ x ∧ c.finishDemand n (a + e) s x ≤ x} f) :
    c.FinishTime n s e f := by
  have fixed := startDemand_eq_of_isLeast work least
  have demand : ∀ x, c.finishDemand n (a + e) s x = s + e +
      (((c.tasks.take n).filter (·.preemptionType = .preemptive)).map fun t =>
        ((⌈x / t.period⌉ : ℚ) - ⌊s / t.period⌋ - 1) * t.executionTime).sum := by
    intro x
    rw [← sum_finishCharge, ← finishLoop_eq c n fixed, chargeHigher_eq]
  have start : s + e ≤ c.finishDemand n (a + e) s (s + e) :=
    le_finishDemand work least fixed (le_add_of_nonneg_right exec)
  have solved := step_eq_of_isLeast (finishDemand_mono c n (a + e) s) start finish
  unfold Core.FinishTime
  simp only [← demand]
  refine ⟨?_, ?_⟩
  · exact ⟨finish.1.1, solved.symm⟩
  · intro x hx
    exact finish.2 ⟨hx.1, hx.2.symm.le⟩

theorem Core.SubJobFinish.unique {i : ℕ} {e B : ℚ} {k : ℤ} {f f' : ℚ}
    (left : c.SubJobFinish n i e B k f) (right : c.SubJobFinish n i e B k f') : f = f' := by
  obtain ⟨s, start, finish⟩ := left
  obtain ⟨s', start', finish'⟩ := right
  cases start.unique start'
  exact finish.unique finish'

/-- What `job_finish` returns is the finish of the formula. -/
theorem subJobFinish_of_returns {i : ℕ} {r : Runnable}
    (room : Hipert.utilization (c.higher n) < 1)
    (at_i : (c.task n).runnables[i]? = some r) {k : ℤ} (one : 1 ≤ k) {f : ℚ}
    (returned : (jobFinish .unbounded c n k (prefixTime (c.task n).runnables i) r).Returns f) :
    c.SubJobFinish n i r.executionTime (blocking c n) k f := by
  have own := executionTime_le_prefixTime at_i
  have work := Core.startWork_nonneg (c := c) (z := n) one own
  obtain ⟨s, started, finish⟩ := jobFinish_parts one own returned
  obtain ⟨least, -⟩ := jobStart_isLeast one own started
  refine ⟨s, ?_, finishTime_of_isLeast work r.executionTime_nonneg least finish⟩
  rw [add_assoc, ← prefixTime_sub at_i]
  exact startTime_of_isLeast room work least

/-- A returned job shows that the tasks above leave processor time over. -/
theorem room_of_jobFinish {k : ℤ} (one : 1 ≤ k) {accum : ℚ} {r : Runnable}
    (own : r.executionTime ≤ accum) {f : ℚ}
    (returned : (jobFinish .unbounded c n k accum r).Returns f) :
    Hipert.utilization (c.higher n) < 1 := by
  obtain ⟨s, started, -⟩ := jobFinish_parts one own returned
  obtain ⟨least, fixed⟩ := jobStart_isLeast one own started
  exact utilization_lt_one_of_closed_fixpoint (Core.startWork_nonneg one own) least.1.1 fixed

/-! ## The busy period -/

/-- The level-`n` busy period is bounded: nothing starts it, the tasks down to position `n` leave
processor time over, or they take all of it and nothing blocks. -/
def Core.LevelBounded (c : Core) (n : ℕ) : Prop :=
  c.Vacant n ∨ Hipert.utilization (c.higher (n + 1)) < 1 ∨
    (blocking c n = 0 ∧ Hipert.utilization (c.higher (n + 1)) = 1)

instance (c : Core) (n : ℕ) : Decidable (c.LevelBounded n) :=
  inferInstanceAs (Decidable (_ ∨ _ < _ ∨ (_ = _ ∧ _ = _)))

theorem levelBusyPeriod_iff {B L : ℚ} :
    c.LevelBusyPeriod n B L ↔ IsLeast {x | B + (c.task n).executionTime ≤ x ∧
      x = demand (c.higher (n + 1)) B x} L := by
  simp only [demand, interference_higher]
  exact Iff.rfl

theorem levelStart_le (lt : n < c.tasks.length) :
    blocking c n + (c.task n).executionTime ≤
      demand (c.higher (n + 1)) (blocking c n) (blocking c n + (c.task n).executionTime) := by
  have member : (c.task n).load ∈ c.higher (n + 1) := by
    have here : c.task n ∈ c.tasks.take (n + 1) := by
      rw [Core.task, List.getD_eq_getElem?_getD, List.getElem?_eq_getElem lt, Option.getD_some]
      exact List.mem_take_iff_getElem.mpr ⟨n, by omega, rfl⟩
    exact List.mem_map_of_mem here
  have nonneg := busyStart_nonneg c n
  have own : (c.task n).load.request (blocking c n + (c.task n).executionTime) ≤
      interference (c.higher (n + 1)) (blocking c n + (c.task n).executionTime) :=
    request_le_interference member nonneg
  have once : (c.task n).executionTime ≤
      (c.task n).load.request (blocking c n + (c.task n).executionTime) := by
    rcases nonneg.lt_or_eq with pos | zero
    · have ceil := one_le_myCeil .unbounded pos (c.task n).period_pos
      rw [← ceilCharge_unbounded]
      exact le_mul_of_one_le_left (c.task n).executionTime_nonneg ceil
    · rw [← zero, Load.request_zero]
      have blocked := blocking_nonneg c n
      linarith
  unfold demand
  linarith

/-- Iterating the demand from `B + C_n` finds the busy period. -/
theorem levelBusyPeriod_of_returns (lt : n < c.tasks.length) {L : ℚ}
    (returned : (doWhile (demand (c.higher (n + 1)) (blocking c n))
      (blocking c n + (c.task n).executionTime)).Returns L) :
    c.LevelBusyPeriod n (blocking c n) L := by
  have least := doWhile_isLeast demand_mono (levelStart_le lt) returned
  have solved := step_eq_of_isLeast demand_mono (levelStart_le lt) least
  apply levelBusyPeriod_iff.mpr
  refine ⟨?_, ?_⟩
  · exact ⟨least.1.1, solved.symm⟩
  · intro x hx
    exact least.2 ⟨hx.1, hx.2.symm.le⟩

/-- A window that takes its own demand bounds the busy period. -/
theorem exists_levelBusyPeriod (lt : n < c.tasks.length) {w : ℚ}
    (above : blocking c n + (c.task n).executionTime ≤ w)
    (fits : demand (c.higher (n + 1)) (blocking c n) w ≤ w) :
    ∃ L, c.LevelBusyPeriod n (blocking c n) L := by
  have ends : (doWhile (demand (c.higher (n + 1)) (blocking c n))
      (blocking c n + (c.task n).executionTime)).Ends :=
    doWhile_ends_of_prefixpoint demand_mono above fits (finite_image_demand _ _ _ _)
  obtain ⟨L, returned⟩ := ends
  exact ⟨L, levelBusyPeriod_of_returns lt returned⟩

theorem exists_levelBusyPeriod_iff (lt : n < c.tasks.length) :
    (∃ L, c.LevelBusyPeriod n (blocking c n) L) ↔ c.LevelBounded n := by
  have blocked := blocking_nonneg c n
  refine ⟨?_, ?_⟩
  · intro given
    rcases given with ⟨L, busy⟩
    by_cases vacant : c.Vacant n
    · exact Or.inl vacant
    · obtain ⟨above, solved⟩ := (levelBusyPeriod_iff.mp busy).1
      have pos : 0 < L := (busyStart_pos vacant).trans_le above
      have share : L * Hipert.utilization (c.higher (n + 1)) ≤
        interference (c.higher (n + 1)) L := le_interference
      unfold demand at solved
      apply Or.inr
      rcases lt_trichotomy (Hipert.utilization (c.higher (n + 1))) 1 with room | full | more
      · exact Or.inl room
      · rw [full, mul_one] at share
        exact Or.inr ⟨by linarith, full⟩
      · have beyond := lt_mul_of_one_lt_right pos more
        linarith
  · rintro (vacant | room | ⟨free, full⟩)
    · apply exists_levelBusyPeriod lt (w := 0)
      · rw [vacant.1, vacant.2, add_zero]
      · rw [vacant.1, demand, interference_zero, add_zero]
    · obtain ⟨w, above, fits⟩ := exists_demand_le room (blocking c n)
        (blocking c n + (c.task n).executionTime)
      exact exists_levelBusyPeriod lt above fits
    · obtain ⟨w, above, equal⟩ := exists_interference_eq (c.higher (n + 1))
        (blocking c n + (c.task n).executionTime)
      apply exists_levelBusyPeriod lt above
      rw [demand, equal, free, full, mul_one, zero_add]

theorem Core.Vacant.levelBusyPeriod (vacant : c.Vacant n) {L : ℚ}
    (busy : c.LevelBusyPeriod n (blocking c n) L) : L = 0 := by
  obtain ⟨above, -⟩ := busy.1
  have start : blocking c n + (c.task n).executionTime = 0 := by rw [vacant.1, vacant.2, add_zero]
  rw [start] at above
  refine le_antisymm ((levelBusyPeriod_iff.mp busy).2 ⟨start.le, ?_⟩) above
  rw [vacant.1, demand, interference_zero, add_zero]

/-! ## What the code computes -/

/-- The response of a runnable is the worst of the first `jobsExamined` jobs. -/
theorem cooperativeResponses_worst (lt : n < c.tasks.length) {vs : List ℚ}
    (returned : (cooperativeResponses .unbounded c n).Returns vs) {i : ℕ} {r : Runnable} {v : ℚ}
    (at_i : (c.task n).runnables[i]? = some r) (value : vs[i]? = some v) :
    WorstOf (c.SubJobFinish n i r.executionTime (blocking c n)) (c.task n).period
        (c.jobsExamined n) v ∧
      (1 ≤ c.jobsExamined n → Hipert.utilization (c.higher n) < 1) := by
  have own := executionTime_le_prefixTime at_i
  -- the jobs as `job_finish` computes them
  have worst : WorstOf (fun k f => 1 ≤ k ∧
      (jobFinish .unbounded c n k (prefixTime (c.task n).runnables i) r).Returns f)
      (c.task n).period (c.jobsExamined n) v :=
    busyResponses_value (fun accum r k => jobFinish .unbounded c n k accum r)
      (fun r k f => 1 ≤ k ∧
        (jobFinish .unbounded c n k (prefixTime (c.task n).runnables i) r).Returns f)
      lt returned at_i value fun _ _ one finished => ⟨one, finished⟩
  have room : 1 ≤ c.jobsExamined n → Hipert.utilization (c.higher n) < 1 := by
    intro some_job
    obtain ⟨f, ⟨one, finished⟩, -⟩ := worst.upper 1 le_rfl some_job
    exact room_of_jobFinish one own finished
  refine ⟨⟨worst.nonneg, fun k one inside => ?_, ?_⟩, room⟩
  · obtain ⟨f, ⟨-, finished⟩, below⟩ := worst.upper k one inside
    exact ⟨f, subJobFinish_of_returns (room (one.trans inside)) at_i one finished, below⟩
  · rcases worst.attained with zero | ⟨k, f, one, inside, ⟨-, finished⟩, equal⟩
    · exact Or.inl zero
    · exact Or.inr ⟨k, f, one, inside,
        subJobFinish_of_returns (room (one.trans inside)) at_i one finished, equal⟩

theorem exists_subJobFinish (room : Hipert.utilization (c.higher n) < 1) {i : ℕ} {r : Runnable}
    (at_i : (c.task n).runnables[i]? = some r) {k : ℤ} (one : 1 ≤ k) :
    ∃ f, c.SubJobFinish n i r.executionTime (blocking c n) k f := by
  obtain ⟨f, finished⟩ :=
    jobFinish_ends (ρ := .unbounded) room k (prefixTime (c.task n).runnables i) r
  exact ⟨f, subJobFinish_of_returns room at_i one finished⟩

/-- **The formula and the code.** The response that `responseTimeCooperativeTask` leaves in a runnable
is that of the limited-preemption formula exactly when the level-`n` busy period is bounded and the
jobs that the formula and the code both examine cover those that one of them examines. -/
theorem cooperative_formula_iff (lt : n < c.tasks.length) {d : Core}
    (returned : (responseTimeCooperativeTask .unbounded c n).Returns d) {i : ℕ} {r r' : Runnable}
    (at_i : (c.task n).runnables[i]? = some r) (stored : (d.task n).runnables[i]? = some r') :
    (∃ B L, c.LimitedPreemption n i r.executionTime B L r'.responseTime) ↔
      c.LevelBounded n ∧ ∀ L, c.LevelBusyPeriod n (blocking c n) L → ∀ k, 1 ≤ k →
        k ≤ max (c.jobsExamined n) ⌈L / (c.task n).period⌉ →
        CoveredBy (c.SubJobFinish n i r.executionTime (blocking c n)) (c.task n).period
          (min (c.jobsExamined n) ⌈L / (c.task n).period⌉) k := by
  simp only [responseTimeCooperativeTask, Fueled.returns_bind, Fueled.returns_pure] at returned
  rcases returned with ⟨vs, computed, rfl⟩
  rw [Core.task_setTask_self lt] at stored
  obtain ⟨value, -⟩ := Task.store_getElem? stored
  obtain ⟨worst, room⟩ := cooperativeResponses_worst lt computed at_i value
  have single : ∀ k f f', c.SubJobFinish n i r.executionTime (blocking c n) k f →
      c.SubJobFinish n i r.executionTime (blocking c n) k f' → f = f' :=
    fun _ _ _ finish finish' => finish.unique finish'

  have counted : ∀ L, c.LevelBusyPeriod n (blocking c n) L →
      (WorstOf (c.SubJobFinish n i r.executionTime (blocking c n)) (c.task n).period
          ⌈L / (c.task n).period⌉ r'.responseTime ↔
        ∀ k, 1 ≤ k → k ≤ max (c.jobsExamined n) ⌈L / (c.task n).period⌉ →
          CoveredBy (c.SubJobFinish n i r.executionTime (blocking c n)) (c.task n).period
            (min (c.jobsExamined n) ⌈L / (c.task n).period⌉) k) := by
    intro L busy
    apply worst.iff_covered single
    intro k one within
    by_cases vacant : c.Vacant n
    · -- neither the formula nor the code examines a job
      have none : c.jobsExamined n = 0 := by rw [Core.jobsExamined, if_pos vacant]
      rw [vacant.levelBusyPeriod busy, none, zero_div, Int.ceil_zero, max_self] at within
      omega
    · exact exists_subJobFinish (room (Core.one_le_jobsExamined vacant)) at_i one
  rw [← exists_levelBusyPeriod_iff lt]
  refine ⟨?_, ?_⟩
  · intro given
    rcases given with ⟨B, L, formula⟩
    have same := formula.blocking.unique (blocking_longestBelow c n)
    have busy := same ▸ formula.busyPeriod
    refine ⟨⟨L, busy⟩, fun L' busy' => ?_⟩
    cases busy.unique busy'
    exact (counted L busy).mp (same ▸ formula.response)
  · intro given
    rcases given with ⟨⟨L, busy⟩, covered⟩
    exact ⟨blocking c n, L, blocking_longestBelow c n, busy, (counted L busy).mpr (covered L busy)⟩

/-- A cooperative task whose busy period holds one job, below a quick task. -/
def slowCooperative : Core :=
  ((⟨[]⟩ : Core).addTask (singleRunnable 10 2 (whole_pos (nat_lit 9)) 800)).addTask
    ((Task.new 40 1 .cooperative (whole_pos (nat_lit 39))).addRunnable (Runnable.new 1600))

theorem cooperative_formula_iff_slowCooperative :
    ∃ d r', (responseTimeCooperativeTask .unbounded slowCooperative 1).Returns d ∧
      (d.task 1).runnables[0]? = some r' ∧
      ∃ B L, slowCooperative.LimitedPreemption 1 0 (Runnable.new 1600).executionTime B L
        r'.responseTime := by
  have value : ((responseTimeCooperativeTask .unbounded slowCooperative 1).run 20).map
      (fun d => (d.task 1).runnables.map Runnable.responseTime) = some [16] := by
    decide +kernel
  obtain ⟨d, returned, responses⟩ := Option.map_eq_some_iff.mp value
  obtain ⟨r', only, -⟩ := List.map_eq_singleton_iff.mp responses
  have stored : (d.task 1).runnables[0]? = some r' := by rw [only]; rfl
  refine ⟨d, r', ⟨20, returned⟩, stored, ?_⟩
  refine (cooperative_formula_iff (by decide) ⟨20, returned⟩ rfl stored).mpr ⟨by decide +kernel, ?_⟩
  intro L busy k one within f finish
  have length : slowCooperative.LevelBusyPeriod 1 (blocking slowCooperative 1) 16 :=
    levelBusyPeriod_of_returns (by decide) ⟨40, by decide +kernel⟩
  cases busy.unique length
  -- both examine the first job only
  have single : max (slowCooperative.jobsExamined 1) ⌈(16 : ℚ) / (slowCooperative.task 1).period⌉ =
      1 := by decide +kernel
  cases le_antisymm (within.trans_eq single) one
  exact Or.inr ⟨1, f, le_rfl, by decide +kernel, finish, le_rfl⟩

/-! ## A fifth job that the code does not examine -/

/-- A preemptive task above a cooperative one: the code examines one job of the second, its busy
period holds seven. -/
def fifthJobWorse : Core :=
  ((⟨[]⟩ : Core).addTask (singleRunnable 70 3 (whole_pos (nat_lit 69)) 5200)).addTask
    ((Task.new 100 2 .cooperative (whole_pos (nat_lit 99))).addRunnable (Runnable.new 12400))

theorem fifthJobWorse_response :
    ∃ d r', (responseTimeCooperativeTask .unbounded fifthJobWorse 1).Returns d ∧
      (d.task 1).runnables[0]? = some r' ∧ r'.responseTime = 114 := by
  have value : ((responseTimeCooperativeTask .unbounded fifthJobWorse 1).run 20).map
      (fun d => (d.task 1).runnables.map Runnable.responseTime) = some [114] := by
    decide +kernel
  obtain ⟨d, returned, responses⟩ := Option.map_eq_some_iff.mp value
  obtain ⟨r', only, response⟩ := List.map_eq_singleton_iff.mp responses
  exact ⟨d, r', ⟨20, returned⟩, by rw [only]; rfl, response⟩

/-- The fifth job of the busy period responds after 118, the stored response is 114. -/
theorem cooperative_not_formula :
    (fifthJobWorse.tasks.Pairwise fun t u => u.priority < t.priority) ∧
      (fifthJobWorse.task 1).preemptionType = .cooperative ∧
      ∃ d r', (responseTimeCooperativeTask .unbounded fifthJobWorse 1).Returns d ∧
        (d.task 1).runnables[0]? = some r' ∧ r'.responseTime = 114 ∧
        ¬ ∃ B L, fifthJobWorse.LimitedPreemption 1 0 (Runnable.new 12400).executionTime B L
          r'.responseTime := by
  obtain ⟨d, r', returned, stored, response⟩ := fifthJobWorse_response
  refine ⟨by decide +kernel, rfl, d, r', returned, stored, response, ?_⟩
  intro given
  rcases given with ⟨B, L, formula⟩
  cases formula.blocking.unique (blocking_longestBelow fifthJobWorse 1)

  -- the busy period is 694 long, so the formula examines seven jobs
  have busy : fifthJobWorse.LevelBusyPeriod 1 (blocking fifthJobWorse 1) 694 :=
    levelBusyPeriod_of_returns (by decide) ⟨40, by decide +kernel⟩
  cases formula.busyPeriod.unique busy
  have seven : (5 : ℤ) ≤ ⌈(694 : ℚ) / (fifthJobWorse.task 1).period⌉ := by decide +kernel
  obtain ⟨f, finish, below⟩ := formula.response.upper 5 (by decide) seven

  have fifth : (jobFinish .unbounded fifthJobWorse 1 5
      (prefixTime (fifthJobWorse.task 1).runnables 0) (Runnable.new 12400)).Returns 518 :=
    ⟨20, by decide +kernel⟩
  have room : Hipert.utilization (fifthJobWorse.higher 1) < 1 := by decide +kernel
  have late := subJobFinish_of_returns room rfl (by decide) fifth
  cases finish.unique late
  have period : (fifthJobWorse.task 1).period = 100 := rfl
  rw [response, period] at below
  norm_num at below

end Hipert.Amalthea
