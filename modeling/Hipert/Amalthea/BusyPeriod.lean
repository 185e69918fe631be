import Hipert.Amalthea.Loops
import Mathlib.Algebra.BigOperators.Ring.List

/-!
# `busy_period` and the number of jobs

`busy_period` iterates `B + S · ⌈L / T⌉`, with the blocking `B`, the summed execution times `S` of
the tasks down to the analysed one and the period `T` of that one task. So the number of jobs its
callers examine is the least positive `m` with `B + S · m ≤ m · T` (`busyPeriod_count`), and for a
task without blocking and execution time it is zero.
-/

namespace Hipert.Amalthea

variable {ρ : IntReading} {c : Core} {z : ℕ}

/-- `busy_period` starts at zero. -/
def Core.Vacant (c : Core) (z : ℕ) : Prop := blocking c z = 0 ∧ (c.task z).executionTime = 0

instance (c : Core) (z : ℕ) : Decidable (c.Vacant z) := inferInstanceAs (Decidable (_ ∧ _))

/-- `m` jobs of task `z` leave room for its blocking and for `m` jobs of every task down to it. -/
def Core.Fits (c : Core) (z : ℕ) (m : ℤ) : Prop :=
  blocking c z + c.sumExecution (z + 1) * m ≤ m * (c.task z).period

instance (c : Core) (z : ℕ) (m : ℤ) : Decidable (c.Fits z m) := inferInstanceAs (Decidable (_ ≤ _))

theorem foldl_longest_isGreatest (rs : List Runnable) (init : ℚ) :
    IsGreatest (insert init {e | ∃ r ∈ rs, r.executionTime = e})
      (rs.foldl (fun m r => if r.executionTime > m then r.executionTime else m) init) := by
  induction rs generalizing init with
  | nil => simp
  | cons r rs ih =>
      obtain ⟨attained, upper⟩ := ih (if r.executionTime > init then r.executionTime else init)
      have head : init ≤ (if r.executionTime > init then r.executionTime else init) ∧
          r.executionTime ≤ (if r.executionTime > init then r.executionTime else init) := by
        split
        · rename_i longer
          exact ⟨longer.le, le_rfl⟩
        · rename_i shorter
          exact ⟨le_rfl, not_lt.mp shorter⟩
      rw [List.foldl_cons]
      refine ⟨?_, ?_⟩
      · rcases attained with start | ⟨r', mem, equal⟩
        · rw [start]
          split
          · exact Or.inr ⟨r, List.mem_cons_self, rfl⟩
          · exact Or.inl rfl
        · exact Or.inr ⟨r', List.mem_cons_of_mem r mem, equal⟩
      · rintro e (rfl | ⟨r', mem, rfl⟩)
        · exact head.1.trans (upper (Or.inl rfl))
        · rcases List.mem_cons.mp mem with rfl | later
          · exact head.2.trans (upper (Or.inl rfl))
          · exact upper (Or.inr ⟨r', later, rfl⟩)

/-- `B` is the longest runnable of the tasks below position `z`, or zero if there is none. -/
def Core.LongestBelow (c : Core) (z : ℕ) (B : ℚ) : Prop :=
  IsGreatest (insert 0 {e | ∃ r ∈ (c.tasks.drop (z + 1)).flatMap (·.runnables),
    r.executionTime = e}) B

theorem blocking_longestBelow (c : Core) (z : ℕ) : c.LongestBelow z (blocking c z) := by
  unfold blocking Core.LongestBelow
  split
  · rename_i last
    have none : c.tasks.drop (z + 1) = [] := List.drop_eq_nil_of_le (by omega)
    rw [none]
    simp
  · rw [← List.foldl_flatMap]
    exact foldl_longest_isGreatest _ 0

theorem blocking_nonneg (c : Core) (z : ℕ) : 0 ≤ blocking c z :=
  (blocking_longestBelow c z).2 (Or.inl rfl)

theorem executionTime_le_sumExecution (lt : z < c.tasks.length) :
    (c.task z).executionTime ≤ c.sumExecution (z + 1) := by
  rw [Core.sumExecution_succ lt]
  exact le_add_of_nonneg_left (c.sumExecution_nonneg z)

/-! ## The iteration -/

/-- One round of `busy_period`. -/
theorem busyStep_eq (ρ : IntReading) (c : Core) (z : ℕ) (init x : ℚ) :
    c.chargeHigher (z + 1) (fun t => t.executionTime * myCeil ρ x (c.task z).period) init =
      init + c.sumExecution (z + 1) * (ρ.cast ⌈x / (c.task z).period⌉ : ℤ) := by
  rw [chargeHigher_eq, List.sum_map_mul_right, myCeil_eq, Core.sumExecution]

theorem busyStep_mono (ρ : IntReading) (c : Core) (z : ℕ) (init : ℚ) :
    Monotone fun x =>
      c.chargeHigher (z + 1) (fun t => t.executionTime * myCeil ρ x (c.task z).period) init := by
  intro v w le
  simp only [chargeHigher_eq]
  refine add_le_add_right (List.sum_le_sum fun t _ => ?_) init
  exact mul_le_mul_of_nonneg_left (myCeil_mono ρ (c.task z).period_pos le) t.executionTime_nonneg

theorem busyStart_nonneg (c : Core) (z : ℕ) : 0 ≤ blocking c z + (c.task z).executionTime :=
  add_nonneg (blocking_nonneg c z) (c.task z).executionTime_nonneg

theorem busyStart_pos (occupied : ¬ c.Vacant z) :
    0 < blocking c z + (c.task z).executionTime := by
  refine lt_of_le_of_ne (busyStart_nonneg c z) fun zero => occupied ?_
  exact (add_eq_zero_iff_of_nonneg (blocking_nonneg c z) (c.task z).executionTime_nonneg).mp
    zero.symm

theorem busyStart_le (lt : z < c.tasks.length) :
    blocking c z + (c.task z).executionTime ≤
      c.chargeHigher (z + 1) (fun t => t.executionTime *
        myCeil ρ (blocking c z + (c.task z).executionTime) (c.task z).period) (blocking c z) := by
  rw [busyStep_eq]
  have enough := executionTime_le_sumExecution lt
  have nonneg := (c.task z).executionTime_nonneg
  rcases (busyStart_nonneg c z).lt_or_eq with pos | zero
  · have once : (1 : ℚ) ≤
        (ρ.cast ⌈(blocking c z + (c.task z).executionTime) / (c.task z).period⌉ : ℤ) := by
      exact_mod_cast ρ.one_le_cast (Int.one_le_ceil_iff.mpr (div_pos pos (c.task z).period_pos))
    have grows := le_mul_of_one_le_right (nonneg.trans enough) once
    linarith
  · have blocking_zero := blocking_nonneg c z
    rw [← zero]
    simp only [zero_div, Int.ceil_zero, IntReading.cast_zero, Int.cast_zero, mul_zero, add_zero]
    linarith

/-- `busy_period` returns the least fixpoint above its start. -/
theorem busyPeriod_returns (lt : z < c.tasks.length) {length : ℚ}
    (returned : (busyPeriod ρ c z).Returns length) :
    IsLeast {x | blocking c z + (c.task z).executionTime ≤ x ∧ blocking c z +
      c.sumExecution (z + 1) * (ρ.cast ⌈x / (c.task z).period⌉ : ℤ) ≤ x} length ∧
    length = blocking c z +
      c.sumExecution (z + 1) * (ρ.cast ⌈length / (c.task z).period⌉ : ℤ) := by
  have mono := busyStep_mono ρ c z (blocking c z)
  have least := doWhile_isLeast mono (busyStart_le lt) returned
  have fixed := step_eq_of_isLeast mono (busyStart_le lt) least
  simp only [busyStep_eq] at least fixed
  exact ⟨least, fixed.symm⟩

/-! ## The number of jobs -/

theorem Core.Vacant.count_eq (vacant : c.Vacant z) (lt : z < c.tasks.length) {length : ℚ}
    (returned : (busyPeriod ρ c z).Returns length) :
    ρ.cast ⌈length / (c.task z).period⌉ = 0 := by
  obtain ⟨least, -⟩ := busyPeriod_returns lt returned
  have start : blocking c z + (c.task z).executionTime = 0 := by rw [vacant.1, vacant.2, add_zero]
  have zero : length = 0 := by
    refine le_antisymm (least.2 ⟨start.le, ?_⟩) (start ▸ least.1.1)
    simp [vacant.1]
  rw [zero, zero_div, Int.ceil_zero, IntReading.cast_zero]

/-- A window of `m` periods that fits its own jobs bounds the iteration. -/
theorem Core.Fits.busyStep_le {m : ℤ} (fits : c.Fits z m) (nonneg : 0 ≤ m) :
    blocking c z + c.sumExecution (z + 1) *
      (ρ.cast ⌈(m * (c.task z).period) / (c.task z).period⌉ : ℤ) ≤ m * (c.task z).period := by
  rw [mul_div_cancel_right₀ _ (c.task z).period_pos.ne', Int.ceil_intCast]
  refine le_trans ?_ fits
  have below : (ρ.cast m : ℚ) ≤ m := by
    cases ρ with
    | unbounded => exact le_rfl
    | saturating =>
        exact_mod_cast max_le (by simp only [minInt]; omega) (min_le_left m maxInt)
  have grows := mul_le_mul_of_nonneg_left below (c.sumExecution_nonneg (z + 1))
  linarith

theorem Core.Fits.start_le {m : ℤ} (fits : c.Fits z m) (one : 1 ≤ m) (lt : z < c.tasks.length) :
    blocking c z + (c.task z).executionTime ≤ m * (c.task z).period := by
  have once : (1 : ℚ) ≤ m := by exact_mod_cast one
  have enough := executionTime_le_sumExecution lt
  have grows := le_mul_of_one_le_right (c.sumExecution_nonneg (z + 1)) once
  unfold Core.Fits at fits
  linarith

/-- The number of jobs is the least that fits. -/
theorem busyPeriod_count (lt : z < c.tasks.length) (occupied : ¬ c.Vacant z) {length : ℚ}
    (returned : (busyPeriod ρ c z).Returns length) :
    1 ≤ ρ.cast ⌈length / (c.task z).period⌉ ∧
      (ρ.Counts (ρ.cast ⌈length / (c.task z).period⌉) →
        c.Fits z (ρ.cast ⌈length / (c.task z).period⌉)) ∧
      ∀ m : ℤ, 1 ≤ m → c.Fits z m → ρ.cast ⌈length / (c.task z).period⌉ ≤ ρ.cast m := by
  obtain ⟨least, fixed⟩ := busyPeriod_returns lt returned
  have period_pos := (c.task z).period_pos
  have pos : 0 < length := (busyStart_pos occupied).trans_le least.1.1
  have one : 1 ≤ ⌈length / (c.task z).period⌉ := Int.one_le_ceil_iff.mpr (div_pos pos period_pos)
  refine ⟨ρ.one_le_cast one, fun counts => ?_, fun m one_le fits => ?_⟩
  · -- below the largest `int` the cast is exact
    have exact_cast : ρ.cast ⌈length / (c.task z).period⌉ = ⌈length / (c.task z).period⌉ := by
      cases ρ with
      | unbounded => rfl
      | saturating =>
          rcases counts with wrong | below
          · cases wrong
          · simp only [IntReading.cast, minInt, maxInt] at below ⊢
            omega
    have above : length / (c.task z).period ≤ ⌈length / (c.task z).period⌉ := Int.le_ceil _
    rw [div_le_iff₀ period_pos] at above
    rw [exact_cast] at fixed ⊢
    exact fixed.symm.le.trans above
  · have nonneg : 0 ≤ m := zero_le_one.trans one_le
    have below := least.2 ⟨fits.start_le one_le lt, fits.busyStep_le nonneg⟩
    refine ρ.cast_mono (Int.ceil_le.mpr ?_)
    rw [div_le_iff₀ period_pos]
    exact below

/-- The number of jobs the callers of `busy_period` examine, in closed form. -/
def Core.jobsExamined (c : Core) (z : ℕ) : ℤ :=
  if c.Vacant z then 0
  else max 1 ⌈blocking c z / ((c.task z).period - c.sumExecution (z + 1))⌉

/-- The blocking of a task fits in the slack of its periods. -/
theorem Core.fits_iff {m : ℤ} :
    c.Fits z m ↔ blocking c z ≤ m * ((c.task z).period - c.sumExecution (z + 1)) := by
  unfold Core.Fits
  constructor <;> intro h <;> linarith

/-- Some number of jobs fits: the execution times down to task `z` leave slack in its period, or
exactly fill it and nothing blocks. -/
theorem Core.exists_fits_iff :
    (∃ m : ℤ, 1 ≤ m ∧ c.Fits z m) ↔ c.sumExecution (z + 1) < (c.task z).period ∨
      (blocking c z = 0 ∧ c.sumExecution (z + 1) = (c.task z).period) := by
  have nonneg := blocking_nonneg c z
  refine ⟨?_, ?_⟩
  · intro given
    rcases given with ⟨m, one, fits⟩
    rw [Core.fits_iff] at fits
    have pos : (0 : ℚ) < m := by exact_mod_cast one
    have slack : 0 ≤ (c.task z).period - c.sumExecution (z + 1) :=
      nonneg_of_mul_nonneg_right (nonneg.trans fits) pos
    rcases slack.lt_or_eq with room | full
    · exact Or.inl (sub_pos.mp room)
    · rw [← full, mul_zero] at fits
      exact Or.inr ⟨le_antisymm fits nonneg, (sub_eq_zero.mp full.symm).symm⟩
  · rintro (room | ⟨free, full⟩)
    · refine ⟨max 1 ⌈blocking c z / ((c.task z).period - c.sumExecution (z + 1))⌉,
        le_max_left _ _, ?_⟩
      rw [Core.fits_iff, ← div_le_iff₀ (sub_pos.mpr room)]
      exact (Int.le_ceil _).trans (by exact_mod_cast le_max_right _ _)
    · exact ⟨1, le_rfl, by rw [Core.fits_iff, free, full, sub_self, mul_zero]⟩

/-- No number of jobs below `jobsExamined` fits. -/
theorem Core.jobsExamined_le {m : ℤ} (one : 1 ≤ m) (fits : c.Fits z m) : c.jobsExamined z ≤ m := by
  unfold Core.jobsExamined
  split
  · exact zero_le_one.trans one
  · refine max_le one ?_
    rcases Core.exists_fits_iff.mp ⟨m, one, fits⟩ with room | ⟨free, full⟩
    · rw [Int.ceil_le, div_le_iff₀ (sub_pos.mpr room)]
      exact Core.fits_iff.mp fits
    · rw [full, sub_self, div_zero, Int.ceil_zero]
      exact zero_le_one.trans one

theorem Core.one_le_jobsExamined (occupied : ¬ c.Vacant z) : 1 ≤ c.jobsExamined z := by
  rw [Core.jobsExamined, if_neg occupied]
  exact le_max_left _ _

theorem Core.fits_jobsExamined (occupied : ¬ c.Vacant z) (some_fits : ∃ m : ℤ, 1 ≤ m ∧ c.Fits z m) :
    c.Fits z (c.jobsExamined z) := by
  rw [Core.jobsExamined, if_neg occupied, Core.fits_iff]
  rcases Core.exists_fits_iff.mp some_fits with room | ⟨free, full⟩
  · rw [← div_le_iff₀ (sub_pos.mpr room)]
    exact (Int.le_ceil _).trans (by exact_mod_cast le_max_right _ _)
  · rw [free, full, sub_self, mul_zero]

/-- Under the unbounded reading the callers of `busy_period` examine `jobsExamined` jobs. -/
theorem count_eq_jobsExamined (lt : z < c.tasks.length) {length : ℚ}
    (returned : (busyPeriod .unbounded c z).Returns length) :
    ⌈length / (c.task z).period⌉ = c.jobsExamined z := by
  by_cases vacant : c.Vacant z
  · rw [Core.jobsExamined, if_pos vacant]
    exact vacant.count_eq lt returned
  · obtain ⟨one, fits, least⟩ := busyPeriod_count lt vacant returned
    simp only [IntReading.cast_unbounded] at one fits least
    have fits := fits (Or.inl rfl)
    refine le_antisymm ?_ (Core.jobsExamined_le one fits)
    exact least _ (Core.one_le_jobsExamined vacant) (Core.fits_jobsExamined vacant ⟨_, one, fits⟩)

/-! ## Ending -/

theorem busyPeriod_ends_of_fits {m : ℤ} (one : 1 ≤ m) (fits : c.Fits z m)
    (lt : z < c.tasks.length) : (busyPeriod .unbounded c z).Ends := by
  have period_pos := (c.task z).period_pos
  have nonneg : 0 ≤ m := zero_le_one.trans one
  refine doWhile_ends_of_prefixpoint (busyStep_mono _ c z _) (fits.start_le one lt) ?_ ?_
  · rw [busyStep_eq]
    exact fits.busyStep_le nonneg
  · have counts := finite_image_ceil (Set.Icc (blocking c z + (c.task z).executionTime)
      (m * (c.task z).period)) le_rfl period_pos
    refine (counts.image fun n : ℤ =>
      blocking c z + c.sumExecution (z + 1) * (n : ℚ)).subset ?_
    rintro _ ⟨w, mem, rfl⟩
    exact ⟨_, ⟨w, mem, rfl⟩, (busyStep_eq .unbounded c z _ w).symm⟩

theorem Core.Vacant.busyPeriod_ends (vacant : c.Vacant z) :
    (busyPeriod .unbounded c z).Ends := by
  refine ⟨0, doWhile_returns.mpr (Or.inr ?_)⟩
  simp only [busyStep_eq, vacant.1, vacant.2, add_zero, zero_div, Int.ceil_zero,
    IntReading.cast_zero, Int.cast_zero, mul_zero, le_rfl, and_self]

theorem busyPeriod_ends_saturating (c : Core) (z : ℕ) : (busyPeriod .saturating c z).Ends := by
  refine doWhile_ends_of_finite_range ?_ _
  have counts := IntReading.finite_range_saturating fun x : ℚ => ⌈x / (c.task z).period⌉
  refine (counts.image fun n : ℤ =>
    blocking c z + c.sumExecution (z + 1) * (n : ℚ)).subset ?_
  rintro _ ⟨w, rfl⟩
  exact ⟨_, ⟨w, rfl⟩, (busyStep_eq .saturating c z _ w).symm⟩

/-- `busy_period` ends with a number of jobs that its callers can count to. -/
def Core.BusyPeriodEnds (ρ : IntReading) (c : Core) (z : ℕ) : Prop :=
  c.Vacant z ∨ match ρ with
    | .unbounded => c.sumExecution (z + 1) < (c.task z).period ∨
        (blocking c z = 0 ∧ c.sumExecution (z + 1) = (c.task z).period)
    | .saturating => c.Fits z (maxInt - 1)

instance (c : Core) (z : ℕ) : (ρ : IntReading) → Decidable (c.BusyPeriodEnds ρ z)
  | .unbounded => inferInstanceAs (Decidable (_ ∨ _ < _ ∨ (_ = _ ∧ _ = _)))
  | .saturating => inferInstanceAs (Decidable (_ ∨ c.Fits z (maxInt - 1)))

/-- The count is finite exactly when the task's own period takes the execution times. -/
theorem busyPeriod_counts_iff (lt : z < c.tasks.length) :
    (∃ length, (busyPeriod ρ c z).Returns length ∧
      ρ.Counts (ρ.cast ⌈length / (c.task z).period⌉)) ↔ c.BusyPeriodEnds ρ z := by
  unfold Core.BusyPeriodEnds
  by_cases vacant : c.Vacant z
  · simp only [vacant, true_or, iff_true]
    have ends : (busyPeriod ρ c z).Ends := by
      cases ρ with
      | unbounded => exact vacant.busyPeriod_ends
      | saturating => exact busyPeriod_ends_saturating c z
    obtain ⟨length, returned⟩ := ends
    refine ⟨length, returned, ?_⟩
    rw [vacant.count_eq lt returned]
    exact Or.inr (by decide)
  · simp only [vacant, false_or]
    cases ρ with
    | unbounded =>
        rw [← Core.exists_fits_iff]
        refine ⟨?_, ?_⟩
        · intro given
          rcases given with ⟨length, returned, counts⟩
          obtain ⟨one, fits, -⟩ := busyPeriod_count lt vacant returned
          exact ⟨_, one, fits counts⟩
        · intro given
          rcases given with ⟨m, one, fits⟩
          obtain ⟨length, returned⟩ := busyPeriod_ends_of_fits one fits lt
          exact ⟨length, returned, Or.inl rfl⟩
    | saturating =>
        refine ⟨?_, ?_⟩
        · intro given
          rcases given with ⟨length, returned, counts⟩
          obtain ⟨one, fits, -⟩ := busyPeriod_count lt vacant returned
          have fits := fits counts
          have below := counts.resolve_left (by decide)
          -- more periods only add slack
          rw [Core.fits_iff] at fits ⊢
          generalize IntReading.saturating.cast ⌈length / (c.task z).period⌉ = K at *
          have pos : (0 : ℚ) < K := by exact_mod_cast one
          have slack := nonneg_of_mul_nonneg_right ((blocking_nonneg c z).trans fits) pos
          have more : (K : ℚ) ≤ ((maxInt - 1 : ℤ) : ℚ) := by exact_mod_cast Int.le_sub_one_of_lt below
          exact fits.trans (mul_le_mul_of_nonneg_right more slack)
        · intro fits
          obtain ⟨length, returned⟩ := busyPeriod_ends_saturating c z
          obtain ⟨-, -, least⟩ := busyPeriod_count lt vacant returned
          refine ⟨length, returned, Or.inr ((least (maxInt - 1) (by decide) fits).trans_lt ?_)⟩
          decide

/-! ## Forgetting response times -/

theorem higher_erase (c : Core) (z : ℕ) : c.erase.higher z = c.higher z := by
  unfold Core.higher Core.erase
  rw [← List.map_take, List.map_map]
  rfl

theorem sumExecution_erase (c : Core) (z : ℕ) : c.erase.sumExecution z = c.sumExecution z := by
  unfold Core.sumExecution Core.erase
  rw [← List.map_take, List.map_map]
  rfl

theorem busyPeriodEnds_erase (ρ : IntReading) (c : Core) (z : ℕ) :
    c.erase.BusyPeriodEnds ρ z ↔ c.BusyPeriodEnds ρ z := by
  unfold Core.BusyPeriodEnds Core.Vacant Core.Fits
  rw [blocking_erase, sumExecution_erase, Core.task_erase]
  rfl

theorem higher_congr {c' : Core} (same : c.erase = c'.erase) (z : ℕ) : c.higher z = c'.higher z := by
  rw [← higher_erase, same, higher_erase]

theorem busyPeriodEnds_congr {c' : Core} (same : c.erase = c'.erase) (z : ℕ) :
    c.BusyPeriodEnds ρ z ↔ c'.BusyPeriodEnds ρ z := by
  rw [← busyPeriodEnds_erase, same, busyPeriodEnds_erase]

theorem jobsExamined_erase (c : Core) (z : ℕ) : c.erase.jobsExamined z = c.jobsExamined z := by
  have vacant : c.erase.Vacant z ↔ c.Vacant z := by
    unfold Core.Vacant
    rw [blocking_erase, Core.task_erase]
    rfl
  unfold Core.jobsExamined
  simp only [vacant, blocking_erase, sumExecution_erase, Core.task_erase]
  rfl

theorem jobsExamined_congr {c' : Core} (same : c.erase = c'.erase) (z : ℕ) :
    c.jobsExamined z = c'.jobsExamined z := by
  rw [← jobsExamined_erase, same, jobsExamined_erase]

end Hipert.Amalthea
