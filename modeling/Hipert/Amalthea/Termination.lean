import Hipert.Amalthea.BusyPeriod
import Hipert.Amalthea.FirstJob

/-!
# Termination of `RTAcore`

On a core with utilisation below one the interference loops always end. What may not end is
`busy_period`, whose ceilings all divide by the period of the analysed task, and the loop over the
jobs it counts: a round of `RTAcore` ends exactly when it does not enter `busy_period` or
`Core.BusyPeriodEnds` holds, and the run ends exactly when each of its rounds does.
-/

namespace Hipert.Amalthea

variable {ρ : IntReading} {c : Core} {z : ℕ}

/-! ## The loops of one round -/

/-- The loop over the jobs ends exactly when its counter can pass the number of jobs. -/
theorem worstJob_ends_iff {job : ℤ → Fueled ℚ} {n : ℤ} (period : ℚ) (each : ∀ k, (job k).Ends) :
    (worstJob ρ job period (ρ.cast n)).Ends ↔ ρ.Counts (ρ.cast n) := by
  refine ⟨fun ends => ?_, fun counts => worstJob_ends period counts fun k _ _ => each k⟩
  cases ρ with
  | unbounded => exact Or.inl rfl
  | saturating =>
      rcases (IntReading.saturating_cast_le n).lt_or_eq with below | top
      · exact Or.inr below
      · rw [top] at ends
        exact absurd ends (worstJob_diverges job period)

/-- The analysis of all jobs of a busy period ends exactly when the busy period does. -/
theorem busyResponses_end (job : ℚ → Runnable → ℤ → Fueled ℚ) (lt : z < c.tasks.length)
    (runs : (c.task z).runnables ≠ []) (each : ∀ accum r k, (job accum r k).Ends) :
    (runnableLoop (fun accum r => do
      let length ← busyPeriod ρ c z
      worstJob ρ (job accum r) (c.task z).period (ρ.toInt (myCeil ρ length (c.task z).period)))
      0 (c.task z).runnables).Ends ↔ c.BusyPeriodEnds ρ z := by
  rw [runnableLoop_ends, ← busyPeriod_counts_iff lt]
  simp only [Fueled.ends_bind, toInt_myCeil]
  refine ⟨?_, ?_⟩
  · intro ends
    obtain ⟨r, rs, eq⟩ := List.exists_cons_of_ne_nil runs
    obtain ⟨length, returned, rest⟩ := ends 0 r (by rw [eq]; rfl)
    exact ⟨length, returned, (worstJob_ends_iff _ (each _ r)).mp rest⟩
  · rintro ⟨length, returned, counts⟩ i r -
    exact ⟨length, returned, (worstJob_ends_iff _ (each _ r)).mpr counts⟩

theorem deadlineMissResponses_end (room : Hipert.utilization (c.higher z) < 1)
    (lt : z < c.tasks.length) (runs : (c.task z).runnables ≠ []) :
    (deadlineMissResponses ρ c z).Ends ↔ c.BusyPeriodEnds ρ z :=
  busyResponses_end (fun accum _ k => jobFinishDM ρ c z k accum) lt runs
    fun _ _ _ => interferenceLoop_ends ρ room _ _

theorem jobFinish_ends (room : Hipert.utilization (c.higher z) < 1) (k : ℤ) (accum : ℚ)
    (r : Runnable) : (jobFinish ρ c z k accum r).Ends := by
  refine (startLoop_ends ρ room _ _).bind fun start _ => ?_
  exact finishLoop_ends ρ room (fun t => myFloor ρ start t.period + 1) _ _

theorem cooperativeResponses_end (room : Hipert.utilization (c.higher z) < 1)
    (lt : z < c.tasks.length) (runs : (c.task z).runnables ≠ []) :
    (cooperativeResponses ρ c z).Ends ↔ c.BusyPeriodEnds ρ z :=
  busyResponses_end (fun accum r k => jobFinish ρ c z k accum r) lt runs
    fun accum r k => jobFinish_ends room k accum r

theorem firstJobResponses_end (ρ : IntReading) (room : Hipert.utilization (c.higher z) < 1) :
    (firstJobResponses ρ c z).Ends :=
  runnableLoop_ends.mpr fun _ _ _ => interferenceLoop_ends ρ room _ _

/-! ## The first job -/

/-- The first job of task `z` cannot finish within the deadline: no window up to the deadline takes
its execution time and the interference. -/
def Core.FirstJobLate (ρ : IntReading) (c : Core) (z : ℕ) : Prop :=
  ∀ w, 0 ≤ w → w ≤ (c.task z).deadline →
    w < c.chargeHigher z (fun t => myCeil ρ w t.period * t.executionTime)
      (c.task z).processInstructions

theorem firstJobLoop_returns {a r : ℚ} (nonneg : 0 ≤ a)
    (returned : (firstJobLoop ρ c z a).Returns r) :
    IsLeast {w | 0 ≤ w ∧
      c.chargeHigher z (fun t => myCeil ρ w t.period * t.executionTime) a ≤ w} r := by
  have least := doWhile_isLeast (chargeHigher_mono ρ c z a) (le_chargeHigher ρ c z a nonneg) returned
  refine ⟨⟨nonneg.trans least.1.1, least.1.2⟩, fun w hw => least.2 ⟨?_, hw.2⟩⟩
  exact (le_chargeHigher ρ c z a hw.1).trans hw.2

/-- A stored first response misses the deadline exactly when the first job is late. -/
theorem misses_firstJob (lt : z < c.tasks.length) (runs : (c.task z).runnables ≠ []) {fs : List ℚ}
    (first : (firstJobResponses ρ c z).Returns fs) :
    (c.setTask z ((c.task z).store fs)).misses z = true ↔ c.FirstJobLate ρ z := by
  obtain ⟨length, each⟩ := runnableLoop_returns first
  obtain ⟨r, v, hr, hv, stored⟩ := Task.store_responseTime length runs
  have value := each _ r v hr hv
  rw [zero_add, prefixTime_last] at value
  have least := firstJobLoop_returns (c.task z).processInstructions_nonneg value
  rw [Core.misses, Core.task_setTask_self lt, stored, Task.store_deadline, decide_eq_true_iff]
  refine ⟨?_, ?_⟩
  · intro late w nonneg within
    by_contra fits
    exact absurd ((least.2 ⟨nonneg, not_lt.mp fits⟩).trans within) (not_le.mpr late)
  · intro late
    by_contra within
    exact absurd (late v least.1.1 (not_lt.mp within)) (not_lt.mpr least.1.2)

/-! ## Rounds and runs -/

/-- The round for task `z` enters `busy_period`: the task is cooperative, or it is preemptive and
its first job is late or another task of the core misses. -/
def Core.EntersBusyPeriod (ρ : IntReading) (c : Core) (z : ℕ) : Prop :=
  (c.task z).runnables ≠ [] ∧ ((c.task z).preemptionType = .cooperative ∨ c.FirstJobLate ρ z ∨
    ∃ j < c.tasks.length, j ≠ z ∧ c.misses j = true)

theorem Core.misses_setTask_ne {j : ℕ} (ne : j ≠ z) (t : Task) :
    (c.setTask z t).misses j = c.misses j := by
  rw [Core.misses, Core.misses, Core.task_setTask_ne ne]

/-- The deadline check recomputes the task exactly when the round enters `busy_period`. -/
theorem exists_misses_iff (lt : z < c.tasks.length) (runs : (c.task z).runnables ≠ [])
    (preemptive : (c.task z).preemptionType = .preemptive) {fs : List ℚ}
    (first : (firstJobResponses ρ c z).Returns fs) :
    (∃ j < c.tasks.length, (c.setTask z ((c.task z).store fs)).misses j = true) ↔
      c.EntersBusyPeriod ρ z := by
  simp only [Core.EntersBusyPeriod, runs, preemptive, ne_eq, not_false_eq_true, true_and,
    reduceCtorEq, false_or]
  rw [← misses_firstJob lt runs first]
  refine ⟨?_, ?_⟩
  · intro given
    rcases given with ⟨j, inside, missed⟩
    by_cases self : j = z
    · exact Or.inl (self ▸ missed)
    · exact Or.inr ⟨j, inside, self, by rwa [Core.misses_setTask_ne self] at missed⟩
  · rintro (missed | ⟨j, inside, other, missed⟩)
    · exact ⟨z, lt, missed⟩
    · exact ⟨j, inside, by rwa [Core.misses_setTask_ne other]⟩

/-- Without runnables the responses are empty and nothing loops. -/
theorem deadlineMissResponses_nil (empty : (c.task z).runnables = []) :
    (deadlineMissResponses ρ c z).Ends := by
  unfold deadlineMissResponses
  rw [empty]
  exact Fueled.ends_pure []

/-- Without runnables every part of the round returns at once. -/
theorem exists_roundValues_nil (room : Hipert.utilization (c.higher z) < 1)
    (empty : (c.task z).runnables = []) : ∃ vs, RoundValues ρ c z vs := by
  unfold RoundValues
  cases kind : (c.task z).preemptionType with
  | preemptive =>
      obtain ⟨fs, first⟩ := firstJobResponses_end ρ room
      obtain ⟨vs, computed⟩ := deadlineMissResponses_nil (ρ := ρ) empty
      by_cases missed : ∃ j < c.tasks.length, (c.setTask z ((c.task z).store fs)).misses j = true
      · exact ⟨vs, fs, first, Or.inr ⟨missed, computed⟩⟩
      · push Not at missed
        exact ⟨fs, fs, first, Or.inl ⟨by simpa using missed, rfl⟩⟩
  | cooperative =>
      refine ⟨[], ?_⟩
      dsimp only
      unfold cooperativeResponses
      rw [empty]
      exact Fueled.returns_pure.mpr rfl

/-- A preemptive task has its values as soon as its recomputation ends, where there is one. -/
theorem exists_roundValues_preemptive_iff (room : Hipert.utilization (c.higher z) < 1)
    (lt : z < c.tasks.length) (runs : (c.task z).runnables ≠ [])
    (kind : (c.task z).preemptionType = .preemptive) :
    (∃ vs, RoundValues ρ c z vs) ↔ (c.EntersBusyPeriod ρ z → (deadlineMissResponses ρ c z).Ends) := by
  obtain ⟨fs, first⟩ := firstJobResponses_end ρ room
  unfold RoundValues
  rw [← exists_misses_iff lt runs kind first, kind]
  refine ⟨?_, ?_⟩
  · intro given missed
    rcases given with ⟨vs, gs, again, round⟩
    cases first.unique again
    rcases round with ⟨none, -⟩ | ⟨-, computed⟩
    · obtain ⟨j, inside, yes⟩ := missed
      rw [none j inside] at yes
      cases yes
    · exact ⟨vs, computed⟩
  · intro ends
    by_cases missed : ∃ j < c.tasks.length, (c.setTask z ((c.task z).store fs)).misses j = true
    · obtain ⟨vs, computed⟩ := ends missed
      exact ⟨vs, fs, first, Or.inr ⟨missed, computed⟩⟩
    · push Not at missed
      exact ⟨fs, fs, first, Or.inl ⟨by simpa using missed, rfl⟩⟩

/-- **Step lemma.** A round ends exactly when the busy period it enters does. -/
theorem rtaTask_ends (room : Hipert.utilization (c.higher z) < 1) (lt : z < c.tasks.length) :
    (rtaTask ρ c z).Ends ↔ (c.EntersBusyPeriod ρ z → c.BusyPeriodEnds ρ z) := by
  have values : (rtaTask ρ c z).Ends ↔ ∃ vs, RoundValues ρ c z vs := by
    refine ⟨?_, ?_⟩
    · intro given
      rcases given with ⟨c', returned⟩
      obtain ⟨vs, round, -⟩ := (rtaTask_returns lt).mp returned
      exact ⟨vs, round⟩
    · intro given
      rcases given with ⟨vs, round⟩
      exact ⟨_, (rtaTask_returns lt).mpr ⟨vs, round, rfl⟩⟩
  rw [values]
  by_cases runs : (c.task z).runnables = []
  · exact iff_of_true (exists_roundValues_nil room runs) fun enters => absurd runs enters.1
  · cases kind : (c.task z).preemptionType with
    | preemptive =>
        rw [exists_roundValues_preemptive_iff room lt runs kind,
          deadlineMissResponses_end room lt runs]
    | cooperative =>
        have enters : c.EntersBusyPeriod ρ z := ⟨runs, Or.inl kind⟩
        unfold RoundValues
        rw [kind, ← cooperativeResponses_end room lt runs]
        exact ⟨fun ends _ => ends, fun ends => ends enters⟩

/-- **Run lemma.** The first `n` rounds end exactly when each busy period they enter does. -/
theorem rtaPrefix_ends (room : c.utilization < 1) :
    ∀ {n : ℕ}, n ≤ c.tasks.length → ((rtaPrefix ρ c n).Ends ↔
      ∀ z cz, z < n → (rtaPrefix ρ c z).Returns cz → cz.EntersBusyPeriod ρ z →
        c.BusyPeriodEnds ρ z)
  | 0, _ => ⟨fun _ z _ lt => absurd lt (Nat.not_lt_zero z), fun _ => ⟨c, rtaPrefix_zero.mpr rfl⟩⟩
  | n + 1, le => by
      have le' : n ≤ c.tasks.length := Nat.le_of_succ_le le
      -- a round ends by the step lemma, read at the core the earlier rounds leave
      have round : ∀ cn, (rtaPrefix ρ c n).Returns cn → ((rtaTask ρ cn n).Ends ↔
          (cn.EntersBusyPeriod ρ n → c.BusyPeriodEnds ρ n)) := by
        intro cn reached
        obtain ⟨same, -⟩ := rtaPrefix_frame le' reached
        have inside : n < cn.tasks.length := by
          rw [Core.length_eq_of_erase same]
          exact le
        have free : Hipert.utilization (cn.higher n) < 1 := by
          rw [higher_congr same]
          exact (c.utilization_higher_le n).trans_lt room
        rw [rtaTask_ends free inside, busyPeriodEnds_congr same]
      refine ⟨?_, ?_⟩
      · intro given z cz lt reached enters
        rcases given with ⟨c', returned⟩
        obtain ⟨cn, first, last⟩ := rtaPrefix_succ.mp returned
        rcases (Nat.lt_succ_iff.mp lt).lt_or_eq with earlier | rfl
        · exact (rtaPrefix_ends room le').mp ⟨cn, first⟩ z cz earlier reached enters
        · exact (round cz reached).mp ⟨c', first.unique reached ▸ last⟩ enters
      · intro each
        obtain ⟨cn, first⟩ := (rtaPrefix_ends room le').mpr fun z cz lt =>
          each z cz (Nat.lt_succ_of_lt lt)
        obtain ⟨c', last⟩ := (round cn first).mpr (each n cn (Nat.lt_succ_self n) first)
        exact ⟨c', rtaPrefix_succ.mpr ⟨cn, first, last⟩⟩

/-- **Termination.** On a core with utilisation below one `RTAcore` ends exactly when `busy_period`
ends in each round that enters it. -/
theorem rtaCore_ends_iff (ρ : IntReading) (room : c.utilization < 1) :
    (rtaCore ρ c).Ends ↔ ∀ z cz, z < c.tasks.length → (rtaPrefix ρ c z).Returns cz →
      cz.EntersBusyPeriod ρ z → c.BusyPeriodEnds ρ z :=
  rtaPrefix_ends room le_rfl

theorem rtaCore_ends_iff_quickAboveSlow : (rtaCore .saturating quickAboveSlow).Ends := by
  have each : ∀ z < 2, quickAboveSlow.BusyPeriodEnds .saturating z := by decide +kernel
  exact (rtaCore_ends_iff .saturating (by decide +kernel)).mpr fun z _ lt _ _ => each z lt

/-! ## A short period below a long one -/

/-- A task of period 1000 and execution time 100 above one of period 10 and execution time 1. -/
def shortBelowLong : Core :=
  ((⟨[]⟩ : Core).addTask (singleRunnable 1000 2 (by decide) 20000)).addTask
    (singleRunnable 10 1 (whole_pos (nat_lit 9)) 200)

theorem shortBelowLong_room : shortBelowLong.utilization < 1 := by decide +kernel

theorem shortBelowLong_sorted :
    shortBelowLong.tasks.Pairwise fun t u => u.priority < t.priority := by decide +kernel

theorem shortBelowLong_late : shortBelowLong.FirstJobLate .unbounded 1 := by
  intro w nonneg within
  have deadline : (shortBelowLong.task 1).deadline = 10 := rfl
  have charge : shortBelowLong.chargeHigher 1
      (fun t => myCeil .unbounded w t.period * t.executionTime)
      (shortBelowLong.task 1).processInstructions = 1 + myCeil .unbounded w 1000 * 100 := by
    rw [chargeHigher_eq]
    simp [shortBelowLong, singleRunnable, Core.addTask, Core.task, Task.addRunnable, Task.new,
      Runnable.new, Task.processInstructions_eq]
    norm_num
  rw [charge]
  rw [deadline] at within
  rcases nonneg.lt_or_eq with pos | rfl
  · have one := one_le_myCeil .unbounded pos (T := 1000) (by norm_num)
    linarith
  · have zero := myCeil_nonneg .unbounded (le_refl (0 : ℚ)) (T := 1000) (by norm_num)
    linarith

/-- `RTAcore` does not end on a core of utilisation `1/5`. -/
theorem rtaCore_diverges_shortBelowLong :
    (shortBelowLong.tasks.Pairwise fun t u => u.priority < t.priority) ∧
      shortBelowLong.utilization < 1 ∧ ¬ (rtaCore .unbounded shortBelowLong).Ends := by
  refine ⟨shortBelowLong_sorted, shortBelowLong_room, fun ends => ?_⟩
  have each := (rtaPrefix_ends shortBelowLong_room le_rfl).mp ends
  obtain ⟨c', returned⟩ := ends
  obtain ⟨c₁, first, -⟩ := rtaPrefix_succ.mp (returned : (rtaPrefix _ shortBelowLong 2).Returns c')
  obtain ⟨same, later⟩ := rtaPrefix_frame (by decide) first
  have late : c₁.FirstJobLate .unbounded 1 := by
    intro w nonneg within
    rw [later 1 le_rfl] at within ⊢
    have charge := chargeHigher_eq_demand c₁ 1 (shortBelowLong.task 1).processInstructions w
    rw [charge, higher_congr same, ← chargeHigher_eq_demand]
    exact shortBelowLong_late w nonneg within
  have enters : c₁.EntersBusyPeriod .unbounded 1 := by
    refine ⟨?_, Or.inr (Or.inl late)⟩
    rw [later 1 le_rfl]
    exact List.cons_ne_nil _ _
  exact absurd (each 1 c₁ (by decide) first enters) (by decide +kernel)

end Hipert.Amalthea
