import Hipert.Amalthea.FirstJob
import Hipert.Amalthea.Preemptive

/-!
# `RTAcore_per_task` and `RTAcore`

`RTAcore_per_task` runs the first-job loop once for each task, with the execution time of the whole
task. `RTAcore` recomputes a task by `RTADeadlineMiss` as soon as any task of the core misses, its own
or not. For a preemptive task whose response is within its period the recomputation changes
nothing: no later job of the busy period responds later than the first
(`Core.exists_jobEnd_le`), so both analyses leave the response of the first job.
-/

namespace Hipert.Amalthea

variable {ρ : IntReading} {c : Core} {z : ℕ}

/-! ## Runs of `RTAcore_per_task` -/

/-- The first `n` rounds of `RTAcore_per_task`. -/
def perTaskPrefix (ρ : IntReading) (c : Core) (n : ℕ) : Fueled Core :=
  (List.range n).foldlM (fun c z => perTaskRound ρ c z) c

theorem rtaCorePerTask_eq_perTaskPrefix (c : Core) :
    rtaCorePerTask ρ c = perTaskPrefix ρ c c.tasks.length := rfl

theorem perTaskPrefix_succ {c' : Core} {n : ℕ} :
    (perTaskPrefix ρ c (n + 1)).Returns c' ↔
      ∃ cn, (perTaskPrefix ρ c n).Returns cn ∧ (perTaskRound ρ cn n).Returns c' := by
  unfold perTaskPrefix
  rw [List.range_succ, Fueled.returns_foldlM_append]
  simp

/-- A round writes the response time of its own task and nothing else. -/
theorem perTaskRound_returns {c' : Core} (lt : z < c.tasks.length)
    (returned : (perTaskRound ρ c z).Returns c') :
    c'.erase = c.erase ∧ (perTaskLoop ρ c z).Returns (c'.task z).responseTime ∧
      ∀ j, j ≠ z → c'.task j = c.task j := by
  simp only [perTaskRound, Fueled.returns_bind, Fueled.returns_pure] at returned
  rcases returned with ⟨response, loop, rfl⟩
  refine ⟨Core.erase_setTask rfl, ?_, fun j ne => Core.task_setTask_ne ne _⟩
  rw [Core.task_setTask_self lt]
  exact loop

/-- **Run lemma.** Every visited task holds what its loop computes from the core at the start. -/
theorem perTaskPrefix_task :
    ∀ {n : ℕ} {p : Core}, n ≤ c.tasks.length → (perTaskPrefix ρ c n).Returns p →
      p.erase = c.erase ∧ ∀ z < n, (perTaskLoop ρ c z).Returns (p.task z).responseTime
  | 0, p, _, returned => by
      have unmoved : c = p := by simpa [perTaskPrefix] using returned
      cases unmoved
      exact ⟨rfl, fun z lt => absurd lt (Nat.not_lt_zero z)⟩
  | n + 1, p, le, returned => by
      obtain ⟨cn, first, round⟩ := perTaskPrefix_succ.mp returned
      obtain ⟨same, earlier⟩ := perTaskPrefix_task (Nat.le_of_succ_le le) first
      have inside : n < cn.tasks.length := by
        rw [Core.length_eq_of_erase same]
        exact le
      obtain ⟨same', loop, others⟩ := perTaskRound_returns inside round
      refine ⟨same'.trans same, fun z lt => ?_⟩
      rcases (Nat.lt_succ_iff.mp lt).lt_or_eq with before | rfl
      · rw [others z before.ne]
        exact earlier z before
      · rw [perTaskLoop_congr same] at loop
        exact loop

/-- `RTAcore_per_task` finds the response of the first whole job. -/
theorem perTaskLoop_returns (summed : c.Summed) {w : ℚ}
    (returned : (perTaskLoop .unbounded c z).Returns w) :
    LeastWindow (c.higher z) (c.task z).executionTime w := by
  have charges : ∀ response init, c.chargeHigher z
      (fun t => (IntReading.unbounded.toInt ⌈response / t.period⌉ : ℤ) * t.processInstructions)
      init = demand (c.higher z) init response := by
    intro response init
    rw [← chargeHigher_eq_demand, chargeHigher_eq, chargeHigher_eq]
    congr 2
    apply List.map_congr_left
    intro t mem
    rw [summed t (List.mem_of_mem_take mem)]
    rfl
  unfold perTaskLoop at returned
  simp only [charges] at returned
  rw [← summed.task z] at returned
  exact leastWindow_of_returns (c.task z).executionTime_nonneg returned

/-! ## Tasks that meet their period -/

/-- The worst job of a task whose whole job fits in its period is the first. -/
theorem WorstOf.first {i : ℕ} {r v : ℚ} (summed : (c.task z).executionTime =
      (c.task z).processInstructions)
    (worst : WorstOf (c.JobEnd z i) (c.task z).period (c.jobsExamined z) v)
    (whole : LeastWindow (c.higher z) (c.task z).executionTime r)
    (within : r ≤ (c.task z).period) :
    LeastWindow (c.higher z) (prefixTime (c.task z).runnables i) v := by
  have nonneg := prefixTime_nonneg (c.task z).runnables i
  have part : prefixTime (c.task z).runnables i ≤ (c.task z).executionTime := by
    rw [summed]
    exact prefixTime_le_processInstructions _ i
  -- the part of the job up to runnable `i` ends where the whole job does, or before
  have fits : demand (c.higher z) (prefixTime (c.task z).runnables i) r ≤ r := by
    have whole_fits := whole.1.2
    unfold demand at whole_fits ⊢
    linarith
  obtain ⟨f, window⟩ := exists_leastWindow_of_fits nonneg whole.1.1 fits
  have first := Core.jobEnd_one.mpr window
  have equal : v = f := by
    apply le_antisymm
    · rcases worst.attained with rfl | ⟨k, g, one, -, finish, rfl⟩
      · exact window.1.1
      · obtain ⟨g', finish', below⟩ := Core.exists_jobEnd_le whole within first one
        rw [finish.unique finish']
        exact below
    · by_cases vacant : c.Vacant z
      · have none : prefixTime (c.task z).runnables i = 0 := le_antisymm (vacant.2 ▸ part) nonneg
        rw [none] at window
        rw [leastWindow_zero.mp window]
        exact worst.nonneg
      · obtain ⟨f', finish', below⟩ := worst.upper 1 le_rfl (Core.one_le_jobsExamined vacant)
        rw [first.unique finish']
        simpa using below
  rw [equal]
  exact window

/-- **One round.** Whichever branch the round takes, a task that meets its period keeps the
responses of its first job. -/
theorem RoundValues.first {i : ℕ} {r v : ℚ} {vs : List ℚ} (lt : z < c.tasks.length)
    (preemptive : (c.task z).preemptionType = .preemptive)
    (summed : (c.task z).executionTime = (c.task z).processInstructions)
    (round : RoundValues .unbounded c z vs) (at_i : vs[i]? = some v)
    (whole : LeastWindow (c.higher z) (c.task z).executionTime r)
    (within : r ≤ (c.task z).period) :
    LeastWindow (c.higher z) (prefixTime (c.task z).runnables i) v := by
  unfold RoundValues at round
  rw [preemptive] at round
  rcases round with ⟨fs, first, ⟨-, rfl⟩ | ⟨-, computed⟩⟩
  · exact firstJobResponses_value first at_i
  · have worst := deadlineMissResponses_value lt computed at_i
    exact WorstOf.first summed worst whole within

/-- **The analyses agree.** If `RTAcore_per_task` finds a response within the period, `RTAcore`
leaves that response and the first-job responses of the runnables, whatever else it recomputes. Both
start from any response times. -/
theorem rtaCore_agrees_per_task {c₀ d p : Core} {n : ℕ} (summed : c.Summed)
    (same : c₀.erase = c.erase) (le : n ≤ c.tasks.length) (lt : z < n)
    (preemptive : (c.task z).preemptionType = .preemptive) (runs : (c.task z).runnables ≠ [])
    (perTask : (perTaskPrefix .unbounded c₀ n).Returns p)
    (within : (p.task z).responseTime ≤ (c.task z).period)
    (returned : (rtaCore .unbounded c).Returns d) :
    (d.task z).responseTime = (p.task z).responseTime ∧
      ∀ i r, (d.task z).runnables[i]? = some r → c.FirstJobResponse z i r.responseTime := by
  have inside : z < c.tasks.length := lt.trans_le le
  -- what the two analyses compute
  have le₀ : n ≤ c₀.tasks.length := by rwa [Core.length_eq_of_erase same]
  obtain ⟨-, loops⟩ := perTaskPrefix_task le₀ perTask
  have loop := loops z lt
  rw [perTaskLoop_congr same] at loop
  have whole := perTaskLoop_returns summed loop
  obtain ⟨cz, vs, reached, values, stored, -⟩ := rtaCore_task returned inside
  obtain ⟨erased, later⟩ := rtaPrefix_frame inside.le reached
  have here : cz.task z = c.task z := later z le_rfl
  have length : vs.length = (c.task z).runnables.length := here ▸ values.length

  have first : ∀ i v, vs[i]? = some v →
      LeastWindow (c.higher z) (prefixTime (c.task z).runnables i) v := by
    intro i v at_i
    have inside' : z < cz.tasks.length := by rwa [Core.length_eq_of_erase erased]
    rw [← higher_congr erased, ← here] at whole ⊢
    rw [← here] at preemptive within
    have summed' : (cz.task z).executionTime = (cz.task z).processInstructions := by
      rw [here]
      exact summed.task z
    exact values.first inside' preemptive summed' at_i whole within
  refine ⟨?_, ?_⟩
  · obtain ⟨r, v, -, last, response⟩ := Task.store_responseTime length runs
    have window := first _ v last
    rw [prefixTime_last, ← summed.task z] at window
    rw [stored, response]
    exact window.unique whole
  · intro i r at_i
    rw [stored] at at_i
    obtain ⟨value, -⟩ := Task.store_getElem? at_i
    exact Core.firstJobResponse_of_leastWindow (first i _ value)

/-! ## A task that misses below one that meets its deadline -/

/-- A third task that misses its deadline, with the response time of an earlier run. -/
def missBelow : Core :=
  let c := quickAboveSlow.addTask (singleRunnable 20 0 (whole_pos (nat_lit 19)) 1400)
  c.setTask 2 { c.task 2 with responseTime := 27 }

theorem rtaCore_agrees_per_task_missBelow :
    ∃ d p, (rtaCore .unbounded missBelow).Returns d ∧
      (rtaCorePerTask .unbounded missBelow).Returns p ∧ missBelow.misses 2 = true ∧
      (d.task 1).responseTime = (p.task 1).responseTime ∧
      ∀ i r, (d.task 1).runnables[i]? = some r →
        missBelow.FirstJobResponse 1 i r.responseTime := by
  obtain ⟨d, returned⟩ : (rtaCore .unbounded missBelow).Ends :=
    Fueled.ends_of_isSome (n := 20) (by decide +kernel)
  have value : ((rtaCorePerTask .unbounded missBelow).run 20).map (fun p =>
      (p.task 1).responseTime) = some 16 := by decide +kernel
  obtain ⟨p, perTask, response⟩ := Option.map_eq_some_iff.mp value
  have within : (p.task 1).responseTime ≤ (missBelow.task 1).period := by
    rw [response]
    decide +kernel
  have finished : (rtaCorePerTask .unbounded missBelow).Returns p := ⟨20, perTask⟩
  have rounds := finished
  rw [rtaCorePerTask_eq_perTaskPrefix] at rounds
  exact ⟨d, p, returned, finished, by decide +kernel,
    rtaCore_agrees_per_task (by decide +kernel) rfl le_rfl (by decide) rfl
      (by decide +kernel) rounds within returned⟩

end Hipert.Amalthea
