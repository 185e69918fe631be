import Hipert.Amalthea.Preemptive

/-!
# Isolation from tasks of lower priority

Two cores that agree on their first `n + 1` tasks. The tasks after them reach the analysis of the
first only through `blocking`, and so through the number of jobs: the responses agree exactly when no
job that one run examines and the other does not is worse than all that both examine
(`rtaCore_isolated_iff`).
-/

namespace Hipert.Amalthea

/-- Some job among the first `K` responds no earlier than job `k`, or job `k` responds within its
release offset. -/
def Core.Covered (c : Core) (z i : ℕ) (K k : ℤ) : Prop :=
  ∀ f, c.JobEnd z i k f → f - (k - 1) * (c.task z).period ≤ 0 ∨
    ∃ k' f', 1 ≤ k' ∧ k' ≤ K ∧ c.JobEnd z i k' f' ∧
      f - (k - 1) * (c.task z).period ≤ f' - (k' - 1) * (c.task z).period

/-- Examining more jobs changes nothing exactly when the fewer cover the more. -/
theorem WorstOf.eq_iff {c : Core} {z i : ℕ} {K K' : ℤ} {v v' : ℚ}
    (left : WorstOf (c.JobEnd z i) (c.task z).period K v)
    (right : WorstOf (c.JobEnd z i) (c.task z).period K' v') (le : K ≤ K') :
    v = v' ↔ ∀ k, 1 ≤ k → k ≤ K' → c.Covered z i K k := by
  have single : ∀ k f f', c.JobEnd z i k f → c.JobEnd z i k f' → f = f' :=
    fun _ _ _ finish finish' => finish.unique finish'
  have total : ∀ k, 1 ≤ k → k ≤ max K K' → ∃ f, c.JobEnd z i k f := by
    intro k one within
    rw [max_eq_right le] at within
    obtain ⟨f, finish, -⟩ := right.upper k one within
    exact ⟨f, finish⟩
  have covered := left.iff_covered single total
  rw [max_eq_right le, min_eq_left le] at covered
  refine ⟨?_, ?_⟩
  · rintro rfl
    exact covered.mp right
  · intro all
    exact WorstOf.unique single (covered.mpr all) right

theorem Core.task_of_take_eq {c c' : Core} {n z : ℕ}
    (agree : c.tasks.take (n + 1) = c'.tasks.take (n + 1)) (le : z ≤ n) : c.task z = c'.task z := by
  have inside : z < n + 1 := Nat.lt_succ_of_le le
  unfold Core.task
  rw [List.getD_eq_getElem?_getD, List.getD_eq_getElem?_getD,
    ← List.getElem?_take_of_lt inside, agree, List.getElem?_take_of_lt inside]

theorem Core.higher_of_take_eq {c c' : Core} {n z : ℕ}
    (agree : c.tasks.take (n + 1) = c'.tasks.take (n + 1)) (le : z ≤ n) :
    c.higher z = c'.higher z := by
  have shorter : min z (n + 1) = z := min_eq_left (Nat.le_succ_of_le le)
  have prefixes := congrArg (List.take z) agree
  rw [List.take_take, List.take_take, shorter] at prefixes
  rw [Core.higher, Core.higher, prefixes]

theorem Core.lt_length_of_take_eq {c c' : Core} {n z : ℕ}
    (agree : c.tasks.take (n + 1) = c'.tasks.take (n + 1)) (le : z ≤ n) (lt : z < c.tasks.length) :
    z < c'.tasks.length := by
  have lengths := congrArg List.length agree
  simp only [List.length_take] at lengths
  omega

/-- Different lists of responses are stored as different tasks. -/
theorem Task.store_inj {t : Task} {vs ws : List ℚ} (left : vs.length = t.runnables.length)
    (right : ws.length = t.runnables.length) (same : t.store vs = t.store ws) : vs = ws := by
  have zipped : ∀ {rs : List Runnable} {vs : List ℚ}, vs.length = rs.length →
      (List.zipWith (fun r v => { r with responseTime := v }) rs vs).map Runnable.responseTime =
        vs := by
    intro rs
    induction rs with
    | nil => exact fun length => (List.length_eq_zero_iff.mp length).symm
    | cons r rs ih =>
        intro vs length
        cases vs with
        | nil => cases length
        | cons v vs => rw [List.zipWith_cons_cons, List.map_cons, ih (Nat.succ.inj length)]
  have stored := congrArg (fun t => t.runnables.map Runnable.responseTime) same
  exact (zipped left).symm.trans (stored.trans (zipped right))

/-- One task of both runs. -/
theorem isolated_task_iff {c c' d d' : Core} {n z : ℕ}
    (agree : c.tasks.take (n + 1) = c'.tasks.take (n + 1)) (le : z ≤ n) (lt : z < c.tasks.length)
    (regular : (c.task z).Regular) (left : (rtaCore .unbounded c).Returns d)
    (right : (rtaCore .unbounded c').Returns d') :
    d.task z = d'.task z ↔ ∀ i < (c.task z).runnables.length, ∀ k, 1 ≤ k →
      k ≤ max (c.jobsExamined z) (c'.jobsExamined z) →
      c.Covered z i (min (c.jobsExamined z) (c'.jobsExamined z)) k := by
  have here := Core.task_of_take_eq agree le
  obtain ⟨vs, length, stored, worst⟩ := rtaCore_worst left lt regular
  obtain ⟨vs', length', stored', worst'⟩ :=
    rtaCore_worst right (Core.lt_length_of_take_eq agree le lt) (here ▸ regular)
  have ends : ∀ i, c'.JobEnd z i = c.JobEnd z i := fun i => by
    funext k f
    rw [Core.JobEnd, Core.JobEnd, here, Core.higher_of_take_eq agree le]
  rw [← here] at length' stored'
  simp only [← here, ends] at worst'
  have lists : d.task z = d'.task z ↔ vs = vs' := by
    rw [stored, stored']
    exact ⟨Task.store_inj length length', fun same => same ▸ rfl⟩
  rw [lists]
  have each : vs = vs' ↔ ∀ (i : ℕ) v v', vs[i]? = some v → vs'[i]? = some v' → v = v' := by
    refine ⟨?_, ?_⟩
    · rintro rfl i v v' hv hv'
      exact Option.some.inj (hv.symm.trans hv')
    · intro each
      rw [← List.forall₂_eq_eq_eq]
      exact forall₂_of_getElem? (length.trans length'.symm) each
  rw [each]
  have value : ∀ (i : ℕ) v v', vs[i]? = some v → vs'[i]? = some v' →
      (v = v' ↔ ∀ k, 1 ≤ k → k ≤ max (c.jobsExamined z) (c'.jobsExamined z) →
        c.Covered z i (min (c.jobsExamined z) (c'.jobsExamined z)) k) := by
    intro i v v' hv hv'
    rcases le_total (c.jobsExamined z) (c'.jobsExamined z) with fewer | more
    · rw [max_eq_right fewer, min_eq_left fewer]
      exact (worst i v hv).eq_iff (worst' i v' hv') fewer
    · rw [max_eq_left more, min_eq_right more, eq_comm]
      exact (worst' i v' hv').eq_iff (worst i v hv) more
  refine ⟨?_, ?_⟩
  · intro same i inside
    have hv := List.getElem?_eq_getElem (length ▸ inside : i < vs.length)
    have hv' := List.getElem?_eq_getElem (length' ▸ inside : i < vs'.length)
    exact (value i _ _ hv hv').mp (same i _ _ hv hv')
  · intro covered i v v' hv hv'
    have inside := (List.getElem?_eq_some_iff.mp hv).1
    exact (value i v v' hv hv').mpr (covered i (length ▸ inside))

/-- **Isolation.** Tasks after position `n` leave the results of the tasks up to `n` alone exactly
when they do not bring in or remove the worst job. -/
theorem rtaCore_isolated_iff {c c' d d' : Core} {n : ℕ}
    (agree : c.tasks.take (n + 1) = c'.tasks.take (n + 1))
    (regular : ∀ t ∈ c.tasks.take (n + 1), t.Regular)
    (left : (rtaCore .unbounded c).Returns d) (right : (rtaCore .unbounded c').Returns d') :
    (∀ z ≤ n, z < c.tasks.length → d.task z = d'.task z) ↔
      ∀ z ≤ n, z < c.tasks.length → ∀ i < (c.task z).runnables.length, ∀ k, 1 ≤ k →
        k ≤ max (c.jobsExamined z) (c'.jobsExamined z) →
        c.Covered z i (min (c.jobsExamined z) (c'.jobsExamined z)) k := by
  refine forall_congr' fun z => forall_congr' fun le => forall_congr' fun lt => ?_
  refine isolated_task_iff agree le lt (regular _ ?_) left right
  rw [Core.task, List.getD_eq_getElem?_getD, List.getElem?_eq_getElem lt, Option.getD_some]
  exact List.mem_take_iff_getElem.mpr ⟨z, by omega, rfl⟩

/-! ## A lower task that brings in the worst job -/

/-- Two tasks whose worst job is not the first of the busy period. -/
def laterJobWorse : Core :=
  ((⟨[]⟩ : Core).addTask (singleRunnable 70 3 (whole_pos (nat_lit 69)) 5200)).addTask
    (singleRunnable 100 2 (whole_pos (nat_lit 99)) 12400)

/-- The same tasks above a task of execution time 60. -/
def laterJobWorseBlocked : Core :=
  laterJobWorse.addTask (singleRunnable 1000000 1 (by decide) 12000)

theorem laterJobWorse_ends : (rtaCore .unbounded laterJobWorse).Ends :=
  Fueled.ends_of_isSome (n := 20) (by decide +kernel)

theorem laterJobWorseBlocked_ends : (rtaCore .unbounded laterJobWorseBlocked).Ends :=
  Fueled.ends_of_isSome (n := 200) (by decide +kernel)

theorem rtaCore_isolated_iff_laterJobWorse :
    ∃ d d', (rtaCore .unbounded laterJobWorse).Returns d ∧
      (rtaCore .unbounded laterJobWorseBlocked).Returns d' ∧
      ((∀ z ≤ 1, z < 2 → d.task z = d'.task z) ↔
        ∀ z ≤ 1, z < 2 → ∀ i < (laterJobWorse.task z).runnables.length, ∀ k, 1 ≤ k →
          k ≤ max (laterJobWorse.jobsExamined z) (laterJobWorseBlocked.jobsExamined z) →
          laterJobWorse.Covered z i
            (min (laterJobWorse.jobsExamined z) (laterJobWorseBlocked.jobsExamined z)) k) := by
  obtain ⟨d, left⟩ := laterJobWorse_ends
  obtain ⟨d', right⟩ := laterJobWorseBlocked_ends
  exact ⟨d, d', left, right,
    rtaCore_isolated_iff (by decide +kernel) (by decide +kernel) left right⟩

/-- Appending a task of lower priority changes the response of the second task from 114 to 118. -/
theorem rtaCore_not_isolated :
    (∀ t ∈ laterJobWorseBlocked.tasks, t.preemptionType = .preemptive) ∧
      (laterJobWorseBlocked.tasks.Pairwise fun t u => u.priority < t.priority) ∧
      laterJobWorseBlocked.utilization < 1 ∧
      laterJobWorse.tasks.take 2 = laterJobWorseBlocked.tasks.take 2 ∧
      ∃ d d', (rtaCore .unbounded laterJobWorse).Returns d ∧
        (rtaCore .unbounded laterJobWorseBlocked).Returns d' ∧
        (d.task 1).responseTime = 114 ∧ (d'.task 1).responseTime = 118 := by
  refine ⟨by decide +kernel, by decide +kernel, by decide +kernel, by decide +kernel, ?_⟩
  have value : ((rtaCore .unbounded laterJobWorse).run 20).map (fun d => (d.task 1).responseTime) =
      some 114 := by decide +kernel
  have value' : ((rtaCore .unbounded laterJobWorseBlocked).run 200).map
      (fun d => (d.task 1).responseTime) = some 118 := by decide +kernel
  obtain ⟨d, left, response⟩ := Option.map_eq_some_iff.mp value
  obtain ⟨d', right, response'⟩ := Option.map_eq_some_iff.mp value'
  exact ⟨d, d', ⟨20, left⟩, ⟨200, right⟩, response, response'⟩

end Hipert.Amalthea
