import Hipert.Amalthea.Responses

/-!
# The sub-jobs of a cooperative task

`job_finish` of a runnable starts from `job_start` of the same runnable and takes off the releases
that the start has seen. No release falls on a start (`requestClosed_le_request_of_isLeast`), so what
a preempting task adds is never negative, and the start of the next runnable is late enough for all
the work before it. The finishes of one job are therefore ordered as its runnables are.
-/

namespace Hipert.Amalthea

variable {c : Core} {n : ℕ}

/-- The work before a runnable contains that of an earlier one. -/
theorem prefixTime_le_before {rs : List Runnable} {i j : ℕ} {r : Runnable} (lt : i < j)
    (at_j : rs[j]? = some r) : prefixTime rs i ≤ prefixTime rs j - r.executionTime := by
  rw [prefixTime_sub at_j, prefixTime]
  have sublist : (rs.take (i + 1)).Sublist (rs.take j) := List.take_sublist_take_left lt
  apply List.Sublist.sum_le_sum (sublist.map _)
  intro x mem
  rcases List.mem_map.mp mem with ⟨r, -, rfl⟩
  exact r.executionTime_nonneg

theorem Core.startWork_add_le {k : ℤ} {i j : ℕ} {r r' : Runnable} (lt : i < j)
    (at_j : (c.task n).runnables[j]? = some r') :
    c.startWork n k (prefixTime (c.task n).runnables i) r + r.executionTime ≤
      c.startWork n k (prefixTime (c.task n).runnables j) r' := by
  have before := prefixTime_le_before lt at_j
  unfold Core.startWork Task.workBefore
  linarith

/-- **No overlap.** More work before a start puts it after the finish. -/
theorem finish_le_start {a a' e s f s' : ℚ} (work : a + e ≤ a') (nonneg : 0 ≤ e)
    (least : IsLeast {w | 0 ≤ w ∧ c.startDemand n a w ≤ w} s) (fixed : s = c.startDemand n a s)
    (finish : IsLeast {x | s + e ≤ x ∧ c.finishDemand n (a + e) s x ≤ x} f)
    (next : IsLeast {w | 0 ≤ w ∧ c.startDemand n a' w ≤ w} s') : f ≤ s' := by
  obtain ⟨above, fits⟩ := next.1
  unfold Core.startDemand at fits fixed
  have order : s ≤ s' := by
    apply least.2
    refine ⟨above, ?_⟩
    unfold Core.startDemand
    linarith
  have seen : closedInterference (c.higher n) s ≤ closedInterference (c.higher n) s' :=
    List.sum_le_sum fun l _ => l.requestClosed_mono order
  -- up to the next start every task above has asked for all its releases
  have asked : ((c.tasks.take n).map fun t => t.finishRequest s s').sum ≤
      closedInterference (c.higher n) s' := by
    rw [closedInterference_higher]
    apply List.sum_le_sum
    intro t _
    unfold Task.finishRequest
    cases t.preemptionType with
    | preemptive => exact t.load.request_le_requestClosed s'
    | cooperative => exact t.load.requestClosed_mono order
  apply finish.2
  refine ⟨?_, ?_⟩
  · linarith
  · unfold Core.finishDemand
    linarith

/-- What a preempting task adds between start and finish. -/
theorem finishTerm_nonneg {a s f : ℚ} (nonneg : 0 ≤ a)
    (least : IsLeast {w | 0 ≤ w ∧ c.startDemand n a w ≤ w} s) (le : s ≤ f) {t : Task}
    (mem : t ∈ c.tasks.take n) :
    0 ≤ (myCeil .unbounded f t.period - (myFloor .unbounded s t.period + 1)) *
      t.executionTime := by
  have releases : t.load.requestClosed s ≤ t.load.request f :=
    requestClosed_le_request_of_isLeast nonneg least (List.mem_map_of_mem mem) le
  rw [sub_mul, ceilCharge_unbounded, floorCharge_unbounded]
  linarith

theorem JobFinish.le {a a' e e' f f' : ℚ} (work : a + e ≤ a') (nonneg : 0 ≤ a) (exec : 0 ≤ e)
    (exec' : 0 ≤ e') (left : JobFinish c n a e f) (right : JobFinish c n a' e' f') : f ≤ f' := by
  obtain ⟨s, least, finish⟩ := left
  obtain ⟨s', least', finish'⟩ := right
  have fixed := startDemand_eq_of_isLeast nonneg least
  have order := finish_le_start work exec least fixed finish least'
  have runs := finish'.1.1
  linarith

/-- The responses of a cooperative task are ordered as its runnables are. -/
theorem cooperativeResponses_mono (lt : n < c.tasks.length) {vs : List ℚ}
    (returned : (cooperativeResponses .unbounded c n).Returns vs) {i j : ℕ} {v v' : ℚ}
    (le : i ≤ j) (at_i : vs[i]? = some v) (at_j : vs[j]? = some v') : v ≤ v' := by
  rcases le.lt_or_eq with before | rfl
  · have length := length_cooperativeResponses returned
    have runnable : ∀ (m : ℕ) (w : ℚ), vs[m]? = some w → ∃ r, (c.task n).runnables[m]? = some r := by
      intro m w at_m
      have inside := (List.getElem?_eq_some_iff.mp at_m).1
      exact ⟨_, List.getElem?_eq_getElem (length ▸ inside)⟩
    obtain ⟨r, hr⟩ := runnable i v at_i
    obtain ⟨r', hr'⟩ := runnable j v' at_j
    have worst := cooperativeResponses_value lt returned hr at_i
    have worst' := cooperativeResponses_value lt returned hr' at_j
    apply worst.mono worst' le_rfl
    intro k f f' one finish finish'
    have own := executionTime_le_prefixTime hr
    exact JobFinish.le (Core.startWork_add_le before hr') (Core.startWork_nonneg one own)
      r.executionTime_nonneg r'.executionTime_nonneg finish finish'
  · rw [at_i] at at_j
    exact (Option.some.inj at_j).le

/-- **Sub-jobs are ordered.** In every job a runnable finishes no earlier than its start and its own
execution, every preempting task adds a non-negative term, and the next runnable starts no earlier
than the finish. So the stored responses are ordered, and the task keeps the last. -/
theorem cooperative_subJobs_ordered (lt : n < c.tasks.length) :
    (∀ (k : ℤ) (i : ℕ) r s f, 1 ≤ k → (c.task n).runnables[i]? = some r →
      (jobStart .unbounded c n k (prefixTime (c.task n).runnables i) r).Returns s →
      (jobFinish .unbounded c n k (prefixTime (c.task n).runnables i) r).Returns f →
      s + r.executionTime ≤ f ∧
      (∀ t ∈ c.tasks.take n, t.preemptionType = .preemptive →
        0 ≤ (myCeil .unbounded f t.period - (myFloor .unbounded s t.period + 1)) *
          t.executionTime) ∧
      ∀ r' s', (c.task n).runnables[i + 1]? = some r' →
        (jobStart .unbounded c n k (prefixTime (c.task n).runnables (i + 1)) r').Returns s' →
        f ≤ s') ∧
    ∀ d, (responseTimeCooperativeTask .unbounded c n).Returns d →
      (∀ (i j : ℕ) r r', i ≤ j → (d.task n).runnables[i]? = some r →
        (d.task n).runnables[j]? = some r' → r.responseTime ≤ r'.responseTime) ∧
      ∀ r, (d.task n).runnables.getLast? = some r → (d.task n).responseTime = r.responseTime := by
  refine ⟨?_, ?_⟩
  · intro k i r s f one at_i started finished
    have own := executionTime_le_prefixTime at_i
    obtain ⟨least, fixed⟩ := jobStart_isLeast one own started
    obtain ⟨s₀, started₀, finish⟩ := jobFinish_parts one own finished
    cases started₀.unique started
    have runs := finish.1.1
    refine ⟨runs, fun t mem _ => ?_, fun r' s' at_next started' => ?_⟩
    · have exec := r.executionTime_nonneg
      apply finishTerm_nonneg (Core.startWork_nonneg one own) least _ mem
      linarith
    · have own' := executionTime_le_prefixTime at_next
      obtain ⟨least', -⟩ := jobStart_isLeast one own' started'
      have work := Core.startWork_add_le (k := k) (r := r) (Nat.lt_succ_self i) at_next
      exact finish_le_start work r.executionTime_nonneg least fixed finish least'
  · intro d returned
    simp only [responseTimeCooperativeTask, Fueled.returns_bind, Fueled.returns_pure] at returned
    rcases returned with ⟨vs, computed, rfl⟩
    have length := length_cooperativeResponses computed
    rw [Core.task_setTask_self lt]
    refine ⟨?_, ?_⟩
    · intro i j r r' le at_i at_j
      obtain ⟨value, -⟩ := Task.store_getElem? at_i
      obtain ⟨value', -⟩ := Task.store_getElem? at_j
      exact cooperativeResponses_mono lt computed le value value'
    · intro r last
      rw [List.getLast?_eq_getElem?, length_store length] at last
      have runs : (c.task n).runnables ≠ [] := by
        intro empty
        simp [Task.store, empty] at last
      obtain ⟨r₀, v, -, at_last, stored⟩ := Task.store_responseTime length runs
      obtain ⟨value, -⟩ := Task.store_getElem? last
      rw [at_last] at value
      rw [stored]
      exact Option.some.inj value

/-! ## An empty runnable between two others -/

/-- A preemptive task above a cooperative one with runnables of 10, 0 and 20 microseconds. -/
def emptyBetween : Core :=
  ((⟨[]⟩ : Core).addTask (singleRunnable 70 2 (whole_pos (nat_lit 69)) 5200)).addTask
    ((((Task.new 200 1 .cooperative (by decide)).addRunnable (Runnable.new 2000)).addRunnable
      (Runnable.new 0)).addRunnable (Runnable.new 4000))

theorem cooperative_subJobs_ordered_emptyBetween :
    ∃ s f s' d,
      (jobStart .unbounded emptyBetween 1 1 (prefixTime (emptyBetween.task 1).runnables 0)
        (Runnable.new 2000)).Returns s ∧
      (jobFinish .unbounded emptyBetween 1 1 (prefixTime (emptyBetween.task 1).runnables 0)
        (Runnable.new 2000)).Returns f ∧
      (jobStart .unbounded emptyBetween 1 1 (prefixTime (emptyBetween.task 1).runnables 1)
        (Runnable.new 0)).Returns s' ∧
      (responseTimeCooperativeTask .unbounded emptyBetween 1).Returns d ∧
      s + (Runnable.new 2000).executionTime ≤ f ∧ f ≤ s' ∧
      (∀ t ∈ emptyBetween.tasks.take 1, t.preemptionType = .preemptive →
        0 ≤ (myCeil .unbounded f t.period - (myFloor .unbounded s t.period + 1)) *
          t.executionTime) ∧
      (∀ (i j : ℕ) r r', i ≤ j → (d.task 1).runnables[i]? = some r →
        (d.task 1).runnables[j]? = some r' → r.responseTime ≤ r'.responseTime) ∧
      ∀ r, (d.task 1).runnables.getLast? = some r → (d.task 1).responseTime = r.responseTime := by
  obtain ⟨s, started⟩ : (jobStart .unbounded emptyBetween 1 1
      (prefixTime (emptyBetween.task 1).runnables 0) (Runnable.new 2000)).Ends :=
    Fueled.ends_of_isSome (n := 10) (by decide +kernel)
  obtain ⟨f, finished⟩ : (jobFinish .unbounded emptyBetween 1 1
      (prefixTime (emptyBetween.task 1).runnables 0) (Runnable.new 2000)).Ends :=
    Fueled.ends_of_isSome (n := 10) (by decide +kernel)
  obtain ⟨s', started'⟩ : (jobStart .unbounded emptyBetween 1 1
      (prefixTime (emptyBetween.task 1).runnables 1) (Runnable.new 0)).Ends :=
    Fueled.ends_of_isSome (n := 10) (by decide +kernel)
  obtain ⟨d, returned⟩ : (responseTimeCooperativeTask .unbounded emptyBetween 1).Ends :=
    Fueled.ends_of_isSome (n := 20) (by decide +kernel)
  obtain ⟨subJobs, stored⟩ :=
    cooperative_subJobs_ordered (c := emptyBetween) (n := 1) (by decide)
  obtain ⟨runs, terms, next⟩ := subJobs 1 0 _ s f le_rfl rfl started finished
  obtain ⟨ordered, last⟩ := stored d returned
  exact ⟨s, f, s', d, started, finished, started', returned, runs, next _ s' rfl started', terms,
    ordered, last⟩

end Hipert.Amalthea
