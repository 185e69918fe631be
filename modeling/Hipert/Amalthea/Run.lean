import Hipert.Amalthea.Spec

/-!
# Runs of `RTAcore`

`RTAcore` visits the tasks in order. A round changes the response times of its own task only
(`rtaTask_frame`), so a finished run leaves in every task what its round computed from a core whose
earlier tasks are final and whose later ones are as they were at the start (`rtaCore_task`).
-/

namespace Hipert.Amalthea

variable {ρ : IntReading}

/-! ## The loop over the runnables -/

/-- The execution time of the runnables up to and including position `i`. -/
def prefixTime (rs : List Runnable) (i : ℕ) : ℚ := ((rs.take (i + 1)).map (·.executionTime)).sum

@[simp] theorem prefixTime_cons_zero (r : Runnable) (rs : List Runnable) :
    prefixTime (r :: rs) 0 = r.executionTime := by simp [prefixTime]

@[simp] theorem prefixTime_cons_succ (r : Runnable) (rs : List Runnable) (i : ℕ) :
    prefixTime (r :: rs) (i + 1) = r.executionTime + prefixTime rs i := by simp [prefixTime]

theorem prefixTime_nonneg (rs : List Runnable) (i : ℕ) : 0 ≤ prefixTime rs i :=
  List.sum_nonneg (by
    intro x mem
    rcases List.mem_map.mp mem with ⟨r, -, rfl⟩
    exact r.executionTime_nonneg)

theorem executionTime_le_prefixTime {rs : List Runnable} {i : ℕ} {r : Runnable}
    (at_i : rs[i]? = some r) : r.executionTime ≤ prefixTime rs i := by
  induction rs generalizing i with
  | nil => simp at at_i
  | cons r' rs ih =>
      cases i with
      | zero =>
          cases at_i
          simp
      | succ i =>
          rw [prefixTime_cons_succ]
          exact (ih at_i).trans (le_add_of_nonneg_left r'.executionTime_nonneg)

/-- The accumulated time before a runnable is that of the runnables before it. -/
theorem prefixTime_sub {rs : List Runnable} {i : ℕ} {r : Runnable} (at_i : rs[i]? = some r) :
    prefixTime rs i - r.executionTime = ((rs.take i).map (·.executionTime)).sum := by
  rw [prefixTime, List.take_add_one, at_i, Option.toList_some, List.map_append, List.sum_append]
  simp

theorem prefixTime_le_processInstructions (t : Task) (i : ℕ) :
    prefixTime t.runnables i ≤ t.processInstructions := by
  rw [t.processInstructions_eq, prefixTime]
  refine List.Sublist.sum_le_sum ((List.take_sublist _ _).map _) ?_
  intro x mem
  rcases List.mem_map.mp mem with ⟨r, -, rfl⟩
  exact r.executionTime_nonneg

/-- The last runnable accumulates the execution time of the whole job. -/
theorem prefixTime_last (t : Task) :
    prefixTime t.runnables (t.runnables.length - 1) = t.processInstructions := by
  rw [t.processInstructions_eq, prefixTime]
  congr 2
  exact List.take_of_length_le (by omega)

/-- The loop gives the value of its body for the accumulated time at every position. -/
theorem runnableLoop_returns {body : ℚ → Runnable → Fueled ℚ} :
    ∀ {rs : List Runnable} {a : ℚ} {vs : List ℚ}, (runnableLoop body a rs).Returns vs →
      vs.length = rs.length ∧ ∀ i r v, rs[i]? = some r → vs[i]? = some v →
        (body (a + prefixTime rs i) r).Returns v
  | [], _, _, returned => by
      cases Fueled.returns_pure.mp returned
      exact ⟨rfl, fun i r v hr => by simp at hr⟩
  | r :: rs, a, vs, returned => by
      simp only [runnableLoop, Fueled.returns_bind, Fueled.returns_pure] at returned
      rcases returned with ⟨v, head, ws, tail, rfl⟩
      obtain ⟨length, each⟩ := runnableLoop_returns tail
      refine ⟨congrArg (· + 1) length, fun i r' v' hr hv => ?_⟩
      cases i with
      | zero =>
          cases hr
          cases hv
          simpa using head
      | succ i =>
          rw [prefixTime_cons_succ, ← add_assoc]
          exact each i r' v' hr hv

theorem runnableLoop_ends {body : ℚ → Runnable → Fueled ℚ} :
    ∀ {rs : List Runnable} {a : ℚ}, (runnableLoop body a rs).Ends ↔
      ∀ i r, rs[i]? = some r → (body (a + prefixTime rs i) r).Ends
  | [], _ => by simp [runnableLoop]
  | r :: rs, a => by
      simp only [runnableLoop, Fueled.ends_bind]
      refine ⟨?_, ?_⟩
      · intro given i r' hr
        rcases given with ⟨v, head, ws, tail, -⟩
        cases i with
        | zero =>
            cases hr
            exact ⟨v, by simpa using head⟩
        | succ i =>
            rw [prefixTime_cons_succ, ← add_assoc]
            exact runnableLoop_ends.mp ⟨ws, tail⟩ i r' hr
      · intro each
        obtain ⟨v, head⟩ := each 0 r rfl
        have rest : (runnableLoop body (a + r.executionTime) rs).Ends := by
          refine runnableLoop_ends.mpr fun i r' hr => ?_
          have next := each (i + 1) r' hr
          rwa [prefixTime_cons_succ, ← add_assoc] at next
        obtain ⟨ws, tail⟩ := rest
        exact ⟨v, by simpa using head, ws, tail, Fueled.ends_pure _⟩

/-! ## The loop over the jobs -/

/-- `response` is the largest of `0` and `finish - (k - 1) * period` over the jobs `1 ≤ k < n` up to
`K`. -/
structure WorstBelow (job : ℤ → Fueled ℚ) (period : ℚ) (K n : ℤ) (response : ℚ) : Prop where
  nonneg : 0 ≤ response
  upper : ∀ k, 1 ≤ k → k < n → k ≤ K → ∃ finish, (job k).Returns finish ∧
    finish - (k - 1) * period ≤ response
  attained : response = 0 ∨ ∃ k finish, 1 ≤ k ∧ k ≤ K ∧ (job k).Returns finish ∧
    response = finish - (k - 1) * period

/-- One more job. -/
theorem WorstBelow.next {job : ℤ → Fueled ℚ} {period : ℚ} {K k : ℤ} {response finish : ℚ}
    (worst : WorstBelow job period K k response) (one : 1 ≤ k) (inside : k ≤ K)
    (job_k : (job k).Returns finish) :
    WorstBelow job period K (k + 1) (if response > finish - (k - 1) * period then response
      else finish - (k - 1) * period) := by
  by_cases larger : response > finish - (k - 1) * period
  · rw [if_pos larger]
    refine ⟨worst.nonneg, fun j hj lt le => ?_, worst.attained⟩
    rcases (Int.lt_add_one_iff.mp lt).lt_or_eq with earlier | rfl
    · exact worst.upper j hj earlier le
    · exact ⟨finish, job_k, le_of_lt larger⟩
  · rw [if_neg larger]
    have below := not_lt.mp larger
    refine ⟨worst.nonneg.trans below, fun j hj lt le => ?_,
      Or.inr ⟨k, finish, one, inside, job_k, rfl⟩⟩
    rcases (Int.lt_add_one_iff.mp lt).lt_or_eq with earlier | rfl
    · obtain ⟨f, hf, bound⟩ := worst.upper j hj earlier le
      exact ⟨f, hf, bound.trans below⟩
    · exact ⟨finish, job_k, le_rfl⟩

/-- With unbounded counters `worstJob` is the largest response among the first `K` jobs and `0`. -/
theorem worstJob_returns {job : ℤ → Fueled ℚ} {period : ℚ} {K : ℤ} {response : ℚ}
    (returned : (worstJob .unbounded job period K).Returns response) :
    0 ≤ response ∧
      (∀ k, 1 ≤ k → k ≤ K → ∃ finish, (job k).Returns finish ∧
        finish - (k - 1) * period ≤ response) ∧
      (response = 0 ∨ ∃ k finish, 1 ≤ k ∧ k ≤ K ∧ (job k).Returns finish ∧
        response = finish - (k - 1) * period) := by
  have first : WorstBelow job period K 1 0 :=
    ⟨le_rfl, fun k one lt => absurd lt (not_lt.mpr one), Or.inl rfl⟩
  obtain ⟨n, past, worst⟩ : ∃ n, K < n ∧ WorstBelow job period K n response := by
    refine Fueled.loop_invariant
      (fun s : ℤ × ℚ => 1 ≤ s.1 ∧ WorstBelow job period K s.1 s.2)
      (fun r => ∃ n, K < n ∧ WorstBelow job period K n r) ?_ ?_ ⟨le_rfl, first⟩ returned
    · rintro ⟨k, acc⟩ ⟨k', acc'⟩ ⟨one, worst⟩ round
      dsimp only at one worst round ⊢
      split at round
      · rename_i inside
        simp only [Fueled.returns_bind, Fueled.returns_pure, IntReading.wrap_unbounded,
          Int.cast_sub, Int.cast_one, Sum.inl.injEq, Prod.mk.injEq] at round
        rcases round with ⟨finish, job_k, rfl, rfl⟩
        exact ⟨by omega, worst.next one inside job_k⟩
      · cases Fueled.returns_pure.mp round
    · rintro ⟨k, acc⟩ r ⟨one, worst⟩ round
      dsimp only at one worst round ⊢
      split at round
      · simp at round
      · rename_i past
        cases Fueled.returns_pure.mp round
        exact ⟨k, not_le.mp past, worst⟩
  exact ⟨worst.nonneg, fun k one le => worst.upper k one (lt_of_le_of_lt le past) le,
    worst.attained⟩

/-- The counter of a loop up to `K` can pass `K`. -/
def IntReading.Counts (ρ : IntReading) (K : ℤ) : Prop := ρ = .unbounded ∨ K < maxInt

theorem IntReading.wrap_succ {K k : ℤ} (counts : ρ.Counts K) (one : 1 ≤ k) (le : k ≤ K) :
    ρ.wrap (k + 1) = k + 1 := by
  rcases counts with rfl | below
  · rfl
  · cases ρ with
    | unbounded => rfl
    | saturating =>
        simp only [IntReading.wrap, maxInt] at *
        rw [Int.bmod_eq_of_le] <;> omega

theorem worstJob_ends {job : ℤ → Fueled ℚ} {K : ℤ} (period : ℚ) (counts : ρ.Counts K)
    (each : ∀ k, 1 ≤ k → k ≤ K → (job k).Ends) : (worstJob ρ job period K).Ends := by
  refine Fueled.loop_ends (fun s : ℤ × ℚ => 1 ≤ s.1) (fun s => (K + 1 - s.1).toNat) ?_ ?_ le_rfl
  · intro given one
    rcases given with ⟨k, acc⟩
    dsimp only at one ⊢
    split
    · rename_i inside
      exact (each k one inside).bind fun finish _ => Fueled.ends_pure _
    · exact Fueled.ends_pure _
  · rintro ⟨k, acc⟩ ⟨k', acc'⟩ one round
    dsimp only at one round ⊢
    split at round
    · rename_i inside
      simp only [Fueled.returns_bind, Fueled.returns_pure, Sum.inl.injEq, Prod.mk.injEq,
        IntReading.wrap_succ counts one inside] at round
      rcases round with ⟨_, _, rfl, _⟩
      omega
    · cases Fueled.returns_pure.mp round

/-- A 32-bit counter never passes `Integer.MAX_VALUE`. -/
theorem worstJob_diverges (job : ℤ → Fueled ℚ) (period : ℚ) :
    ¬ (worstJob .saturating job period maxInt).Ends := by
  refine Fueled.loop_diverges (fun s : ℤ × ℚ => s.1 ≤ maxInt) ?_ ?_ (by decide)
  · rintro ⟨k, acc⟩ ⟨k', acc'⟩ inside round
    dsimp only at inside round ⊢
    rw [if_pos inside] at round
    simp only [Fueled.returns_bind, Fueled.returns_pure, Sum.inl.injEq, Prod.mk.injEq] at round
    rcases round with ⟨_, _, rfl, _⟩
    have small : Int.bmod (k + 1) 4294967296 < (4294967296 + 1) / 2 :=
      Int.bmod_lt (by decide)
    simp only [IntReading.wrap, maxInt]
    omega
  · intro given r inside round
    rcases given with ⟨k, acc⟩
    dsimp only at inside round
    rw [if_pos inside] at round
    simp at round

/-! ## The deadline check -/

theorem length_firstJobResponses {c : Core} {z : ℕ} {vs : List ℚ}
    (returned : (firstJobResponses ρ c z).Returns vs) :
    vs.length = (c.task z).runnables.length := (runnableLoop_returns returned).1

theorem length_deadlineMissResponses {c : Core} {z : ℕ} {vs : List ℚ}
    (returned : (deadlineMissResponses ρ c z).Returns vs) :
    vs.length = (c.task z).runnables.length := (runnableLoop_returns returned).1

theorem length_cooperativeResponses {c : Core} {z : ℕ} {vs : List ℚ}
    (returned : (cooperativeResponses ρ c z).Returns vs) :
    vs.length = (c.task z).runnables.length := (runnableLoop_returns returned).1

theorem length_store {t : Task} {vs : List ℚ} (length : vs.length = t.runnables.length) :
    (t.store vs).runnables.length = t.runnables.length := by
  simp [Task.store, length]

theorem Task.store_responseTime {t : Task} {vs : List ℚ} (length : vs.length = t.runnables.length)
    (runs : t.runnables ≠ []) :
    ∃ r v, t.runnables[t.runnables.length - 1]? = some r ∧
      vs[t.runnables.length - 1]? = some v ∧ (t.store vs).responseTime = v := by
  have pos : 0 < t.runnables.length := List.length_pos_iff.mpr runs
  have inside : t.runnables.length - 1 < t.runnables.length := Nat.sub_one_lt_of_lt pos
  obtain ⟨v, last⟩ : ∃ v, vs[t.runnables.length - 1]? = some v :=
    ⟨_, List.getElem?_eq_getElem (length ▸ inside)⟩
  refine ⟨_, v, List.getElem?_eq_getElem inside, last, ?_⟩
  unfold Task.store
  dsimp only
  rw [List.getLast?_eq_getElem?, length, last, Option.getD_some]

/-- Recomputing a task for the second time gives the same core again. -/
theorem rtaDeadlineMiss_again {c c' : Core} {z : ℕ} (lt : z < c.tasks.length) {vs : List ℚ}
    (computed : (deadlineMissResponses ρ c z).Returns vs) :
    (rtaDeadlineMiss ρ (c.setTask z ((c.task z).store vs)) z).Returns c' ↔
      c' = c.setTask z ((c.task z).store vs) := by
  have length := length_deadlineMissResponses computed
  have same := Core.erase_setTask_store length
  unfold rtaDeadlineMiss
  rw [deadlineMissResponses_congr same]
  simp only [Fueled.returns_bind, Fueled.returns_pure, Core.task_setTask_self lt,
    Core.setTask_setTask]
  refine ⟨?_, ?_⟩
  · intro given
    rcases given with ⟨ws, again, rfl⟩
    rw [again.unique computed, Task.store_store length length]
  · rintro rfl
    exact ⟨vs, computed, by rw [Task.store_store length length]⟩

/-- From a recomputed core the rest of the deadline check changes nothing. -/
theorem deadlineCheck_recomputed {c c' : Core} {z : ℕ} (lt : z < c.tasks.length) {vs : List ℚ}
    (computed : (deadlineMissResponses ρ c z).Returns vs) (js : List ℕ) :
    (js.foldlM (deadlineCheckRound ρ z) (c.setTask z ((c.task z).store vs))).Returns c' ↔
      c' = c.setTask z ((c.task z).store vs) := by
  induction js with
  | nil => simp [eq_comm]
  | cons j js ih =>
      rw [List.foldlM_cons, Fueled.returns_bind]
      have one : ∀ d, (deadlineCheckRound ρ z (c.setTask z ((c.task z).store vs)) j).Returns d ↔
          d = c.setTask z ((c.task z).store vs) := by
        intro d
        unfold deadlineCheckRound
        split
        · exact rtaDeadlineMiss_again lt computed
        · simp [eq_comm]
      simp only [one, exists_eq_left, ih]

/-- The deadline check recomputes its own task as soon as any task of the core misses. -/
theorem deadlineCheck_returns {c c' : Core} {z : ℕ} (lt : z < c.tasks.length) :
    (deadlineCheck ρ c z).Returns c' ↔
      ((∀ j < c.tasks.length, c.misses j = false) ∧ c' = c) ∨
      ((∃ j < c.tasks.length, c.misses j = true) ∧
        ∃ vs, (deadlineMissResponses ρ c z).Returns vs ∧
          c' = c.setTask z ((c.task z).store vs)) := by
  have walk : ∀ js : List ℕ,
      (js.foldlM (deadlineCheckRound ρ z) c).Returns c' ↔
        ((∀ j ∈ js, c.misses j = false) ∧ c' = c) ∨
        ((∃ j ∈ js, c.misses j = true) ∧
          ∃ vs, (deadlineMissResponses ρ c z).Returns vs ∧
            c' = c.setTask z ((c.task z).store vs)) := by
    intro js
    induction js with
    | nil =>
        rw [List.foldlM_nil, Fueled.returns_pure]
        refine ⟨?_, ?_⟩
        · rintro rfl
          exact Or.inl ⟨fun _ mem => absurd mem List.not_mem_nil, rfl⟩
        · rintro (⟨-, rfl⟩ | ⟨⟨j, mem, -⟩, -⟩)
          · rfl
          · cases mem
    | cons j js ih =>
        rw [List.foldlM_cons, Fueled.returns_bind]
        cases missed : c.misses j with
        | false => simp [deadlineCheckRound, missed, ih]
        | true =>
            have first : (∃ a, (rtaDeadlineMiss ρ c z).Returns a ∧
                (js.foldlM (deadlineCheckRound ρ z) a).Returns c') ↔
                ∃ vs, (deadlineMissResponses ρ c z).Returns vs ∧
                  c' = c.setTask z ((c.task z).store vs) := by
              simp only [rtaDeadlineMiss, Fueled.returns_bind, Fueled.returns_pure]
              refine ⟨?_, ?_⟩
              · intro given
                rcases given with ⟨_, ⟨vs, computed, rfl⟩, rest⟩
                exact ⟨vs, computed, (deadlineCheck_recomputed lt computed js).mp rest⟩
              · intro given
                rcases given with ⟨vs, computed, rfl⟩
                exact ⟨_, ⟨vs, computed, rfl⟩,
                  (deadlineCheck_recomputed lt computed js).mpr rfl⟩
            simp only [deadlineCheckRound, missed, if_true]
            simp [missed, first]
  unfold deadlineCheck
  rw [walk]
  simp

/-! ## One round of `RTAcore` -/

/-- `vs` are the responses that the round of `RTAcore` for task `z` leaves in its runnables. -/
def RoundValues (ρ : IntReading) (c : Core) (z : ℕ) (vs : List ℚ) : Prop :=
  match (c.task z).preemptionType with
  | .preemptive => ∃ fs, (firstJobResponses ρ c z).Returns fs ∧
      (((∀ j < c.tasks.length, (c.setTask z ((c.task z).store fs)).misses j = false) ∧ vs = fs) ∨
        ((∃ j < c.tasks.length, (c.setTask z ((c.task z).store fs)).misses j = true) ∧
          (deadlineMissResponses ρ c z).Returns vs))
  | .cooperative => (cooperativeResponses ρ c z).Returns vs

theorem RoundValues.length {c : Core} {z : ℕ} {vs : List ℚ} (round : RoundValues ρ c z vs) :
    vs.length = (c.task z).runnables.length := by
  unfold RoundValues at round
  split at round
  · rcases round with ⟨fs, first, ⟨-, rfl⟩ | ⟨-, computed⟩⟩
    · exact length_firstJobResponses first
    · exact length_deadlineMissResponses computed
  · exact length_cooperativeResponses round

theorem responseTimePreemptiveTask_returns {c c' : Core} {z : ℕ} (lt : z < c.tasks.length) :
    (responseTimePreemptiveTask ρ c z).Returns c' ↔ ∃ fs, (firstJobResponses ρ c z).Returns fs ∧
      (((∀ j < c.tasks.length, (c.setTask z ((c.task z).store fs)).misses j = false) ∧
          c' = c.setTask z ((c.task z).store fs)) ∨
        ((∃ j < c.tasks.length, (c.setTask z ((c.task z).store fs)).misses j = true) ∧
          ∃ vs, (deadlineMissResponses ρ c z).Returns vs ∧
            c' = c.setTask z ((c.task z).store vs))) := by
  unfold responseTimePreemptiveTask
  rw [Fueled.returns_bind]
  refine exists_congr fun fs => and_congr_right fun first => ?_
  have length := length_firstJobResponses first
  have same := Core.erase_setTask_store length
  rw [deadlineCheck_returns (by simpa using lt)]
  simp only [Core.tasks_setTask, List.length_set, Core.task_setTask_self lt, Core.setTask_setTask,
    deadlineMissResponses_congr same]
  refine or_congr Iff.rfl (and_congr_right fun _ => exists_congr fun vs =>
    and_congr_right fun computed => ?_)
  rw [Task.store_store length (length_deadlineMissResponses computed)]

theorem rtaTask_returns {c c' : Core} {z : ℕ} (lt : z < c.tasks.length) :
    (rtaTask ρ c z).Returns c' ↔
      ∃ vs, RoundValues ρ c z vs ∧ c' = c.setTask z ((c.task z).store vs) := by
  unfold rtaTask RoundValues
  cases (c.task z).preemptionType with
  | preemptive =>
      rw [responseTimePreemptiveTask_returns lt]
      refine ⟨?_, ?_⟩
      · rintro ⟨fs, first, ⟨meets, rfl⟩ | ⟨missed, vs, computed, rfl⟩⟩
        · exact ⟨fs, ⟨fs, first, Or.inl ⟨meets, rfl⟩⟩, rfl⟩
        · exact ⟨vs, ⟨fs, first, Or.inr ⟨missed, computed⟩⟩, rfl⟩
      · rintro ⟨vs, ⟨fs, first, ⟨meets, rfl⟩ | ⟨missed, computed⟩⟩, rfl⟩
        · exact ⟨vs, first, Or.inl ⟨meets, rfl⟩⟩
        · exact ⟨fs, first, Or.inr ⟨missed, vs, computed, rfl⟩⟩
  | cooperative =>
      simp only [responseTimeCooperativeTask, Fueled.returns_bind, Fueled.returns_pure, eq_comm]

/-- A round changes the response times of its own task only. -/
theorem rtaTask_frame {c c' : Core} {z : ℕ} (lt : z < c.tasks.length)
    (returned : (rtaTask ρ c z).Returns c') :
    c'.erase = c.erase ∧ ∀ j, j ≠ z → c'.task j = c.task j := by
  rcases (rtaTask_returns lt).mp returned with ⟨vs, round, rfl⟩
  exact ⟨Core.erase_setTask_store round.length, fun j ne => Core.task_setTask_ne ne _⟩

/-! ## Whole runs -/

/-- The first `n` rounds of `RTAcore`. -/
def rtaPrefix (ρ : IntReading) (c : Core) (n : ℕ) : Fueled Core :=
  (List.range n).foldlM (fun c z => rtaTask ρ c z) c

theorem rtaCore_eq_rtaPrefix (c : Core) : rtaCore ρ c = rtaPrefix ρ c c.tasks.length := rfl

@[simp] theorem rtaPrefix_zero {c c' : Core} : (rtaPrefix ρ c 0).Returns c' ↔ c = c' := by
  simp [rtaPrefix]

theorem rtaPrefix_succ {c c' : Core} {n : ℕ} :
    (rtaPrefix ρ c (n + 1)).Returns c' ↔
      ∃ cn, (rtaPrefix ρ c n).Returns cn ∧ (rtaTask ρ cn n).Returns c' := by
  unfold rtaPrefix
  rw [List.range_succ, Fueled.returns_foldlM_append]
  simp

theorem rtaPrefix_frame {c : Core} :
    ∀ {n : ℕ} {cn : Core}, n ≤ c.tasks.length → (rtaPrefix ρ c n).Returns cn →
      cn.erase = c.erase ∧ ∀ j, n ≤ j → cn.task j = c.task j
  | 0, cn, _, returned => by
      cases rtaPrefix_zero.mp returned
      exact ⟨rfl, fun _ _ => rfl⟩
  | n + 1, cn, le, returned => by
      obtain ⟨cm, first, round⟩ := rtaPrefix_succ.mp returned
      obtain ⟨same, later⟩ := rtaPrefix_frame (Nat.le_of_succ_le le) first
      have lt : n < cm.tasks.length := by
        rw [Core.length_eq_of_erase same]
        exact le
      obtain ⟨same', others⟩ := rtaTask_frame lt round
      refine ⟨same'.trans same, fun j hj => ?_⟩
      rw [others j (by omega), later j (by omega)]

/-- **Run lemma.** After `n` rounds every visited task holds what its own round computed, from a
core in which the earlier tasks are final. -/
theorem rtaPrefix_task {c : Core} :
    ∀ {n : ℕ} {cn : Core}, n ≤ c.tasks.length → (rtaPrefix ρ c n).Returns cn → ∀ {z : ℕ}, z < n →
      ∃ cz vs, (rtaPrefix ρ c z).Returns cz ∧ RoundValues ρ cz z vs ∧
        cn.task z = (c.task z).store vs ∧ ∀ j < z, cz.task j = cn.task j
  | 0, _, _, _, _, lt => absurd lt (Nat.not_lt_zero _)
  | n + 1, cn, le, returned, z, lt => by
      obtain ⟨cm, first, round⟩ := rtaPrefix_succ.mp returned
      have le' : n ≤ c.tasks.length := Nat.le_of_succ_le le
      obtain ⟨same, later⟩ := rtaPrefix_frame le' first
      have inside : n < cm.tasks.length := by
        rw [Core.length_eq_of_erase same]
        exact le
      obtain ⟨-, others⟩ := rtaTask_frame inside round
      rcases (Nat.lt_succ_iff.mp lt).lt_or_eq with earlier | rfl
      · obtain ⟨cz, vs, reached, values, stored, final⟩ := rtaPrefix_task le' first earlier
        refine ⟨cz, vs, reached, values, ?_, fun j hj => ?_⟩
        · rw [others z (by omega), stored]
        · rw [final j hj, others j (by omega)]
      · rcases (rtaTask_returns inside).mp round with ⟨vs, values, rfl⟩
        refine ⟨cm, vs, first, values, ?_, fun j hj => (others j (by omega)).symm⟩
        rw [Core.task_setTask_self inside, later z le_rfl]

/-- A run of `RTAcore` leaves in every task what its round computed. -/
theorem rtaCore_task {c c' : Core} (returned : (rtaCore ρ c).Returns c') {z : ℕ}
    (lt : z < c.tasks.length) :
    ∃ cz vs, (rtaPrefix ρ c z).Returns cz ∧ RoundValues ρ cz z vs ∧
      c'.task z = (c.task z).store vs ∧ ∀ j < z, cz.task j = c'.task j :=
  rtaPrefix_task le_rfl returned lt

theorem rtaCore_erase {c c' : Core} (returned : (rtaCore ρ c).Returns c') : c'.erase = c.erase :=
  (rtaPrefix_frame le_rfl returned).1

end Hipert.Amalthea
