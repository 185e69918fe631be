import Hipert.Amalthea.Responses
import Hipert.Lib.Parallel

/-!
# Sustainability in execution times

Two cores with the same tasks, the second with longer runnables. Every demand of the second is at
least that of the first, so its blocking, its number of jobs and every finish are; a task that misses
on the first misses on the second. So `RTAcore` leaves no smaller response anywhere on the second
(`rtaCore_sustainable`).
-/

namespace Hipert.Amalthea

/-- The same task with longer runnables. -/
structure Task.Shorter (t t' : Task) : Prop where
  period : t.period = t'.period
  deadline : t.deadline = t'.deadline
  priority : t.priority = t'.priority
  preemptionType : t.preemptionType = t'.preemptionType
  runnables : List.Forall₂ (fun r r' : Runnable => r.executionTime ≤ r'.executionTime)
    t.runnables t'.runnables

/-- The same tasks with longer runnables. -/
def Core.Shorter (c c' : Core) : Prop := List.Forall₂ Task.Shorter c.tasks c'.tasks

/-- No response of the first task is larger. -/
structure Task.RespondsEarlier (t t' : Task) : Prop where
  responseTime : t.responseTime ≤ t'.responseTime
  runnables : List.Forall₂ (fun r r' : Runnable => r.responseTime ≤ r'.responseTime)
    t.runnables t'.runnables

/-! ## Demands of a pair of cores -/

theorem Task.Shorter.refl (t : Task) : t.Shorter t :=
  ⟨rfl, rfl, rfl, rfl, List.forall₂_same.mpr fun _ _ => le_rfl⟩

theorem Task.Shorter.processInstructions_le {t t' : Task} (shorter : t.Shorter t') :
    t.processInstructions ≤ t'.processInstructions := by
  rw [t.processInstructions_eq, t'.processInstructions_eq]
  exact sum_map_le_of_forall₂ shorter.runnables fun _ _ le => le

section Pair

variable {c c' : Core} {z : ℕ}

theorem Core.Shorter.task (shorter : c.Shorter c') (z : ℕ) : (c.task z).Shorter (c'.task z) := by
  have length := List.Forall₂.length_eq shorter
  by_cases lt : z < c.tasks.length
  · have here := List.Forall₂.get shorter lt (length ▸ lt)
    simpa [Core.task, List.getD_eq_getElem?_getD, lt, length ▸ lt] using here
  · have lt' : ¬ z < c'.tasks.length := length ▸ lt
    simp only [Core.task, List.getD_eq_getElem?_getD, List.getElem?_eq_none,
      not_lt.mp lt, not_lt.mp lt']
    exact Task.Shorter.refl _

theorem Core.Summed.task (summed : c.Summed) (z : ℕ) :
    (c.task z).executionTime = (c.task z).processInstructions := by
  by_cases lt : z < c.tasks.length
  · exact summed _ (Core.task_mem lt)
  · rw [Core.task, List.getD_eq_getElem?_getD, List.getElem?_eq_none (not_lt.mp lt)]
    rfl

/-- Tasks with the same release pattern, the second with the larger cost. -/
structure Task.Lighter (t t' : Task) : Prop where
  period : t.period = t'.period
  preemptionType : t.preemptionType = t'.preemptionType
  executionTime : t.executionTime ≤ t'.executionTime

theorem Core.Shorter.lighter (shorter : c.Shorter c') (summed : c.Summed) (summed' : c'.Summed) :
    List.Forall₂ Task.Lighter c.tasks c'.tasks := by
  refine List.forall₂_iff_get.mpr ⟨List.Forall₂.length_eq shorter, fun i lt lt' => ?_⟩
  have here := List.Forall₂.get shorter lt lt'
  refine ⟨here.period, here.preemptionType, ?_⟩
  rw [summed _ (List.get_mem _ _), summed' _ (List.get_mem _ _)]
  exact here.processInstructions_le

theorem Task.Lighter.request_le {t t' : Task} (lighter : t.Lighter t') {w : ℚ} (nonneg : 0 ≤ w) :
    t.load.request w ≤ t'.load.request w := by
  have ceil : (0 : ℚ) ≤ ⌈w / t.period⌉ := by
    exact_mod_cast Int.ceil_nonneg (div_nonneg nonneg t.period_pos.le)
  unfold Load.request Task.load
  dsimp only
  rw [← lighter.period]
  exact mul_le_mul_of_nonneg_left lighter.executionTime ceil

theorem Task.Lighter.requestClosed_le {t t' : Task} (lighter : t.Lighter t') {v w : ℚ}
    (nonneg : 0 ≤ v) (le : v ≤ w) : t.load.requestClosed v ≤ t'.load.requestClosed w := by
  refine le_trans ?_ (t'.load.requestClosed_mono le)
  have floor : (0 : ℚ) ≤ ⌊v / t.period⌋ := by
    exact_mod_cast Int.floor_nonneg.mpr (div_nonneg nonneg t.period_pos.le)
  unfold Load.requestClosed Task.load
  dsimp only
  rw [← lighter.period]
  exact mul_le_mul_of_nonneg_left lighter.executionTime (add_nonneg floor zero_le_one)

/-- What the analysis compares between two cores: lighter loads and longer runnables. -/
structure Core.Dominates (c' c : Core) : Prop where
  shorter : c.Shorter c'
  lighter : List.Forall₂ Task.Lighter c.tasks c'.tasks

theorem Core.Dominates.length_eq (dominates : c'.Dominates c) :
    c.tasks.length = c'.tasks.length := List.Forall₂.length_eq dominates.shorter

theorem Core.Dominates.executionTime_le (dominates : c'.Dominates c) (lt : z < c.tasks.length) :
    (c.task z).executionTime ≤ (c'.task z).executionTime := by
  have here := (List.Forall₂.get dominates.lighter lt (dominates.length_eq ▸ lt)).executionTime
  simpa [Core.task, List.getD_eq_getElem?_getD, lt, dominates.length_eq ▸ lt] using here

theorem Core.Dominates.demand_le (dominates : c'.Dominates c) (z : ℕ) {a a' w : ℚ} (le : a ≤ a')
    (nonneg : 0 ≤ w) : demand (c.higher z) a w ≤ demand (c'.higher z) a' w := by
  refine add_le_add le ?_
  simp only [Core.higher, interference, List.map_map]
  exact sum_map_le_of_forall₂ (List.forall₂_take z dominates.lighter)
    fun t t' lighter => lighter.request_le nonneg

theorem Core.Dominates.startDemand_le (dominates : c'.Dominates c) (z : ℕ) {a a' w : ℚ}
    (le : a ≤ a') (nonneg : 0 ≤ w) : c.startDemand z a w ≤ c'.startDemand z a' w := by
  refine add_le_add le ?_
  rw [closedInterference_higher, closedInterference_higher]
  exact sum_map_le_of_forall₂ (List.forall₂_take z dominates.lighter)
    fun t t' lighter => lighter.requestClosed_le nonneg le_rfl

theorem Core.Dominates.finishDemand_le (dominates : c'.Dominates c) (z : ℕ) {a a' s s' w : ℚ}
    (le : a ≤ a') (start : 0 ≤ s) (later : s ≤ s') (nonneg : 0 ≤ w) :
    c.finishDemand z a s w ≤ c'.finishDemand z a' s' w := by
  refine add_le_add le ?_
  refine sum_map_le_of_forall₂ (List.forall₂_take z dominates.lighter) fun t t' lighter => ?_
  unfold Task.finishRequest
  rw [← lighter.preemptionType]
  cases t.preemptionType with
  | preemptive => exact lighter.request_le nonneg
  | cooperative => exact lighter.requestClosed_le start later

theorem Core.Dominates.sumExecution_le (dominates : c'.Dominates c) (z : ℕ) :
    c.sumExecution z ≤ c'.sumExecution z :=
  sum_map_le_of_forall₂ (List.forall₂_take z dominates.lighter)
    fun _ _ lighter => lighter.executionTime

theorem foldl_longest_le {rs rs' : List Runnable}
    (shorter : List.Forall₂ (fun r r' : Runnable => r.executionTime ≤ r'.executionTime) rs rs') :
    ∀ {m m' : ℚ}, m ≤ m' →
      rs.foldl (fun m r => if r.executionTime > m then r.executionTime else m) m ≤
        rs'.foldl (fun m r => if r.executionTime > m then r.executionTime else m) m' := by
  induction shorter with
  | nil => exact fun le => le
  | @cons r r' rs rs' head tail ih =>
      intro m m' le
      refine ih ?_
      dsimp only
      split <;> split <;> linarith

theorem Core.Dominates.blocking_le (dominates : c'.Dominates c) (z : ℕ) :
    blocking c z ≤ blocking c' z := by
  have longest : ∀ {ts ts' : List Task}, List.Forall₂ Task.Shorter ts ts' → ∀ {m m' : ℚ}, m ≤ m' →
      ts.foldl (fun m t => t.runnables.foldl
        (fun m r => if r.executionTime > m then r.executionTime else m) m) m ≤
      ts'.foldl (fun m t => t.runnables.foldl
        (fun m r => if r.executionTime > m then r.executionTime else m) m) m' := by
    intro ts ts' shorter
    induction shorter with
    | nil => exact fun le => le
    | cons head _ ih => exact fun le => ih (foldl_longest_le head.runnables le)
  unfold blocking
  rw [dominates.length_eq]
  split
  · exact le_rfl
  · exact longest (List.forall₂_drop (z + 1) dominates.shorter) le_rfl

/-- The dominating core examines at least as many jobs. -/
theorem Core.Dominates.jobsExamined_le (dominates : c'.Dominates c) (lt : z < c.tasks.length)
    (ends : c'.Vacant z ∨ ∃ m : ℤ, 1 ≤ m ∧ c'.Fits z m) :
    c.jobsExamined z ≤ c'.jobsExamined z := by
  have blocking_le := dominates.blocking_le z
  by_cases vacant : c'.Vacant z
  · have vacant_left : c.Vacant z := by
      refine ⟨le_antisymm (vacant.1 ▸ blocking_le) (blocking_nonneg c z), ?_⟩
      exact le_antisymm (vacant.2 ▸ dominates.executionTime_le lt) (c.task z).executionTime_nonneg
    rw [Core.jobsExamined, Core.jobsExamined, if_pos vacant, if_pos vacant_left]
  · have fits := Core.fits_jobsExamined vacant (ends.resolve_left vacant)
    have one := Core.one_le_jobsExamined vacant
    refine Core.jobsExamined_le one ?_
    have count : (0 : ℚ) ≤ c'.jobsExamined z := by exact_mod_cast zero_le_one.trans one
    have sums := mul_le_mul_of_nonneg_right (dominates.sumExecution_le (z + 1)) count
    unfold Core.Fits at fits ⊢
    rw [(dominates.shorter.task z).period]
    linarith

theorem prefixTime_le {rs rs' : List Runnable}
    (shorter : List.Forall₂ (fun r r' : Runnable => r.executionTime ≤ r'.executionTime) rs rs')
    (i : ℕ) : prefixTime rs i ≤ prefixTime rs' i :=
  sum_map_le_of_forall₂ (List.forall₂_take (i + 1) shorter) fun _ _ le => le

theorem Core.Dominates.workBefore_le (dominates : c'.Dominates c) (lt : z < c.tasks.length) {k : ℤ}
    (one : 1 ≤ k) {a a' : ℚ} (le : a ≤ a') :
    (c.task z).workBefore k a ≤ (c'.task z).workBefore k a' := by
  have jobs : (0 : ℚ) ≤ k - 1 := by
    rw [sub_nonneg]
    exact_mod_cast one
  exact add_le_add (mul_le_mul_of_nonneg_left (dominates.executionTime_le lt) jobs) le

/-! ## Responses of a pair of cores -/

theorem Core.Dominates.leastWindow_le (dominates : c'.Dominates c) {a a' f f' : ℚ} (le : a ≤ a')
    (left : LeastWindow (c.higher z) a f) (right : LeastWindow (c'.higher z) a' f') : f ≤ f' :=
  left.le_of_demand_le right fun _ nonneg => dominates.demand_le z le nonneg

theorem Core.Dominates.jobFinish_le (dominates : c'.Dominates c) {a a' e e' f f' : ℚ} (le : a ≤ a')
    (longer : e ≤ e') (nonneg : 0 ≤ e) (left : JobFinish c z a e f)
    (right : JobFinish c' z a' e' f') : f ≤ f' := by
  obtain ⟨s, start, finish⟩ := left
  obtain ⟨s', start', finish'⟩ := right
  have earlier : s ≤ s' :=
    start.2 ⟨start'.1.1, (dominates.startDemand_le z le start'.1.1).trans start'.1.2⟩
  have after : s + e ≤ f' := (add_le_add earlier longer).trans finish'.1.1
  have positive : 0 ≤ f' := (add_nonneg start.1.1 nonneg).trans after
  refine finish.2 ⟨after, ?_⟩
  exact (dominates.finishDemand_le z (add_le_add le longer) start.1.1 earlier positive).trans
    finish'.1.2

variable {vs vs' : List ℚ}

theorem Core.Dominates.firstJobResponses_le (dominates : c'.Dominates c)
    (left : (firstJobResponses .unbounded c z).Returns vs)
    (right : (firstJobResponses .unbounded c' z).Returns vs') : List.Forall₂ (· ≤ ·) vs vs' := by
  have runnables := (dominates.shorter.task z).runnables
  refine forall₂_of_getElem? ?_ fun i v v' hv hv' => ?_
  · rw [length_firstJobResponses left, length_firstJobResponses right, runnables.length_eq]
  · exact dominates.leastWindow_le (prefixTime_le runnables i) (firstJobResponses_value left hv)
      (firstJobResponses_value right hv')

/-- A `busy_period` that returned is at rest or has a number of jobs that fits. -/
theorem vacant_or_fits (lt : z < c.tasks.length) (ends : (busyPeriod .unbounded c z).Ends) :
    c.Vacant z ∨ ∃ m : ℤ, 1 ≤ m ∧ c.Fits z m := by
  obtain ⟨length, returned⟩ := ends
  rw [Core.exists_fits_iff]
  exact (busyPeriod_counts_iff lt).mp ⟨length, returned, Or.inl rfl⟩

theorem busyPeriod_ends_of_busyResponses {job : ℚ → Runnable → ℚ → Fueled ℚ} {i : ℕ} {v : ℚ}
    (returned : (runnableLoop (fun accum r => do
      let length ← busyPeriod .unbounded c z
      job accum r length) 0 (c.task z).runnables).Returns vs) (at_i : vs[i]? = some v) :
    (busyPeriod .unbounded c z).Ends := by
  obtain ⟨length, each⟩ := runnableLoop_returns returned
  obtain ⟨r, hr⟩ : ∃ r, (c.task z).runnables[i]? = some r := by
    have inside := (List.getElem?_eq_some_iff.mp at_i).1
    exact ⟨_, List.getElem?_eq_getElem (length ▸ inside)⟩
  have value := each i r v hr at_i
  rw [Fueled.returns_bind] at value
  obtain ⟨period, busy, -⟩ := value
  exact busy.ends

theorem Core.Dominates.deadlineMissResponses_le (dominates : c'.Dominates c)
    (lt : z < c.tasks.length) (left : (deadlineMissResponses .unbounded c z).Returns vs)
    (right : (deadlineMissResponses .unbounded c' z).Returns vs') :
    List.Forall₂ (· ≤ ·) vs vs' := by
  have runnables := (dominates.shorter.task z).runnables
  have lt' : z < c'.tasks.length := dominates.length_eq ▸ lt
  refine forall₂_of_getElem? ?_ fun i v v' hv hv' => ?_
  · rw [length_deadlineMissResponses left, length_deadlineMissResponses right, runnables.length_eq]
  · have worst := deadlineMissResponses_value lt left hv
    have worst' := deadlineMissResponses_value lt' right hv'
    rw [← (dominates.shorter.task z).period] at worst'
    refine worst.mono worst' (dominates.jobsExamined_le lt ?_) fun k f f' one hf hf' => ?_
    · exact vacant_or_fits lt' (busyPeriod_ends_of_busyResponses right hv')
    · exact dominates.leastWindow_le (dominates.workBefore_le lt one (prefixTime_le runnables i))
        hf hf'

theorem Core.Dominates.cooperativeResponses_le (dominates : c'.Dominates c)
    (lt : z < c.tasks.length) (left : (cooperativeResponses .unbounded c z).Returns vs)
    (right : (cooperativeResponses .unbounded c' z).Returns vs') :
    List.Forall₂ (· ≤ ·) vs vs' := by
  have runnables := (dominates.shorter.task z).runnables
  have lt' : z < c'.tasks.length := dominates.length_eq ▸ lt
  refine forall₂_of_getElem? ?_ fun i v v' hv hv' => ?_
  · rw [length_cooperativeResponses left, length_cooperativeResponses right, runnables.length_eq]
  · obtain ⟨r, hr⟩ : ∃ r, (c.task z).runnables[i]? = some r := by
      have inside := (List.getElem?_eq_some_iff.mp hv).1
      exact ⟨_, List.getElem?_eq_getElem (length_cooperativeResponses left ▸ inside)⟩
    obtain ⟨r', hr', longer⟩ := getElem?_of_forall₂ runnables hr
    have worst := cooperativeResponses_value lt left hr hv
    have worst' := cooperativeResponses_value lt' right hr' hv'
    rw [← (dominates.shorter.task z).period] at worst'
    refine worst.mono worst' (dominates.jobsExamined_le lt ?_) fun k f f' one hf hf' => ?_
    · exact vacant_or_fits lt' (busyPeriod_ends_of_busyResponses right hv')
    · refine dominates.jobFinish_le (add_le_add (dominates.blocking_le z) ?_) longer
        r.executionTime_nonneg hf hf'
      refine dominates.workBefore_le lt one ?_
      rw [prefixTime_sub hr, prefixTime_sub hr']
      exact sum_map_le_of_forall₂ (List.forall₂_take i runnables) fun _ _ le => le

/-- A first response is no larger than the worst response of the dominating core. -/
theorem Core.Dominates.firstJob_le_deadlineMiss (dominates : c'.Dominates c)
    (lt : z < c.tasks.length) (summed' : c'.Summed)
    (left : (firstJobResponses .unbounded c z).Returns vs)
    (right : (deadlineMissResponses .unbounded c' z).Returns vs') :
    List.Forall₂ (· ≤ ·) vs vs' := by
  have runnables := (dominates.shorter.task z).runnables
  have lt' : z < c'.tasks.length := dominates.length_eq ▸ lt
  refine forall₂_of_getElem? ?_ fun i v v' hv hv' => ?_
  · rw [length_firstJobResponses left, length_deadlineMissResponses right, runnables.length_eq]
  · have window := firstJobResponses_value left hv
    have worst' := deadlineMissResponses_value lt' right hv'
    by_cases vacant : c'.Vacant z
    · -- no job is examined, but no runnable takes any time either
      have none : prefixTime (c.task z).runnables i ≤ 0 := by
        refine (prefixTime_le runnables i).trans ?_
        rw [← vacant.2, summed'.task z]
        exact prefixTime_le_processInstructions _ i
      refine le_trans (window.2 ⟨le_rfl, ?_⟩) worst'.nonneg
      rw [demand, interference_zero, add_zero]
      exact none
    · obtain ⟨f, finish, below⟩ := worst'.upper 1 le_rfl (Core.one_le_jobsExamined vacant)
      rw [Int.cast_one, sub_self, zero_mul, sub_zero] at below
      refine le_trans (dominates.leastWindow_le ?_ window finish) below
      simpa [Task.workBefore] using prefixTime_le runnables i

end Pair

/-! ## Runs of a pair of cores -/

theorem Task.store_respondsEarlier {t t' : Task} {vs vs' : List ℚ}
    (length : vs.length = t.runnables.length) (length' : vs'.length = t'.runnables.length)
    (initial : t.responseTime ≤ t'.responseTime) (values : List.Forall₂ (· ≤ ·) vs vs') :
    (t.store vs).RespondsEarlier (t'.store vs') := by
  refine ⟨?_, ?_⟩
  · -- the last value, or the initial one if there is none
    have last : ∀ {vs vs' : List ℚ} {a a' : ℚ}, a ≤ a' → List.Forall₂ (· ≤ ·) vs vs' →
        vs.getLast?.getD a ≤ vs'.getLast?.getD a' := by
      intro vs vs' a a' le values
      induction values generalizing a a' with
      | nil => exact le
      | cons head _ ih =>
          simpa only [List.getLast?_cons, Option.getD_some] using ih head
    exact last initial values
  · refine forall₂_of_getElem? ?_ fun i r r' hr hr' => ?_
    · rw [length_store length, length_store length', ← length, ← length', values.length_eq]
    · obtain ⟨hv, -⟩ := Task.store_getElem? hr
      obtain ⟨hv', -⟩ := Task.store_getElem? hr'
      obtain ⟨v', at_i, le⟩ := getElem?_of_forall₂ values hv
      cases at_i.symm.trans hv'
      exact le

theorem Core.misses_mono {c c' : Core} {j : ℕ} (deadline : (c.task j).deadline = (c'.task j).deadline)
    (le : (c.task j).responseTime ≤ (c'.task j).responseTime) (missed : c.misses j = true) :
    c'.misses j = true := by
  simp only [Core.misses, decide_eq_true_iff] at missed ⊢
  exact deadline ▸ missed.trans_le le

theorem Core.task_deadline_of_erase {c c' : Core} (same : c.erase = c'.erase) (j : ℕ) :
    (c.task j).deadline = (c'.task j).deadline := by
  have equal := congrArg Task.deadline
    ((Core.task_erase c j).symm.trans (same ▸ Core.task_erase c' j))
  exact equal

/-- A miss after the first responses are stored is a miss on the dominating core. -/
theorem Core.Dominates.misses_store {c c' cz cz' : Core} {z j : ℕ} {fs fs' : List ℚ}
    (dominates : c'.Dominates c) (lt : z < c.tasks.length) (same : cz.erase = c.erase)
    (same' : cz'.erase = c'.erase) (initial : (c.task z).responseTime ≤ (c'.task z).responseTime)
    (before : ∀ j, (cz.task j).responseTime ≤ (cz'.task j).responseTime)
    (first : (firstJobResponses .unbounded c z).Returns fs)
    (first' : (firstJobResponses .unbounded c' z).Returns fs')
    (missed : (cz.setTask z ((c.task z).store fs)).misses j = true) :
    (cz'.setTask z ((c'.task z).store fs')).misses j = true := by
  have inside : z < cz.tasks.length := by rwa [Core.length_eq_of_erase same]
  have inside' : z < cz'.tasks.length := by
    rwa [Core.length_eq_of_erase same', dominates.length_eq.symm]
  refine Core.misses_mono ?_ ?_ missed
  · by_cases self : j = z
    · rw [self, Core.task_setTask_self inside, Core.task_setTask_self inside']
      exact (dominates.shorter.task z).deadline
    · rw [Core.task_setTask_ne self, Core.task_setTask_ne self,
        Core.task_deadline_of_erase same, Core.task_deadline_of_erase same']
      exact (dominates.shorter.task j).deadline
  · by_cases self : j = z
    · rw [self, Core.task_setTask_self inside, Core.task_setTask_self inside']
      exact (Task.store_respondsEarlier (length_firstJobResponses first)
        (length_firstJobResponses first') initial
        (dominates.firstJobResponses_le first first')).responseTime
    · rw [Core.task_setTask_ne self, Core.task_setTask_ne self]
      exact before j

/-- **Step lemma.** A round on the dominating core leaves no smaller value. -/
theorem RoundValues.le {c c' cz cz' : Core} {z : ℕ} {vs vs' : List ℚ} (dominates : c'.Dominates c)
    (summed' : c'.Summed) (lt : z < c.tasks.length) (same : cz.erase = c.erase)
    (same' : cz'.erase = c'.erase) (here : cz.task z = c.task z) (here' : cz'.task z = c'.task z)
    (before : ∀ j, (cz.task j).responseTime ≤ (cz'.task j).responseTime)
    (left : RoundValues .unbounded cz z vs) (right : RoundValues .unbounded cz' z vs') :
    List.Forall₂ (· ≤ ·) vs vs' := by
  have kind := (dominates.shorter.task z).preemptionType
  unfold RoundValues at left right
  rw [here] at left
  rw [here', ← kind] at right
  rw [firstJobResponses_congr same, deadlineMissResponses_congr same,
    cooperativeResponses_congr same] at left
  rw [firstJobResponses_congr same', deadlineMissResponses_congr same',
    cooperativeResponses_congr same'] at right
  cases kind : (c.task z).preemptionType with
  | cooperative =>
      rw [kind] at left right
      exact dominates.cooperativeResponses_le lt left right
  | preemptive =>
      rw [kind] at left right
      obtain ⟨fs, first, left⟩ := left
      obtain ⟨fs', first', right⟩ := right
      have firsts := dominates.firstJobResponses_le first first'
      rcases right with ⟨none, rfl⟩ | ⟨-, computed'⟩
      · rcases left with ⟨-, rfl⟩ | ⟨⟨j, inside, missed⟩, -⟩
        · exact firsts
        · have initial := before z
          rw [here, here'] at initial
          have missed' := dominates.misses_store lt same same' initial before first first' missed
          have lengths : cz.tasks.length = cz'.tasks.length := by
            rw [Core.length_eq_of_erase same, Core.length_eq_of_erase same', dominates.length_eq]
          rw [none j (lengths ▸ inside)] at missed'
          cases missed'
      · rcases left with ⟨-, rfl⟩ | ⟨-, computed⟩
        · exact dominates.firstJob_le_deadlineMiss lt summed' first computed'
        · exact dominates.deadlineMissResponses_le lt computed computed'

/-- **Run lemma.** After any number of rounds the dominating core has no smaller response. -/
theorem rtaPrefix_sustainable {c c' : Core} (dominates : c'.Dominates c) (summed' : c'.Summed)
    (fresh : ∀ j, (c.task j).responseTime ≤ (c'.task j).responseTime) :
    ∀ {n : ℕ} {cn cn' : Core}, n ≤ c.tasks.length → (rtaPrefix .unbounded c n).Returns cn →
      (rtaPrefix .unbounded c' n).Returns cn' →
      (∀ j, (cn.task j).responseTime ≤ (cn'.task j).responseTime) ∧
        ∀ j < n, (cn.task j).RespondsEarlier (cn'.task j)
  | 0, cn, cn', _, left, right => by
      cases rtaPrefix_zero.mp left
      cases rtaPrefix_zero.mp right
      exact ⟨fresh, fun j lt => absurd lt (Nat.not_lt_zero j)⟩
  | n + 1, cn, cn', le, left, right => by
      have le' : n ≤ c.tasks.length := Nat.le_of_succ_le le
      obtain ⟨cm, before, round⟩ := rtaPrefix_succ.mp left
      obtain ⟨cm', before', round'⟩ := rtaPrefix_succ.mp right
      obtain ⟨responses, earlier⟩ := rtaPrefix_sustainable dominates summed' fresh le' before before'
      obtain ⟨same, later⟩ := rtaPrefix_frame le' before
      obtain ⟨same', later'⟩ := rtaPrefix_frame (dominates.length_eq ▸ le') before'
      have inside : n < cm.tasks.length := by rwa [Core.length_eq_of_erase same]
      have inside' : n < cm'.tasks.length := by
        rwa [Core.length_eq_of_erase same', ← dominates.length_eq]
      rcases (rtaTask_returns inside).mp round with ⟨vs, values, rfl⟩
      rcases (rtaTask_returns inside').mp round' with ⟨vs', values', rfl⟩
      have ordered := RoundValues.le dominates summed' le same same' (later n le_rfl)
        (later' n le_rfl) responses values values'
      have stored := Task.store_respondsEarlier values.length values'.length (responses n) ordered
      refine ⟨fun j => ?_, fun j lt => ?_⟩
      · by_cases self : j = n
        · rw [self, Core.task_setTask_self inside, Core.task_setTask_self inside']
          exact stored.responseTime
        · rw [Core.task_setTask_ne self, Core.task_setTask_ne self]
          exact responses j
      · by_cases self : j = n
        · rw [self, Core.task_setTask_self inside, Core.task_setTask_self inside']
          exact stored
        · rw [Core.task_setTask_ne self, Core.task_setTask_ne self]
          exact earlier j (by omega)

theorem Core.Fresh.task {c : Core} (fresh : c.Fresh) (z : ℕ) : (c.task z).responseTime = 0 := by
  by_cases lt : z < c.tasks.length
  · exact fresh _ (Core.task_mem lt)
  · rw [Core.task, List.getD_eq_getElem?_getD, List.getElem?_eq_none (not_lt.mp lt)]
    rfl

/-- **Sustainability.** Longer runnables never make a response of `RTAcore` smaller. -/
theorem rtaCore_sustainable {c c' d d' : Core} (shorter : c.Shorter c') (summed : c.Summed)
    (summed' : c'.Summed) (fresh : c.Fresh) (fresh' : c'.Fresh)
    (left : (rtaCore .unbounded c).Returns d) (right : (rtaCore .unbounded c').Returns d') :
    List.Forall₂ Task.RespondsEarlier d.tasks d'.tasks := by
  have dominates : c'.Dominates c := ⟨shorter, shorter.lighter summed summed'⟩
  have length : d.tasks.length = c.tasks.length := Core.length_eq_of_erase (rtaCore_erase left)
  have length' : d'.tasks.length = c.tasks.length := by
    rw [Core.length_eq_of_erase (rtaCore_erase right), dominates.length_eq]
  rw [rtaCore_eq_rtaPrefix, ← dominates.length_eq] at right
  have initial : ∀ j, (c.task j).responseTime ≤ (c'.task j).responseTime := fun j => by
    rw [fresh.task j, fresh'.task j]
  obtain ⟨-, earlier⟩ := rtaPrefix_sustainable dominates summed' initial le_rfl left right
  refine List.forall₂_iff_get.mpr ⟨length.trans length'.symm, fun j lt lt' => ?_⟩
  have here := earlier j (length ▸ lt)
  simpa [Core.task, List.getD_eq_getElem?_getD, lt, lt'] using here

/-- A preemptive task of one runnable above a cooperative one of two. -/
def mixedCore (n₀ n₁ n₂ : ℕ) : Core :=
  ((⟨[]⟩ : Core).addTask
    ((Task.new 10 2 .preemptive (whole_pos (nat_lit 9))).addRunnable (Runnable.new n₀))).addTask
    (((Task.new 20 1 .cooperative (whole_pos (nat_lit 19))).addRunnable (Runnable.new n₁)).addRunnable
      (Runnable.new n₂))

theorem mixedCore_shorter : (mixedCore 400 600 400).Shorter (mixedCore 600 600 800) :=
  .cons ⟨rfl, rfl, rfl, rfl, .cons (by decide +kernel) .nil⟩
    (.cons ⟨rfl, rfl, rfl, rfl, .cons (by decide +kernel) (.cons (by decide +kernel) .nil)⟩ .nil)

theorem rtaCore_sustainable_mixedCore :
    ∃ d d', (rtaCore .unbounded (mixedCore 400 600 400)).Returns d ∧
      (rtaCore .unbounded (mixedCore 600 600 800)).Returns d' ∧
      List.Forall₂ Task.RespondsEarlier d.tasks d'.tasks := by
  obtain ⟨d, left⟩ : (rtaCore .unbounded (mixedCore 400 600 400)).Ends :=
    Fueled.ends_of_isSome (n := 10) (by decide +kernel)
  obtain ⟨d', right⟩ : (rtaCore .unbounded (mixedCore 600 600 800)).Ends :=
    Fueled.ends_of_isSome (n := 10) (by decide +kernel)
  exact ⟨d, d', left, right, rtaCore_sustainable mixedCore_shorter (by decide +kernel)
    (by decide +kernel) (by decide +kernel) (by decide +kernel) left right⟩

end Hipert.Amalthea
