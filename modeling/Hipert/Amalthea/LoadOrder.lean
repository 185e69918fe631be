import Hipert.Amalthea.Isolation
import Hipert.Lib.StableSort

/-!
# The order of loading

Adding tasks one by one with `addTask`, sorting them with `Collections.sort` and analysing them. The
sort is stable, so a task comes after the tasks of its own priority that were loaded before it, and
its results depend on which ones these are; the order of all other tasks makes no difference.
-/

namespace Hipert.Amalthea

/-! ## Adding and sorting -/

/-- `compareTo` -/
def compareTo (self t : Task) : ℤ :=
  if self.priority > t.priority then -1
  else if self.priority = t.priority then 0
  else 1

/-- `Collections.sort` -/
def collectionsSort (tasks : List Task) : List Task :=
  tasks.insertionSort fun a b => compareTo a b ≤ 0

/-- The core of the tasks in the order of loading, sorted. -/
def Core.ofTasks (tasks : List Task) : Core := ⟨collectionsSort (tasks.foldl Core.addTask ⟨[]⟩).tasks⟩

/-- The task that `addTask` adds. -/
def Task.joined (t : Task) : Task :=
  { t with
    executionTime := t.processInstructions
    executionTime_nonneg := t.processInstructions_nonneg }

theorem foldl_addTask (tasks : List Task) (c : Core) :
    (tasks.foldl Core.addTask c).tasks = c.tasks ++ tasks.map Task.joined := by
  induction tasks generalizing c with
  | nil => simp
  | cons t tasks ih =>
      rw [List.foldl_cons, ih]
      simp [Core.addTask, Task.joined]

/-- The key that `compareTo` sorts by: higher priorities first. -/
def Task.rank (t : Task) : ℤᵒᵈ := OrderDual.toDual t.priority

theorem compareTo_le_iff (a b : Task) : compareTo a b ≤ 0 ↔ a.rank ≤ b.rank := by
  unfold compareTo Task.rank
  rw [OrderDual.toDual_le_toDual]
  split
  · omega
  · split <;> omega

theorem collectionsSort_eq (tasks : List Task) : collectionsSort tasks = sortBy Task.rank tasks := by
  unfold collectionsSort sortBy
  simp only [compareTo_le_iff]

theorem tasks_ofTasks (tasks : List Task) :
    (Core.ofTasks tasks).tasks = sortBy Task.rank (tasks.map Task.joined) := by
  rw [Core.ofTasks, foldl_addTask, collectionsSort_eq]
  rfl

/-! ## The place of a task -/

/-- The tasks that come before a task, loaded after `earlier` and before `later`. -/
def ahead (earlier : List Task) (t : Task) (later : List Task) : List Task :=
  earlier.filter (t.priority ≤ ·.priority) ++ later.filter (t.priority < ·.priority)

/-- The tasks that come after it. -/
def behind (earlier : List Task) (t : Task) (later : List Task) : List Task :=
  earlier.filter (·.priority < t.priority) ++ later.filter (·.priority ≤ t.priority)

theorem tasks_ofTasks_append (earlier : List Task) (t : Task) (later : List Task) :
    (Core.ofTasks (earlier ++ t :: later)).tasks =
      sortBy Task.rank ((ahead earlier t later).map Task.joined) ++ t.joined ::
        sortBy Task.rank ((behind earlier t later).map Task.joined) := by
  rw [tasks_ofTasks, List.map_append, List.map_cons, sortBy_append_cons, ahead, behind,
    List.map_append, List.map_append]
  simp only [List.filter_map]
  rfl

/-- The position of the task in the sorted list. -/
def sortedIndex (earlier : List Task) (t : Task) (later : List Task) : ℕ :=
  (ahead earlier t later).length

section Reordered

variable {t : Task} {earlier later earlier' later' : List Task}

theorem count_filter_eq (p : Task → Prop) [DecidablePred p] (u : Task) (tasks : List Task) :
    (tasks.filter (p ·)).count u = if p u then tasks.count u else 0 := by
  split
  next holds => exact List.count_filter (by simpa using holds)
  next fails =>
    apply List.count_eq_zero.mpr
    exact fun mem => fails (by simpa using (List.mem_filter.mp mem).2)

/-- Of the tasks of its own priority, the same come before and after the task in both orders. -/
theorem count_of_ties (reordered : (earlier ++ t :: later).Perm (earlier' ++ t :: later'))
    (ties : (earlier.filter (·.priority = t.priority)).Perm
      (earlier'.filter (·.priority = t.priority))) {u : Task} (tie : u.priority = t.priority) :
    earlier.count u = earlier'.count u ∧ later.count u = later'.count u := by
  have all := List.perm_iff_count.mp reordered u
  have before := List.perm_iff_count.mp ties u
  rw [count_filter_eq (·.priority = t.priority), count_filter_eq (·.priority = t.priority),
    if_pos tie, if_pos tie] at before
  rw [List.count_append, List.count_append, List.count_cons, List.count_cons] at all
  omega

theorem ahead_perm (reordered : (earlier ++ t :: later).Perm (earlier' ++ t :: later'))
    (ties : (earlier.filter (·.priority = t.priority)).Perm
      (earlier'.filter (·.priority = t.priority))) :
    (ahead earlier t later).Perm (ahead earlier' t later') := by
  rw [List.perm_iff_count]
  intro u
  have all := List.perm_iff_count.mp reordered u
  rw [List.count_append, List.count_append, List.count_cons, List.count_cons] at all
  simp only [ahead, List.count_append, count_filter_eq (t.priority ≤ ·.priority),
    count_filter_eq (t.priority < ·.priority)]
  rcases lt_trichotomy u.priority t.priority with lower | tie | higher
  · simp [lower.not_ge, lower.not_gt]
  · simp [tie, (count_of_ties reordered ties tie).1]
  · rw [if_pos higher.le, if_pos higher, if_pos higher.le, if_pos higher]
    omega

theorem behind_perm (reordered : (earlier ++ t :: later).Perm (earlier' ++ t :: later'))
    (ties : (earlier.filter (·.priority = t.priority)).Perm
      (earlier'.filter (·.priority = t.priority))) :
    (behind earlier t later).Perm (behind earlier' t later') := by
  rw [List.perm_iff_count]
  intro u
  have all := List.perm_iff_count.mp reordered u
  rw [List.count_append, List.count_append, List.count_cons, List.count_cons] at all
  simp only [behind, List.count_append, count_filter_eq (·.priority < t.priority),
    count_filter_eq (·.priority ≤ t.priority)]
  rcases lt_trichotomy u.priority t.priority with lower | tie | higher
  · rw [if_pos lower, if_pos lower.le, if_pos lower, if_pos lower.le]
    omega
  · simp [tie, (count_of_ties reordered ties tie).2]
  · simp [higher.not_ge, higher.not_gt]

end Reordered

/-! ## The same tasks around a task -/

/-- In both cores the task at position `z` has the same tasks before and after it. -/
structure Core.SameAround (c c' : Core) (z : ℕ) : Prop where
  inside : z < c.tasks.length
  higher : (c.tasks.take z).Perm (c'.tasks.take z)
  here : c.tasks[z]? = c'.tasks[z]?
  lower : (c.tasks.drop (z + 1)).Perm (c'.tasks.drop (z + 1))

namespace Core.SameAround

variable {c c' : Core} {z : ℕ} (around : c.SameAround c' z)

include around

theorem inside' : z < c'.tasks.length := by
  have some := List.getElem?_eq_getElem around.inside
  rw [around.here] at some
  exact (List.getElem?_eq_some_iff.mp some).1

theorem task_eq : c.task z = c'.task z := by
  unfold Core.task
  rw [List.getD_eq_getElem?_getD, List.getD_eq_getElem?_getD, around.here]

theorem take_succ : (c.tasks.take (z + 1)).Perm (c'.tasks.take (z + 1)) := by
  rw [List.take_add_one, List.take_add_one, around.here]
  exact around.higher.append_right _

theorem chargeHigher_eq (charge : Task → ℚ) (init : ℚ) :
    c.chargeHigher z charge init = c'.chargeHigher z charge init := by
  rw [Amalthea.chargeHigher_eq, Amalthea.chargeHigher_eq, (around.higher.map charge).sum_eq]

theorem chargeHigher_succ_eq (charge : Task → ℚ) (init : ℚ) :
    c.chargeHigher (z + 1) charge init = c'.chargeHigher (z + 1) charge init := by
  rw [Amalthea.chargeHigher_eq, Amalthea.chargeHigher_eq, (around.take_succ.map charge).sum_eq]

theorem blocking_eq : blocking c z = blocking c' z := by
  have longest := blocking_longestBelow c z
  unfold Core.LongestBelow at longest
  have runnables := around.lower.flatMap_right Task.runnables
  simp only [runnables.mem_iff] at longest
  exact longest.unique (blocking_longestBelow c' z)

theorem busyPeriod_eq (ρ : IntReading) : busyPeriod ρ c z = busyPeriod ρ c' z := by
  unfold busyPeriod
  simp only [around.chargeHigher_succ_eq, around.blocking_eq, around.task_eq]

theorem cooperativeResponses_eq (ρ : IntReading) :
    cooperativeResponses ρ c z = cooperativeResponses ρ c' z := by
  unfold cooperativeResponses jobFinish jobStart
  simp only [around.chargeHigher_eq, around.busyPeriod_eq, around.blocking_eq, around.task_eq]

theorem jobEnd_eq (i : ℕ) : c.JobEnd z i = c'.JobEnd z i := by
  funext k f
  have requests : ∀ a, demand (c.higher z) a = demand (c'.higher z) a := by
    intro a
    funext w
    unfold demand interference Core.higher
    rw [((around.higher.map Task.load).map _).sum_eq]
  unfold Core.JobEnd LeastWindow
  simp only [requests, around.task_eq]

theorem jobsExamined_eq : c.jobsExamined z = c'.jobsExamined z := by
  have total : c.sumExecution (z + 1) = c'.sumExecution (z + 1) :=
    (around.take_succ.map _).sum_eq
  have vacant : c.Vacant z ↔ c'.Vacant z := by
    rw [Core.Vacant, Core.Vacant, around.blocking_eq, around.task_eq]
  unfold Core.jobsExamined
  simp only [vacant, around.blocking_eq, around.task_eq, total]

/-- **Results.** `RTAcore` gives the task the same results in both cores. -/
theorem rtaCore_task_eq {d d' : Core}
    (implicit : (c.task z).deadline = (c.task z).period)
    (summed : (c.task z).executionTime = (c.task z).processInstructions)
    (left : (rtaCore .unbounded c).Returns d) (right : (rtaCore .unbounded c').Returns d') :
    d.task z = d'.task z := by
  rcases kind : (c.task z).preemptionType
  · have regular : (c.task z).Regular := ⟨kind, summed, implicit⟩
    obtain ⟨vs, length, stored, worst⟩ := rtaCore_worst left around.inside regular
    obtain ⟨vs', length', stored', worst'⟩ :=
      rtaCore_worst right around.inside' (around.task_eq ▸ regular)
    rw [stored, stored', ← around.task_eq]
    simp only [← around.task_eq, ← around.jobEnd_eq, ← around.jobsExamined_eq] at length' worst'
    have each : ∀ (i : ℕ) v v', vs[i]? = some v → vs'[i]? = some v' → v = v' := fun i v v' hv hv' =>
      WorstOf.unique (fun _ _ _ finish finish' => finish.unique finish') (worst i v hv)
        (worst' i v' hv')
    have responses := forall₂_of_getElem? (length.trans length'.symm) each
    rw [List.forall₂_eq_eq_eq] at responses
    rw [responses]
  · obtain ⟨cz, vs, reached, values, stored, -⟩ := rtaCore_task left around.inside
    obtain ⟨cz', vs', reached', values', stored', -⟩ := rtaCore_task right around.inside'
    obtain ⟨same, later⟩ := rtaPrefix_frame around.inside.le reached
    obtain ⟨same', later'⟩ := rtaPrefix_frame around.inside'.le reached'
    rw [RoundValues, later z le_rfl, kind] at values
    rw [RoundValues, later' z le_rfl, ← around.task_eq, kind] at values'
    simp only [cooperativeResponses_congr same] at values
    simp only [cooperativeResponses_congr same', ← around.cooperativeResponses_eq] at values'
    rw [stored, stored', ← around.task_eq, values.unique values']

end Core.SameAround

/-! ## Two orders of loading -/

section Orders

variable {t : Task} {earlier later earlier' later' : List Task}

theorem length_sortBy_ahead :
    (sortBy Task.rank ((ahead earlier t later).map Task.joined)).length =
      sortedIndex earlier t later := by
  rw [(perm_sortBy _ _).length_eq, List.length_map, sortedIndex]

/-- The task is at its position. -/
theorem getElem?_sortedIndex :
    (Core.ofTasks (earlier ++ t :: later)).tasks[sortedIndex earlier t later]? = some t.joined := by
  rw [tasks_ofTasks_append, ← length_sortBy_ahead, List.getElem?_append_right le_rfl, Nat.sub_self]
  rfl

theorem take_sortedIndex :
    ((Core.ofTasks (earlier ++ t :: later)).tasks.take (sortedIndex earlier t later)).Perm
      ((ahead earlier t later).map Task.joined) := by
  rw [tasks_ofTasks_append, List.take_left' length_sortBy_ahead]
  exact perm_sortBy _ _

theorem drop_sortedIndex :
    ((Core.ofTasks (earlier ++ t :: later)).tasks.drop (sortedIndex earlier t later + 1)).Perm
      ((behind earlier t later).map Task.joined) := by
  rw [tasks_ofTasks_append, List.append_cons, List.drop_left']
  · exact perm_sortBy _ _
  · rw [List.length_append, length_sortBy_ahead]
    rfl

theorem sortedIndex_eq (reordered : (earlier ++ t :: later).Perm (earlier' ++ t :: later'))
    (ties : (earlier.filter (·.priority = t.priority)).Perm
      (earlier'.filter (·.priority = t.priority))) :
    sortedIndex earlier t later = sortedIndex earlier' t later' :=
  (ahead_perm reordered ties).length_eq

theorem sameAround_ofTasks (reordered : (earlier ++ t :: later).Perm (earlier' ++ t :: later'))
    (ties : (earlier.filter (·.priority = t.priority)).Perm
      (earlier'.filter (·.priority = t.priority))) :
    (Core.ofTasks (earlier ++ t :: later)).SameAround (Core.ofTasks (earlier' ++ t :: later'))
      (sortedIndex earlier t later) := by
  have index := sortedIndex_eq reordered ties
  refine ⟨?_, ?_, ?_, ?_⟩
  · exact (List.getElem?_eq_some_iff.mp getElem?_sortedIndex).1
  · refine take_sortedIndex.trans (((ahead_perm reordered ties).map _).trans ?_)
    rw [index]
    exact take_sortedIndex.symm
  · rw [getElem?_sortedIndex, index, getElem?_sortedIndex]
  · refine drop_sortedIndex.trans (((behind_perm reordered ties).map _).trans ?_)
    rw [index]
    exact drop_sortedIndex.symm

/-- **Order of loading.** In every order a task has the same results, as long as the tasks of its own
priority that are loaded before it stay the same. -/
theorem rtaCore_loadOrder {d d' : Core}
    (reordered : (earlier ++ t :: later).Perm (earlier' ++ t :: later'))
    (ties : (earlier.filter (·.priority = t.priority)).Perm
      (earlier'.filter (·.priority = t.priority)))
    (implicit : t.deadline = t.period)
    (left : (rtaCore .unbounded (Core.ofTasks (earlier ++ t :: later))).Returns d)
    (right : (rtaCore .unbounded (Core.ofTasks (earlier' ++ t :: later'))).Returns d') :
    d.task (sortedIndex earlier t later) = d'.task (sortedIndex earlier' t later') := by
  have around := sameAround_ofTasks reordered ties
  have task : (Core.ofTasks (earlier ++ t :: later)).task (sortedIndex earlier t later) =
      t.joined := by
    rw [Core.task, List.getD_eq_getElem?_getD, getElem?_sortedIndex, Option.getD_some]
  have joined : t.joined.executionTime = t.joined.processInstructions := rfl
  have results := around.rtaCore_task_eq (by rw [task]; exact implicit) (by rw [task]; exact joined)
    left right
  rw [results, sortedIndex_eq reordered ties]

end Orders

/-! ## Three tasks in several orders -/

/-- Tasks of one, two and three microseconds; the first two have one priority. -/
def oneUnit : Task := singleRunnable 10 5 (whole_pos (nat_lit 9)) 200
def twoUnits : Task := singleRunnable 10 5 (whole_pos (nat_lit 9)) 400
def threeUnits : Task := singleRunnable 20 7 (whole_pos (nat_lit 19)) 600

/-- The third task may come first or last. -/
theorem rtaCore_loadOrder_threeUnits :
    ∃ d d', (rtaCore .unbounded (Core.ofTasks [oneUnit, twoUnits, threeUnits])).Returns d ∧
      (rtaCore .unbounded (Core.ofTasks [threeUnits, oneUnit, twoUnits])).Returns d' ∧
      d.task (sortedIndex [oneUnit] twoUnits [threeUnits]) =
        d'.task (sortedIndex [threeUnits, oneUnit] twoUnits []) := by
  obtain ⟨d, left⟩ : (rtaCore .unbounded (Core.ofTasks [oneUnit, twoUnits, threeUnits])).Ends :=
    Fueled.ends_of_isSome (n := 20) (by decide +kernel)
  obtain ⟨d', right⟩ : (rtaCore .unbounded (Core.ofTasks [threeUnits, oneUnit, twoUnits])).Ends :=
    Fueled.ends_of_isSome (n := 20) (by decide +kernel)
  exact ⟨d, d', left, right,
    @rtaCore_loadOrder twoUnits [oneUnit] [threeUnits] [threeUnits, oneUnit] [] d d'
      (by decide +kernel) (by decide +kernel) rfl left right⟩

/-- Which of the first two tasks is loaded first decides which one waits for the other. -/
theorem rtaCore_depends_on_loadOrder :
    [oneUnit, twoUnits].Perm [twoUnits, oneUnit] ∧ ∃ d d',
      (rtaCore .unbounded (Core.ofTasks [oneUnit, twoUnits])).Returns d ∧
      (rtaCore .unbounded (Core.ofTasks [twoUnits, oneUnit])).Returns d' ∧
      (d.task (sortedIndex [] oneUnit [twoUnits])).responseTime = 1 ∧
      (d'.task (sortedIndex [twoUnits] oneUnit [])).responseTime = 3 := by
  have value : ((rtaCore .unbounded (Core.ofTasks [oneUnit, twoUnits])).run 20).map
      (fun d => (d.task (sortedIndex [] oneUnit [twoUnits])).responseTime) = some 1 := by
    decide +kernel
  have value' : ((rtaCore .unbounded (Core.ofTasks [twoUnits, oneUnit])).run 20).map
      (fun d => (d.task (sortedIndex [twoUnits] oneUnit [])).responseTime) = some 3 := by
    decide +kernel
  obtain ⟨d, left, response⟩ := Option.map_eq_some_iff.mp value
  obtain ⟨d', right, response'⟩ := Option.map_eq_some_iff.mp value'
  exact ⟨List.Perm.swap _ _ _, d, d', ⟨20, left⟩, ⟨20, right⟩, response, response'⟩

end Hipert.Amalthea
