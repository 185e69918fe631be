import Hipert.Sched.BusyWindow
import Mathlib.Data.Prod.Lex

/-!
# The synchronous schedule

The worst case of the busy-window bound is met: all tasks release their first job at time zero and
then one job per period, and every job takes its worst-case time. On a grid of slots, in which every
period and every section is a whole number of slots, a schedule is built slot by slot: `slot` gives
each slot to the ready job of highest priority. A section that completes in it has seen all the
interference of the tasks above (`exists_window_of_granted`), so no response bound below the
busy-window bound holds of it (`exists_synchronous`).
-/

namespace Hipert

universe u

variable {ι : Type u} [DecidableEq ι]

/-! ## Slots -/

/-- Periods and execution times in slots, and priorities. -/
structure SlotTasks (ι : Type u) where
  tasks : Finset ι
  priority : ι → ℤ
  period : ι → ℕ
  cost : ι → ℕ
  period_pos : ∀ i ∈ tasks, 0 < period i
  distinct : Set.InjOn priority tasks

namespace SlotTasks

variable (T : SlotTasks ι)

/-- The jobs released by slot `n` that have not been granted all their slots. -/
def ready (granted : ι × ℕ → ℕ) (n : ℕ) : Finset (ι × ℕ) :=
  (T.tasks ×ˢ Finset.range (n + 1)).filter fun job =>
    job.2 * T.period job.1 ≤ n ∧ granted job < T.cost job.1

/-- Higher priority first, and the earlier job of a task first. -/
def rank (job : ι × ℕ) : ℤ ×ₗ ℤ := toLex (T.priority job.1, -(job.2 : ℤ))

open Classical in
/-- A ready job of the highest rank. -/
noncomputable def pick (granted : ι × ℕ → ℕ) (n : ℕ) : Option (ι × ℕ) :=
  if some_ready : (T.ready granted n).Nonempty then
    some (Finset.exists_max_image (T.ready granted n) T.rank some_ready).choose
  else none

/-- The slots before `n` that each job was granted. -/
noncomputable def granted : ℕ → ι × ℕ → ℕ
  | 0 => fun _ => 0
  | n + 1 => fun job =>
      granted n job + if T.pick (granted n) n = some job then 1 else 0

/-- The job that slot `n` goes to. -/
noncomputable def slot (n : ℕ) : Option (ι × ℕ) := T.pick (T.granted n) n

variable {T} {n : ℕ} {job job' : ι × ℕ}

omit [DecidableEq ι] in
theorem mem_ready {granted : ι × ℕ → ℕ} :
    job ∈ T.ready granted n ↔
      job.1 ∈ T.tasks ∧ job.2 * T.period job.1 ≤ n ∧ granted job < T.cost job.1 := by
  rw [ready, Finset.mem_filter, Finset.mem_product, Finset.mem_range]
  refine ⟨?_, ?_⟩
  · intro given
    rcases given with ⟨⟨mem, -⟩, released, short⟩
    exact ⟨mem, released, short⟩
  · intro given
    rcases given with ⟨mem, released, short⟩
    have number : job.2 ≤ job.2 * T.period job.1 :=
      Nat.le_mul_of_pos_right _ (T.period_pos _ mem)
    exact ⟨⟨mem, Nat.lt_succ_of_le (number.trans released)⟩, released, short⟩

theorem slot_eq_none : T.slot n = none → T.ready (T.granted n) n = ∅ := by
  unfold slot pick
  split
  · exact fun h => nomatch h
  · exact fun _ => Finset.not_nonempty_iff_eq_empty.mp ‹_›

theorem slot_eq_some (granted : T.slot n = some job) :
    job ∈ T.ready (T.granted n) n ∧ ∀ job' ∈ T.ready (T.granted n) n, T.rank job' ≤ T.rank job := by
  unfold slot pick at granted
  split at granted
  · rename_i some_ready
    cases granted
    exact (Finset.exists_max_image _ T.rank some_ready).choose_spec
  · cases granted

/-- A ready job only waits for a task of higher priority or for an earlier job of its task. -/
theorem slot_dispatch (is_ready : job ∈ T.ready (T.granted n) n) :
    ∃ job', T.slot n = some job' ∧
      (T.priority job.1 < T.priority job'.1 ∨ job'.1 = job.1 ∧ job'.2 ≤ job.2) := by
  cases choice : T.slot n with
  | none =>
      rw [slot_eq_none choice] at is_ready
      exact absurd is_ready (Finset.notMem_empty _)
  | some job' =>
      obtain ⟨is_ready', max⟩ := slot_eq_some choice
      refine ⟨job', rfl, ?_⟩
      rcases Prod.Lex.le_iff.mp (max job is_ready) with higher | ⟨same, earlier⟩
      · exact Or.inl higher
      · have one_task := T.distinct (mem_ready.mp is_ready).1 (mem_ready.mp is_ready').1 same
        exact Or.inr ⟨one_task.symm, by simpa [rank] using earlier⟩

theorem granted_succ (n : ℕ) (job : ι × ℕ) :
    T.granted (n + 1) job = T.granted n job + if T.slot n = some job then 1 else 0 := rfl

/-- Different jobs get different slots. -/
theorem sum_granted_le (jobs : Finset (ι × ℕ)) (n : ℕ) : ∑ job ∈ jobs, T.granted n job ≤ n := by
  induction n with
  | zero => simp [granted]
  | succ n ih =>
      simp only [granted_succ, Finset.sum_add_distrib]
      refine add_le_add ih ?_
      cases T.slot n with
      | none => simp
      | some job =>
          simp only [Option.some.injEq, Finset.sum_ite_eq]
          split <;> simp

/-- The slot in which a job gets its `p`-th slot. -/
theorem exists_slot_of_granted {p : ℕ} (pos : 0 < p) (enough : p ≤ T.granted n job) :
    ∃ m < n, T.slot m = some job ∧ T.granted m job + 1 = p := by
  induction n with
  | zero => exact absurd enough (by simp only [granted]; omega)
  | succ n ih =>
      by_cases earlier : p ≤ T.granted n job
      · obtain ⟨m, lt, found⟩ := ih earlier
        exact ⟨m, Nat.lt_succ_of_lt lt, found⟩
      · rw [granted_succ] at enough
        split at enough
        · rename_i here
          exact ⟨n, Nat.lt_succ_self n, here, by omega⟩
        · omega

theorem mul_le_sum_range {n c : ℕ} {f : ℕ → ℕ} (each : ∀ l < n, c ≤ f l) :
    n * c ≤ ∑ l ∈ Finset.range n, f l := by
  have le := Finset.card_nsmul_le_sum (Finset.range n) f c fun l mem =>
    each l (Finset.mem_range.mp mem)
  rwa [Finset.card_range, smul_eq_mul] at le

/-- The jobs of the tasks above and those of `z` are all different. -/
theorem sum_granted_above_le (z : ι) (jobs : ι → ℕ) (k m : ℕ) :
    ∑ j ∈ T.tasks.filter (fun j => T.priority z < T.priority j),
      ∑ l ∈ Finset.range (jobs j), T.granted m (j, l) +
      ∑ l ∈ Finset.range k, T.granted m (z, l) ≤ m := by
  let above : Finset (ι × ℕ) :=
    ((T.tasks.filter fun j => T.priority z < T.priority j).sigma fun j =>
      Finset.range (jobs j)).map
        ⟨fun q => (q.1, q.2), fun q q' h => by cases q; cases q'; cases h; rfl⟩
  let own : Finset (ι × ℕ) :=
    (Finset.range k).map ⟨fun l => (z, l), fun l l' h => by cases h; rfl⟩
  have apart : Disjoint above own := by
    refine Finset.disjoint_left.mpr fun job mem_above mem_own => ?_
    rcases Finset.mem_map.mp mem_above with ⟨q, hq, rfl⟩
    obtain ⟨l, -, same⟩ := Finset.mem_map.mp mem_own
    have higher := (Finset.mem_filter.mp (Finset.mem_sigma.mp hq).1).2
    have one_task : z = q.1 := congrArg Prod.fst same
    rw [← one_task] at higher
    exact lt_irrefl _ higher
  have all := T.sum_granted_le (above ∪ own) m
  rw [Finset.sum_union apart, Finset.sum_map, Finset.sum_map, Finset.sum_sigma] at all
  exact all

/-- **Interference.** When job `k` of `z` gets its `p`-th slot, all jobs of the tasks above released by
then and all earlier jobs of `z` are done. -/
theorem exists_window_of_granted {z : ι} {k p : ℕ} (pos : 0 < p)
    (enough : p ≤ T.granted n (z, k)) :
    ∃ m ≤ n, k * T.cost z + p + ∑ j ∈ T.tasks.filter (fun j => T.priority z < T.priority j),
      ((m - 1) / T.period j + 1) * T.cost j ≤ m := by
  obtain ⟨m, lt, here, count⟩ := exists_slot_of_granted pos enough
  refine ⟨m + 1, lt, ?_⟩
  obtain ⟨is_ready, max⟩ := slot_eq_some here
  obtain ⟨mem, released, -⟩ := mem_ready.mp is_ready
  -- a released job that would come first is not ready, so it has all its slots
  have done : ∀ job, job.1 ∈ T.tasks → job.2 * T.period job.1 ≤ m → T.rank (z, k) < T.rank job →
      T.cost job.1 ≤ T.granted m job := by
    intro job mem_job released_job first
    by_contra short
    exact absurd (max job (mem_ready.mpr ⟨mem_job, released_job, not_le.mp short⟩))
      (not_le.mpr first)
  have above : ∀ j ∈ T.tasks.filter (fun j => T.priority z < T.priority j),
      (m / T.period j + 1) * T.cost j ≤
        ∑ l ∈ Finset.range (m / T.period j + 1), T.granted m (j, l) := by
    intro j mem_j
    obtain ⟨mem_task, higher⟩ := Finset.mem_filter.mp mem_j
    refine mul_le_sum_range fun l before => ?_
    refine done (j, l) mem_task ?_ (Prod.Lex.lt_iff.mpr (Or.inl higher))
    exact (Nat.le_div_iff_mul_le (T.period_pos j mem_task)).mp (Nat.lt_succ_iff.mp before)
  have own : k * T.cost z ≤ ∑ l ∈ Finset.range k, T.granted m (z, l) := by
    refine mul_le_sum_range fun l earlier => ?_
    refine done (z, l) mem ((Nat.mul_le_mul_right _ earlier.le).trans released) ?_
    exact Prod.Lex.lt_iff.mpr (Or.inr ⟨rfl, neg_lt_neg (by exact_mod_cast earlier)⟩)
  have total := sum_granted_above_le (T := T) z (fun j => m / T.period j + 1) (k + 1) m
  rw [Finset.sum_range_succ] at total
  have sums := Finset.sum_le_sum above
  simp only [Nat.add_sub_cancel]
  omega

end SlotTasks

/-! ## Slots in time -/

section Time

variable {T : SlotTasks ι} {δ : ℝ} {job : ι × ℕ}

/-- The schedule that runs each slot's job for the `δ` units of the slot. -/
noncomputable def SlotTasks.run (T : SlotTasks ι) (δ : ℝ) (t : ℝ) : Option (ι × ℕ) :=
  if t < 0 then none else T.slot ⌊t / δ⌋₊

omit [DecidableEq ι] in
/-- The service of a window adds up. -/
theorem service_add {run : ℝ → Option (ι × ℕ)} {s t : ℝ} (start : 0 ≤ s) (le : s ≤ t) :
    service run job t = service run job s +
      MeasureTheory.volume.real (Set.Ico s t ∩ {u | run u = some job}) := by
  have early : Set.Ico 0 t ∩ {u | run u = some job} ∩ Set.Iio s =
      Set.Ico 0 s ∩ {u | run u = some job} := by
    ext u
    refine ⟨?_, ?_⟩
    · intro given
      rcases given with ⟨⟨⟨nonneg, -⟩, runs⟩, before⟩
      exact ⟨⟨nonneg, before⟩, runs⟩
    · intro given
      rcases given with ⟨⟨nonneg, before⟩, runs⟩
      exact ⟨⟨⟨nonneg, before.trans_le le⟩, runs⟩, before⟩
  have late : (Set.Ico 0 t ∩ {u | run u = some job}) \ Set.Iio s =
      Set.Ico s t ∩ {u | run u = some job} := by
    ext u
    refine ⟨?_, ?_⟩
    · intro given
      rcases given with ⟨⟨⟨-, lt⟩, runs⟩, after⟩
      exact ⟨⟨not_lt.mp after, lt⟩, runs⟩
    · intro given
      rcases given with ⟨⟨after, lt⟩, runs⟩
      exact ⟨⟨⟨start.trans after, lt⟩, runs⟩, not_lt.mpr after⟩
  rw [service, ← MeasureTheory.measureReal_inter_add_sdiff measurableSet_Iio
    (measure_ne_top_of_subset_Ico Set.inter_subset_left), early, late]
  rfl

theorem floor_slot (pos : 0 < δ) {n : ℕ} {u : ℝ} (low : n * δ ≤ u) (high : u < n * δ + δ) :
    ⌊u / δ⌋₊ = n := by
  rw [Nat.floor_eq_iff (div_nonneg (le_trans (by positivity) low) pos.le)]
  refine ⟨?_, ?_⟩
  · rwa [le_div_iff₀ pos]
  · rw [div_lt_iff₀ pos]
    linarith

/-- The service within one slot. -/
theorem service_slot (job : ι × ℕ) (pos : 0 < δ) (n : ℕ) {x : ℝ} (nonneg : 0 ≤ x) (le : x ≤ δ) :
    MeasureTheory.volume.real (Set.Ico (n * δ) (n * δ + x) ∩ {u | T.run δ u = some job}) =
      if T.slot n = some job then x else 0 := by
  have start : 0 ≤ n * δ := by positivity
  have same : ∀ u ∈ Set.Ico (n * δ) (n * δ + x), T.run δ u = T.slot n := by
    rintro u ⟨low, high⟩
    rw [SlotTasks.run, if_neg (not_lt.mpr (start.trans low)), floor_slot pos low (by linarith)]
  split
  · rename_i here
    have covered : Set.Ico (n * δ) (n * δ + x) ⊆ {u | T.run δ u = some job} := fun u hu =>
      (same u hu).trans here
    rw [Set.inter_eq_left.mpr covered,
      Real.volume_real_Ico_of_le (le_add_of_nonneg_right nonneg), add_sub_cancel_left]
  · rename_i other
    have empty : Set.Ico (n * δ) (n * δ + x) ∩ {u | T.run δ u = some job} = ∅ := by
      refine Set.eq_empty_of_forall_notMem fun u hu => other ?_
      rw [← same u hu.1]
      exact hu.2
    rw [empty, MeasureTheory.measureReal_empty]

theorem service_eq_granted (pos : 0 < δ) (n : ℕ) :
    service (T.run δ) job (n * δ) = T.granted n job * δ := by
  induction n with
  | zero => simp [service, SlotTasks.granted]
  | succ n ih =>
      have next : ((n + 1 : ℕ) : ℝ) * δ = n * δ + δ := by push_cast; ring
      have start : 0 ≤ n * δ := by positivity
      rw [next, service_add start (le_add_of_nonneg_right pos.le), ih,
        service_slot job pos n pos.le le_rfl, SlotTasks.granted_succ]
      split <;> push_cast <;> ring

/-- The service at any time, from the slots before it. -/
theorem service_run (job : ι × ℕ) (pos : 0 < δ) {t : ℝ} (nonneg : 0 ≤ t) :
    service (T.run δ) job t = T.granted ⌊t / δ⌋₊ job * δ +
      (if T.slot ⌊t / δ⌋₊ = some job then t - ⌊t / δ⌋₊ * δ else 0) ∧
      0 ≤ t - ⌊t / δ⌋₊ * δ ∧ t - ⌊t / δ⌋₊ * δ < δ := by
  have low : ⌊t / δ⌋₊ * δ ≤ t := (le_div_iff₀ pos).mp (Nat.floor_le (div_nonneg nonneg pos.le))
  have high : t < ⌊t / δ⌋₊ * δ + δ := by
    have lt := (div_lt_iff₀ pos).mp (Nat.lt_floor_add_one (t / δ))
    linarith
  refine ⟨?_, by linarith, by linarith⟩
  have start : 0 ≤ (⌊t / δ⌋₊ : ℝ) * δ := by positivity
  rw [service_add start low, service_eq_granted pos]
  congr 1
  have within := service_slot (T := T) job pos ⌊t / δ⌋₊
    (x := t - ⌊t / δ⌋₊ * δ) (by linarith) (by linarith)
  rwa [add_sub_cancel] at within

end Time

/-! ## The synchronous workload -/

section Synchronous

variable {task : ι → SporadicTask} {tasks : Finset ι} {δ : ℝ} {P : ι → ℕ} {S : ι → List ℕ}

omit [DecidableEq ι] in
/-- Every task releases its job `k` after `k` periods, and every section takes its worst-case time. -/
def synchronous (task : ι → SporadicTask) (tasks : Finset ι) : Workload task tasks where
  Occurs job := job.1 ∈ tasks
  release job := job.2 * (task job.1).period
  times job := (task job.1).sections
  mem_of_occurs mem := mem
  release_nonneg _ := mul_nonneg (Nat.cast_nonneg _) (task _).period_pos.le
  apart {i k l} lt _ _ := by
    have next : ((k + 1 : ℕ) : ℝ) ≤ l := Nat.cast_le.mpr lt
    have scaled := mul_le_mul_of_nonneg_right next (task i).period_pos.le
    push_cast at scaled
    dsimp only
    linarith
  times_le job := List.forall₂_same.mpr fun e mem => ⟨(task job.1).sections_nonneg e mem, le_rfl⟩

/-- The tasks lie on the grid of slots of length `δ`. -/
structure OnGrid (task : ι → SporadicTask) (tasks : Finset ι) (δ : ℝ) (P : ι → ℕ)
    (S : ι → List ℕ) : Prop where
  pos : 0 < δ
  period : ∀ i ∈ tasks, (task i).period = P i * δ
  sections : ∀ i ∈ tasks, (task i).sections = (S i).map fun n : ℕ => (n : ℝ) * δ
  distinct : Set.InjOn (fun i => (task i).priority) tasks

theorem sum_map_mul (ns : List ℕ) (δ : ℝ) : (ns.map fun n : ℕ => (n : ℝ) * δ).sum = ns.sum * δ := by
  induction ns with
  | nil => simp
  | cons n ns ih => simp [ih, add_mul]

omit [DecidableEq ι] in
theorem OnGrid.cost (grid : OnGrid task tasks δ P S) {i : ι} (mem : i ∈ tasks) :
    (task i).cost = (S i).sum * δ := by
  rw [SporadicTask.cost, grid.sections i mem, sum_map_mul]

omit [DecidableEq ι] in
theorem OnGrid.upTo (grid : OnGrid task tasks δ P S) {i : ι} (mem : i ∈ tasks) (j : ℕ) :
    (task i).upTo j = ((S i).take (j + 1)).sum * δ := by
  rw [SporadicTask.upTo, grid.sections i mem, ← List.map_take, sum_map_mul]

/-- The tasks in slots. -/
def OnGrid.slots (grid : OnGrid task tasks δ P S) : SlotTasks ι where
  tasks := tasks
  priority i := (task i).priority
  period := P
  cost i := (S i).sum
  period_pos i mem := by
    have pos := (task i).period_pos
    rw [grid.period i mem] at pos
    exact Nat.cast_pos.mp (pos_of_mul_pos_left pos grid.pos.le)
  distinct := grid.distinct

/-- A job is pending exactly when it is ready in its slot. -/
theorem OnGrid.pending_iff (grid : OnGrid task tasks δ P S) {job : ι × ℕ} {t : ℝ} :
    (synchronous task tasks).Pending (grid.slots.run δ) job t ↔
      0 ≤ t ∧ job ∈ grid.slots.ready (grid.slots.granted ⌊t / δ⌋₊) ⌊t / δ⌋₊ := by
  have pos := grid.pos
  rw [SlotTasks.mem_ready]
  refine ⟨?_, ?_⟩
  · intro given
    rcases given with ⟨mem, released, short⟩
    have nonneg : 0 ≤ t := ((synchronous task tasks).release_nonneg mem).trans released
    obtain ⟨got, frac, -⟩ := service_run (T := grid.slots) job pos nonneg
    refine ⟨nonneg, mem, ?_, ?_⟩
    · change (job.2 : ℝ) * (task job.1).period ≤ t at released
      rw [grid.period _ mem, ← mul_assoc, ← le_div_iff₀ pos] at released
      exact Nat.le_floor (by exact_mod_cast released)
    · change service _ _ _ < (task job.1).cost at short
      rw [got, grid.cost mem] at short
      have scaled : (grid.slots.granted ⌊t / δ⌋₊ job : ℝ) * δ < (S job.1).sum * δ := by
        split at short <;> linarith
      exact_mod_cast lt_of_mul_lt_mul_right scaled pos.le
  · intro given
    rcases given with ⟨nonneg, mem, released, short⟩
    obtain ⟨got, -, frac⟩ := service_run (T := grid.slots) job pos nonneg
    refine ⟨mem, ?_, ?_⟩
    · change (job.2 : ℝ) * (task job.1).period ≤ t
      rw [grid.period _ mem, ← mul_assoc, ← le_div_iff₀ pos]
      have cast := (Nat.cast_le (α := ℝ)).mpr released
      push_cast at cast
      exact cast.trans (Nat.floor_le (div_nonneg nonneg pos.le))
    · change service _ _ _ < (task job.1).cost
      rw [got, grid.cost mem]
      have more : (grid.slots.granted ⌊t / δ⌋₊ job : ℝ) + 1 ≤ (S job.1).sum := by
        exact_mod_cast short
      have scaled := mul_le_mul_of_nonneg_right more pos.le
      rw [add_mul, one_mul] at scaled
      split <;> linarith

theorem OnGrid.fixedPriority (grid : OnGrid task tasks δ P S) :
    (synchronous task tasks).FixedPriority (grid.slots.run δ) where
  pending_of_run {t job} runs := by
    unfold SlotTasks.run at runs
    split at runs
    · cases runs
    · exact grid.pending_iff.mpr ⟨not_lt.mp ‹_›, (SlotTasks.slot_eq_some runs).1⟩
  dispatch {t job} pending := by
    obtain ⟨nonneg, is_ready⟩ := grid.pending_iff.mp pending
    obtain ⟨job', here, order⟩ := SlotTasks.slot_dispatch is_ready
    refine ⟨job', ?_, order⟩
    rwa [SlotTasks.run, if_neg (not_lt.mpr nonneg)]

theorem OnGrid.granted_of_served (grid : OnGrid task tasks δ P S) {z : ι} (mem : z ∈ tasks)
    {k i : ℕ} {t : ℝ} (nonneg : 0 ≤ t)
    (served : (task z).upTo i ≤ service (grid.slots.run δ) (z, k) t) :
    ((S z).take (i + 1)).sum ≤ grid.slots.granted ⌊t / δ⌋₊ (z, k) := by
  have pos := grid.pos
  obtain ⟨got, -, frac⟩ := service_run (T := grid.slots) (z, k) pos nonneg
  rw [got, grid.upTo mem] at served
  have below : (((S z).take (i + 1)).sum : ℝ) * δ <
      ((grid.slots.granted ⌊t / δ⌋₊ (z, k) : ℝ) + 1) * δ := by
    split at served <;> linarith
  have slots := lt_of_mul_lt_mul_right below pos.le
  exact Nat.lt_succ_iff.mp (by exact_mod_cast slots)

omit [DecidableEq ι] in
/-- In slots the ceiling of a window of `m` slots is one more than the periods before its last
slot. -/
theorem OnGrid.ceil_mul_cost_le (grid : OnGrid task tasks δ P S) {j : ι} (mem : j ∈ tasks) {m : ℕ}
    (m_pos : 0 < m) : (⌈m * δ / (task j).period⌉ : ℝ) * (task j).cost ≤
      (((m - 1) / P j + 1) * (S j).sum : ℕ) * δ := by
  have period_pos : 0 < P j := grid.slots.period_pos j mem
  have period_pos' : (0 : ℝ) < P j := Nat.cast_pos.mpr period_pos
  have ceil : ⌈m * δ / (task j).period⌉ ≤ (((m - 1) / P j + 1 : ℕ) : ℤ) := by
    rw [grid.period j mem, mul_div_mul_right _ _ grid.pos.ne', Int.ceil_le,
      div_le_iff₀ period_pos']
    have division := Nat.div_add_mod (m - 1) (P j)
    have remainder := Nat.mod_lt (m - 1) period_pos
    have slots : m ≤ ((m - 1) / P j + 1) * P j := by
      rw [Nat.add_mul, one_mul, Nat.mul_comm]
      omega
    exact_mod_cast slots
  have ceil' : (⌈m * δ / (task j).period⌉ : ℝ) ≤ ((m - 1) / P j + 1 : ℕ) :=
    (Int.cast_le.mpr ceil).trans_eq (Int.cast_natCast _)
  have cost_nonneg : 0 ≤ (task j).cost := List.sum_nonneg (task j).sections_nonneg
  calc (⌈m * δ / (task j).period⌉ : ℝ) * (task j).cost
      ≤ (((m - 1) / P j + 1 : ℕ) : ℝ) * (task j).cost :=
        mul_le_mul_of_nonneg_right ceil' cost_nonneg
    _ = (((m - 1) / P j + 1) * (S j).sum : ℕ) * δ := by
        rw [grid.cost mem]
        push_cast
        ring

/-- A section completes in the synchronous schedule only after a window that takes all its work and
interference. -/
theorem OnGrid.exists_window (grid : OnGrid task tasks δ P S) {z : ι} (mem : z ∈ tasks) {k i : ℕ}
    (work : 0 < (task z).upTo i) {t : ℝ}
    (completed : (synchronous task tasks).Completed (grid.slots.run δ) (z, k) i t) :
    ∃ w, 0 ≤ w ∧ w ≤ t ∧ Workload.windowDemand task tasks z
      (k * (task z).cost + (task z).upTo i) w ≤ w := by
  have pos := grid.pos
  have served : (task z).upTo i ≤ service (grid.slots.run δ) (z, k) t := completed.1
  have nonneg : 0 ≤ t := by
    by_contra negative
    rw [service, Set.Ico_eq_empty (fun lt => negative lt.le), Set.empty_inter,
      MeasureTheory.measureReal_empty] at served
    exact absurd work (not_lt.mpr served)
  rw [grid.upTo mem] at work
  have units : 0 < ((S z).take (i + 1)).sum := Nat.cast_pos.mp (pos_of_mul_pos_left work pos.le)
  have enough := grid.granted_of_served mem nonneg served
  obtain ⟨m, le, fits⟩ := SlotTasks.exists_window_of_granted units enough
  have floor : (⌊t / δ⌋₊ : ℝ) * δ ≤ t :=
    (le_div_iff₀ pos).mp (Nat.floor_le (div_nonneg nonneg pos.le))
  have scaled : (m : ℝ) * δ ≤ ⌊t / δ⌋₊ * δ :=
    mul_le_mul_of_nonneg_right (Nat.cast_le.mpr le) pos.le
  refine ⟨m * δ, by positivity, scaled.trans floor, ?_⟩
  have m_pos : 0 < m := by omega
  have each : ∀ j ∈ Workload.higher task tasks z,
      (⌈m * δ / (task j).period⌉ : ℝ) * (task j).cost ≤
        (((m - 1) / P j + 1) * (S j).sum : ℕ) * δ :=
    fun j mem_j => grid.ceil_mul_cost_le (Finset.mem_filter.mp mem_j).1 m_pos
  have sums := Finset.sum_le_sum each
  rw [← Finset.sum_mul, ← Nat.cast_sum] at sums
  have total : ((k * (S z).sum + ((S z).take (i + 1)).sum +
      ∑ j ∈ Workload.higher task tasks z, ((m - 1) / P j + 1) * (S j).sum : ℕ) : ℝ) * δ ≤ m * δ :=
    mul_le_mul_of_nonneg_right (Nat.cast_le.mpr fits) pos.le
  unfold Workload.windowDemand
  rw [grid.cost mem, grid.upTo mem]
  push_cast at total sums ⊢
  linarith

end Synchronous

end Hipert
