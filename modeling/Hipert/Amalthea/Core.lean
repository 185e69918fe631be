import Hipert.Lib.DoWhile
import Mathlib.Algebra.Order.BigOperators.Group.List
import Mathlib.Data.Rat.Floor
import Mathlib.Tactic.Positivity

/-!
# The response-time analysis of `Core.java`

A transcription of `Runnable.java`, `Task.java` and `Core.java`: tasks of one core, kept in a list by
decreasing priority, and the loops of `RTAcore`. Doubles are exact rationals. Java's `(int)` casts
and `int` counters are read in one of two ways (`IntReading`): as unbounded integers, or as 32-bit
integers with saturating casts and wrapping increments. Every `do … while` loop is a `doWhile` and
the analysis runs in `Fueled`, where a loop that never leaves gives no result.

The loops of the source address tasks by position; `Core.task` reads a position and the loops over
`j < taskNum` run over `tasks.take taskNum`. Console output is left out.
-/

namespace Hipert.Amalthea

/-! ## Java integers -/

/-- How the `(int)` casts and `int` counters are read. -/
inductive IntReading where
  | unbounded
  | saturating
  deriving DecidableEq, Repr

/-- `Integer.MAX_VALUE`. -/
def maxInt : ℤ := 2147483647

/-- `Integer.MIN_VALUE`. -/
def minInt : ℤ := -2147483648

/-- The `(int)` cast of a double that holds an integer. -/
def IntReading.cast : IntReading → ℤ → ℤ
  | .unbounded, n => n
  | .saturating, n => max minInt (min n maxInt)

/-- The `(int)` cast of a double: truncation towards zero. -/
def IntReading.toInt (ρ : IntReading) (x : ℚ) : ℤ := ρ.cast (if 0 ≤ x then ⌊x⌋ else ⌈x⌉)

/-- The value an `int` expression holds: 32-bit arithmetic wraps around. -/
def IntReading.wrap : IntReading → ℤ → ℤ
  | .unbounded, n => n
  | .saturating, n => Int.bmod n 4294967296

/-! ## Runnables, tasks and cores -/

/-- `Task.preemptionType`: `"preemptive"`, or any other string, which takes the cooperative branch. -/
inductive PreemptionType where
  | preemptive
  | cooperative
  deriving DecidableEq, Repr

/-- A runnable (`Runnable.java`); its `executionTime` is the duration of an instruction count. -/
structure Runnable where
  executionTime : ℚ
  responseTime : ℚ
  executionTime_nonneg : 0 ≤ executionTime
  deriving DecidableEq

/-- The constructor of `Runnable`: `nInstructions` at 200 MHz, in microseconds. -/
def Runnable.new (nInstructions : ℕ) : Runnable where
  executionTime := nInstructions / 200000000 * 1000000
  responseTime := 0
  executionTime_nonneg := by positivity

/-- A task (`Task.java`), restricted to positive periods and non-negative execution times. -/
structure Task where
  period : ℚ
  deadline : ℚ
  priority : ℤ
  preemptionType : PreemptionType
  runnables : List Runnable
  responseTime : ℚ
  executionTime : ℚ
  period_pos : 0 < period
  executionTime_nonneg : 0 ≤ executionTime
  deriving DecidableEq

/-- `processInstructions`: the total execution time of the runnables. -/
def Task.processInstructions (t : Task) : ℚ :=
  t.runnables.foldl (fun totalExecutionTime r => totalExecutionTime + r.executionTime) 0

theorem foldl_executionTime_eq (rs : List Runnable) (init : ℚ) :
    rs.foldl (fun total r => total + r.executionTime) init =
      init + (rs.map (·.executionTime)).sum := by
  induction rs generalizing init with
  | nil => simp
  | cons r rs ih => rw [List.foldl_cons, ih, List.map_cons, List.sum_cons, add_assoc]

theorem Task.processInstructions_eq (t : Task) :
    t.processInstructions = (t.runnables.map (·.executionTime)).sum := by
  unfold Task.processInstructions
  rw [foldl_executionTime_eq, zero_add]

theorem Task.processInstructions_nonneg (t : Task) : 0 ≤ t.processInstructions := by
  rw [t.processInstructions_eq]
  exact List.sum_nonneg (by simpa using fun r _ => r.executionTime_nonneg)

/-- The constructor of `Task`: the deadline is the period. -/
def Task.new (period : ℚ) (priority : ℤ) (preemptionType : PreemptionType)
    (period_pos : 0 < period) : Task where
  period := period
  deadline := period
  priority := priority
  preemptionType := preemptionType
  runnables := []
  responseTime := 0
  executionTime := 0
  period_pos := period_pos
  executionTime_nonneg := le_rfl

/-- `addRunnable`. -/
def Task.addRunnable (t : Task) (r : Runnable) : Task := { t with runnables := t.runnables ++ [r] }

/-- A task with one runnable. -/
def singleRunnable (period : ℚ) (priority : ℤ) (period_pos : 0 < period) (nInstructions : ℕ) : Task :=
  (Task.new period priority .preemptive period_pos).addRunnable (Runnable.new nInstructions)

instance : Inhabited Task := ⟨Task.new 1 0 .preemptive one_pos⟩

/-- A period of `n + 1` ms. -/
theorem whole_pos (n : ℕ) : (0 : ℚ) < (n + 1 : ℕ) := Nat.cast_pos.mpr n.succ_pos

/-- The tasks of one core (`Core.java`). -/
structure Core where
  tasks : List Task
  deriving DecidableEq

/-- `addTask`: the task's execution time is fixed when it joins the core. -/
def Core.addTask (c : Core) (t : Task) : Core where
  tasks := c.tasks ++ [{ t with
    executionTime := t.processInstructions
    executionTime_nonneg := t.processInstructions_nonneg }]

/-- Every task has the execution time that `addTask` gives it. -/
def Core.Summed (c : Core) : Prop := ∀ t ∈ c.tasks, t.executionTime = t.processInstructions

/-- Every task has the deadline that the constructor gives it. -/
def Core.ImplicitDeadlines (c : Core) : Prop := ∀ t ∈ c.tasks, t.deadline = t.period

/-- No task has a response time yet. -/
def Core.Fresh (c : Core) : Prop := ∀ t ∈ c.tasks, t.responseTime = 0

instance (c : Core) : Decidable c.Summed := inferInstanceAs (Decidable (∀ _ ∈ _, _))
instance (c : Core) : Decidable c.ImplicitDeadlines := inferInstanceAs (Decidable (∀ _ ∈ _, _))
instance (c : Core) : Decidable c.Fresh := inferInstanceAs (Decidable (∀ _ ∈ _, _))

theorem Core.Summed.addTask {c : Core} (summed : c.Summed) (t : Task) : (c.addTask t).Summed := by
  intro u mem
  rcases List.mem_append.mp mem with earlier | added
  · exact summed u earlier
  · cases List.mem_singleton.mp added
    rfl

/-- `tasks.get(z)`. -/
def Core.task (c : Core) (z : ℕ) : Task := c.tasks.getD z default

/-- The core with its task at position `z` updated. -/
def Core.setTask (c : Core) (z : ℕ) (t : Task) : Core := ⟨c.tasks.set z t⟩

/-! ## The analysis -/

section Analysis

variable (ρ : IntReading)

/-- `myCeil`. -/
def myCeil (a b : ℚ) : ℚ := ρ.toInt ⌈a / b⌉

/-- `myFloor`. -/
def myFloor (a b : ℚ) : ℚ := ρ.toInt ⌊a / b⌋

/-- `for (j = 0; j < taskNum; j++) acc += charge(tasks.get(j))`. -/
def Core.chargeHigher (c : Core) (taskNum : ℕ) (charge : Task → ℚ) (init : ℚ) : ℚ :=
  (c.tasks.take taskNum).foldl (fun acc t => acc + charge t) init

/-- The loop of `responseTimePreemptiveTask` for the runnable whose accumulated time is
`response_n_accum`. -/
def firstJobLoop (c : Core) (taskNum : ℕ) (response_n_accum : ℚ) : Fueled ℚ :=
  doWhile (fun response => c.chargeHigher taskNum
    (fun t => myCeil ρ response t.period * t.executionTime) response_n_accum) response_n_accum

/-- `for (i = 0; i < runnables.size(); i++)` with the execution time accumulated so far: the value
that `body` gives for each runnable. -/
def runnableLoop (body : ℚ → Runnable → Fueled ℚ) : ℚ → List Runnable → Fueled (List ℚ)
  | _, [] => pure []
  | accum, r :: rs => do
      let response ← body (accum + r.executionTime) r
      let rest ← runnableLoop body (accum + r.executionTime) rs
      pure (response :: rest)

/-- The writes of that loop: `runnables.get(i).responseTime` and `responseTime` of the task, which
keeps the last value. -/
def Task.store (t : Task) (responses : List ℚ) : Task :=
  { t with
    runnables := List.zipWith (fun r v => { r with responseTime := v }) t.runnables responses
    responseTime := responses.getLast?.getD t.responseTime }

/-- `blocking`: the longest runnable of a task of lower priority. -/
def blocking (c : Core) (taskNum : ℕ) : ℚ :=
  if taskNum = c.tasks.length - 1 then 0
  else
    (c.tasks.drop (taskNum + 1)).foldl (fun maxB t =>
      t.runnables.foldl (fun maxB r =>
        if r.executionTime > maxB then r.executionTime else maxB) maxB) 0

/-- `busy_period`: every ceiling divides by the period of `taskNum` itself. -/
def busyPeriod (c : Core) (taskNum : ℕ) : Fueled ℚ :=
  doWhile (fun length => c.chargeHigher (taskNum + 1)
      (fun t => t.executionTime * myCeil ρ length (c.task taskNum).period) (blocking c taskNum))
    (blocking c taskNum + (c.task taskNum).executionTime)

/-- `for (k = 1; k <= K; k++)`: the largest `job k - (k-1) * period`, and at least `0`. -/
def worstJob (job : ℤ → Fueled ℚ) (period : ℚ) (K : ℤ) : Fueled ℚ :=
  Fueled.loop (fun state : ℤ × ℚ =>
    if state.1 ≤ K then do
      let finish ← job state.1
      let jobR := finish - (ρ.wrap (state.1 - 1) : ℤ) * period
      pure (.inl (ρ.wrap (state.1 + 1), if state.2 > jobR then state.2 else jobR))
    else pure (.inr state.2)) (1, 0)

/-- `job_finishDM`. -/
def jobFinishDM (c : Core) (taskIndex : ℕ) (k : ℤ) (executionTimeRunnableAcum : ℚ) : Fueled ℚ :=
  let init := (ρ.wrap (k - 1) : ℤ) * (c.task taskIndex).executionTime + executionTimeRunnableAcum
  doWhile (fun finish => c.chargeHigher taskIndex
    (fun t => myCeil ρ finish t.period * t.executionTime) init) init

/-- The responses `RTADeadlineMiss` computes for the runnables of a task. -/
def deadlineMissResponses (c : Core) (taskNum : ℕ) : Fueled (List ℚ) :=
  runnableLoop (fun accum _ => do
    let length ← busyPeriod ρ c taskNum
    worstJob ρ (fun k => jobFinishDM ρ c taskNum k accum) (c.task taskNum).period
      (ρ.toInt (myCeil ρ length (c.task taskNum).period))) 0 (c.task taskNum).runnables

/-- `RTADeadlineMiss`. -/
def rtaDeadlineMiss (c : Core) (taskNum : ℕ) : Fueled Core := do
  let responses ← deadlineMissResponses ρ c taskNum
  pure (c.setTask taskNum ((c.task taskNum).store responses))

/-- `tasks.get(j).responseTime > tasks.get(j).deadline`. -/
def Core.misses (c : Core) (j : ℕ) : Bool := (c.task j).responseTime > (c.task j).deadline

/-- The first loop of `responseTimePreemptiveTask`: the responses of the first job. -/
def firstJobResponses (c : Core) (taskNum : ℕ) : Fueled (List ℚ) :=
  runnableLoop (fun accum _ => firstJobLoop ρ c taskNum accum) 0 (c.task taskNum).runnables

/-- One round of the deadline check: whichever task misses, `taskNum` is recomputed. -/
def deadlineCheckRound (taskNum : ℕ) (c : Core) (j : ℕ) : Fueled Core :=
  if c.misses j then rtaDeadlineMiss ρ c taskNum else pure c

/-- The deadline check at the end of `responseTimePreemptiveTask`. -/
def deadlineCheck (c : Core) (taskNum : ℕ) : Fueled Core :=
  (List.range c.tasks.length).foldlM (deadlineCheckRound ρ taskNum) c

/-- `responseTimePreemptiveTask`. -/
def responseTimePreemptiveTask (c : Core) (taskNum : ℕ) : Fueled Core := do
  let responses ← firstJobResponses ρ c taskNum
  deadlineCheck ρ (c.setTask taskNum ((c.task taskNum).store responses)) taskNum

/-- `job_start`. -/
def jobStart (c : Core) (taskIndex : ℕ) (k : ℤ) (executionTimeRunnableAcum : ℚ) (r : Runnable) :
    Fueled ℚ :=
  let init := blocking c taskIndex + (ρ.wrap (k - 1) : ℤ) * (c.task taskIndex).executionTime +
    (executionTimeRunnableAcum - r.executionTime)
  doWhile (fun start => c.chargeHigher taskIndex
    (fun t => (myFloor ρ start t.period + 1) * t.executionTime) init) init

/-- `job_finish`. -/
def jobFinish (c : Core) (taskIndex : ℕ) (k : ℤ) (executionTimeRunnableAcum : ℚ) (r : Runnable) :
    Fueled ℚ := do
  let start ← jobStart ρ c taskIndex k executionTimeRunnableAcum r
  let init := start + r.executionTime
  doWhile (fun finish => c.chargeHigher taskIndex
    (fun t => match t.preemptionType with
      | .preemptive =>
          (myCeil ρ finish t.period - (myFloor ρ start t.period + 1)) * t.executionTime
      | .cooperative => 0) init) init

/-- The responses `responseTimeCooperativeTask` computes for the runnables of a task. -/
def cooperativeResponses (c : Core) (taskNum : ℕ) : Fueled (List ℚ) :=
  runnableLoop (fun accum r => do
    let length ← busyPeriod ρ c taskNum
    worstJob ρ (fun k => jobFinish ρ c taskNum k accum r) (c.task taskNum).period
      (ρ.toInt (myCeil ρ length (c.task taskNum).period))) 0 (c.task taskNum).runnables

/-- `responseTimeCooperativeTask`. -/
def responseTimeCooperativeTask (c : Core) (taskNum : ℕ) : Fueled Core := do
  let responses ← cooperativeResponses ρ c taskNum
  pure (c.setTask taskNum ((c.task taskNum).store responses))

/-- One round of the loop of `RTAcore`. -/
def rtaTask (c : Core) (z : ℕ) : Fueled Core :=
  match (c.task z).preemptionType with
  | .preemptive => responseTimePreemptiveTask ρ c z
  | .cooperative => responseTimeCooperativeTask ρ c z

/-- `RTAcore`. -/
def rtaCore (c : Core) : Fueled Core :=
  (List.range c.tasks.length).foldlM (fun c z => rtaTask ρ c z) c

/-- The loop of `RTAcore_per_task` for the task at position `z`. -/
def perTaskLoop (c : Core) (z : ℕ) : Fueled ℚ :=
  doWhile (fun response => c.chargeHigher z
      (fun t => (ρ.toInt ⌈response / t.period⌉ : ℤ) * t.processInstructions)
      (c.task z).processInstructions)
    (c.task z).processInstructions

/-- One round of `RTAcore_per_task`. -/
def perTaskRound (c : Core) (z : ℕ) : Fueled Core := do
  let response ← perTaskLoop ρ c z
  pure (c.setTask z { c.task z with responseTime := response })

/-- `RTAcore_per_task`. -/
def rtaCorePerTask (c : Core) : Fueled Core :=
  (List.range c.tasks.length).foldlM (fun c z => perTaskRound ρ c z) c

end Analysis

end Hipert.Amalthea
