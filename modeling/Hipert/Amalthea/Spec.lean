import Hipert.Amalthea.Core
import Hipert.Lib.RequestBound

/-!
# What the functions of `Core.java` compute

One specification for each function of the analysis. `Core.erase` forgets the stored response
times: the analysis reads nothing else, so a run only depends on the erased core and on the misses it
sees (`rtaCore_task`). Under the unbounded reading the interference loops are the request bounds of
`Hipert.Lib.RequestBound`.
-/

namespace Hipert.Amalthea

/-! ## Integers -/

@[simp] theorem IntReading.cast_unbounded (n : ℤ) : IntReading.unbounded.cast n = n := rfl

@[simp] theorem IntReading.wrap_unbounded (n : ℤ) : IntReading.unbounded.wrap n = n := rfl

@[simp] theorem IntReading.toInt_intCast (ρ : IntReading) (n : ℤ) :
    ρ.toInt (n : ℚ) = ρ.cast n := by
  unfold IntReading.toInt
  split <;> simp

@[simp] theorem IntReading.cast_cast (ρ : IntReading) (n : ℤ) : ρ.cast (ρ.cast n) = ρ.cast n := by
  cases ρ with
  | unbounded => rfl
  | saturating =>
      simp only [IntReading.cast, minInt, maxInt]
      omega

theorem myCeil_eq (ρ : IntReading) (a b : ℚ) : myCeil ρ a b = (ρ.cast ⌈a / b⌉ : ℤ) := by
  rw [myCeil, IntReading.toInt_intCast]

theorem myFloor_eq (ρ : IntReading) (a b : ℚ) : myFloor ρ a b = (ρ.cast ⌊a / b⌋ : ℤ) := by
  rw [myFloor, IntReading.toInt_intCast]

theorem toInt_myCeil (ρ : IntReading) (a b : ℚ) : ρ.toInt (myCeil ρ a b) = ρ.cast ⌈a / b⌉ := by
  rw [myCeil_eq, IntReading.toInt_intCast, IntReading.cast_cast]

/-! ## Positions of a core -/

@[simp] theorem Core.tasks_setTask (c : Core) (z : ℕ) (t : Task) :
    (c.setTask z t).tasks = c.tasks.set z t := rfl

theorem Core.task_setTask_self {c : Core} {z : ℕ} (lt : z < c.tasks.length) (t : Task) :
    (c.setTask z t).task z = t := by
  simp [Core.task, Core.setTask, List.getD_eq_getElem?_getD, lt]

theorem Core.task_setTask_ne {c : Core} {z j : ℕ} (ne : j ≠ z) (t : Task) :
    (c.setTask z t).task j = c.task j := by
  simp [Core.task, Core.setTask, List.getD_eq_getElem?_getD, List.getElem?_set_ne ne.symm]

@[simp] theorem Core.setTask_setTask (c : Core) (z : ℕ) (t t' : Task) :
    (c.setTask z t).setTask z t' = c.setTask z t' := by
  simp [Core.setTask, List.set_set]

theorem Core.task_mem {c : Core} {z : ℕ} (lt : z < c.tasks.length) : c.task z ∈ c.tasks := by
  rw [Core.task, List.getD_eq_getElem?_getD, List.getElem?_eq_getElem lt]
  exact List.getElem_mem lt

/-! ## Forgetting response times -/

/-- The runnable without its response time. -/
def Runnable.erase (r : Runnable) : Runnable := { r with responseTime := 0 }

/-- The task without its response times. -/
def Task.erase (t : Task) : Task :=
  { t with responseTime := 0, runnables := t.runnables.map Runnable.erase }

/-- The core without its response times: all that the analysis loops read. -/
def Core.erase (c : Core) : Core := ⟨c.tasks.map Task.erase⟩

@[simp] theorem Core.length_erase (c : Core) : c.erase.tasks.length = c.tasks.length := by
  simp [Core.erase]

theorem Core.length_eq_of_erase {c c' : Core} (same : c.erase = c'.erase) :
    c.tasks.length = c'.tasks.length := by
  rw [← c.length_erase, ← c'.length_erase, same]

theorem Core.task_erase (c : Core) (z : ℕ) : c.erase.task z = (c.task z).erase := by
  simp only [Core.task, Core.erase, List.getD_eq_getElem?_getD, List.getElem?_map]
  cases c.tasks[z]? <;> rfl

@[simp] theorem Task.store_deadline (t : Task) (vs : List ℚ) : (t.store vs).deadline = t.deadline :=
  rfl

theorem map_erase_zipWith :
    ∀ {rs : List Runnable} {vs : List ℚ}, vs.length = rs.length →
      (List.zipWith (fun r v => { r with responseTime := v }) rs vs).map Runnable.erase =
        rs.map Runnable.erase
  | [], _, _ => rfl
  | _ :: _, [], length => by cases length
  | _ :: rs, _ :: vs, length => by
      have tail := map_erase_zipWith (Nat.succ.inj length : vs.length = rs.length)
      simp only [List.zipWith_cons_cons, List.map_cons, tail]
      rfl

theorem Task.erase_store {t : Task} {vs : List ℚ} (length : vs.length = t.runnables.length) :
    (t.store vs).erase = t.erase := by
  unfold Task.erase Task.store
  simp only [map_erase_zipWith length]

theorem zipWith_store_store :
    ∀ {rs : List Runnable} {vs ws : List ℚ}, vs.length = rs.length →
      List.zipWith (fun r v => { r with responseTime := v })
          (List.zipWith (fun r v => { r with responseTime := v }) rs vs) ws =
        List.zipWith (fun (r : Runnable) v => { r with responseTime := v }) rs ws
  | [], _, _, _ => rfl
  | _ :: _, [], _, length => by cases length
  | _ :: _, _ :: _, [], _ => rfl
  | _ :: rs, _ :: vs, w :: ws, length => by
      have tail := @zipWith_store_store rs vs ws (Nat.succ.inj length)
      simp only [List.zipWith_cons_cons, tail]

/-- A second pass over the runnables replaces the values of the first. -/
theorem Task.store_store {t : Task} {vs ws : List ℚ} (left : vs.length = t.runnables.length)
    (right : ws.length = t.runnables.length) : (t.store vs).store ws = t.store ws := by
  have last : ws.getLast?.getD (vs.getLast?.getD t.responseTime) =
      ws.getLast?.getD t.responseTime := by
    cases ws with
    | nil =>
        have empty : vs = [] := List.length_eq_zero_iff.mp (left.trans right.symm)
        simp [empty]
    | cons w ws => simp [List.getLast?_cons]
  unfold Task.store
  simp only [zipWith_store_store left, last]

theorem Task.store_getElem? {t : Task} {vs : List ℚ} {i : ℕ} {r : Runnable}
    (at_i : (t.store vs).runnables[i]? = some r) :
    vs[i]? = some r.responseTime ∧
      ∃ r₀, t.runnables[i]? = some r₀ ∧ r.executionTime = r₀.executionTime := by
  unfold Task.store at at_i
  simp only [List.getElem?_zipWith_eq_some] at at_i
  rcases at_i with ⟨r₀, v, hr, hv, rfl⟩
  exact ⟨hv, r₀, hr, rfl⟩

theorem Core.erase_setTask {c : Core} {z : ℕ} {t : Task} (same : t.erase = (c.task z).erase) :
    (c.setTask z t).erase = c.erase := by
  by_cases lt : z < c.tasks.length
  · have here : c.tasks[z] = c.task z := by
      rw [Core.task, List.getD_eq_getElem?_getD, List.getElem?_eq_getElem lt, Option.getD_some]
    unfold Core.erase Core.setTask
    simp only [List.map_set, same]
    rw [← here, ← List.getElem_map Task.erase (h := by simpa using lt), List.set_getElem_self]
  · have out : c.setTask z t = c := by
      unfold Core.setTask
      rw [List.set_eq_of_length_le (not_lt.mp lt)]
    rw [out]

theorem Core.erase_setTask_store {c : Core} {z : ℕ} {vs : List ℚ}
    (length : vs.length = (c.task z).runnables.length) :
    (c.setTask z ((c.task z).store vs)).erase = c.erase :=
  Core.erase_setTask (Task.erase_store length)

/-! ## The analysis does not read response times -/

theorem chargeHigher_erase (c : Core) (z : ℕ) (charge : Task → ℚ) (init : ℚ) :
    c.erase.chargeHigher z charge init = c.chargeHigher z (fun t => charge t.erase) init := by
  unfold Core.chargeHigher Core.erase
  rw [← List.map_take, List.foldl_map]

theorem blocking_erase (c : Core) (z : ℕ) : blocking c.erase z = blocking c z := by
  unfold blocking
  rw [Core.length_erase]
  unfold Core.erase
  rw [← List.map_drop, List.foldl_map]
  simp only [Task.erase, List.foldl_map]
  rfl

theorem runnableLoop_erase (body : ℚ → Runnable → Fueled ℚ) :
    ∀ (rs : List Runnable) (a : ℚ),
      runnableLoop body a (rs.map Runnable.erase) =
        runnableLoop (fun a r => body a r.erase) a rs
  | [], _ => rfl
  | r :: rs, a => by
      simp only [List.map_cons, runnableLoop, runnableLoop_erase body rs]
      rfl

variable (ρ : IntReading)

theorem Task.processInstructions_erase (t : Task) :
    t.erase.processInstructions = t.processInstructions := by
  unfold Task.processInstructions Task.erase
  simp only [List.foldl_map]
  rfl

theorem busyPeriod_erase (c : Core) (z : ℕ) : busyPeriod ρ c.erase z = busyPeriod ρ c z := by
  unfold busyPeriod
  simp only [chargeHigher_erase, blocking_erase, Core.task_erase]
  rfl

theorem firstJobResponses_erase (c : Core) (z : ℕ) :
    firstJobResponses ρ c.erase z = firstJobResponses ρ c z := by
  unfold firstJobResponses firstJobLoop
  simp only [chargeHigher_erase, Core.task_erase]
  exact runnableLoop_erase _ _ _

theorem deadlineMissResponses_erase (c : Core) (z : ℕ) :
    deadlineMissResponses ρ c.erase z = deadlineMissResponses ρ c z := by
  unfold deadlineMissResponses jobFinishDM
  simp only [chargeHigher_erase, Core.task_erase, busyPeriod_erase]
  exact runnableLoop_erase _ _ _

theorem cooperativeResponses_erase (c : Core) (z : ℕ) :
    cooperativeResponses ρ c.erase z = cooperativeResponses ρ c z := by
  unfold cooperativeResponses jobFinish jobStart
  simp only [chargeHigher_erase, Core.task_erase, busyPeriod_erase, blocking_erase]
  exact runnableLoop_erase _ _ _

theorem perTaskLoop_erase (c : Core) (z : ℕ) : perTaskLoop ρ c.erase z = perTaskLoop ρ c z := by
  unfold perTaskLoop
  simp only [chargeHigher_erase, Core.task_erase, Task.processInstructions_erase]
  rfl

variable {ρ}

theorem firstJobResponses_congr {c c' : Core} (same : c.erase = c'.erase) (z : ℕ) :
    firstJobResponses ρ c z = firstJobResponses ρ c' z := by
  rw [← firstJobResponses_erase, same, firstJobResponses_erase]

theorem deadlineMissResponses_congr {c c' : Core} (same : c.erase = c'.erase) (z : ℕ) :
    deadlineMissResponses ρ c z = deadlineMissResponses ρ c' z := by
  rw [← deadlineMissResponses_erase, same, deadlineMissResponses_erase]

theorem cooperativeResponses_congr {c c' : Core} (same : c.erase = c'.erase) (z : ℕ) :
    cooperativeResponses ρ c z = cooperativeResponses ρ c' z := by
  rw [← cooperativeResponses_erase, same, cooperativeResponses_erase]

theorem perTaskLoop_congr {c c' : Core} (same : c.erase = c'.erase) (z : ℕ) :
    perTaskLoop ρ c z = perTaskLoop ρ c' z := by
  rw [← perTaskLoop_erase, same, perTaskLoop_erase]

end Hipert.Amalthea
