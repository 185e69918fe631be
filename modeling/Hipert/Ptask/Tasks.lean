import Hipert.Ptask.Time
import Mathlib.Data.List.Count
import Mathlib.Data.List.Induction
import Mathlib.Logic.Function.Basic

/-!
# The tasks of the library

Every task has a descriptor with its parameters, its state and its next activation, and a semaphore
on which it waits while it is suspended. The moves below are the critical sections of the library
and its blocking calls, made by the task itself or by any other thread, while the clock goes on.

A job is what a task runs from one call that waits to the next. Each has a release time, from which
its deadline and the next activation are counted, and does not start before it (`release_times`); a
periodic task's jobs are released at exact multiples of the period (`periodic_jobs`); and a
suspended task resumes once for each activation that was accepted (`activations_accounted`).
-/

namespace Hipert.Ptask

/-! ## Descriptors -/

/-- `ptask_state`. -/
inductive PtaskState where
  | suspended
  | active
  | wfp
  deriving DecidableEq, Repr

/-- `DEFERRED` and `NOW`. -/
inductive ActFlag where
  | deferred
  | now
  deriving DecidableEq, Repr

/-- Where a task's thread is. -/
inductive Place where
  /-- The descriptor has no thread. -/
  | absent
  /-- `ptask_std_body` before its test of `act_flag`. -/
  | created
  /-- The user's body. -/
  | body
  /-- The sleep of `ptask_wait_for_period`. -/
  | sleeping
  /-- `ptask_wait_for_activation`, entered. -/
  | suspending
  /-- `sem_wait`. -/
  | waiting
  /-- Past `sem_wait`. -/
  | woken
  /-- The sleep of `ptask_wait_for_activation`. -/
  | delayed
  deriving DecidableEq, Repr

/-- `struct task_par` with the task's semaphore and place. `activation` is the field `at`, and
`modes` whether the field `modes` is not `NULL`. -/
structure TaskPar where
  period : Tspec
  deadline : Tspec
  activation : Tspec
  dl : Tspec
  offset : Tspec
  actFlag : ActFlag
  modes : Bool
  state : PtaskState
  tsem : ℕ
  place : Place
  deriving DecidableEq, Repr

/-- The fields of `tpars` that `__create_internal` copies. -/
structure Tpars where
  period : Tspec
  rdline : Tspec
  actFlag : ActFlag
  modes : Bool
  deriving DecidableEq, Repr

/-- `__create_internal`, for a descriptor that it was given. `at`, `dl` and the semaphore stay what
the last task on the descriptor left. -/
def createInternal (t : TaskPar) (tp : Tpars) : TaskPar :=
  { t with
    period := tp.period, deadline := tp.rdline, offset := tspecZero, actFlag := tp.actFlag
    modes := tp.modes, state := .active, place := .created }

/-- `clock_nanosleep` until an absolute time has returned: at once if the nanoseconds are out of
range, else when the clock is there. -/
def SleepOver (now wakeup : Tspec) : Prop := wakeup.Normal → wakeup.ns ≤ now.ns

instance (now wakeup : Tspec) : Decidable (SleepOver now wakeup) :=
  inferInstanceAs (Decidable (_ → _))

/-- `ptask_activate`, with its return value. -/
def ptaskActivate (now : Tspec) (t : TaskPar) : TaskPar × ℤ :=
  if t.state = .active ∨ t.state = .wfp then (t, -1)
  else
    ({ t with
      dl := tspecAdd now t.deadline, activation := tspecAdd now t.period, tsem := t.tsem + 1 }, 1)

/-- `ptask_activate_at`, with its return value; `t0` is the reference. -/
def ptaskActivateAt (t0 : Tspec) (offset : ℤ) (t : TaskPar) : TaskPar × ℤ :=
  let reloff := tspecFrom offset .milli
  if t.state = .active ∨ t.state = .wfp then (t, -1)
  else
    let start := tspecAdd t0 reloff
    ({ t with
      offset := start, dl := tspecAdd start t.deadline, activation := tspecAdd start t.period
      tsem := t.tsem + 1 }, 1)

/-- `ptask_deadline_miss`. -/
def ptaskDeadlineMiss (now : Tspec) (t : TaskPar) : ℤ :=
  if 0 < tspecCmp now t.dl then 1 else 0

/-! ## Moves -/

/-- What happens to a task: a part of its own thread's way through the library, from one point where
it may block or leave a critical section to the next, or a call about it, made by any thread. -/
inductive Act where
  | create (tp : Tpars)
  /-- `ptask_std_body` up to the call of the body. -/
  | start
  /-- `ptask_wait_for_period` up to where it blocks; `found` is what `rtmode_taskfind` returns. -/
  | waitForPeriod (found : Bool)
  /-- `ptask_wait_for_period` after its sleep. -/
  | wake
  /-- The call of `ptask_wait_for_activation`. -/
  | waitForActivation
  | suspend
  | semWait
  /-- `ptask_wait_for_activation` after `sem_wait`, up to its sleep if there is one. -/
  | resume
  /-- `ptask_wait_for_activation` after its sleep. -/
  | delayOver
  /-- The return of the body. -/
  | exit
  | activate
  | activateAt (offset : ℤ)
  | setPeriod (period : ℤ) (unit : TimeUnit)
  | setDeadline (dline : ℤ) (unit : TimeUnit)
  deriving DecidableEq, Repr

/-- The descriptor after it, if it can happen now; `t0` is the reference time. -/
def taskStep (t0 now : Tspec) (t : TaskPar) : Act → Option TaskPar
  | .create tp => if t.place = .absent then some (createInternal t tp) else none
  | .start =>
      if t.place = .created then
        match t.actFlag with
        | .deferred => some { t with place := .suspending }
        | .now =>
            some { t with
              dl := tspecAdd now t.deadline, activation := tspecAdd now t.period, place := .body }
      else none
  | .waitForPeriod found =>
      if t.place = .body then
        if t.modes && !found then some { t with place := .suspending }
        else some { t with state := .wfp, place := .sleeping }
      else none
  | .wake =>
      if t.place = .sleeping ∧ SleepOver now t.activation then
        some { t with
          state := .active, dl := tspecAdd t.activation t.deadline
          activation := tspecAdd t.activation t.period, place := .body }
      else none
  | .waitForActivation =>
      if t.place = .body then some { t with place := .suspending } else none
  | .suspend =>
      if t.place = .suspending then some { t with state := .suspended, place := .waiting } else none
  | .semWait =>
      if t.place = .waiting ∧ 0 < t.tsem then
        some { t with tsem := t.tsem - 1, place := .woken }
      else none
  | .resume =>
      if t.place = .woken then
        if t.offset.tvSec ≠ 0 ∨ t.offset.tvNsec ≠ 0 then
          some { t with state := .active, place := .delayed }
        else some { t with state := .active, place := .body }
      else none
  | .delayOver =>
      if t.place = .delayed ∧ SleepOver now t.offset then
        some { t with offset := tspecZero, place := .body }
      else none
  | .exit => if t.place = .body then some { t with place := .absent } else none
  | .activate => some (ptaskActivate now t).1
  | .activateAt offset => some (ptaskActivateAt t0 offset t).1
  | .setPeriod period unit => some { t with period := tspecFrom period unit }
  | .setDeadline dline unit => some { t with deadline := tspecFrom dline unit }

/-- The clock and the descriptors. -/
structure Tasks where
  now : Tspec
  task : ℕ → TaskPar

/-- The clock shows a later time, or something happens to a task. -/
inductive Move where
  | tick (now : Tspec)
  | task (i : ℕ) (act : Act)
  deriving DecidableEq, Repr

/-- One move, if it can be made. -/
def exec (t0 : Tspec) (move : Move) (s : Tasks) : Option Tasks :=
  match move with
  | .tick now => if now.Normal ∧ s.now.ns ≤ now.ns then some { s with now := now } else none
  | .task i act =>
      (taskStep t0 s.now (s.task i) act).map fun t => { s with task := Function.update s.task i t }

/-- Moves in a given order, if all can be made. -/
def run (t0 : Tspec) (moves : List Move) (s : Tasks) : Option Tasks :=
  moves.foldlM (fun s move => exec t0 move s) s

section Moves

variable {t0 : Tspec} {s s' : Tasks} {move : Move} {moves : List Move} {i : ℕ}

theorem run_cons :
    run t0 (move :: moves) s = some s' ↔
      ∃ mid, exec t0 move s = some mid ∧ run t0 moves mid = some s' :=
  Option.bind_eq_some_iff

theorem run_append {later : List Move} :
    run t0 (moves ++ later) s = some s' ↔
      ∃ mid, run t0 moves s = some mid ∧ run t0 later mid = some s' := by
  rw [run, List.foldlM_append]
  exact Option.bind_eq_some_iff

/-- What a move does: the clock goes on, or one descriptor changes. -/
theorem exec_cases (step : exec t0 move s = some s') :
    (∃ now, move = .tick now ∧ now.Normal ∧ s.now.ns ≤ now.ns ∧ s' = { s with now := now }) ∨
      ∃ k act t, move = .task k act ∧ taskStep t0 s.now (s.task k) act = some t ∧
        s' = { s with task := Function.update s.task k t } := by
  cases move with
  | tick now =>
      unfold exec at step
      dsimp only at step
      split at step
      case isTrue given =>
        cases step
        exact .inl ⟨now, rfl, given.1, given.2, rfl⟩
      case isFalse => cases step
  | task k act =>
      rcases Option.map_eq_some_iff.mp step with ⟨t, made, rfl⟩
      exact .inr ⟨k, act, t, rfl, made, rfl⟩

/-- What a move does to one descriptor. -/
theorem task_cases (step : exec t0 move s = some s') (i : ℕ) :
    (∃ act, move = .task i act ∧ taskStep t0 s.now (s.task i) act = some (s'.task i) ∧
        s'.now = s.now) ∨
      (∀ act, move ≠ .task i act) ∧ s'.task i = s.task i := by
  rcases exec_cases step with ⟨now, rfl, -, -, rfl⟩ | ⟨k, act, t, rfl, made, rfl⟩
  · exact .inr ⟨fun act eq => (by cases eq), rfl⟩
  · by_cases own : k = i
    · subst own
      refine .inl ⟨act, rfl, ?_, rfl⟩
      dsimp only
      rw [made, Function.update_self]
    · refine .inr ⟨?_, Function.update_of_ne (Ne.symm own) ..⟩
      intro act' eq
      cases eq
      exact own rfl

/-- The clock shows a normal time, not before the one at which the library was initialised. -/
structure ClockOk (t0 now : Tspec) : Prop where
  reference : t0.Normal
  nonneg : 0 ≤ t0.ns
  normal : now.Normal
  after : t0.ns ≤ now.ns

/-- The clock never goes back. -/
theorem clock_step (step : exec t0 move s = some s') (clock : ClockOk t0 s.now) :
    ClockOk t0 s'.now ∧ s.now.ns ≤ s'.now.ns := by
  rcases exec_cases step with ⟨now, -, normal, later, rfl⟩ | ⟨k, act, t, -, -, rfl⟩
  · exact ⟨⟨clock.reference, clock.nonneg, normal, clock.after.trans later⟩, later⟩
  · exact ⟨clock, le_rfl⟩

end Moves

/-! ## Release times -/

/-- The state that goes with each place. -/
def Place.state : Place → PtaskState
  | .sleeping => .wfp
  | .waiting => .suspended
  | .woken => .suspended
  | _ => .active

/-- The current job was released at `ρ`. -/
structure Released (t : TaskPar) (ρ : ℤ) : Prop where
  activation : t.activation = ofNs (ρ + t.period.ns)
  dl : t.dl = ofNs (ρ + t.deadline.ns)

/-- The task has a job, or an activation that it has not taken yet. -/
def Due (t : TaskPar) : Prop :=
  t.place = .body ∨ t.place = .sleeping ∨ t.place = .woken ∨ t.place = .delayed ∨ 0 < t.tsem

/-- What holds of a descriptor from its creation on, until its parameters are changed. -/
structure Sound (tp : Tpars) (now : Tspec) (t : TaskPar) : Prop where
  period : t.period = tp.period
  deadline : t.deadline = tp.rdline
  state : t.state = t.place.state
  /-- No activation is left over from another task. -/
  fresh : t.place = .created → t.tsem = 0
  offset_normal : t.offset.Normal
  offset_zero : t.place = .created ∨ t.place = .body ∨ t.place = .sleeping ∨
    t.place = .suspending → t.offset = tspecZero
  /-- The release is not to come, unless the task still has to wait for its offset. -/
  released : Due t → ∃ ρ, Released t ρ ∧ (ρ ≤ now.ns ∨ ρ = t.offset.ns)

/-- What may happen to a task that keeps its parameters and is not activated for a time before the
reference. -/
def Act.Keeps : Act → Prop
  | .create _ => False
  | .setPeriod _ _ => False
  | .setDeadline _ _ => False
  | .activateAt offset => 0 ≤ offset
  | _ => True

section Sound

variable {t0 now : Tspec} {tp : Tpars} {t t' : TaskPar} {act : Act} {ρ : ℤ}

theorem Sound.of_create (t : TaskPar) (tp : Tpars) (now : Tspec) (fresh : t.tsem = 0) :
    Sound tp now (createInternal t tp) where
  period := rfl
  deadline := rfl
  state := rfl
  fresh _ := fresh
  offset_normal := tspecZero_normal
  offset_zero _ := rfl
  released due := by
    simp [Due, createInternal, fresh] at due

theorem Sound.later (sound : Sound tp now t) {now' : Tspec} (later : now.ns ≤ now'.ns) :
    Sound tp now' t where
  period := sound.period
  deadline := sound.deadline
  state := sound.state
  fresh := sound.fresh
  offset_normal := sound.offset_normal
  offset_zero := sound.offset_zero
  released due := by
    rcases sound.released due with ⟨ρ, released, before⟩
    exact ⟨ρ, released, before.imp_left later.trans'⟩

/-- A job that is released at a normal time has the normal times of the sums. -/
theorem released_at {start : Tspec} (normal : start.Normal) (period : t.period.Normal)
    (deadline : t.deadline.Normal) (activation : t.activation = tspecAdd start t.period)
    (dl : t.dl = tspecAdd start t.deadline) : Released t start.ns where
  activation := by rw [activation, tspecAdd_eq normal period]
  dl := by rw [dl, tspecAdd_eq normal deadline]

/-- A part of the thread's way that only changes its place and the semaphore. -/
theorem Sound.move (sound : Sound tp now t) (place : Place) (tsem : ℕ) (old : place ≠ .created)
    (zero : place = .body ∨ place = .sleeping ∨ place = .suspending → t.offset = tspecZero)
    (due : Due { t with tsem := tsem, place := place } → Due t) :
    Sound tp now { t with state := place.state, tsem := tsem, place := place } where
  period := sound.period
  deadline := sound.deadline
  state := rfl
  fresh created := absurd created old
  offset_normal := sound.offset_normal
  offset_zero at_place := zero (at_place.resolve_left old)
  released due' := by
    rcases sound.released (due due') with ⟨ρ, released, before⟩
    exact ⟨ρ, ⟨released.activation, released.dl⟩, before⟩

/-- A place from which the thread goes on while its state stays. -/
theorem Sound.move_same (sound : Sound tp now t) (place : Place) (old : place ≠ .created)
    (same : place.state = t.place.state)
    (zero : place = .body ∨ place = .sleeping ∨ place = .suspending → t.offset = tspecZero)
    (due : Due { t with place := place } → Due t) : Sound tp now { t with place := place } := by
  have moved := sound.move place t.tsem old zero due
  rwa [same, ← sound.state] at moved

/-- A new release time, reached now or at the offset. -/
theorem Sound.release (sound : Sound tp now t) (period : tp.period.Normal)
    (rdline : tp.rdline.Normal) {start : Tspec} (normal : start.Normal)
    (same : t'.period = t.period ∧ t'.deadline = t.deadline)
    (activation : t'.activation = tspecAdd start t.period)
    (dl : t'.dl = tspecAdd start t.deadline) (state : t'.state = t'.place.state)
    (old : t'.place ≠ .created) (offset_normal : t'.offset.Normal)
    (zero : t'.place = .body ∨ t'.place = .sleeping ∨ t'.place = .suspending →
      t'.offset = tspecZero)
    (reached : start.ns ≤ now.ns ∨ start.ns = t'.offset.ns) : Sound tp now t' where
  period := same.1.trans sound.period
  deadline := same.2.trans sound.deadline
  state := state
  fresh created := absurd created old
  offset_normal := offset_normal
  offset_zero at_place := zero (at_place.resolve_left old)
  released _ := by
    refine ⟨start.ns, released_at normal ?_ ?_ ?_ ?_, reached⟩
    · rwa [same.1, sound.period]
    · rwa [same.2, sound.deadline]
    · rw [activation, same.1]
    · rw [dl, same.2]

/-- An activation is accepted only while the task is in `ptask_wait_for_activation`. -/
theorem Sound.suspended (sound : Sound tp now t)
    (inactive : ¬(t.state = .active ∨ t.state = .wfp)) : t.place = .waiting ∨ t.place = .woken := by
  rw [sound.state] at inactive
  cases place : t.place <;> simp [place, Place.state] at inactive ⊢

theorem eq_tspecZero {t : Tspec} (none : ¬(t.tvSec ≠ 0 ∨ t.tvNsec ≠ 0)) : t = tspecZero := by
  rcases t with ⟨sec, nsec⟩
  simp only [ne_eq, not_or, not_not] at none
  rw [none.1, none.2, tspecZero]

/-- **One step.** A task that keeps its parameters stays sound. -/
theorem Sound.step (clock : ClockOk t0 now) (period : tp.period.Normal)
    (rdline : tp.rdline.Normal) (sound : Sound tp now t) (keeps : act.Keeps)
    (step : taskStep t0 now t act = some t') : Sound tp now t' := by
  cases act with
  | create tp' => exact keeps.elim
  | start =>
      obtain ⟨created, made⟩ := Option.ite_none_right_eq_some.mp step
      have zero := sound.offset_zero (.inl created)
      split at made
      · cases made
        refine sound.move_same .suspending (by decide) (by rw [created]; rfl) (fun _ => zero) ?_
        simp [Due, sound.fresh created]
      · cases made
        exact sound.release period rdline clock.normal ⟨rfl, rfl⟩ rfl rfl
          (by rw [sound.state, created]; rfl) (by simp) sound.offset_normal (fun _ => zero)
          (.inl le_rfl)
  | waitForPeriod found =>
      obtain ⟨body, made⟩ := Option.ite_none_right_eq_some.mp step
      have zero := sound.offset_zero (.inr (.inl body))
      have due : Due t := .inl body
      split at made
      · cases made
        exact sound.move_same .suspending (by decide) (by rw [body]; rfl) (fun _ => zero)
          (fun _ => due)
      · cases made
        exact sound.move .sleeping t.tsem (by decide) (fun _ => zero) (fun _ => due)
  | wake =>
      obtain ⟨given, made⟩ := Option.ite_none_right_eq_some.mp step
      have zero := sound.offset_zero (.inr (.inr (.inl given.1)))
      rcases sound.released (.inr (.inl given.1)) with ⟨ρ, released, -⟩
      have normal : t.activation.Normal := released.activation ▸ ofNs_normal _
      cases made
      exact sound.release period rdline normal ⟨rfl, rfl⟩ rfl rfl rfl (by simp)
        sound.offset_normal (fun _ => zero) (.inl (given.2 normal))
  | waitForActivation =>
      obtain ⟨body, made⟩ := Option.ite_none_right_eq_some.mp step
      cases made
      exact sound.move_same .suspending (by decide) (by rw [body]; rfl)
        (fun _ => sound.offset_zero (.inr (.inl body))) (fun _ => .inl body)
  | suspend =>
      obtain ⟨suspending, made⟩ := Option.ite_none_right_eq_some.mp step
      cases made
      refine sound.move .waiting t.tsem (by decide) (by simp) ?_
      intro due
      have posted : 0 < t.tsem := by simpa [Due] using due
      exact .inr (.inr (.inr (.inr posted)))
  | semWait =>
      obtain ⟨given, made⟩ := Option.ite_none_right_eq_some.mp step
      cases made
      have moved := sound.move .woken (t.tsem - 1) (by decide) (by simp)
        (fun _ => .inr (.inr (.inr (.inr given.2))))
      have state : t.state = Place.state .woken := by rw [sound.state, given.1]; rfl
      rwa [← state] at moved
  | resume =>
      obtain ⟨woken, made⟩ := Option.ite_none_right_eq_some.mp step
      have due : Due t := .inr (.inr (.inl woken))
      split at made
      case isTrue =>
        cases made
        exact sound.move .delayed t.tsem (by decide) (by simp) (fun _ => due)
      case isFalse none =>
        cases made
        exact sound.move .body t.tsem (by decide) (fun _ => eq_tspecZero none) (fun _ => due)
  | delayOver =>
      obtain ⟨given, made⟩ := Option.ite_none_right_eq_some.mp step
      have active : t.state = Place.state .body := by rw [sound.state, given.1]; rfl
      rcases sound.released (.inr (.inr (.inr (.inl given.1)))) with ⟨ρ, released, before⟩
      cases made
      refine ⟨sound.period, sound.deadline, active, (by simp), tspecZero_normal, (fun _ => rfl),
        fun _ => ⟨ρ, ⟨released.activation, released.dl⟩, .inl ?_⟩⟩
      rcases before with reached | delayed
      · exact reached
      · exact delayed.trans_le (given.2 sound.offset_normal)
  | exit =>
      obtain ⟨body, made⟩ := Option.ite_none_right_eq_some.mp step
      cases made
      exact sound.move_same .absent (by decide) (by rw [body]; rfl) (by simp)
        (fun _ => .inl body)
  | activate =>
      simp only [taskStep, ptaskActivate] at step
      split at step
      case isTrue =>
        cases step
        exact sound
      case isFalse inactive =>
        have place := sound.suspended inactive
        cases step
        exact sound.release period rdline clock.normal ⟨rfl, rfl⟩ rfl rfl sound.state
          (by rcases place with eq | eq <;> simp [eq]) sound.offset_normal
          (by rcases place with eq | eq <;> simp [eq]) (.inl le_rfl)
  | activateAt offset =>
      simp only [taskStep, ptaskActivateAt] at step
      split at step
      case isTrue =>
        cases step
        exact sound
      case isFalse inactive =>
        have place := sound.suspended inactive
        have normal : (tspecAdd t0 (tspecFrom offset .milli)).Normal := by
          rw [tspecAdd_eq clock.reference (tspecFrom_normal .milli keeps)]
          exact ofNs_normal _
        cases step
        exact sound.release period rdline normal ⟨rfl, rfl⟩ rfl rfl sound.state
          (by rcases place with eq | eq <;> simp [eq]) normal
          (by rcases place with eq | eq <;> simp [eq]) (.inr rfl)
  | setPeriod p unit => exact keeps.elim
  | setDeadline d unit => exact keeps.elim

/-- **One run.** -/
theorem Sound.run {s s' : Tasks} {i : ℕ} {moves : List Move} (clock : ClockOk t0 s.now)
    (period : tp.period.Normal) (rdline : tp.rdline.Normal) (sound : Sound tp s.now (s.task i))
    (ran : run t0 moves s = some s') (keeps : ∀ act, .task i act ∈ moves → act.Keeps) :
    Sound tp s'.now (s'.task i) ∧ ClockOk t0 s'.now ∧ s.now.ns ≤ s'.now.ns := by
  induction moves generalizing s with
  | nil =>
      cases ran
      exact ⟨sound, clock, le_rfl⟩
  | cons move moves ih =>
      rcases run_cons.mp ran with ⟨mid, step, rest⟩
      obtain ⟨clock', later⟩ := clock_step step clock
      have sound' : Sound tp mid.now (mid.task i) := by
        rcases task_cases step i with ⟨act, rfl, made, now⟩ | ⟨-, same⟩
        · rw [now]
          exact sound.step clock period rdline (keeps act List.mem_cons_self) made
        · rw [same]
          exact sound.later later
      rcases ih clock' sound' rest (fun act mem => keeps act (List.mem_cons_of_mem _ mem)) with
        ⟨sound'', clock'', later'⟩
      exact ⟨sound'', clock'', later.trans later'⟩

/-- What the creation of a task on a descriptor makes of it. -/
theorem create_run {s s' : Tasks} {i : ℕ} {moves : List Move}
    (ran : Ptask.run t0 (.task i (.create tp) :: moves) s = some s') :
    ∃ mid, exec t0 (.task i (.create tp)) s = some mid ∧ mid.now = s.now ∧
      mid.task i = createInternal (s.task i) tp ∧ Ptask.run t0 moves mid = some s' := by
  rcases run_cons.mp ran with ⟨mid, step, rest⟩
  rcases task_cases step i with ⟨act, eq, made, now⟩ | ⟨other, -⟩
  · cases eq
    obtain ⟨-, created⟩ := Option.ite_none_right_eq_some.mp made
    exact ⟨mid, step, now, (Option.some.inj created).symm, rest⟩
  · exact absurd rfl (other _)

theorem deadlineMiss_iff {deadline : ℤ} (normal : now.Normal) (dl : t.dl = ofNs deadline) :
    ptaskDeadlineMiss now t = 1 ↔ deadline < now.ns := by
  have late := tspecCmp_pos_iff normal (ofNs_normal deadline)
  rw [ns_ofNs] at late
  unfold ptaskDeadlineMiss
  rw [dl]
  split
  case isTrue given => exact iff_of_true rfl (late.mp given)
  case isFalse given => exact iff_of_false (by decide) (given ∘ late.mpr)

/-- Descriptors that no task has used. -/
def unused : TaskPar :=
  ⟨tspecZero, tspecZero, tspecZero, tspecZero, tspecZero, .deferred, false, .suspended, 0, .absent⟩

/-- A deferred task, activated for half a second after the reference, up to its second job. -/
def deferredMoves : List Move :=
  [.task 4 .start, .task 4 .suspend, .task 4 (.activateAt 500), .task 4 .semWait, .task 4 .resume,
    .tick ⟨5, 600000000⟩, .task 4 .delayOver, .task 4 (.waitForPeriod true),
    .tick ⟨6, 600000000⟩, .task 4 .wake]

end Sound

/-! ## Periodic tasks -/

section Periodic

variable {t0 now : Tspec} {tp : Tpars} {t t' : TaskPar} {act : Act} {r : ℤ} {k : ℕ}

/-- What may happen to a task that keeps its parameters. -/
def Act.KeepsParameters : Act → Prop
  | .create _ => False
  | .setPeriod _ _ => False
  | .setDeadline _ _ => False
  | _ => True

/-- A task between its start at `r` and its end, in job `k`. -/
structure Periodic (tp : Tpars) (r : ℤ) (k : ℕ) (t : TaskPar) : Prop where
  period : t.period = tp.period
  deadline : t.deadline = tp.rdline
  modes : t.modes = false
  place : t.place = .body ∨ t.place = .sleeping
  state : t.state = t.place.state
  released : Released t (r + k * tp.period.ns)

/-- A task that has not started, or that has ended. -/
structure Inert (place : Place) (t : TaskPar) : Prop where
  place : t.place = place
  state : t.state = .active

theorem Inert.call {place : Place} (inert : Inert place t) (t0 now : Tspec) (offset : ℤ) :
    ptaskActivate now t = (t, -1) ∧ ptaskActivateAt t0 offset t = (t, -1) := by
  unfold ptaskActivate ptaskActivateAt
  dsimp only
  rw [if_pos (.inl inert.state), if_pos (.inl inert.state)]
  exact ⟨rfl, rfl⟩

/-- A call about a task that is not suspended leaves it alone. -/
theorem Periodic.call (periodic : Periodic tp r k t) (t0 now : Tspec) (offset : ℤ) :
    ptaskActivate now t = (t, -1) ∧ ptaskActivateAt t0 offset t = (t, -1) := by
  have busy : t.state = .active ∨ t.state = .wfp := by
    rw [periodic.state]
    rcases periodic.place with place | place
    · exact .inl (by rw [place]; rfl)
    · exact .inr (by rw [place]; rfl)
  unfold ptaskActivate ptaskActivateAt
  dsimp only
  rw [if_pos busy, if_pos busy]
  exact ⟨rfl, rfl⟩

/-- A task that has ended stays so. -/
theorem Inert.ended (inert : Inert .absent t) (keeps : act.KeepsParameters)
    (step : taskStep t0 now t act = some t') : Inert .absent t' := by
  cases act with
  | create tp => exact keeps.elim
  | setPeriod p unit => exact keeps.elim
  | setDeadline d unit => exact keeps.elim
  | activate =>
      cases step
      rwa [(inert.call t0 now 0).1]
  | activateAt offset =>
      cases step
      rwa [(inert.call t0 now offset).2]
  | start => simp [taskStep, inert.place] at step
  | waitForPeriod found => simp [taskStep, inert.place] at step
  | wake => simp [taskStep, inert.place] at step
  | waitForActivation => simp [taskStep, inert.place] at step
  | suspend => simp [taskStep, inert.place] at step
  | semWait => simp [taskStep, inert.place] at step
  | resume => simp [taskStep, inert.place] at step
  | delayOver => simp [taskStep, inert.place] at step
  | exit => simp [taskStep, inert.place] at step

/-- **One step** of a periodic task: it goes on in the same job, ends, or wakes into the next job,
at or after the next multiple of the period. -/
theorem Periodic.step (period : tp.period.Normal) (rdline : tp.rdline.Normal)
    (periodic : Periodic tp r k t) (keeps : act.KeepsParameters)
    (stays : act ≠ .waitForActivation) (step : taskStep t0 now t act = some t') :
    act ≠ .wake ∧ (Periodic tp r k t' ∨ Inert .absent t') ∨
      act = .wake ∧ Periodic tp r (k + 1) t' ∧ r + (k + 1 : ℕ) * tp.period.ns ≤ now.ns := by
  cases act with
  | create tp => exact keeps.elim
  | setPeriod p unit => exact keeps.elim
  | setDeadline d unit => exact keeps.elim
  | waitForActivation => exact absurd rfl stays
  | activate =>
      cases step
      rw [(periodic.call t0 now 0).1]
      exact .inl ⟨by simp, .inl periodic⟩
  | activateAt offset =>
      cases step
      rw [(periodic.call t0 now offset).2]
      exact .inl ⟨by simp, .inl periodic⟩
  | waitForPeriod found =>
      simp only [taskStep, periodic.modes, Bool.false_and, Bool.false_eq_true, if_false] at step
      split at step
      case isTrue =>
        cases step
        exact .inl ⟨by simp, .inl ⟨periodic.period, periodic.deadline, rfl, .inr rfl, rfl,
          ⟨periodic.released.activation, periodic.released.dl⟩⟩⟩
      case isFalse => cases step
  | wake =>
      obtain ⟨given, made⟩ := Option.ite_none_right_eq_some.mp step
      have activation : t.activation = ofNs (r + (k + 1 : ℕ) * tp.period.ns) := by
        rw [periodic.released.activation, periodic.period]
        push_cast
        ring_nf
      have normal : t.activation.Normal := activation ▸ ofNs_normal _
      have reached := given.2 normal
      rw [activation, ns_ofNs] at reached
      cases made
      refine .inr ⟨rfl, ⟨periodic.period, periodic.deadline, periodic.modes, .inl rfl, rfl, ?_⟩,
        reached⟩
      have next := @released_at { t with
        state := .active, dl := tspecAdd t.activation t.deadline
        activation := tspecAdd t.activation t.period, place := .body } t.activation normal
        (periodic.period ▸ period) (periodic.deadline ▸ rdline) rfl rfl
      have release : t.activation.ns = r + (k + 1 : ℕ) * tp.period.ns := by
        rw [activation, ns_ofNs]
      rwa [release] at next
  | exit =>
      obtain ⟨body, made⟩ := Option.ite_none_right_eq_some.mp step
      cases made
      exact .inl ⟨by simp, .inr ⟨rfl, by rw [periodic.state, body]; rfl⟩⟩
  | start => rcases periodic.place with place | place <;> simp [taskStep, place] at step
  | suspend => rcases periodic.place with place | place <;> simp [taskStep, place] at step
  | semWait => rcases periodic.place with place | place <;> simp [taskStep, place] at step
  | resume => rcases periodic.place with place | place <;> simp [taskStep, place] at step
  | delayOver => rcases periodic.place with place | place <;> simp [taskStep, place] at step

/-- A task that is activated at its creation, before it starts. -/
structure Ready (tp : Tpars) (t : TaskPar) : Prop extends Inert .created t where
  period : t.period = tp.period
  deadline : t.deadline = tp.rdline
  modes : t.modes = false
  actFlag : t.actFlag = .now

theorem Ready.step (period : tp.period.Normal) (rdline : tp.rdline.Normal) (normal : now.Normal)
    (ready : Ready tp t) (keeps : act.KeepsParameters)
    (step : taskStep t0 now t act = some t') :
    act ≠ .start ∧ act ≠ .wake ∧ Ready tp t' ∨ act = .start ∧ Periodic tp now.ns 0 t' := by
  cases act with
  | create tp => exact keeps.elim
  | setPeriod p unit => exact keeps.elim
  | setDeadline d unit => exact keeps.elim
  | activate =>
      cases step
      rw [(ready.call t0 now 0).1]
      exact .inl ⟨by simp, by simp, ready⟩
  | activateAt offset =>
      cases step
      rw [(ready.call t0 now offset).2]
      exact .inl ⟨by simp, by simp, ready⟩
  | start =>
      simp only [taskStep, ready.place, ready.actFlag, if_true] at step
      cases step
      refine .inr ⟨rfl, ready.period, ready.deadline, ready.modes, .inl rfl, ready.state, ?_⟩
      have first := @released_at { t with
        dl := tspecAdd now t.deadline, activation := tspecAdd now t.period, place := .body } now
        normal (ready.period ▸ period) (ready.deadline ▸ rdline) rfl rfl
      rw [Nat.cast_zero, zero_mul, add_zero]
      exact ⟨first.activation, first.dl⟩
  | waitForPeriod found => simp [taskStep, ready.place] at step
  | wake => simp [taskStep, ready.place] at step
  | waitForActivation => simp [taskStep, ready.place] at step
  | suspend => simp [taskStep, ready.place] at step
  | semWait => simp [taskStep, ready.place] at step
  | resume => simp [taskStep, ready.place] at step
  | delayOver => simp [taskStep, ready.place] at step
  | exit => simp [taskStep, ready.place] at step

/-- The stages of a periodic task after the moves of a run: not started and never woken, in job `k`
after `k` wakes since the start at `r`, or ended. -/
inductive Stage (t0 : Tspec) (tp : Tpars) (i : ℕ) (s : Tasks) (moves : List Move) (s' : Tasks) :
    Prop where
  | ready (ready : Ready tp (s'.task i)) (never : moves.count (.task i .wake) = 0)
  | running (before after : List Move) (start : Tasks)
      (split : moves = before ++ .task i .start :: after)
      (ran : Ptask.run t0 before s = some start)
      (job : Periodic tp start.now.ns (moves.count (.task i .wake)) (s'.task i))
      (reached : start.now.ns + moves.count (.task i .wake) * tp.period.ns ≤ s'.now.ns)
  | ended (ended : Inert .absent (s'.task i))

theorem Stage.run {s s' : Tasks} {i : ℕ} {moves : List Move} (clock : ClockOk t0 s.now)
    (period : tp.period.Normal) (rdline : tp.rdline.Normal) (ready : Ready tp (s.task i))
    (ran : Ptask.run t0 moves s = some s')
    (keeps : ∀ act, .task i act ∈ moves → act.KeepsParameters ∧ act ≠ .waitForActivation) :
    Stage t0 tp i s moves s' ∧ ClockOk t0 s'.now := by
  induction moves using List.reverseRecOn generalizing s' with
  | nil =>
      cases ran
      exact ⟨.ready ready rfl, clock⟩
  | append_singleton moves move ih =>
      rcases run_append.mp ran with ⟨mid, first, last⟩
      rcases run_cons.mp last with ⟨_, step, rest⟩
      cases rest
      have mem {act : Act} (eq : move = .task i act) : .task i act ∈ moves ++ [move] := by
        rw [eq]
        exact List.mem_append_right _ List.mem_cons_self
      rcases ih first (fun act mem => keeps act (List.mem_append_left _ mem)) with ⟨stage, clock'⟩
      obtain ⟨clock'', later⟩ := clock_step step clock'
      refine ⟨?_, clock''⟩
      rcases task_cases step i with ⟨act, rfl, made, now⟩ | ⟨other, same⟩
      · obtain ⟨keep, stays⟩ := keeps act (mem rfl)
        have counts : (moves ++ [Move.task i act]).count (.task i .wake) =
            moves.count (.task i .wake) + if act = .wake then 1 else 0 := by
          rw [List.count_append, List.count_singleton]
          congr 1
          by_cases wake : act = .wake <;> simp [wake]
        cases stage with
        | ready ready never =>
            rcases ready.step period rdline clock'.normal keep made with
              ⟨-, quiet, ready'⟩ | ⟨rfl, started⟩
            · refine .ready ready' ?_
              rw [counts, never, if_neg quiet]
            · refine .running moves [] mid rfl first ?_ ?_
              · rw [counts, never, if_neg (by simp)]
                exact started
              · rw [counts, never, if_neg (by simp)]
                simpa using later
        | running before after start split began job reached =>
            have split' : moves ++ [Move.task i act] =
                before ++ .task i .start :: (after ++ [Move.task i act]) := by
              rw [split, List.append_assoc, List.cons_append]
            rcases job.step period rdline keep stays made with
              ⟨quiet, job' | ended⟩ | ⟨rfl, job', reached'⟩
            · refine .running before _ start split' began ?_ ?_
              · rw [counts, if_neg quiet]
                exact job'
              · rw [counts, if_neg quiet]
                exact reached.trans later
            · exact .ended ended
            · refine .running before _ start split' began ?_ ?_
              · rw [counts, if_pos rfl]
                exact job'
              · rw [counts, if_pos rfl]
                exact reached'.trans later
        | ended ended => exact .ended (ended.ended keep made)
      · have counts : (moves ++ [move]).count (.task i .wake) =
            moves.count (.task i .wake) := by
          rw [List.count_append, List.count_singleton, if_neg (by simpa using other .wake),
            Nat.add_zero]
        cases stage with
        | ready ready never => exact .ready (same ▸ ready) (counts.trans never)
        | running before after start split began job reached =>
            refine .running before (after ++ [move]) start ?_ began ?_ ?_
            · rw [split, List.append_assoc, List.cons_append]
            · rw [counts, same]
              exact job
            · rw [counts]
              exact reached.trans later
        | ended ended => exact .ended (same ▸ ended)

/-- The stages from the creation on. -/
theorem Stage.of_create {s s' : Tasks} {i : ℕ} {moves : List Move} (clock : ClockOk t0 s.now)
    (period : tp.period.Normal) (rdline : tp.rdline.Normal) (flag : tp.actFlag = .now)
    (modes : tp.modes = false)
    (ran : Ptask.run t0 (.task i (.create tp) :: moves) s = some s')
    (keeps : ∀ act, .task i act ∈ moves → act.KeepsParameters ∧ act ≠ .waitForActivation) :
    ∃ mid, exec t0 (.task i (.create tp)) s = some mid ∧ Stage t0 tp i mid moves s' ∧
      ClockOk t0 s'.now := by
  rcases create_run ran with ⟨mid, step, now, created, rest⟩
  have ready : Ready tp (mid.task i) := by
    rw [created]
    exact ⟨⟨rfl, rfl⟩, rfl, rfl, modes, flag⟩
  rcases Stage.run (now ▸ clock) period rdline ready rest keeps with ⟨stage, clock'⟩
  exact ⟨mid, step, stage, clock'⟩

/-- A task that is in a job has started. -/
theorem Stage.of_job {s s' : Tasks} {i : ℕ} {moves : List Move} (stage : Stage t0 tp i s moves s')
    (job : (s'.task i).place = .body ∨ (s'.task i).place = .sleeping) :
    ∃ before after start, moves = before ++ .task i .start :: after ∧
      Ptask.run t0 before s = some start ∧
      Periodic tp start.now.ns (moves.count (.task i .wake)) (s'.task i) ∧
      start.now.ns + moves.count (.task i .wake) * tp.period.ns ≤ s'.now.ns := by
  cases stage with
  | ready ready never =>
      rw [ready.place] at job
      rcases job with job | job <;> cases job
  | running before after start split began periodic reached =>
      exact ⟨before, after, start, split, began, periodic, reached⟩
  | ended ended =>
      rw [ended.place] at job
      rcases job with job | job <;> cases job

/-- **Periodic tasks.** In any run of the library in which nobody changes its parameters, a task
without modes that starts at its creation and never suspends itself has its job `k`, after `k` wakes,
exactly `k` periods after its start, whatever the earlier jobs took: it does not run before, its
deadline and its next activation are counted from there, and so it has started at most one job more
than periods have passed. -/
theorem periodic_jobs {s s' : Tasks} {i : ℕ} {moves : List Move} (clock : ClockOk t0 s.now)
    (period : tp.period.Normal) (rdline : tp.rdline.Normal) (flag : tp.actFlag = .now)
    (modes : tp.modes = false)
    (ran : Ptask.run t0 (.task i (.create tp) :: moves) s = some s')
    (keeps : ∀ act, .task i act ∈ moves → act.KeepsParameters ∧ act ≠ .waitForActivation)
    (job : (s'.task i).place = .body ∨ (s'.task i).place = .sleeping) :
    ∃ before after start, moves = before ++ .task i .start :: after ∧
      Ptask.run t0 (.task i (.create tp) :: before) s = some start ∧
      let release := start.now.ns + moves.count (.task i .wake) * tp.period.ns
      release ≤ s'.now.ns ∧
        (s'.task i).activation = ofNs (release + tp.period.ns) ∧
        (s'.task i).dl = ofNs (release + tp.rdline.ns) ∧
        (ptaskDeadlineMiss s'.now (s'.task i) = 1 ↔ release + tp.rdline.ns < s'.now.ns) := by
  obtain ⟨mid, step, stage, clock'⟩ := Stage.of_create clock period rdline flag modes ran keeps
  obtain ⟨before, after, start, split, began, periodic, reached⟩ := stage.of_job job
  have activation := periodic.period ▸ periodic.released.activation
  have dl := periodic.deadline ▸ periodic.released.dl
  exact ⟨before, after, start, split, run_cons.mpr ⟨mid, step, began⟩, reached, activation, dl,
    deadlineMiss_iff clock'.normal dl⟩

/-- A task with a period of one second whose first job ends in the middle of the third period. -/
def lateMoves : List Move :=
  [.tick ⟨2, 0⟩, .task 0 .start, .tick ⟨4, 500000000⟩, .task 0 (.waitForPeriod true), .task 0 .wake,
    .task 0 (.waitForPeriod true), .task 0 .wake, .task 0 (.waitForPeriod true)]

theorem periodic_jobs_late : ∃ s',
    run ⟨0, 0⟩ (.task 0 (.create ⟨⟨1, 0⟩, ⟨1, 0⟩, .now, false⟩) :: lateMoves)
        ⟨⟨1, 0⟩, fun _ => unused⟩ = some s' ∧ (s'.task 0).place = .sleeping ∧
      ∃ before after start, lateMoves = before ++ .task 0 .start :: after ∧
        run ⟨0, 0⟩ (.task 0 (.create ⟨⟨1, 0⟩, ⟨1, 0⟩, .now, false⟩) :: before)
          ⟨⟨1, 0⟩, fun _ => unused⟩ = some start ∧
        (s'.task 0).activation = ofNs (start.now.ns + 2 * 1000000000 + 1000000000) := by
  have runs : (run ⟨0, 0⟩ (.task 0 (.create ⟨⟨1, 0⟩, ⟨1, 0⟩, .now, false⟩) :: lateMoves)
      ⟨⟨1, 0⟩, fun _ => unused⟩).map (fun s => (s.task 0).place) = some .sleeping := by
    decide +kernel
  obtain ⟨s', ran, place⟩ := Option.map_eq_some_iff.mp runs
  have clock : ClockOk ⟨0, 0⟩ ⟨1, 0⟩ := ⟨by decide, by decide, by decide, by decide⟩
  rcases periodic_jobs clock (by decide) (by decide) rfl rfl ran
    (by simp [lateMoves, Act.KeepsParameters]) (.inr place) with ⟨before, after, start, split, first, -, activation, -⟩
  exact ⟨s', ran, place, before, after, start, split, first, activation⟩

end Periodic

/-! ## Activations -/

section Activations

variable {t0 now : Tspec} {tp : Tpars} {s s' : Tasks} {t t' : TaskPar} {act : Act} {i : ℕ}
  {move : Move} {moves : List Move}

/-- Whether an act is an activation that is accepted. -/
def Act.accepted (t0 now : Tspec) (t : TaskPar) : Act → Bool
  | .activate => (ptaskActivate now t).2 = 1
  | .activateAt offset => (ptaskActivateAt t0 offset t).2 = 1
  | _ => false

/-- The activations of task `i` that a move makes and that are accepted. -/
def Move.accepted (t0 : Tspec) (i : ℕ) (s : Tasks) : Move → ℕ
  | .task k act => if k = i ∧ act.accepted t0 s.now (s.task k) then 1 else 0
  | .tick _ => 0

/-- Those that a run accepts. -/
def accepted (t0 : Tspec) (i : ℕ) : List Move → Tasks → ℕ
  | [], _ => 0
  | move :: moves, s =>
    match exec t0 move s with
    | none => 0
    | some s' => move.accepted t0 i s + accepted t0 i moves s'

/-- **One step.** The semaphore counts the activations that are accepted and not yet taken. -/
theorem tsem_step (step : taskStep t0 now t act = some t') :
    t'.tsem + (if act = .semWait then 1 else 0) =
      t.tsem + if act.accepted t0 now t then 1 else 0 := by
  cases act with
  | create tp =>
      simp only [taskStep] at step
      split at step
      · cases step
        rfl
      · cases step
  | activate =>
      simp only [taskStep, ptaskActivate] at step
      simp only [Act.accepted, ptaskActivate]
      split at step <;> rename_i busy
      · cases step
        simp [busy]
      · cases step
        simp [busy]
  | activateAt offset =>
      simp only [taskStep, ptaskActivateAt] at step
      simp only [Act.accepted, ptaskActivateAt]
      split at step <;> rename_i busy
      · cases step
        simp [busy]
      · cases step
        simp [busy]
  | semWait =>
      simp only [taskStep] at step
      split at step
      case isTrue given =>
        cases step
        have some := given.2
        simp only [Act.accepted, if_true, Bool.false_eq_true, if_false]
        omega
      case isFalse => cases step
  | setPeriod period unit =>
      cases step
      rfl
  | setDeadline dline unit =>
      cases step
      rfl
  | start | waitForPeriod | wake | waitForActivation | suspend | resume | delayOver | exit =>
      simp only [taskStep] at step
      repeat' split at step
      all_goals first
        | (cases step; rfl)
        | cases step

theorem tsem_run (ran : run t0 moves s = some s') :
    moves.count (.task i .semWait) + (s'.task i).tsem =
      (s.task i).tsem + accepted t0 i moves s := by
  induction moves generalizing s with
  | nil =>
      cases ran
      rw [List.count_nil, accepted, Nat.zero_add, Nat.add_zero]
  | cons move moves ih =>
      rcases run_cons.mp ran with ⟨mid, step, rest⟩
      have later := ih rest
      rw [accepted, step, List.count_cons]
      dsimp only
      rcases task_cases step i with ⟨act, rfl, made, -⟩ | ⟨other, same⟩
      · have here := tsem_step made
        by_cases taken : act = .semWait
        · subst taken
          simp only [Move.accepted, beq_self_eq_true, if_true, true_and] at here ⊢
          omega
        · have apart : ((Move.task i act) == .task i .semWait) = false := by simpa using taken
          simp only [Move.accepted, taken, apart, Bool.false_eq_true, if_false, true_and] at here ⊢
          omega
      · have apart : (move == .task i .semWait) = false := by simpa using other .semWait
        have none : move.accepted t0 i s = 0 := by
          cases move with
          | tick now => rfl
          | task k act =>
              have differs : k ≠ i := by
                intro eq
                rw [eq] at other
                exact other act rfl
              simp [Move.accepted, differs]
        rw [none, apart, if_neg Bool.false_ne_true, ← same]
        omega

/-- The state of a descriptor goes with the place of its task. -/
theorem state_step (state : t.state = t.place.state) (step : taskStep t0 now t act = some t') :
    t'.state = t'.place.state := by
  cases act with
  | activate =>
      simp only [taskStep, ptaskActivate] at step
      split at step <;> (cases step; exact state)
  | activateAt offset =>
      simp only [taskStep, ptaskActivateAt] at step
      split at step <;> (cases step; exact state)
  | setPeriod period unit =>
      cases step
      exact state
  | setDeadline dline unit =>
      cases step
      exact state
  | create | start | waitForPeriod | wake | waitForActivation | suspend | semWait | resume
  | delayOver | exit =>
      simp only [taskStep] at step
      repeat' split at step
      all_goals first
        | (cases step; simp_all [Place.state, createInternal])
        | cases step

theorem state_run (state : (s.task i).state = (s.task i).place.state)
    (ran : run t0 moves s = some s') : (s'.task i).state = (s'.task i).place.state := by
  induction moves generalizing s with
  | nil =>
      cases ran
      exact state
  | cons move moves ih =>
      rcases run_cons.mp ran with ⟨mid, step, rest⟩
      apply ih ?_ rest
      rcases task_cases step i with ⟨act, rfl, made, -⟩ | ⟨-, same⟩
      · exact state_step state made
      · rw [same]
        exact state

/-- **Activations.** In any run from the creation of a task on, also through the end of the task and
the creation of others on its descriptor: the activations that are accepted are those that have been
taken at `sem_wait` and those that the semaphore still holds, none is lost or taken twice, and one
is accepted exactly while the task is suspended, whether or not it has been activated before. -/
theorem activations_accounted (ran : run t0 (.task i (.create tp) :: moves) s = some s') :
    moves.count (.task i .semWait) + (s'.task i).tsem =
        (s.task i).tsem + accepted t0 i (.task i (.create tp) :: moves) s ∧
      ((ptaskActivate s'.now (s'.task i)).2 = 1 ↔
        (s'.task i).place = .waiting ∨ (s'.task i).place = .woken) ∧
      ∀ offset, (ptaskActivateAt t0 offset (s'.task i)).2 = 1 ↔
        (s'.task i).place = .waiting ∨ (s'.task i).place = .woken := by
  rcases create_run ran with ⟨mid, step, -, created, rest⟩
  have counts := tsem_run (i := i) ran
  rw [List.count_cons_of_ne (by simp)] at counts
  have state := state_run (i := i) (by rw [created]; rfl) rest
  have busy : (s'.task i).state = .active ∨ (s'.task i).state = .wfp ↔
      ¬((s'.task i).place = .waiting ∨ (s'.task i).place = .woken) := by
    rw [state]
    cases (s'.task i).place <;> simp [Place.state]
  refine ⟨counts, ?_, ?_⟩
  · unfold ptaskActivate
    split
    case isTrue given => exact iff_of_false (by simp) (busy.mp given)
    case isFalse given => exact iff_of_true rfl (not_not.mp (given ∘ busy.mpr))
  · intro offset
    unfold ptaskActivateAt
    dsimp only
    split
    case isTrue given => exact iff_of_false (by simp) (busy.mp given)
    case isFalse given => exact iff_of_true rfl (not_not.mp (given ∘ busy.mpr))

/-- A task that is activated twice while it waits goes through its next wait at once. -/
def twiceMoves : List Move :=
  [.task 0 .start, .task 0 .suspend, .task 0 .activate, .task 0 .activate, .task 0 .semWait,
    .task 0 .resume, .task 0 .waitForActivation, .task 0 .suspend, .task 0 .semWait]

theorem activations_accounted_twice : ∃ s',
    run ⟨0, 0⟩ (.task 0 (.create ⟨⟨1, 0⟩, ⟨1, 0⟩, .deferred, false⟩) :: twiceMoves)
        ⟨⟨1, 0⟩, fun _ => unused⟩ = some s' ∧
      2 + (s'.task 0).tsem = accepted ⟨0, 0⟩ 0
        (.task 0 (.create ⟨⟨1, 0⟩, ⟨1, 0⟩, .deferred, false⟩) :: twiceMoves)
        ⟨⟨1, 0⟩, fun _ => unused⟩ := by
  have runs : (run ⟨0, 0⟩ (.task 0 (.create ⟨⟨1, 0⟩, ⟨1, 0⟩, .deferred, false⟩) :: twiceMoves)
      ⟨⟨1, 0⟩, fun _ => unused⟩).map (fun s => (s.task 0).place) = some .woken := by
    decide +kernel
  obtain ⟨s', ran, -⟩ := Option.map_eq_some_iff.mp runs
  have counts := (activations_accounted ran).1
  have taken : twiceMoves.count (.task 0 .semWait) = 2 := by decide
  rw [taken] at counts
  exact ⟨s', ran, counts.trans (Nat.zero_add _)⟩

end Activations

end Hipert.Ptask
