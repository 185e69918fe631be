import Hipert.Gen.Trace
import Hipert.Ptask.Tasks

/-!
# The program in time

The tasks of the emitted program run on the task library: a DAG's task is started by it, and the
call at the end of its loop blocks until the next period. The two machines move together here, the
threads as in `exec` and the library with its clock, and each period of a DAG is a job of its task
(`periods_on_time`).
-/

namespace Hipert.Gen

open Hipert.Ptask (Tspec Tasks Move Tpars ClockOk tspecFrom ofNs ptaskDeadlineMiss)

variable {ν : Type} [DecidableEq ν]

/-! ## The product -/

/-- The program whose DAG `i` has its task on descriptor `i`, and the library. -/
structure Timed (ν : Type) where
  state : State ℕ ν
  tasks : Tasks

/-- A thread moves, something happens in the library, or a task goes on after its
`hgr_wait_for_period`. -/
inductive TimedMove (ν : Type) where
  | thread (tid : Tid ℕ ν)
  | library (move : Move)
  | wake (i : ℕ)
  deriving DecidableEq

/-- What `hgr_task_creator` hands to the library, where `gen_main` gives it the period and the
deadline of a DAG in milliseconds. -/
def hgrTaskCreator (period deadline : ℤ) : Tpars where
  period := tspecFrom period .milli
  rdline := tspecFrom deadline .milli
  actFlag := .now
  modes := false

/-- The task of DAG `i` is at its `hgr_wait_for_period`. -/
def Timed.atWait (s : Timed ν) (i : ℕ) : Bool :=
  (s.state.dags i).main.head? = some .waitForPeriod

/-- A task runs its body where the library lets it, up to the call. -/
def Timed.mayMove (s : Timed ν) : Tid ℕ ν → Bool
  | .main i => (s.tasks.task i).place = .body && !s.atWait i
  | _ => true

/-- The emitted body makes no other call than `hgr_wait_for_period`, and does not return. -/
def Timed.mayHappen (s : Timed ν) : Move → Bool
  | .task i (.waitForPeriod _) => s.atWait i
  | .task _ .wake => false
  | .task _ .waitForActivation => false
  | .task _ .exit => false
  | _ => true

/-- One move, if it can be made. -/
def timedStep (prog : ℕ → Dag ν) (t0 : Tspec) (s : Timed ν) : TimedMove ν → Option (Timed ν)
  | .thread tid =>
      if s.mayMove tid then (exec prog tid s.state).map fun state => { s with state := state }
      else none
  | .library move =>
      if s.mayHappen move then
        (Ptask.exec t0 move s.tasks).map fun tasks => { s with tasks := tasks }
      else none
  | .wake i =>
      if s.atWait i then do
        let tasks ← Ptask.exec t0 (.task i .wake) s.tasks
        let state ← exec prog (.main i) s.state
        some ⟨state, tasks⟩
      else none

/-- Moves in a given order, if all can be made. -/
def timedRun (prog : ℕ → Dag ν) (t0 : Tspec) (moves : List (TimedMove ν)) (s : Timed ν) :
    Option (Timed ν) :=
  moves.foldlM (timedStep prog t0) s

/-- What a move is to the library. -/
def TimedMove.inLibrary : TimedMove ν → Option Move
  | .thread _ => none
  | .library move => some move
  | .wake i => some (.task i .wake)

/-- The moves of the library in a run. -/
def inLibrary (moves : List (TimedMove ν)) : List Move := moves.filterMap TimedMove.inLibrary

section Projections

variable {prog : ℕ → Dag ν} {t0 : Tspec} {s s' : Timed ν} {move : TimedMove ν}
  {moves : List (TimedMove ν)} {i : ℕ}

omit [DecidableEq ν] in
theorem inLibrary_thread (tid : Tid ℕ ν) : inLibrary (.thread tid :: moves) = inLibrary moves := rfl

omit [DecidableEq ν] in
theorem inLibrary_library (call : Move) :
    inLibrary (.library call :: moves) = call :: inLibrary moves := rfl

omit [DecidableEq ν] in
theorem inLibrary_wake (k : ℕ) :
    inLibrary (.wake k :: moves) = .task k .wake :: inLibrary moves := rfl

theorem timedRun_cons :
    timedRun prog t0 (move :: moves) s = some s' ↔
      ∃ mid, timedStep prog t0 s move = some mid ∧ timedRun prog t0 moves mid = some s' :=
  Option.bind_eq_some_iff

theorem timedRun_append {later : List (TimedMove ν)} :
    timedRun prog t0 (moves ++ later) s = some s' ↔
      ∃ mid, timedRun prog t0 moves s = some mid ∧ timedRun prog t0 later mid = some s' := by
  rw [timedRun, List.foldlM_append]
  exact Option.bind_eq_some_iff

/-- A move of the product is one of a thread, of the library, or of both. -/
theorem timedStep_cases (step : timedStep prog t0 s move = some s') :
    (∃ tid, move = .thread tid ∧ s.mayMove tid ∧ exec prog tid s.state = some s'.state ∧
        s'.tasks = s.tasks) ∨
      (∃ call, move = .library call ∧ s.mayHappen call ∧
        Ptask.exec t0 call s.tasks = some s'.tasks ∧ s'.state = s.state) ∨
      ∃ k, move = .wake k ∧ s.atWait k ∧ Ptask.exec t0 (.task k .wake) s.tasks = some s'.tasks ∧
        exec prog (.main k) s.state = some s'.state := by
  cases move with
  | thread tid =>
      unfold timedStep at step
      dsimp only at step
      split at step
      case isTrue may =>
        rcases Option.map_eq_some_iff.mp step with ⟨state, made, rfl⟩
        exact .inl ⟨tid, rfl, may, made, rfl⟩
      case isFalse => cases step
  | library call =>
      unfold timedStep at step
      dsimp only at step
      split at step
      case isTrue may =>
        rcases Option.map_eq_some_iff.mp step with ⟨tasks, made, rfl⟩
        exact .inr (.inl ⟨call, rfl, may, made, rfl⟩)
      case isFalse => cases step
  | wake k =>
      unfold timedStep at step
      dsimp only at step
      split at step
      case isTrue at_wait =>
        obtain ⟨tasks, woken, rest⟩ := Option.bind_eq_some_iff.mp step
        obtain ⟨state, made, eq⟩ := Option.bind_eq_some_iff.mp rest
        cases eq
        exact .inr (.inr ⟨k, rfl, at_wait, woken, made⟩)
      case isFalse => cases step

theorem timedStep_reachable (reached : Reachable prog s.state)
    (step : timedStep prog t0 s move = some s') : Reachable prog s'.state := by
  rcases timedStep_cases step with ⟨tid, -, -, made, -⟩ | ⟨call, -, -, -, same⟩ |
    ⟨k, -, -, -, made⟩
  · exact reached.tail ⟨tid, made⟩
  · rw [same]
    exact reached
  · exact reached.tail ⟨.main k, made⟩

/-- Without its clock, a run of the product is a run of the program. -/
theorem timedRun_reachable (reached : Reachable prog s.state)
    (ran : timedRun prog t0 moves s = some s') : Reachable prog s'.state := by
  induction moves generalizing s with
  | nil =>
      cases ran
      exact reached
  | cons move moves ih =>
      rcases timedRun_cons.mp ran with ⟨mid, step, rest⟩
      exact ih (timedStep_reachable reached step) rest

/-- Without its threads, it is a run of the library. -/
theorem timedRun_tasks (ran : timedRun prog t0 moves s = some s') :
    Ptask.run t0 (inLibrary moves) s.tasks = some s'.tasks := by
  induction moves generalizing s with
  | nil =>
      cases ran
      rfl
  | cons move moves ih =>
      rcases timedRun_cons.mp ran with ⟨mid, step, rest⟩
      have later := ih rest
      rcases timedStep_cases step with ⟨tid, rfl, -, -, same⟩ | ⟨call, rfl, -, made, -⟩ |
        ⟨k, rfl, -, made, -⟩
      · rw [inLibrary_thread, ← same]
        exact later
      · rw [inLibrary_library]
        exact Ptask.run_cons.mpr ⟨_, made, later⟩
      · rw [inLibrary_wake]
        exact Ptask.run_cons.mpr ⟨_, made, later⟩

/-- The calls that the body of a task does not make are not in a run. -/
theorem timedRun_mayHappen (ran : timedRun prog t0 moves s = some s') {act : Ptask.Act}
    (mem : .library (.task i act) ∈ moves) : act ≠ .wake ∧ act ≠ .waitForActivation := by
  induction moves generalizing s with
  | nil => cases mem
  | cons move moves ih =>
      rcases timedRun_cons.mp ran with ⟨mid, step, rest⟩
      rcases List.mem_cons.mp mem with eq | later
      · subst eq
        rcases timedStep_cases step with ⟨tid, eq, -⟩ | ⟨call, eq, may, -⟩ | ⟨k, eq, -⟩
        · cases eq
        · cases eq
          refine ⟨?_, ?_⟩
          · intro eq
            rw [eq] at may
            cases may
          · intro eq
            rw [eq] at may
            cases may
        · cases eq
      · exact ih rest later

/-! ## Periods and jobs -/

/-- A period of a DAG ends where its task is woken, and only there. -/
theorem timedStep_period (reached : Reachable prog s.state)
    (step : timedStep prog t0 s move = some s') :
    (s'.state.dags i).period = (s.state.dags i).period + if move = .wake i then 1 else 0 := by
  rcases timedStep_cases step with ⟨tid, rfl, may, made, -⟩ | ⟨call, rfl, -, -, same⟩ |
    ⟨k, rfl, at_wait, -, made⟩
  · rw [if_neg (by simp), Nat.add_zero]
    by_cases self : tid = .main i
    · subst self
      obtain ⟨d, made, dags, -⟩ := exec_main made
      rw [dags, Function.update_self]
      rcases mainStep_move made with ⟨rest, code, -⟩ | ⟨instr, -, move⟩
      · simp [Timed.mayMove, Timed.atWait, code] at may
      · exact move.period
    · exact (main_frame reached made self).2
  · rw [if_neg (by simp), same, Nat.add_zero]
  · by_cases own : k = i
    · subst own
      rw [if_pos rfl]
      obtain ⟨d, made, dags, -⟩ := exec_main made
      rw [dags, Function.update_self]
      rcases mainStep_move made with ⟨rest, -, rfl⟩ | ⟨instr, differs, move⟩
      · rfl
      · have head : instr = .waitForPeriod := by
          simpa [Timed.atWait, move.code] using at_wait
        exact absurd head differs
    · rw [if_neg (by simpa using own), Nat.add_zero]
      exact (main_frame reached made (by simpa using own)).2

theorem timedRun_period (reached : Reachable prog s.state)
    (ran : timedRun prog t0 moves s = some s') :
    (s'.state.dags i).period =
      (s.state.dags i).period + (inLibrary moves).count (.task i .wake) := by
  induction moves generalizing s with
  | nil =>
      cases ran
      rfl
  | cons move moves ih =>
      rcases timedRun_cons.mp ran with ⟨mid, step, rest⟩
      rw [ih (timedStep_reachable reached step) rest, timedStep_period reached step]
      cases move with
      | thread tid => rw [inLibrary_thread, if_neg (by simp), Nat.add_zero]
      | library call =>
          have apart : call ≠ .task i .wake := by
            intro eq
            subst eq
            exact (timedRun_mayHappen ran List.mem_cons_self).1 rfl
          rw [inLibrary_library, List.count_cons_of_ne apart, if_neg (by simp),
            Nat.add_zero]
      | wake k =>
          rw [inLibrary_wake]
          by_cases own : k = i
          · subst own
            rw [List.count_cons_self, if_pos rfl]
            omega
          · rw [List.count_cons_of_ne (by simpa using own), if_neg (by simpa using own),
              Nat.add_zero]

end Projections

section Theorem

variable {prog : ℕ → Dag ν} {t0 : Tspec} {s s' : Timed ν} {moves : List (TimedMove ν)} {i : ℕ}
  {period deadline : ℤ}

/-- The run of the product up to a move of the library that it makes. -/
theorem exists_timed_prefix {first call : Move} (apart : ∀ k, call ≠ .task k .wake)
    (ran : timedRun prog t0 (.library first :: moves) s = some s') {before after : List Move}
    (split : inLibrary moves = before ++ call :: after) {start : Tasks}
    (began : Ptask.run t0 (first :: before) s.tasks = some start) :
    ∃ earlier later mid, moves = earlier ++ .library call :: later ∧
      timedRun prog t0 (.library first :: earlier) s = some mid ∧ mid.tasks = start := by
  obtain ⟨moves₁, moves₂, rfl, eq₁, eq₂⟩ := List.filterMap_eq_append_iff.mp split
  obtain ⟨silent, move, moves₃, rfl, none, some, -⟩ := List.filterMap_eq_cons_iff.mp eq₂
  have is_call : move = .library call := by
    cases move with
    | thread tid => cases some
    | library other =>
        cases some
        rfl
    | wake k =>
        cases some
        exact absurd rfl (apart k)
  subst is_call
  rw [← List.append_assoc, ← List.cons_append] at ran
  obtain ⟨mid, early, -⟩ := timedRun_append.mp ran
  refine ⟨moves₁ ++ silent, moves₃, mid, (List.append_assoc ..).symm, early, ?_⟩
  have tasks := timedRun_tasks early
  have nothing : silent.filterMap TimedMove.inLibrary = [] := List.filterMap_eq_nil_iff.mpr none
  rw [inLibrary_library, inLibrary, List.filterMap_append, eq₁, nothing, List.append_nil,
    began] at tasks
  exact (Option.some.inj tasks).symm

/-- **On time.** From the creation of a DAG's task on, in any run of the program on the library,
with any other DAGs and whatever other threads call, as long as nobody changes the task's parameters:
period `p` of the DAG is job `p` of its task, released `p` periods after the task's start. A thread
of period `p` exists only from that release on, and has ended before the next period's, the task
runs and sleeps in period `p` only after it, and `ptask_deadline_miss` returns 1 exactly when the
clock is past the release by more than the deadline. -/
theorem periods_on_time (clock : ClockOk t0 s.tasks.now) (period_nonneg : 0 ≤ period)
    (deadline_nonneg : 0 ≤ deadline) (reached : Reachable prog s.state)
    (first : (s.state.dags i).period = 0)
    (ran : timedRun prog t0
      (.library (.task i (.create (hgrTaskCreator period deadline))) :: moves) s = some s')
    (keeps : ∀ act, .library (.task i act) ∈ moves → act.KeepsParameters)
    (job : (s'.tasks.task i).place = .body ∨ (s'.tasks.task i).place = .sleeping) :
    ∃ earlier later start, moves = earlier ++ .library (.task i .start) :: later ∧
      timedRun prog t0
        (.library (.task i (.create (hgrTaskCreator period deadline))) :: earlier) s =
          some start ∧
      let release (p : ℕ) : ℤ := start.tasks.now.ns + p * (period * 1000000)
      let p := (s'.state.dags i).period
      release p ≤ s'.tasks.now.ns ∧
        (s'.tasks.task i).activation = ofNs (release (p + 1)) ∧
        (ptaskDeadlineMiss s'.tasks.now (s'.tasks.task i) = 1 ↔
          release p + deadline * 1000000 < s'.tasks.now.ns) ∧
        ∀ q n t, (s'.state.dags i).thread q n = some t →
          q ≤ p ∧ release q ≤ s'.tasks.now.ns ∧ (q < p → t.Exited) := by
  have reached' := timedRun_reachable reached ran
  have tasks := timedRun_tasks ran
  rw [inLibrary_library] at tasks
  have keeps' : ∀ act, .task i act ∈ inLibrary moves →
      act.KeepsParameters ∧ act ≠ .waitForActivation := by
    intro act mem
    obtain ⟨move, mem, eq⟩ := List.mem_filterMap.mp mem
    cases move with
    | thread tid => cases eq
    | library call =>
        cases eq
        exact ⟨keeps act mem, (timedRun_mayHappen ran (List.mem_cons_of_mem _ mem)).2⟩
    | wake k =>
        cases eq
        exact ⟨trivial, by simp⟩
  have period_normal := Ptask.tspecFrom_normal .milli period_nonneg
  have deadline_normal := Ptask.tspecFrom_normal .milli deadline_nonneg
  obtain ⟨mid, created, stage, clock'⟩ := Ptask.Stage.of_create clock period_normal
    deadline_normal rfl rfl tasks keeps'
  obtain ⟨before, after, start, split, began, periodic, arrived⟩ := stage.of_job job
  obtain ⟨earlier, later, timed, eq, early, same⟩ := exists_timed_prefix (by simp) ran split
    (Ptask.run_cons.mpr ⟨mid, created, began⟩)
  have wakes := @timedRun_period _ _ _ _ _ _ _ i reached ran
  rw [inLibrary_library, List.count_cons_of_ne (by simp), first, Nat.zero_add] at wakes
  have length : (tspecFrom period .milli).ns = period * 1000000 := Ptask.ns_tspecFrom ..
  have window : (tspecFrom deadline .milli).ns = deadline * 1000000 := Ptask.ns_tspecFrom ..
  have activation := periodic.period ▸ periodic.released.activation
  have dl := periodic.deadline ▸ periodic.released.dl
  simp only [hgrTaskCreator, length, window, ← wakes, ← same] at arrived activation dl
  refine ⟨earlier, later, timed, eq, early, arrived, ?_, Ptask.deadlineMiss_iff clock'.normal dl,
    ?_⟩
  · rw [activation]
    push_cast
    ring_nf
  · intro q n t thread
    have inv := reached'.inv i
    have started : q ≤ (s'.state.dags i).period := by
      by_contra late
      rw [inv.later q n (not_le.mp late)] at thread
      cases thread
    refine ⟨started, ?_, fun elapsed => inv.old q n t elapsed thread⟩
    have periods := mul_le_mul_of_nonneg_right
      (show (q : ℤ) ≤ (s'.state.dags i).period by exact_mod_cast started)
      (show 0 ≤ period * 1000000 by omega)
    dsimp only
    omega

end Theorem

/-! ## A period on time -/

/-- Any number of PREM DAGs, which share `premMutex`. -/
def chains : ℕ → Dag Bool := fun _ => chainProgram ()

/-- The first period of a DAG and its task's wait for the second. -/
def firstPeriod : List (TimedMove Bool) :=
  .library (.task 0 .start) :: List.replicate 9 (.thread (.main 0)) ++
    List.replicate 11 (.thread (.node 0 0 false)) ++
    List.replicate 11 (.thread (.node 0 0 true)) ++
    .thread (.finish 0) :: List.replicate 6 (.thread (.main 0)) ++
    [.library (.task 0 (.waitForPeriod true)), .library (.tick ⟨5, 20000000⟩), .wake 0]

theorem periods_on_time_first : ∃ s' : Timed Bool,
    timedRun chains ⟨5, 0⟩ (.library (.task 0 (.create (hgrTaskCreator 20 10))) :: firstPeriod)
        ⟨.init chains, ⟨⟨5, 0⟩, fun _ => Ptask.unused⟩⟩ = some s' ∧
      (s'.state.dags 0).period = 1 ∧
      ∃ earlier later start, firstPeriod = earlier ++ .library (.task 0 .start) :: later ∧
        timedRun chains ⟨5, 0⟩ (.library (.task 0 (.create (hgrTaskCreator 20 10))) :: earlier)
          ⟨.init chains, ⟨⟨5, 0⟩, fun _ => Ptask.unused⟩⟩ = some start ∧
        start.tasks.now.ns + 20000000 ≤ s'.tasks.now.ns := by
  have runs : (timedRun chains ⟨5, 0⟩
      (.library (.task 0 (.create (hgrTaskCreator 20 10))) :: firstPeriod)
      ⟨.init chains, ⟨⟨5, 0⟩, fun _ => Ptask.unused⟩⟩).map
        (fun s => ((s.tasks.task 0).place, (s.state.dags 0).period)) = some (.body, 1) := by
    decide +kernel
  obtain ⟨s', ran, eq⟩ := Option.map_eq_some_iff.mp runs
  obtain ⟨place, period⟩ := Prod.mk.inj eq
  have clock : ClockOk ⟨5, 0⟩ ⟨5, 0⟩ := ⟨by decide, by decide, by decide, by decide⟩
  have reached : Reachable chains (State.init chains) := .refl
  obtain ⟨earlier, later, start, split, began, released, -⟩ := periods_on_time clock (by decide)
    (by decide) reached rfl ran (by simp [firstPeriod, Ptask.Act.KeepsParameters]) (.inl place)
  rw [period] at released
  exact ⟨s', ran, period, earlier, later, start, split, began, by simpa using released⟩

end Hipert.Gen
