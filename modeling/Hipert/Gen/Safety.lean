import Hipert.Gen.Code

/-!
# Precedence safety

The invariant of one DAG (`Inv`) ties every lock to the threads around it: a dependency is free only
before its task has taken it in this period or after its source has computed, so a thread that has
passed a wait has a source that has computed. Every step of the program keeps the invariant of every
DAG, in any number of periods and any interleaving (`Reachable.inv`).
-/

namespace Hipert.Gen

universe u

variable {ν : Type u} [DecidableEq ν] {dag : Dag ν} {d d' : DagState ν} {p : ℕ} {n : ν}

/-! ## What a step does -/

/-- The effect of a node's instruction on the dependencies. -/
def NodeInstr.onLock (instr : NodeInstr ν) (lock : Edge ν → Lock) : Edge ν → Lock :=
  match instr with
  | .waitDependency e => Function.update lock e .taken
  | .releaseDependency e => Function.update lock e .free
  | _ => lock

/-- The effect of a node's instruction on `premMutex`. -/
def NodeInstr.onPrem : NodeInstr ν → PremEffect
  | .waitPrem => .take
  | .releasePrem => .free
  | _ => .keep

/-- A step of the thread of node `n` from period `p` over `instr`. -/
structure NodeMove (d d' : DagState ν) (p : ℕ) (n : ν) (instr : NodeInstr ν) (t t' : Thread ν) :
    Prop where
  before : d.thread p n = some t
  code : t.code = instr :: t'.code
  after : d'.thread = (d.setThread p n t').thread
  main : d'.main = d.main
  period : d'.period = d.period
  finish : d'.finish = d.finish
  enabled : ∀ e, instr = .waitDependency e → d.lock e = .free
  lock : d'.lock = instr.onLock d.lock
  lockStart : d'.lockStart = if instr = .trylockStart then .taken else d.lockStart
  condition : d'.condition = if instr = .storeCondition then t.loaded + 1 else d.condition
  loaded : t'.loaded = if instr = .loadCondition then d.condition else t.loaded

theorem nodeStep_move {eff : PremEffect}
    (suffix : ∀ t, d.thread p n = some t → t.code <:+ nodeCode dag n)
    (step : nodeStep d p n = some (d', eff)) :
    ∃ instr t t', NodeMove d d' p n instr t t' ∧ eff = instr.onPrem := by
  unfold nodeStep at step
  cases before : d.thread p n with
  | none =>
      rw [before] at step
      cases step
  | some t =>
      rw [before] at step
      obtain ⟨code, loaded⟩ := t
      cases code with
      | nil => cases step
      | cons instr rest =>
          refine ⟨instr, ⟨instr :: rest, loaded⟩,
            ⟨rest, if instr = .loadCondition then d.condition else loaded⟩, ?_⟩
          cases instr
          case exit =>
            cases eq_nil_of_exit (suffix _ before)
            cases step
            exact ⟨⟨before, rfl, rfl, rfl, rfl, rfl, (fun _ h => nomatch h), rfl, rfl, rfl, rfl⟩, rfl⟩
          case waitDependency e =>
            dsimp only at step
            split at step
            · rename_i free
              cases step
              refine ⟨⟨before, rfl, rfl, rfl, rfl, rfl, ?_, rfl, rfl, rfl, rfl⟩, rfl⟩
              rintro _ ⟨⟩
              exact free
            · cases step
          all_goals
            cases step
            exact ⟨⟨before, rfl, rfl, rfl, rfl, rfl, (fun _ h => nomatch h), rfl, rfl, rfl, rfl⟩, rfl⟩

/-- The effect of an instruction of the task on the dependencies. -/
def MainInstr.onLock (instr : MainInstr ν) (lock : Edge ν → Lock) : Edge ν → Lock :=
  match instr with
  | .initDependency e => Function.update lock e .free
  | .waitDependency e => Function.update lock e .taken
  | _ => lock

/-- The effect of an instruction of the task on `lock_start`. -/
def MainInstr.onLockStart (instr : MainInstr ν) (lock : Lock) : Lock :=
  match instr with
  | .initStart | .releaseStart => .free
  | .waitStart => .taken
  | _ => lock

/-- The effect of an instruction of the task on the thread of `wait_finish`. -/
def MainInstr.onFinish (instr : MainInstr ν) (finish : Finish) : Finish :=
  match instr with
  | .createFinish => .spinning
  | .joinFinish => .absent
  | _ => finish

/-- The effect of an instruction of the task on the threads of the nodes. -/
def MainInstr.onThread (dag : Dag ν) (instr : MainInstr ν) (d : DagState ν) :
    ℕ → ν → Option (Thread ν) :=
  match instr with
  | .threadCreate n => (d.setThread d.period n ⟨nodeCode dag n, 0⟩).thread
  | _ => d.thread

/-- A step of the DAG's task over `instr`, other than the wait for the period. -/
structure MainMove (dag : Dag ν) (d d' : DagState ν) (instr : MainInstr ν) : Prop where
  code : d.main = instr :: d'.main
  period : d'.period = d.period
  thread : d'.thread = instr.onThread dag d
  joined : ∀ n, instr = .threadJoin n → (d.thread d.period n).map Thread.code = some []
  lock : d'.lock = instr.onLock d.lock
  lockStart : d'.lockStart = instr.onLockStart d.lockStart
  condition : d'.condition = if instr = .resetCondition then 0 else d.condition
  finish : d'.finish = instr.onFinish d.finish

theorem mainStep_move (step : mainStep dag d = some d') :
    (∃ rest, d.main = .waitForPeriod :: rest ∧
      d' = { d with main := mainCode dag, period := d.period + 1 }) ∨
    ∃ instr, instr ≠ .waitForPeriod ∧ MainMove dag d d' instr := by
  unfold mainStep at step
  cases code : d.main with
  | nil =>
      rw [code] at step
      cases step
  | cons instr rest =>
      rw [code] at step
      cases instr
      case waitForPeriod =>
        cases step
        exact Or.inl ⟨rest, rfl, rfl⟩
      case waitDependency e =>
        dsimp only at step
        split at step
        · cases step
          exact Or.inr ⟨_, by simp, code, rfl, rfl, (fun _ h => nomatch h), rfl, rfl, rfl, rfl⟩
        · cases step
      case waitStart =>
        dsimp only at step
        split at step
        · cases step
          exact Or.inr ⟨_, by simp, code, rfl, rfl, (fun _ h => nomatch h), rfl, rfl, rfl, rfl⟩
        · cases step
      case joinFinish =>
        dsimp only at step
        split at step
        · cases step
          exact Or.inr ⟨_, by simp, code, rfl, rfl, (fun _ h => nomatch h), rfl, rfl, rfl, rfl⟩
        · cases step
      case threadJoin m =>
        dsimp only at step
        split at step
        · rename_i exited
          cases step
          refine Or.inr ⟨_, by simp, code, rfl, rfl, ?_, rfl, rfl, rfl, rfl⟩
          rintro _ ⟨⟩
          exact exited
        · cases step
      all_goals
        cases step
        exact Or.inr ⟨_, by simp, code, rfl, rfl, (fun _ h => nomatch h), rfl, rfl, rfl, rfl⟩

omit [DecidableEq ν] in
theorem finishStep_move (step : finishStep dag d = some d') :
    d.finish = .spinning ∧ d' = { d with finish := d'.finish } := by
  unfold finishStep at step
  cases state : d.finish with
  | absent =>
      rw [state] at step
      cases step
  | exited =>
      rw [state] at step
      cases step
  | spinning =>
      rw [state] at step
      dsimp only at step
      split at step <;> cases step <;> exact ⟨rfl, rfl⟩

/-- One step of the task, of `wait_finish` or of a node's thread of one DAG. -/
def DagStep (dag : Dag ν) (d d' : DagState ν) : Prop :=
  mainStep dag d = some d' ∨ finishStep dag d = some d' ∨
    ∃ p n eff, nodeStep d p n = some (d', eff)

section Program

variable {ι : Type u} [DecidableEq ι] {prog : ι → Dag ν} {s s' : State ι ν}

omit [DecidableEq ν] in
@[simp] theorem State.setDag_dags (s : State ι ν) (i : ι) (d : DagState ν) :
    (s.setDag i d).dags = Function.update s.dags i d := rfl

/-- A step of the program changes one DAG, by a step of it. -/
theorem exec_dag {tid : Tid ι ν} (step : exec prog tid s = some s') :
    ∃ i d, s'.dags = Function.update s.dags i d ∧
      (mainStep (prog i) (s.dags i) = some d ∨ finishStep (prog i) (s.dags i) = some d ∨
        ∃ p n eff, tid = .node i p n ∧ nodeStep (s.dags i) p n = some (d, eff)) := by
  cases tid with
  | main i =>
      rcases Option.map_eq_some_iff.mp step with ⟨d, made, rfl⟩
      exact ⟨i, d, rfl, Or.inl made⟩
  | finish i =>
      rcases Option.map_eq_some_iff.mp step with ⟨d, made, rfl⟩
      exact ⟨i, d, rfl, Or.inr (Or.inl made)⟩
  | node i p n =>
      unfold exec at step
      dsimp only at step
      cases made : nodeStep (s.dags i) p n with
      | none =>
          rw [made] at step
          cases step
      | some result =>
          rw [made] at step
          obtain ⟨d, eff⟩ := result
          refine ⟨i, d, ?_, Or.inr (Or.inr ⟨p, n, eff, rfl, made⟩)⟩
          cases eff with
          | keep =>
              cases step
              rfl
          | free =>
              cases step
              rfl
          | take =>
              dsimp only at step
              split at step
              · cases step
                rfl
              · cases step

theorem Step.dagStep (step : Step prog s s') (i : ι) :
    s'.dags i = s.dags i ∨ DagStep (prog i) (s.dags i) (s'.dags i) := by
  obtain ⟨tid, step⟩ := step
  obtain ⟨j, d, eq, made⟩ := exec_dag step
  rw [eq]
  by_cases self : i = j
  · subst self
    rw [Function.update_self]
    refine Or.inr (made.imp id (Or.imp id ?_))
    intro given
    rcases given with ⟨p, n, eff, -, made⟩
    exact ⟨p, n, eff, made⟩
  · rw [Function.update_of_ne self]
    exact Or.inl rfl

/-- **Invariant rule.** What holds of a DAG at first and is kept by its steps holds of it in every
reachable state. -/
theorem Reachable.invariant (P : DagState ν → Prop) {i : ι} (start : P (.init (prog i)))
    (keep : ∀ d d', P d → DagStep (prog i) d d' → P d') (reached : Reachable prog s) :
    P (s.dags i) := by
  induction reached with
  | refl => exact start
  | tail _ step ih =>
      rcases Step.dagStep step i with same | made
      · rwa [same]
      · exact keep _ _ ih made

end Program

/-! ## The invariant -/

/-- The thread is in its compute function. -/
def Thread.Computing (t : Thread ν) : Prop := ∃ instr rest, t.code = instr :: rest ∧ instr.isCompute

/-- The thread has completed its compute function. -/
def Thread.Computed (t : Thread ν) : Prop := .endCompute ∉ t.code

/-- The thread has exited. -/
def Thread.Exited (t : Thread ν) : Prop := t.code = []

/-- Node `n` has computed in the current period. -/
def DagState.Computed (d : DagState ν) (n : ν) : Prop :=
  ∃ t, d.thread d.period n = some t ∧ t.Computed

/-- The invariant of one DAG. -/
structure Inv (dag : Dag ν) (d : DagState ν) : Prop where
  main : d.main <:+ mainCode dag
  code : ∀ p n t, d.thread p n = some t → t.code <:+ nodeCode dag n
  node : ∀ p n t, d.thread p n = some t → n ∈ dag.node
  later : ∀ p n, d.period < p → d.thread p n = none
  old : ∀ p n t, p < d.period → d.thread p n = some t → t.Exited
  uncreated : ∀ n, .threadCreate n ∈ d.main → d.thread d.period n = none
  created : ∀ n ∈ dag.node, .threadCreate n ∉ d.main → ∃ t, d.thread d.period n = some t
  joined : ∀ n ∈ dag.node, .threadJoin n ∉ d.main →
    ∃ t, d.thread d.period n = some t ∧ t.Exited
  locked : ∀ e ∈ dag.edge, d.lock e = .free → .waitDependency e ∈ d.main ∨ d.Computed e.src
  passed : ∀ e ∈ dag.edge, ∀ t, d.thread d.period e.trg = some t →
    .waitDependency e ∉ t.code → d.Computed e.src
  finished : .createFinish ∈ d.main ∨ .joinFinish ∉ d.main → d.finish = .absent

theorem Inv.init (dag : Dag ν) : Inv dag (.init dag) where
  main := List.suffix_rfl
  code _ _ _ h := nomatch h
  node _ _ _ h := nomatch h
  later _ _ _ := rfl
  old _ _ _ _ h := nomatch h
  uncreated _ _ := rfl
  created _ node none := absurd (create_mem_mainCode.mpr node) none
  joined _ node none := absurd (join_mem_mainCode.mpr node) none
  locked _ mem _ := Or.inl (wait_mem_mainCode.mpr mem)
  passed _ _ _ h := nomatch h
  finished _ := rfl

theorem DagState.setThread_self (d : DagState ν) (p : ℕ) (n : ν) (t : Thread ν) :
    (d.setThread p n t).thread p n = some t := if_pos ⟨rfl, rfl⟩

theorem DagState.setThread_ne (d : DagState ν) {p p' : ℕ} {n n' : ν} (t : Thread ν)
    (other : ¬ (p' = p ∧ n' = n)) : (d.setThread p n t).thread p' n' = d.thread p' n' :=
  if_neg other

theorem DagState.setThread_cases {d : DagState ν} {p p' : ℕ} {n n' : ν} {t t' : Thread ν}
    (here : (d.setThread p n t).thread p' n' = some t') :
    (p' = p ∧ n' = n ∧ t' = t) ∨ (¬ (p' = p ∧ n' = n) ∧ d.thread p' n' = some t') := by
  by_cases self : p' = p ∧ n' = n
  · rw [self.1, self.2, d.setThread_self] at here
    cases here
    exact Or.inl ⟨self.1, self.2, rfl⟩
  · rw [d.setThread_ne t self] at here
    exact Or.inr ⟨self, here⟩

/-- A thread of the current period exists only after `create_dependency`. -/
theorem Inv.mem_periodCode (inv : Inv dag d) {t : Thread ν}
    (thread : d.thread d.period n = some t) {instr : MainInstr ν} (mem : instr ∈ d.main) :
    instr ∈ periodCode dag := by
  by_contra early
  have create := create_mem_of_early inv.main mem early (inv.node _ _ _ thread)
  cases (inv.uncreated n create).symm.trans thread

theorem Inv.wait_not_mem (inv : Inv dag d) {e : Edge ν} {t : Thread ν}
    (thread : d.thread d.period n = some t) : .waitDependency e ∉ d.main :=
  fun mem => wait_not_mem_periodCode (inv.mem_periodCode thread mem)

/-- A thread with code left belongs to the current period. -/
theorem Inv.period_eq (inv : Inv dag d) {t : Thread ν} (thread : d.thread p n = some t)
    (running : ¬ t.Exited) : p = d.period := by
  rcases lt_trichotomy p d.period with before | eq | after
  · exact absurd (inv.old p n t before thread) running
  · exact eq
  · rw [inv.later p n after] at thread
    cases thread

/-! ## Steps of the task -/

theorem Inv.waitForPeriod (inv : Inv dag d) {rest : List (MainInstr ν)}
    (code : d.main = .waitForPeriod :: rest) :
    Inv dag { d with main := mainCode dag, period := d.period + 1 } := by
  have suffix := inv.main
  rw [code] at suffix
  have last : d.main = [.waitForPeriod] := by rw [code, eq_nil_of_waitForPeriod suffix]
  refine ⟨List.suffix_rfl, inv.code, inv.node, ?_, ?_, ?_, ?_, ?_, ?_, ?_, ?_⟩
  · exact fun p n after => inv.later p n (Nat.lt_of_succ_lt after)
  · intro p n t before thread
    rcases (Nat.lt_succ_iff.mp before).lt_or_eq with earlier | rfl
    · exact inv.old p n t earlier thread
    · obtain ⟨t', thread', exited⟩ :=
        inv.joined n (inv.node _ _ _ thread) (by rw [last]; simp)
      cases thread.symm.trans thread'
      exact exited
  · exact fun n _ => inv.later _ n (Nat.lt_succ_self _)
  · exact fun n node none => absurd (create_mem_mainCode.mpr node) none
  · exact fun n node none => absurd (join_mem_mainCode.mpr node) none
  · exact fun e mem _ => Or.inl (wait_mem_mainCode.mpr mem)
  · intro e _ t thread
    rw [inv.later _ _ (Nat.lt_succ_self _)] at thread
    cases thread
  · exact fun _ => inv.finished (Or.inr (by rw [last]; simp))

/-- The part of the invariant about `wait_finish`. -/
theorem Inv.finished_main (inv : Inv dag d) {instr : MainInstr ν} (move : MainMove dag d d' instr) :
    .createFinish ∈ d'.main ∨ .joinFinish ∉ d'.main → d'.finish = .absent := by
  have suffix := inv.main
  rw [move.code] at suffix
  intro unfinished
  rw [move.finish]
  cases instr
  case createFinish =>
    obtain ⟨no_create, join⟩ := finish_of_createFinish suffix
    exact absurd unfinished (not_or.mpr ⟨no_create, not_not.mpr join⟩)
  case joinFinish => rfl
  all_goals
    refine inv.finished (unfinished.imp ?_ ?_)
    · exact fun mem => move.code ▸ List.mem_cons_of_mem _ mem
    · intro none mem
      rw [move.code] at mem
      exact none ((List.mem_cons.mp mem).resolve_left (fun h => nomatch h))

/-- The task creates a thread only where there is none yet. -/
theorem Inv.thread_main (inv : Inv dag d) {instr : MainInstr ν} (move : MainMove dag d d' instr)
    {t : Thread ν} (here : d.thread p n = some t) : d'.thread p n = some t := by
  rw [move.thread]
  cases instr
  case threadCreate m =>
    rw [MainInstr.onThread, d.setThread_ne]
    · exact here
    · intro given
      rcases given with ⟨rfl, rfl⟩
      rw [inv.uncreated n (move.code ▸ List.mem_cons_self)] at here
      cases here
  all_goals exact here

theorem Inv.computed_main (inv : Inv dag d) {instr : MainInstr ν} (move : MainMove dag d d' instr)
    {m : ν} (done : d.Computed m) : d'.Computed m := by
  obtain ⟨t, here, done⟩ := done
  exact ⟨t, move.period ▸ inv.thread_main move here, done⟩

/-- The part of the invariant about free locks: a dependency is free only between its `init` and its
`wait`, or once its source has computed. -/
theorem Inv.locked_mainMove (inv : Inv dag d) {instr : MainInstr ν} (move : MainMove dag d d' instr) :
    ∀ e ∈ dag.edge, d'.lock e = .free → .waitDependency e ∈ d'.main ∨ d'.Computed e.src := by
  have suffix := inv.main
  rw [move.code] at suffix
  intro e mem free
  rw [move.lock] at free
  have rest : d.lock e = .free → instr ≠ .waitDependency e →
      .waitDependency e ∈ d'.main ∨ d'.Computed e.src := by
    intro free other
    refine (inv.locked e mem free).imp (fun waiting => ?_) (inv.computed_main move)
    rw [move.code] at waiting
    exact (List.mem_cons.mp waiting).resolve_left (fun same => other same.symm)
  cases instr
  case initDependency e' =>
    by_cases same : e = e'
    · subst same
      obtain ⟨after', eq⟩ := wait_of_init suffix
      exact Or.inl (eq ▸ List.mem_cons_self)
    · exact rest (by rwa [MainInstr.onLock, Function.update_of_ne same] at free)
        (fun h => nomatch h)
  case waitDependency e' =>
    by_cases same : e = e'
    · subst same
      rw [MainInstr.onLock, Function.update_self] at free
      cases free
    · refine rest (by rwa [MainInstr.onLock, Function.update_of_ne same] at free) ?_
      intro h
      cases h
      exact same rfl
  all_goals exact rest free (fun h => nomatch h)

/-- A thread of the current period that runs a suffix of its body keeps what the invariant says of
the threads alone. -/
theorem Inv.threads (inv : Inv dag d) {t : Thread ν} (node : n ∈ dag.node)
    (code : t.code <:+ nodeCode dag n) (period : d'.period = d.period)
    (thread : d'.thread = (d.setThread d.period n t).thread) :
    (∀ p m u, d'.thread p m = some u → u.code <:+ nodeCode dag m) ∧
      (∀ p m u, d'.thread p m = some u → m ∈ dag.node) ∧
      (∀ p m, d'.period < p → d'.thread p m = none) ∧
      ∀ p m u, p < d'.period → d'.thread p m = some u → u.Exited := by
  rw [thread, period]
  refine ⟨?_, ?_, ?_, ?_⟩
  · intro p m u here
    rcases DagState.setThread_cases here with ⟨-, rfl, rfl⟩ | ⟨-, here⟩
    · exact code
    · exact inv.code p m u here
  · intro p m u here
    rcases DagState.setThread_cases here with ⟨-, rfl, -⟩ | ⟨-, here⟩
    · exact node
    · exact inv.node p m u here
  · intro p m after
    rw [d.setThread_ne _ (fun self => after.ne' self.1)]
    exact inv.later p m after
  · intro p m u before here
    rw [d.setThread_ne _ (fun self => before.ne self.1)] at here
    exact inv.old p m u before here

theorem Inv.threadCreate (inv : Inv dag d) (move : MainMove dag d d' (.threadCreate n)) :
    Inv dag d' := by
  have suffix := inv.main
  rw [move.code] at suffix
  have thread : d'.thread = (d.setThread d.period n ⟨nodeCode dag n, 0⟩).thread := move.thread
  have node := create_mem_mainCode.mp (suffix.subset List.mem_cons_self)
  obtain ⟨code, nodes, later, old⟩ := inv.threads node List.suffix_rfl move.period thread
  refine ⟨suffix_of_cons_suffix suffix, code, nodes, later, old, ?_, ?_, ?_,
    inv.locked_mainMove move, ?_, inv.finished_main move⟩
  · intro m mem
    have other : m ≠ n := by
      rintro rfl
      exact create_nodup_mainCode suffix mem
    rw [move.period, thread, d.setThread_ne _ (fun self => other self.2)]
    exact inv.uncreated m (move.code ▸ List.mem_cons_of_mem _ mem)
  · intro m node none
    by_cases self : m = n
    · subst self
      exact ⟨_, by rw [move.period, thread, d.setThread_self]⟩
    · have none' : .threadCreate m ∉ d.main := by
        rw [move.code, List.mem_cons, not_or]
        exact ⟨fun h => self (by cases h; rfl), none⟩
      obtain ⟨t, here⟩ := inv.created m node none'
      exact ⟨t, move.period ▸ inv.thread_main move here⟩
  · intro m node none
    have none' : .threadJoin m ∉ d.main := by
      rw [move.code, List.mem_cons, not_or]
      exact ⟨(fun h => nomatch h), none⟩
    obtain ⟨t, here, exited⟩ := inv.joined m node none'
    exact ⟨t, move.period ▸ inv.thread_main move here, exited⟩
  · intro e mem t here none
    rw [move.period, thread] at here
    rcases DagState.setThread_cases here with ⟨-, target, rfl⟩ | ⟨-, here⟩
    · exact absurd (wait_mem_nodeCode.mpr ⟨mem, target⟩) none
    · exact inv.computed_main move (inv.passed e mem t here none)

/-- Steps of the task that create no thread. -/
theorem Inv.mainMove (inv : Inv dag d) {instr : MainInstr ν} (move : MainMove dag d d' instr)
    (other : ∀ n, instr ≠ .threadCreate n) (thread : d'.thread = d.thread) : Inv dag d' := by
  have suffix := inv.main
  rw [move.code] at suffix
  refine ⟨suffix_of_cons_suffix suffix, ?_, ?_, ?_, ?_, ?_, ?_, ?_, inv.locked_mainMove move, ?_,
    inv.finished_main move⟩
  · rw [thread]
    exact inv.code
  · rw [thread]
    exact inv.node
  · rw [thread, move.period]
    exact inv.later
  · rw [thread, move.period]
    exact inv.old
  · intro m mem
    rw [thread, move.period]
    exact inv.uncreated m (move.code ▸ List.mem_cons_of_mem _ mem)
  · intro m node none
    rw [thread, move.period]
    refine inv.created m node ?_
    rw [move.code, List.mem_cons, not_or]
    exact ⟨(other m).symm, none⟩
  · intro m node none
    rw [thread, move.period]
    by_cases here : instr = .threadJoin m
    · obtain ⟨t, eq, exited⟩ := Option.map_eq_some_iff.mp (move.joined m here)
      exact ⟨t, eq, exited⟩
    · refine inv.joined m node ?_
      rw [move.code, List.mem_cons, not_or]
      exact ⟨fun same => here same.symm, none⟩
  · intro e mem t here none
    rw [thread, move.period] at here
    exact inv.computed_main move (inv.passed e mem t here none)

theorem Inv.mainStep (inv : Inv dag d) (step : mainStep dag d = some d') : Inv dag d' := by
  rcases mainStep_move step with ⟨rest, code, rfl⟩ | ⟨instr, -, move⟩
  · exact inv.waitForPeriod code
  · cases instr
    case threadCreate n => exact inv.threadCreate move
    all_goals exact inv.mainMove move (fun _ h => nomatch h) move.thread

theorem Inv.finishStep (inv : Inv dag d) (step : finishStep dag d = some d') : Inv dag d' := by
  obtain ⟨spinning, eq⟩ := finishStep_move step
  have still : .createFinish ∈ d.main ∨ .joinFinish ∉ d.main → d'.finish = .absent := by
    intro unfinished
    rw [inv.finished unfinished] at spinning
    cases spinning
  rw [eq] at still ⊢
  exact ⟨inv.main, inv.code, inv.node, inv.later, inv.old, inv.uncreated, inv.created, inv.joined,
    inv.locked, inv.passed, still⟩

/-! ## Steps of the nodes -/

theorem NodeMove.running {instr : NodeInstr ν} {t t' : Thread ν}
    (move : NodeMove d d' p n instr t t') : ¬ t.Exited := by
  rw [Thread.Exited, move.code]
  exact List.cons_ne_nil _ _

theorem NodeMove.computed {instr : NodeInstr ν} {t t' : Thread ν} (move : NodeMove d d' p n instr t t')
    {m : ν} (done : d.Computed m) : d'.Computed m := by
  obtain ⟨u, here, done⟩ := done
  by_cases self : d.period = p ∧ m = n
  · refine ⟨t', ?_, ?_⟩
    · rw [move.after, move.period, self.1, self.2, d.setThread_self]
    · rw [self.1, self.2, move.before] at here
      cases here
      intro mem
      exact done (move.code ▸ List.mem_cons_of_mem _ mem)
  · exact ⟨u, by rwa [move.after, move.period, d.setThread_ne _ self], done⟩

theorem NodeMove.exists_thread {instr : NodeInstr ν} {t t' u : Thread ν}
    (move : NodeMove d d' p n instr t t') {m : ν} (here : d.thread d.period m = some u) :
    ∃ u', d'.thread d'.period m = some u' := by
  rw [move.after, move.period]
  by_cases self : d.period = p ∧ m = n
  · exact ⟨t', by rw [self.1, self.2, d.setThread_self]⟩
  · exact ⟨u, by rwa [d.setThread_ne _ self]⟩

theorem Inv.locked_nodeMove (inv : Inv dag d) {instr : NodeInstr ν} {t t' : Thread ν}
    (move : NodeMove d d' d.period n instr t t') :
    ∀ e ∈ dag.edge, d'.lock e = .free → .waitDependency e ∈ d'.main ∨ d'.Computed e.src := by
  have suffix := inv.code _ n t move.before
  rw [move.code] at suffix
  intro e mem free
  rw [move.lock] at free
  have rest : d.lock e = .free → .waitDependency e ∈ d'.main ∨ d'.Computed e.src := fun free =>
    (inv.locked e mem free).imp (fun waiting => move.main ▸ waiting) move.computed
  cases instr
  case waitDependency e' =>
    by_cases same : e = e'
    · subst same
      rw [NodeInstr.onLock, Function.update_self] at free
      cases free
    · exact rest (by rwa [NodeInstr.onLock, Function.update_of_ne same] at free)
  case releaseDependency e' =>
    by_cases same : e = e'
    · -- the source releases after its compute function
      subst same
      have source := (release_mem_nodeCode.mp (suffix.subset List.mem_cons_self)).2
      refine Or.inr ⟨t', ?_, endCompute_not_mem_of_release suffix⟩
      rw [move.after, move.period, source, d.setThread_self]
    · exact rest (by rwa [NodeInstr.onLock, Function.update_of_ne same] at free)
  all_goals exact rest free

theorem Inv.passed_nodeMove (inv : Inv dag d) {instr : NodeInstr ν} {t t' : Thread ν}
    (move : NodeMove d d' d.period n instr t t') :
    ∀ e ∈ dag.edge, ∀ u, d'.thread d'.period e.trg = some u →
      .waitDependency e ∉ u.code → d'.Computed e.src := by
  intro e mem u here none
  rw [move.after, move.period] at here
  rcases DagState.setThread_cases here with ⟨-, target, rfl⟩ | ⟨-, here⟩
  · by_cases same : instr = .waitDependency e
    · -- the lock was free, and not because the task had still to take it
      rcases inv.locked e mem (move.enabled e same) with waiting | done
      · exact absurd waiting (inv.wait_not_mem move.before)
      · exact move.computed done
    · refine move.computed (inv.passed e mem t (target ▸ move.before) ?_)
      rw [move.code, List.mem_cons, not_or]
      exact ⟨fun h => same h.symm, none⟩
  · exact move.computed (inv.passed e mem u here none)

theorem Inv.nodeMove (inv : Inv dag d) {instr : NodeInstr ν} {t t' : Thread ν}
    (move : NodeMove d d' p n instr t t') : Inv dag d' := by
  have suffix := inv.code p n t move.before
  rw [move.code] at suffix
  have current : p = d.period := inv.period_eq move.before move.running
  subst current
  obtain ⟨code, nodes, later, old⟩ := inv.threads (inv.node _ _ _ move.before)
    (suffix_of_cons_suffix suffix) move.period move.after
  refine ⟨move.main ▸ inv.main, code, nodes, later, old, ?_, ?_, ?_, inv.locked_nodeMove move,
    inv.passed_nodeMove move, ?_⟩
  · intro m mem
    rw [move.main] at mem
    have none := inv.uncreated m mem
    have other : m ≠ n := by
      rintro rfl
      cases none.symm.trans move.before
    rw [move.after, move.period, d.setThread_ne _ (fun self => other self.2)]
    exact none
  · intro m node none
    rw [move.main] at none
    obtain ⟨u, here⟩ := inv.created m node none
    exact move.exists_thread here
  · intro m node none
    rw [move.main] at none
    obtain ⟨u, here, exited⟩ := inv.joined m node none
    refine ⟨u, ?_, exited⟩
    rw [move.after, move.period, d.setThread_ne]
    · exact here
    · intro given
      rcases given with ⟨-, rfl⟩
      cases here.symm.trans move.before
      exact move.running exited
  · rw [move.main, move.finish]
    exact inv.finished

/-- **Step lemma.** Every step keeps the invariant. -/
theorem Inv.step (inv : Inv dag d) (step : DagStep dag d d') : Inv dag d' := by
  rcases step with made | made | ⟨p, n, eff, made⟩
  · exact inv.mainStep made
  · exact inv.finishStep made
  · obtain ⟨instr, t, t', move, -⟩ := nodeStep_move (inv.code p n) made
    exact inv.nodeMove move

/-! ## Safety -/

section Program

variable {ι : Type u} [DecidableEq ι] {prog : ι → Dag ν} {s s' : State ι ν}

/-- **Run lemma.** Every DAG satisfies the invariant in every reachable state. -/
theorem Reachable.inv (reached : Reachable prog s) (i : ι) : Inv (prog i) (s.dags i) :=
  reached.invariant (Inv (prog i)) (Inv.init _) fun _ _ => Inv.step

/-- **Precedence safety.** A node computes only after every node with an edge to it has computed in
the same period, and no thread of an earlier period is running then. -/
theorem precedence_safety (reached : Reachable prog s) {i : ι} {t : Thread ν}
    (thread : (s.dags i).thread p n = some t) (computing : t.Computing) :
    (∀ e ∈ (prog i).edge, e.trg = n →
        ∃ t', (s.dags i).thread p e.src = some t' ∧ t'.Computed) ∧
      (∀ q m t', q < p → (s.dags i).thread q m = some t' → t'.Exited) ∧
      (.createFinish ∈ (s.dags i).main → (s.dags i).finish = .absent) := by
  have inv := reached.inv i
  obtain ⟨instr, rest, code, compute⟩ := computing
  have running : ¬ t.Exited := by
    rw [Thread.Exited, code]
    exact List.cons_ne_nil _ _
  have current := inv.period_eq thread running
  subst current
  refine ⟨fun e mem target => ?_, inv.old, fun create => inv.finished (Or.inl create)⟩
  have suffix := inv.code _ _ _ thread
  rw [code] at suffix
  have none : .waitDependency e ∉ t.code := by
    rw [code]
    exact wait_not_mem_of_compute suffix compute
  exact inv.passed e mem t (target ▸ thread) none

theorem nodup_pair : [false, true].Nodup := by decide

/-- Two PREM nodes and the edge between them, in one DAG. -/
def chainProgram : Unit → Dag Bool := fun _ =>
  ⟨[false, true], [⟨false, true⟩], .prem, fun _ => 1, nodup_pair⟩

/-- The task creates both threads, the first node computes and releases the edge, and the second
takes it. -/
def chainSchedule : List (Tid Unit Bool) :=
  List.replicate 7 (.main ()) ++ List.replicate 8 (.node () 0 false) ++
    List.replicate 2 (.node () 0 true)

theorem precedence_safety_chain : ∃ s, Reachable chainProgram s ∧
    ∃ t, (s.dags ()).thread 0 true = some t ∧ t.Computing ∧
      (∀ e ∈ (chainProgram ()).edge, e.trg = true →
          ∃ t', (s.dags ()).thread 0 e.src = some t' ∧ t'.Computed) ∧
        (∀ q m t', q < 0 → (s.dags ()).thread q m = some t' → t'.Exited) ∧
        (.createFinish ∈ (s.dags ()).main → (s.dags ()).finish = .absent) := by
  have ran : (run chainProgram chainSchedule (.init chainProgram)).map
      (fun s => (s.dags ()).thread 0 true) =
        some (some ⟨computeCode (chainProgram ()) true, 0⟩) := by decide
  obtain ⟨s, made, thread⟩ := Option.map_eq_some_iff.mp ran
  have reached := Reachable.run Relation.ReflTransGen.refl made
  have computing : Thread.Computing ⟨computeCode (chainProgram ()) true, 0⟩ := ⟨_, _, rfl, rfl⟩
  exact ⟨s, reached, _, thread, computing, precedence_safety reached thread computing⟩

end Program

end Hipert.Gen
