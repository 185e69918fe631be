import Hipert.Gen.Safety

/-!
# The completion counter

`var_condition` counts the stores of one period, but a store writes one more than what its own load
saw. So the counter is at most the number of nodes that have stored (`Counted`), and it is that
number in the runs where no node loads between the load and the store of another (`Exact`).
-/

namespace Hipert.Gen

universe u

/-- A predicate that changes at one element of a list without duplicates, to true, holds once more
often. -/
theorem countP_add_one {α : Type u} {before after : α → Bool} {l : List α} {a : α}
    (nodup : l.Nodup) (mem : a ∈ l) (off : before a = false) (on : after a = true)
    (same : ∀ b, b ≠ a → after b = before b) : l.countP after = l.countP before + 1 := by
  induction l with
  | nil => cases mem
  | cons b l ih =>
      obtain ⟨fresh, nodup⟩ := List.nodup_cons.mp nodup
      by_cases self : b = a
      · subst self
        have rest : l.countP after = l.countP before :=
          List.countP_congr fun c here => by rw [same c (fun eq => fresh (eq ▸ here))]
        rw [List.countP_cons_of_pos on, List.countP_cons_of_neg (by simp [off]), rest]
      · have here := ih nodup ((List.mem_cons.mp mem).resolve_left (Ne.symm self))
        rw [List.countP_cons, List.countP_cons, here, same b self]
        omega

variable {ν : Type u} [DecidableEq ν] {dag : Dag ν} {d d' : DagState ν} {p : ℕ} {n : ν}

/-! ## Stores -/

/-- The thread of node `n` in the current period has stored the counter. -/
def DagState.hasStored (d : DagState ν) (n : ν) : Bool :=
  match d.thread d.period n with
  | none => false
  | some t => decide (.storeCondition ∉ t.code)

/-- The number of nodes that have stored the counter in the current period. -/
def DagState.stored (d : DagState ν) (dag : Dag ν) : ℕ := dag.node.countP d.hasStored

/-- The thread is between its load and its store of the counter. -/
def Thread.Storing (t : Thread ν) : Prop := ∃ rest, t.code = .storeCondition :: rest

theorem hasStored_of_thread {t : Thread ν} (thread : d.thread d.period n = some t) :
    d.hasStored n = decide (.storeCondition ∉ t.code) := by
  rw [DagState.hasStored, thread]

theorem NodeMove.hasStored_of_ne {instr : NodeInstr ν} {t t' : Thread ν}
    (move : NodeMove d d' p n instr t t') {m : ν} (other : m ≠ n) :
    d'.hasStored m = d.hasStored m := by
  rw [DagState.hasStored, DagState.hasStored, move.period, move.after,
    d.setThread_ne _ (fun self => other self.2)]

/-- Only a store changes the number of stores, by one. -/
theorem Inv.stored_nodeMove (inv : Inv dag d) {instr : NodeInstr ν} {t t' : Thread ν}
    (move : NodeMove d d' d.period n instr t t') :
    d'.stored dag = if instr = .storeCondition then d.stored dag + 1 else d.stored dag := by
  have suffix := inv.code _ n t move.before
  rw [move.code] at suffix
  have mine : d'.thread d'.period n = some t' := by
    rw [move.after, move.period, d.setThread_self]
  by_cases store : instr = .storeCondition
  · subst store
    rw [if_pos rfl]
    refine countP_add_one dag.node_nodup (inv.node _ _ _ move.before) ?_ ?_
      fun m other => move.hasStored_of_ne other
    · rw [hasStored_of_thread move.before, move.code]
      simp
    · rw [hasStored_of_thread mine, store_last suffix]
      simp
  · rw [if_neg store]
    refine List.countP_congr fun m _ => ?_
    by_cases self : m = n
    · subst self
      rw [hasStored_of_thread mine, hasStored_of_thread move.before, move.code]
      simp [Ne.symm store]
    · rw [move.hasStored_of_ne self]

theorem Inv.stored_mainMove (inv : Inv dag d) {instr : MainInstr ν} (move : MainMove dag d d' instr) :
    d'.stored dag = d.stored dag := by
  refine List.countP_congr fun m _ => ?_
  rw [DagState.hasStored, DagState.hasStored, move.period, move.thread]
  cases instr
  case threadCreate m' =>
    rw [MainInstr.onThread]
    by_cases self : m = m'
    · subst self
      rw [d.setThread_self, inv.uncreated m (move.code ▸ List.mem_cons_self)]
      simp [store_mem_nodeCode]
    · rw [d.setThread_ne _ (fun same => self same.2)]
  all_goals exact Iff.rfl

/-- Before the counter is reset, no node of the period has stored. -/
theorem Inv.stored_eq_zero (inv : Inv dag d) (reset : .resetCondition ∈ d.main) :
    d.stored dag = 0 := by
  refine List.countP_eq_zero.mpr fun n node => ?_
  have create := create_mem_of_early inv.main reset (by simp [periodCode]) node
  rw [DagState.hasStored, inv.uncreated n create]
  simp

theorem stored_eq_length (all : d.stored dag = dag.node.length) {n : ν} (node : n ∈ dag.node) :
    ∃ t, d.thread d.period n = some t ∧ .storeCondition ∉ t.code := by
  have here := List.countP_eq_length.mp all n node
  cases thread : d.thread d.period n with
  | none =>
      rw [DagState.hasStored, thread] at here
      cases here
  | some t =>
      rw [hasStored_of_thread thread] at here
      exact ⟨t, rfl, of_decide_eq_true here⟩

theorem Inv.reset_not_mem (inv : Inv dag d) {t : Thread ν}
    (thread : d.thread d.period n = some t) : .resetCondition ∉ d.main := fun mem => by
  have period := inv.mem_periodCode thread mem
  simp [periodCode] at period

/-- A thread comes between its load and its store by its load only. -/
theorem Inv.storing_nodeMove (inv : Inv dag d) {instr : NodeInstr ν} {t t' : Thread ν}
    (move : NodeMove d d' d.period n instr t t') {m : ν} {u : Thread ν}
    (here : d'.thread d'.period m = some u) (storing : u.Storing) :
    (m = n ∧ u = t' ∧ instr = .loadCondition) ∨ (m ≠ n ∧ d.thread d.period m = some u) := by
  rw [move.after, move.period] at here
  rcases DagState.setThread_cases here with ⟨-, rfl, rfl⟩ | ⟨other, here⟩
  · obtain ⟨rest, code⟩ := storing
    have suffix := inv.code _ _ t move.before
    rw [move.code, code] at suffix
    exact Or.inl ⟨rfl, rfl, load_of_store suffix⟩
  · exact Or.inr ⟨fun self => other ⟨rfl, self⟩, here⟩

theorem not_storing_nodeCode : ¬ Thread.Storing ⟨nodeCode dag n, 0⟩ := by
  intro given
  rcases given with ⟨rest, code⟩
  cases code

theorem MainMove.storing {instr : MainInstr ν} (move : MainMove dag d d' instr) {m : ν}
    {u : Thread ν} (here : d'.thread d'.period m = some u) (storing : u.Storing) :
    d.thread d.period m = some u := by
  rw [move.thread, move.period] at here
  cases instr
  case threadCreate m' =>
    rcases DagState.setThread_cases here with ⟨-, -, rfl⟩ | ⟨-, here⟩
    · exact absurd storing not_storing_nodeCode
    · exact here
  all_goals exact here

/-! ## The counter in any run -/

/-- The counter and what was loaded from it are at most the number of stores. -/
structure Counted (dag : Dag ν) (d : DagState ν) : Prop where
  count : .resetCondition ∉ d.main → d.condition ≤ d.stored dag
  loaded : ∀ n t, d.thread d.period n = some t → t.Storing → t.loaded ≤ d.stored dag

theorem Counted.init (dag : Dag ν) : Counted dag (.init dag) where
  count reset := absurd List.mem_cons_self reset
  loaded _ _ h := nomatch h

theorem Counted.nodeMove (inv : Inv dag d) (counted : Counted dag d) {instr : NodeInstr ν}
    {t t' : Thread ν} (move : NodeMove d d' d.period n instr t t') : Counted dag d' := by
  have stored := inv.stored_nodeMove move
  have grows : d.stored dag ≤ d'.stored dag := by
    rw [stored]
    split <;> omega
  have count := counted.count (inv.reset_not_mem move.before)
  refine ⟨fun _ => ?_, fun m u here storing => ?_⟩
  · rw [move.condition]
    split
    · rename_i store
      have loaded := counted.loaded n t move.before ⟨_, store ▸ move.code⟩
      rw [stored, if_pos store]
      omega
    · exact count.trans grows
  · rcases inv.storing_nodeMove move here storing with ⟨rfl, rfl, load⟩ | ⟨-, here⟩
    · rw [move.loaded, if_pos load]
      exact count.trans grows
    · exact (counted.loaded m u here storing).trans grows

theorem Counted.mainMove (inv : Inv dag d) (counted : Counted dag d) {instr : MainInstr ν}
    (move : MainMove dag d d' instr) : Counted dag d' := by
  have stored := inv.stored_mainMove move
  refine ⟨fun reset => ?_, fun m u here storing => ?_⟩
  · rw [move.condition, stored]
    split
    · exact Nat.zero_le _
    · rename_i other
      refine counted.count ?_
      rw [move.code, List.mem_cons, not_or]
      exact ⟨Ne.symm other, reset⟩
  · rw [stored]
    exact counted.loaded m u (move.storing here storing) storing

theorem Counted.step (inv : Inv dag d) (counted : Counted dag d) (step : DagStep dag d d') :
    Counted dag d' := by
  rcases step with made | made | ⟨p, n, eff, made⟩
  · rcases mainStep_move made with ⟨rest, -, rfl⟩ | ⟨instr, -, move⟩
    · refine ⟨fun reset => absurd List.mem_cons_self reset, fun n t here => ?_⟩
      rw [inv.later _ _ (Nat.lt_succ_self _)] at here
      cases here
    · exact counted.mainMove inv move
  · obtain ⟨-, eq⟩ := finishStep_move made
    rw [eq]
    exact ⟨counted.count, counted.loaded⟩
  · obtain ⟨instr, t, t', move, -⟩ := nodeStep_move (inv.code p n) made
    cases inv.period_eq move.before move.running
    exact counted.nodeMove inv move

/-! ## The counter when loads do not overlap -/

/-- The counter is the number of stores, and at most one thread is between its load and its store,
which will store that number plus one. -/
structure Exact (dag : Dag ν) (d : DagState ν) : Prop where
  count : .resetCondition ∉ d.main → d.condition = d.stored dag
  loaded : ∀ n t, d.thread d.period n = some t → t.Storing → t.loaded = d.condition
  single : ∀ n m t u, d.thread d.period n = some t → d.thread d.period m = some u →
    t.Storing → u.Storing → n = m

/-- If the thread of node `n` from period `p` is at its load of the counter, no other thread of the
DAG is between its load and its store. -/
def DagState.LoadsAlone (d : DagState ν) (p : ℕ) (n : ν) : Prop :=
  ∀ t rest, d.thread p n = some t → t.code = .loadCondition :: rest →
    ∀ q m u, (q, m) ≠ (p, n) → d.thread q m = some u → ¬ u.Storing

theorem Exact.init (dag : Dag ν) : Exact dag (.init dag) where
  count reset := absurd List.mem_cons_self reset
  loaded _ _ h := nomatch h
  single _ _ _ _ h := nomatch h

theorem Exact.nodeMove (inv : Inv dag d) (exact : Exact dag d) {instr : NodeInstr ν}
    {t t' : Thread ν} (move : NodeMove d d' d.period n instr t t')
    (alone : d.LoadsAlone d.period n) : Exact dag d' := by
  have stored := inv.stored_nodeMove move
  have count := exact.count (inv.reset_not_mem move.before)
  -- a thread between load and store excludes the loads and the stores of others
  have keeps : ∀ m u, m ≠ n → d.thread d.period m = some u → u.Storing →
      instr ≠ .loadCondition ∧ instr ≠ .storeCondition := by
    intro m u other here storing
    refine ⟨?_, ?_⟩
    · rintro rfl
      exact alone t _ move.before move.code _ m u (fun same => other (Prod.mk.inj same).2) here storing
    · rintro rfl
      exact other (exact.single m n u t here move.before storing ⟨_, move.code⟩)
  refine ⟨fun _ => ?_, fun m u here storing => ?_, fun m k u v here here' storing storing' => ?_⟩
  · rw [move.condition, stored]
    split
    · rename_i store
      rw [exact.loaded n t move.before ⟨_, store ▸ move.code⟩, count]
    · exact count
  · rcases inv.storing_nodeMove move here storing with ⟨rfl, rfl, load⟩ | ⟨other, here⟩
    · subst load
      rw [move.loaded, move.condition, if_pos rfl, if_neg (fun h => nomatch h)]
    · rw [exact.loaded m u here storing, move.condition, if_neg (keeps m u other here storing).2]
  · rcases inv.storing_nodeMove move here storing with ⟨rfl, rfl, load⟩ | ⟨other, here⟩ <;>
      rcases inv.storing_nodeMove move here' storing' with ⟨rfl, rfl, load'⟩ | ⟨other', here'⟩
    · rfl
    · exact absurd load (keeps k v other' here' storing').1
    · exact absurd load' (keeps m u other here storing).1
    · exact exact.single m k u v here here' storing storing'

theorem Exact.mainMove (inv : Inv dag d) (exact : Exact dag d) {instr : MainInstr ν}
    (move : MainMove dag d d' instr) : Exact dag d' := by
  have stored := inv.stored_mainMove move
  refine ⟨fun reset => ?_, fun m u here storing => ?_, fun m k u v here here' storing storing' => ?_⟩
  · rw [move.condition, stored]
    split
    · rename_i first
      exact (inv.stored_eq_zero (move.code ▸ first ▸ List.mem_cons_self)).symm
    · rename_i other
      refine exact.count ?_
      rw [move.code, List.mem_cons, not_or]
      exact ⟨Ne.symm other, reset⟩
  · have before := move.storing here storing
    have other : instr ≠ .resetCondition := by
      rintro rfl
      exact inv.reset_not_mem before (move.code ▸ List.mem_cons_self)
    rw [move.condition, if_neg other]
    exact exact.loaded m u before storing
  · exact exact.single m k u v (move.storing here storing) (move.storing here' storing') storing
      storing'

/-! ## Runs -/

section Program

variable {ι : Type u} [DecidableEq ι] {prog : ι → Dag ν} {s s' : State ι ν} {i : ι}

/-- The states that runs reach in which no node of DAG `i` loads the counter between the load and the
store of another. -/
def ReachableAlone (prog : ι → Dag ν) (i : ι) (s : State ι ν) : Prop :=
  Relation.ReflTransGen (fun s s' => ∃ tid, exec prog tid s = some s' ∧
    ∀ p n, tid = .node i p n → (s.dags i).LoadsAlone p n) (State.init prog) s

theorem ReachableAlone.reachable (reached : ReachableAlone prog i s) : Reachable prog s :=
  Relation.ReflTransGen.mono (fun _ _ ⟨tid, step, _⟩ => ⟨tid, step⟩) _ _ reached

theorem Reachable.counted (reached : Reachable prog s) : Counted (prog i) (s.dags i) :=
  (reached.invariant (fun d => Inv (prog i) d ∧ Counted (prog i) d) ⟨Inv.init _, Counted.init _⟩
    fun _ _ here step => ⟨here.1.step step, here.2.step here.1 step⟩).2

theorem Exact.exec (inv : Inv (prog i) (s.dags i)) (exact : Exact (prog i) (s.dags i))
    {tid : Tid ι ν} (step : exec prog tid s = some s')
    (alone : ∀ p n, tid = .node i p n → (s.dags i).LoadsAlone p n) :
    Exact (prog i) (s'.dags i) := by
  obtain ⟨j, d, eq, made⟩ := exec_dag step
  rw [eq]
  by_cases self : i = j
  · subst self
    rw [Function.update_self]
    rcases made with made | made | ⟨p, n, eff, mover, made⟩
    · rcases mainStep_move made with ⟨rest, -, rfl⟩ | ⟨instr, -, move⟩
      · refine ⟨fun reset => absurd List.mem_cons_self reset, fun n t here => ?_,
          fun n m t u here => ?_⟩ <;>
        · rw [inv.later _ _ (Nat.lt_succ_self _)] at here
          cases here
      · exact exact.mainMove inv move
    · obtain ⟨-, eq⟩ := finishStep_move made
      rw [eq]
      exact ⟨exact.count, exact.loaded, exact.single⟩
    · obtain ⟨instr, t, t', move, -⟩ := nodeStep_move (inv.code p n) made
      cases inv.period_eq move.before move.running
      exact exact.nodeMove inv move (alone _ n mover)
  · rwa [Function.update_of_ne self]

theorem ReachableAlone.exact (reached : ReachableAlone prog i s) : Exact (prog i) (s.dags i) := by
  induction reached with
  | refl => exact Exact.init _
  | tail reached step ih =>
      obtain ⟨tid, step, alone⟩ := step
      exact ih.exec ((ReachableAlone.reachable reached).inv i) step alone

/-- In any run the counter reaches the number of nodes only when all of them have computed. -/
theorem Reachable.computed_of_condition (reached : Reachable prog s)
    (reset : .resetCondition ∉ (s.dags i).main)
    (full : (s.dags i).condition = (prog i).node.length) :
    ∀ n ∈ (prog i).node, (s.dags i).Computed n := by
  intro n node
  have counted := reached.counted.count reset
  have all : (s.dags i).stored (prog i) = (prog i).node.length :=
    le_antisymm List.countP_le_length (full ▸ counted)
  obtain ⟨t, thread, stored⟩ := stored_eq_length all node
  exact ⟨t, thread, endCompute_not_mem_of_stored ((reached.inv i).code _ n t thread) stored⟩

/-- **Completion.** In a run whose loads of the counter do not fall between the load and the store of
another node, from its reset on the counter is the number of nodes once all threads have exited, so
that `wait_finish` leaves its loop, and only once all nodes have computed. -/
theorem completion_of_loadsAlone (reached : ReachableAlone prog i s)
    (reset : .resetCondition ∉ (s.dags i).main) :
    ((∀ n ∈ (prog i).node, ∃ t, (s.dags i).thread (s.dags i).period n = some t ∧ t.Exited) →
      (s.dags i).condition = (prog i).node.length ∧
        ((s.dags i).finish = .spinning →
          ∃ s', exec prog (.finish i) s = some s' ∧ (s'.dags i).finish = .exited)) ∧
    ((s.dags i).condition = (prog i).node.length → ∀ n ∈ (prog i).node, (s.dags i).Computed n) := by
  refine ⟨fun exited => ?_, reached.reachable.computed_of_condition reset⟩
  have full : (s.dags i).condition = (prog i).node.length := by
    rw [reached.exact.count reset]
    refine List.countP_eq_length.mpr fun n node => ?_
    obtain ⟨t, thread, exited⟩ := exited n node
    rw [hasStored_of_thread thread, exited]
    rfl
  refine ⟨full, fun spinning => ?_⟩
  have made : finishStep (prog i) (s.dags i) = some { s.dags i with finish := .exited } := by
    unfold finishStep
    rw [spinning]
    exact if_pos full
  refine ⟨_, Option.map_eq_some_iff.mpr ⟨_, made, rfl⟩, ?_⟩
  rw [State.setDag_dags, Function.update_self]

/-! ## Schedules -/

/-- The node's thread of the current period is between its load and its store of the counter. -/
def DagState.storingAt (d : DagState ν) (n : ν) : Bool :=
  match d.thread d.period n with
  | some ⟨.storeCondition :: _, _⟩ => true
  | _ => false

/-- A test of `DagState.LoadsAlone`. -/
def DagState.aloneAt (dag : Dag ν) (d : DagState ν) (n : ν) : Bool :=
  dag.node.all fun m => m = n || !d.storingAt m

theorem Inv.loadsAlone (inv : Inv dag d) (alone : d.aloneAt dag n = true) : d.LoadsAlone p n := by
  rintro t rest here code q m u other there ⟨rest', storing⟩
  cases inv.period_eq here (by rw [Thread.Exited, code]; exact List.cons_ne_nil _ _)
  cases inv.period_eq there (by rw [Thread.Exited, storing]; exact List.cons_ne_nil _ _)
  have apart : m ≠ n := fun same => other (by rw [same])
  have quiet := List.all_eq_true.mp alone m (inv.node _ m u there)
  obtain ⟨code', loaded⟩ := u
  cases storing
  simp [apart, DagState.storingAt, there] at quiet

/-- `run`, if no node of DAG `i` steps while another is between its load and its store. -/
def runAlone (prog : ι → Dag ν) (i : ι) (tids : List (Tid ι ν)) (s : State ι ν) :
    Option (State ι ν) :=
  tids.foldlM (fun s tid =>
    match tid with
    | .node _ _ n => if (s.dags i).aloneAt (prog i) n then exec prog tid s else none
    | _ => exec prog tid s) s

theorem ReachableAlone.run {tids : List (Tid ι ν)} (reached : ReachableAlone prog i s)
    (ran : runAlone prog i tids s = some s') : ReachableAlone prog i s' := by
  induction tids generalizing s with
  | nil =>
      cases ran
      exact reached
  | cons tid tids ih =>
      obtain ⟨mid, step, ran⟩ := Option.bind_eq_some_iff.mp ran
      refine ih (reached.tail ⟨tid, ?_⟩) ran
      cases tid with
      | main j => exact ⟨step, fun _ _ h => nomatch h⟩
      | finish j => exact ⟨step, fun _ _ h => nomatch h⟩
      | node j p n =>
          dsimp only at step
          split at step
          · rename_i alone
            refine ⟨step, fun p n eq => ?_⟩
            cases eq
            exact (reached.reachable.inv i).loadsAlone alone
          · cases step

/-- The task up to the creation of `wait_finish`, then one node after the other. -/
def inTurnSchedule : List (Tid Unit Bool) :=
  List.replicate 9 (.main ()) ++ List.replicate 11 (.node () 0 false) ++
    List.replicate 11 (.node () 0 true)

theorem completion_of_loadsAlone_chain : ∃ s, ReachableAlone chainProgram () s ∧
    (s.dags ()).condition = 2 ∧ (∀ n ∈ [false, true], (s.dags ()).Computed n) ∧
      ∃ s', exec chainProgram (.finish ()) s = some s' ∧ (s'.dags ()).finish = .exited := by
  have ran : (runAlone chainProgram () inTurnSchedule (.init chainProgram)).map
      (fun s => ((s.dags ()).period, decide (.resetCondition ∈ (s.dags ()).main),
        (s.dags ()).finish, (s.dags ()).thread 0 false, (s.dags ()).thread 0 true)) =
        some (0, false, .spinning, some ⟨[], 0⟩, some ⟨[], 1⟩) := by rfl
  obtain ⟨s, made, eq⟩ := Option.map_eq_some_iff.mp ran
  simp only [Prod.mk.injEq] at eq
  obtain ⟨period, reset, finish, first, second⟩ := eq
  have reached := ReachableAlone.run Relation.ReflTransGen.refl made
  have completion := completion_of_loadsAlone reached (of_decide_eq_false reset)
  have exited : ∀ n ∈ (chainProgram ()).node, ∃ t,
      (s.dags ()).thread (s.dags ()).period n = some t ∧ t.Exited := by
    intro n _
    rw [period]
    cases n
    · exact ⟨_, first, rfl⟩
    · exact ⟨_, second, rfl⟩
  obtain ⟨full, leaves⟩ := completion.1 exited
  exact ⟨s, reached, full, completion.2 full, leaves finish⟩

/-- The first node releases the edge and loads the counter, the second runs to its exit, and the
first stores what it has loaded. -/
def lostSchedule : List (Tid Unit Bool) :=
  List.replicate 9 (.main ()) ++ List.replicate 9 (.node () 0 false) ++
    List.replicate 11 (.node () 0 true) ++ List.replicate 2 (.node () 0 false)

/-- Both nodes have exited, and `wait_finish` waits for a count that no one will make. -/
theorem increment_lost : ∃ s, Reachable chainProgram s ∧ .resetCondition ∉ (s.dags ()).main ∧
    (∀ n ∈ (chainProgram ()).node, ∃ t,
      (s.dags ()).thread (s.dags ()).period n = some t ∧ t.Exited) ∧
    (s.dags ()).finish = .spinning ∧ (s.dags ()).condition ≠ (chainProgram ()).node.length := by
  have ran : (run chainProgram lostSchedule (.init chainProgram)).map
      (fun s => ((s.dags ()).period, decide (.resetCondition ∈ (s.dags ()).main),
        (s.dags ()).finish, (s.dags ()).condition, (s.dags ()).thread 0 false,
        (s.dags ()).thread 0 true)) =
        some (0, false, .spinning, 1, some ⟨[], 0⟩, some ⟨[], 0⟩) := by rfl
  obtain ⟨s, made, eq⟩ := Option.map_eq_some_iff.mp ran
  simp only [Prod.mk.injEq] at eq
  obtain ⟨period, reset, finish, condition, first, second⟩ := eq
  refine ⟨s, Reachable.run Relation.ReflTransGen.refl made, of_decide_eq_false reset, ?_, finish, ?_⟩
  · intro n _
    rw [period]
    cases n
    · exact ⟨_, first, rfl⟩
    · exact ⟨_, second, rfl⟩
  · rw [condition]
    decide

end Program

end Hipert.Gen
