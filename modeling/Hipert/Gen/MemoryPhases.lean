import Mathlib.Data.List.Chain
import Hipert.Gen.Progress
import Hipert.Gen.Trace

/-!
# Memory phases

The memory phase of a PREM node is its `memcpy`, between taking `premMutex` and releasing it. The
threads in a memory phase are exactly the holders of `premMutex` (`mutual_exclusion`), so the memory
phases of all DAGs follow one another: each begins after the one before has released
(`memory_phases_serial`).
-/

namespace Hipert.Gen

universe u

variable {ν : Type u} [DecidableEq ν] {dag : Dag ν} {n : ν}

/-! ## The instructions before a copy and a release -/

/-- The `memcpy` comes right after taking `premMutex`, and the release right after the `memcpy`. -/
def PremOrder (before after : NodeInstr ν) : Prop :=
  (after = .memcpy → before = .waitPrem) ∧ (after = .releasePrem → before = .memcpy)

/-- The instructions without an order. -/
def NodeInstr.isFree (instr : NodeInstr ν) : Prop := instr ≠ .memcpy ∧ instr ≠ .releasePrem

omit [DecidableEq ν] in
theorem isFree_of_notMem {code : List (NodeInstr ν)} (copy : .memcpy ∉ code)
    (release : .releasePrem ∉ code) : ∀ instr ∈ code, instr.isFree :=
  fun _ mem => ⟨fun same => copy (same ▸ mem), fun same => release (same ▸ mem)⟩

omit [DecidableEq ν] in
theorem premOrder_of_isFree {before after : NodeInstr ν} (free : after.isFree) :
    PremOrder before after :=
  ⟨fun copy => absurd copy free.1, fun release => absurd release free.2⟩

omit [DecidableEq ν] in
theorem isChain_of_isFree {code : List (NodeInstr ν)} (free : ∀ instr ∈ code, instr.isFree) :
    code.IsChain PremOrder := by
  induction code with
  | nil => exact .nil
  | cons instr code ih =>
      refine List.isChain_cons.mpr ⟨?_, ih fun x mem => free x (List.mem_cons_of_mem _ mem)⟩
      intro next mem
      exact premOrder_of_isFree (free next (List.mem_cons_of_mem _ (List.mem_of_mem_head? mem)))

omit [DecidableEq ν] in
/-- Code that begins with a free instruction may follow any other. -/
theorem isChain_append_of_isFree {pre post : List (NodeInstr ν)} (first : pre.IsChain PremOrder)
    (second : post.IsChain PremOrder) (free : ∀ instr ∈ post.head?, instr.isFree) :
    (pre ++ post).IsChain PremOrder :=
  List.isChain_append.mpr ⟨first, second, fun _ _ _ mem => premOrder_of_isFree (free _ mem)⟩

omit [DecidableEq ν] in
theorem roundCode_order (kind : MemType) :
    (roundCode kind : List (NodeInstr ν)).IsChain PremOrder ∧
      ∀ instr ∈ (roundCode kind : List (NodeInstr ν)).head?, instr.isFree := by
  cases kind with
  | prem => simp [roundCode, PremOrder, NodeInstr.isFree]
  | sparse => simp [roundCode, PremOrder, NodeInstr.isFree]

omit [DecidableEq ν] in
theorem chunkCode_order (dag : Dag ν) (n : ν) :
    (chunkCode dag n).IsChain PremOrder ∧ ∀ instr ∈ (chunkCode dag n).head?, instr.isFree := by
  unfold chunkCode
  obtain ⟨round, first⟩ := roundCode_order (ν := ν) dag.memType
  induction dag.chunks n with
  | zero => exact ⟨.nil, fun _ mem => absurd mem (by simp)⟩
  | succ rounds ih =>
      rw [List.replicate_succ, List.flatten_cons]
      refine ⟨isChain_append_of_isFree round ih.1 ih.2, ?_⟩
      intro instr mem
      rw [List.head?_append] at mem
      rcases Option.or_eq_some_iff.mp mem with here | ⟨-, later⟩
      · exact first instr here
      · exact ih.2 instr later

theorem nodeCode_order (dag : Dag ν) (n : ν) : (nodeCode dag n).IsChain PremOrder := by
  rw [nodeCode_eq_chunks]
  have waits : ∀ instr ∈ (.trylockStart :: (dag.incoming n).map .waitDependency ++
      [.beginCompute] : List (NodeInstr ν)), instr.isFree := by
    refine isFree_of_notMem ?_ ?_ <;> simp
  have releases : ∀ instr ∈ (.endCompute :: releaseCode dag n : List (NodeInstr ν)),
      instr.isFree := by
    refine isFree_of_notMem ?_ ?_ <;> simp [releaseCode]
  obtain ⟨chunks, first⟩ := chunkCode_order dag n
  refine isChain_append_of_isFree (isChain_of_isFree waits) ?_ ?_
  · exact isChain_append_of_isFree chunks (isChain_of_isFree releases)
      fun instr mem => releases instr (List.mem_of_mem_head? mem)
  · intro instr mem
    rw [List.head?_append] at mem
    rcases Option.or_eq_some_iff.mp mem with here | ⟨-, later⟩
    · exact first instr here
    · exact releases instr (List.mem_of_mem_head? later)

/-- What a thread executes before its `memcpy` and before its release. -/
theorem prem_previous {instr next : NodeInstr ν} {rest : List (NodeInstr ν)}
    (suffix : instr :: next :: rest <:+ nodeCode dag n) : PremOrder instr next :=
  (List.isChain_cons_cons.mp ((nodeCode_order dag n).suffix suffix)).1

/-! ## Mutual exclusion -/

section Program

variable {ι : Type u} [DecidableEq ι] {prog : ι → Dag ν} {s s' : State ι ν} {tid : Tid ι ν} {i : ι}
  {p : ℕ}

/-- A thread that another's step leaves in a memory phase was in it before. -/
theorem AtCopy.of_step (reached : Reachable prog s) {mover : Tid ι ν}
    (step : exec prog mover s = some s') (other : mover ≠ tid) (copying : AtCopy s' tid) :
    AtCopy s tid := by
  rcases copying with ⟨i, p, n, t, instr, rest, rfl, here, code, copy⟩
  rcases thread_frame reached step other with same | ⟨-, created⟩
  · exact ⟨i, p, n, t, instr, rest, rfl, same ▸ here, code, copy⟩
  · cases created.symm.trans here
    cases code
    rcases copy with copy | copy <;> cases copy

/-- Only the holder of `premMutex` and a thread that finds it free change it. -/
theorem prem_frame (reached : Reachable prog s) {mover : Tid ι ν}
    (step : exec prog mover s = some s') (held : s.premMutex = some tid) (other : mover ≠ tid)
    (holds : AtCopy s mover → s.premMutex = some mover) : s'.premMutex = some tid := by
  cases mover with
  | main j =>
      obtain ⟨d, -, -, prem⟩ := exec_main step
      exact prem.trans held
  | finish j =>
      obtain ⟨d, -, -, prem⟩ := exec_finish step
      exact prem.trans held
  | node j q m =>
      obtain ⟨d, instr, t, t', move, -, -, free, prem⟩ := exec_node (reached.inv j) step
      rw [prem]
      split
      · rename_i wait
        cases held.symm.trans (free wait)
      · split
        · rename_i release
          have mine := holds ⟨j, q, m, t, _, _, rfl, move.before, move.code, Or.inr release⟩
          cases held.symm.trans mine
          exact absurd rfl other
        · exact held

/-- Every thread in a memory phase holds `premMutex`. -/
theorem Reachable.holds (reached : Reachable prog s) (copying : AtCopy s tid) :
    s.premMutex = some tid := by
  induction reached generalizing tid with
  | refl =>
      obtain ⟨i, p, n, t, instr, rest, -, thread, -⟩ := copying
      cases thread
  | tail reached step ih =>
      rename_i s s'
      obtain ⟨mover, step⟩ := step
      by_cases self : mover = tid
      · subst self
        obtain ⟨i, p, n, u, instr', rest, rfl, here, code, copy⟩ := copying
        have inv := Reachable.inv reached i
        obtain ⟨d, instr, t, t', move, dags, -, free, prem⟩ := exec_node inv step
        rw [dags, Function.update_self, move.after, DagState.setThread_self] at here
        cases here
        have suffix := inv.code p n t move.before
        rw [move.code, code] at suffix
        obtain ⟨before_copy, before_release⟩ := prem_previous suffix
        rcases copy with rfl | rfl
        · rw [prem, if_pos (before_copy rfl)]
        · -- the `memcpy` was its own, so it holds `premMutex` already
          have first := before_release rfl
          have holding : AtCopy s (.node i p n) :=
            ⟨i, p, n, t, _, _, rfl, move.before, move.code, Or.inl first⟩
          rw [prem, first]
          exact ih holding
      · exact prem_frame reached step (ih (copying.of_step reached step self)) self ih

/-- **Mutual exclusion.** In every reachable state the threads in a memory phase, over all DAGs and
periods, are those that hold `premMutex`, so there is at most one. -/
theorem mutual_exclusion (reached : Reachable prog s) :
    (∀ tid, AtCopy s tid ↔ s.premMutex = some tid) ∧
      ∀ tid tid', AtCopy s tid → AtCopy s tid' → tid = tid' := by
  refine ⟨fun tid => ⟨reached.holds, reached.atCopy⟩, ?_⟩
  intro tid tid' copying copying'
  exact Option.some.inj ((reached.holds copying).symm.trans (reached.holds copying'))

/-- The task creates both threads, and the first begins its memory phase. -/
def copySchedule : List (Tid Unit Bool) :=
  List.replicate 7 (.main ()) ++ List.replicate 3 (.node () 0 false)

theorem mutual_exclusion_chain : ∃ s, Reachable chainProgram s ∧
    s.premMutex = some (.node () 0 false) ∧ AtCopy s (.node () 0 false) ∧
      ∀ tid, AtCopy s tid → tid = .node () 0 false := by
  have ran : (run chainProgram copySchedule (.init chainProgram)).map State.premMutex =
      some (some (.node () 0 false)) := by decide
  obtain ⟨s, made, held⟩ := Option.map_eq_some_iff.mp ran
  have reached := Reachable.run .refl made
  obtain ⟨holders, single⟩ := mutual_exclusion reached
  have copying := (holders _).mpr held
  exact ⟨s, reached, held, copying, fun tid other => single _ _ other copying⟩

/-! ## Serial phases -/

/-- The events of memory phases. -/
def Event.ofMemory : Event ι ν → Bool
  | .node _ _ _ .waitPrem | .node _ _ _ .memcpy | .node _ _ _ .releasePrem => true
  | _ => false

/-- A memory phase of the thread of node `n` of DAG `i` from period `p`. -/
def phase (thread : ι × ℕ × ν) : List (Event ι ν) :=
  [.waitPrem, .memcpy, .releasePrem].map (.node thread.1 thread.2.1 thread.2.2)

/-- What the holder of `premMutex` has still to execute of its memory phase. -/
def State.owed (s : State ι ν) : List (Event ι ν) :=
  match s.premMutex with
  | some (.node i p n) =>
    match (s.dags i).thread p n with
    | some ⟨.memcpy :: _, _⟩ => [.node i p n .memcpy, .node i p n .releasePrem]
    | _ => [.node i p n .releasePrem]
  | _ => []

omit [DecidableEq ν] [DecidableEq ι] in
theorem owed_of_free (free : s.premMutex = none) : s.owed = [] := by
  rw [State.owed, free]

omit [DecidableEq ν] [DecidableEq ι] in
theorem owed_of_copy {t : Thread ν} {rest : List (NodeInstr ν)}
    (held : s.premMutex = some (.node i p n)) (here : (s.dags i).thread p n = some t)
    (code : t.code = .memcpy :: rest) :
    s.owed = [.node i p n .memcpy, .node i p n .releasePrem] := by
  obtain ⟨code', loaded⟩ := t
  cases code
  simp only [State.owed, held, here]

omit [DecidableEq ν] [DecidableEq ι] in
theorem owed_of_release {t : Thread ν} {rest : List (NodeInstr ν)}
    (held : s.premMutex = some (.node i p n)) (here : (s.dags i).thread p n = some t)
    (code : t.code = .releasePrem :: rest) : s.owed = [.node i p n .releasePrem] := by
  obtain ⟨code', loaded⟩ := t
  cases code
  simp only [State.owed, held, here]

/-- A step that leaves `premMutex` alone, of a thread that does not hold it, owes nothing new. -/
theorem owed_frame (reached : Reachable prog s) (step : exec prog tid s = some s')
    (same : s'.premMutex = s.premMutex) (other : s.premMutex ≠ some tid) : s'.owed = s.owed := by
  cases held : s.premMutex with
  | none => rw [owed_of_free held, owed_of_free (same.trans held)]
  | some holder =>
      rcases reached.atCopy held with ⟨i, p, n, t, instr, rest, rfl, here, code, copy⟩
      have apart : tid ≠ .node i p n := fun eq => other (eq ▸ held)
      have after : (s'.dags i).thread p n = some t := by
        rcases thread_frame reached step apart with kept | ⟨fresh, -⟩
        · exact kept.trans here
        · cases fresh.symm.trans here
      have held' := same.trans held
      rcases copy with rfl | rfl
      · rw [owed_of_copy held here code, owed_of_copy held' after code]
      · rw [owed_of_release held here code, owed_of_release held' after code]

/-- A step pays what is owed, or begins a memory phase when nothing is. -/
theorem phase_step (reached : Reachable prog s) (step : exec prog tid s = some s') :
    ∃ begun : List (ι × ℕ × ν), (event s tid).toList.filter Event.ofMemory ++ s'.owed =
      s.owed ++ begun.flatMap phase := by
  have apart : ∀ i, tid = .main i ∨ tid = .finish i → s.premMutex ≠ some tid := by
    rintro i main held
    obtain ⟨j, p, n, t, instr, rest, rfl, -⟩ := reached.atCopy held
    rcases main with eq | eq <;> cases eq
  cases tid with
  | main i =>
      obtain ⟨d, -, -, prem⟩ := exec_main step
      refine ⟨[], ?_⟩
      rw [owed_frame reached step prem (apart i (Or.inl rfl))]
      cases code : (s.dags i).main <;> simp [event, code, Event.ofMemory]
  | finish i =>
      obtain ⟨d, -, -, prem⟩ := exec_finish step
      refine ⟨[], ?_⟩
      rw [owed_frame reached step prem (apart i (Or.inr rfl))]
      simp [event, Event.ofMemory]
  | node i p n =>
      have inv := reached.inv i
      obtain ⟨d, instr, t, t', move, dags, happens, free, prem⟩ := exec_node inv step
      have suffix := inv.code p n t move.before
      rw [move.code] at suffix
      have mine : (s'.dags i).thread p n = some t' := by
        rw [dags, Function.update_self, move.after, DagState.setThread_self]
      rw [happens]
      cases instr
      case waitPrem =>
        obtain ⟨rest, code⟩ := (prem_next suffix).1 rfl
        refine ⟨[(i, p, n)], ?_⟩
        rw [owed_of_free (free rfl), owed_of_copy prem mine code]
        rfl
      case memcpy =>
        have held := reached.holds ⟨i, p, n, t, _, _, rfl, move.before, move.code, Or.inl rfl⟩
        obtain ⟨rest, code⟩ := (prem_next suffix).2 rfl
        refine ⟨[], ?_⟩
        rw [owed_of_copy held move.before move.code, owed_of_release (prem.trans held) mine code]
        rfl
      case releasePrem =>
        have held := reached.holds ⟨i, p, n, t, _, _, rfl, move.before, move.code, Or.inr rfl⟩
        refine ⟨[], ?_⟩
        rw [owed_of_release held move.before move.code, owed_of_free prem]
        rfl
      all_goals
        refine ⟨[], ?_⟩
        rw [owed_frame reached step prem ?_]
        · simp [Event.ofMemory]
        · intro held
          obtain ⟨j, q, m, u, instr, rest, eq, here, code, copy⟩ := reached.atCopy held
          cases eq
          cases here.symm.trans move.before
          cases code.symm.trans move.code
          rcases copy with copy | copy <;> cases copy

theorem phase_run {tids : List (Tid ι ν)} (reached : Reachable prog s)
    (ran : run prog tids s = some s') :
    ∃ begun : List (ι × ℕ × ν), (trace prog tids s).filter Event.ofMemory ++ s'.owed =
      s.owed ++ begun.flatMap phase := by
  induction tids generalizing s with
  | nil =>
      cases ran
      exact ⟨[], by simp [trace]⟩
  | cons tid tids ih =>
      obtain ⟨mid, step, ran⟩ := run_cons.mp ran
      obtain ⟨begun, first⟩ := phase_step reached step
      obtain ⟨later, rest⟩ := ih (reached.tail ⟨tid, step⟩) ran
      refine ⟨begun ++ later, ?_⟩
      rw [trace_cons step, List.filter_append, List.append_assoc, rest, ← List.append_assoc, first,
        List.append_assoc, List.flatMap_append]

/-! ## Counting phases -/

theorem count_ofThread {events : List (Event ι ν)} {instr : NodeInstr ν} :
    (events.filterMap (Event.ofThread i p n)).count instr = events.count (.node i p n instr) := by
  rw [List.count_filterMap, List.count_eq_countP]
  refine List.countP_congr fun ev _ => ?_
  cases ev with
  | main j first => simp [Event.ofThread]
  | poll j => simp [Event.ofThread]
  | node j q m first =>
      by_cases self : j = i ∧ q = p ∧ m = n
      · rcases self with ⟨rfl, rfl, rfl⟩
        simp [Event.ofThread]
      · simp only [Event.ofThread, if_neg self, beq_iff_eq, Event.node.injEq, reduceCtorEq,
          false_iff]
        exact fun eq => self ⟨eq.1, eq.2.1, eq.2.2.1⟩

theorem count_phases (begun : List (ι × ℕ × ν)) :
    (begun.flatMap phase).count (.node i p n .waitPrem) = begun.count (i, p, n) := by
  induction begun with
  | nil => rfl
  | cons first begun ih =>
      obtain ⟨j, q, m⟩ := first
      rw [List.flatMap_cons, List.count_append, ih, List.count_cons, Nat.add_comm]
      simp [phase, List.count_cons]

omit [DecidableEq ν] [DecidableEq ι] in
theorem waitPrem_not_mem_owed : Event.node i p n .waitPrem ∉ s.owed := by
  unfold State.owed
  split
  · split <;> simp
  · exact List.not_mem_nil

theorem count_nodeCode (dag : Dag ν) (n : ν) :
    (nodeCode dag n).count .waitPrem = if dag.memType = .prem then dag.chunks n else 0 := by
  have chunks : (chunkCode dag n).count .waitPrem =
      dag.chunks n * (roundCode dag.memType : List (NodeInstr ν)).count .waitPrem := by
    rw [chunkCode, List.count_flatten, List.map_replicate, List.sum_replicate_nat]
  have waits : NodeInstr.waitPrem ∉ (dag.incoming n).map .waitDependency := by simp
  have releases : NodeInstr.waitPrem ∉ releaseCode dag n := by simp [releaseCode]
  have whole : (nodeCode dag n).count .waitPrem = (chunkCode dag n).count .waitPrem := by
    simp [nodeCode, computeCode, List.count_append,
      List.count_eq_zero.mpr waits, List.count_eq_zero.mpr releases]
  rw [whole, chunks]
  cases dag.memType with
  | prem => simp [roundCode]
  | sparse => simp [roundCode]

/-- **Serial memory phases.** In every run the memory events of all DAGs, in their order in time and
with what the holder of `premMutex` has still to do, are whole memory phases one after the other; in
each period that is over, each node of a PREM DAG has made as many as its compute function has
rounds. -/
theorem memory_phases_serial {tids : List (Tid ι ν)} (ran : run prog tids (.init prog) = some s) :
    ∃ begun : List (ι × ℕ × ν),
      (trace prog tids (.init prog)).filter Event.ofMemory ++ s.owed = begun.flatMap phase ∧
        ∀ i, ∀ n ∈ (prog i).node, ∀ q < (s.dags i).period,
          begun.count (i, q, n) = if (prog i).memType = .prem then (prog i).chunks n else 0 := by
  obtain ⟨begun, serial⟩ := phase_run .refl ran
  rw [owed_of_free (s := .init prog) rfl, List.nil_append] at serial
  refine ⟨begun, serial, ?_⟩
  intro i n node q elapsed
  rw [← count_phases begun, ← serial, List.count_append,
    List.count_eq_zero.mpr waitPrem_not_mem_owed, Nat.add_zero, List.count_filter rfl,
    ← count_ofThread, thread_over ran node elapsed, count_nodeCode]

theorem memory_phases_serial_chain : ∃ s,
    run chainProgram chainPeriod (.init chainProgram) = some s ∧ (s.dags ()).period = 1 ∧
      ∃ begun : List (Unit × ℕ × Bool),
        (trace chainProgram chainPeriod (.init chainProgram)).filter Event.ofMemory ++ s.owed =
          begun.flatMap phase ∧ ∀ n, begun.count ((), 0, n) = 1 := by
  have ran : (run chainProgram chainPeriod (.init chainProgram)).map
      (fun s => (s.dags ()).period) = some 1 := by decide
  obtain ⟨s, made, period⟩ := Option.map_eq_some_iff.mp ran
  obtain ⟨begun, serial, counts⟩ := memory_phases_serial made
  refine ⟨s, made, period, begun, serial, fun n => ?_⟩
  have node : n ∈ (chainProgram ()).node := by cases n <;> decide
  exact counts () n node 0 (by rw [period]; exact Nat.one_pos)

end Program

end Hipert.Gen
