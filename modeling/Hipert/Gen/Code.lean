import Hipert.Gen.Program

/-!
# Shapes of the emitted code

A thread's remaining code is a suffix of what it was created with. So what is still to come says
where the thread is: an instruction of one part in it means that all later parts are (`append_cases`).
The lemmas here say so for the parts of `nodeCode` and `mainCode`.
-/

namespace Hipert.Gen

universe u

/-! ## Suffixes -/

section Suffix

variable {α : Type u} {pre post rest : List α} {x : α}

/-- A suffix of an append lies in its second part or takes all of that and some of the first. -/
theorem append_cases (suffix : rest <:+ pre ++ post) :
    rest <:+ post ∨ ∃ pre', pre' ≠ [] ∧ pre' <:+ pre ∧ rest = pre' ++ post := by
  obtain ⟨done, eq⟩ := suffix
  rcases List.append_eq_append_iff.mp eq with ⟨mid, eq_pre, eq_rest⟩ | ⟨mid, -, eq_post⟩
  · by_cases empty : mid = []
    · refine Or.inl ?_
      rw [eq_rest, empty]
      exact List.suffix_rfl
    · exact Or.inr ⟨mid, empty, ⟨done, eq_pre.symm⟩, eq_rest⟩
  · exact Or.inl ⟨mid, eq_post.symm⟩

theorem post_suffix_of_mem (suffix : rest <:+ pre ++ post) (mem : x ∈ rest) (not_post : x ∉ post) :
    post <:+ rest := by
  rcases append_cases suffix with inside | ⟨pre', -, -, rfl⟩
  · exact absurd (inside.subset mem) not_post
  · exact List.suffix_append _ _

theorem suffix_post_of_head (suffix : x :: rest <:+ pre ++ post) (not_pre : x ∉ pre) :
    x :: rest <:+ post := by
  rcases append_cases suffix with inside | ⟨pre', nonempty, suffix', eq⟩
  · exact inside
  · rcases List.exists_cons_of_ne_nil nonempty with ⟨y, ys, rfl⟩
    cases eq
    exact absurd (suffix'.subset List.mem_cons_self) not_pre

theorem suffix_of_cons_suffix {code : List α} (suffix : x :: rest <:+ code) : rest <:+ code :=
  (List.suffix_cons x rest).trans suffix

theorem notMem_of_nodup_suffix {code : List α} (nodup : code.Nodup) (suffix : x :: rest <:+ code) :
    x ∉ rest := (List.nodup_cons.mp (nodup.sublist suffix.sublist)).1

end Suffix

variable {ν : Type u} {dag : Dag ν} {n : ν} {e : Edge ν}

/-! ## The code of a node -/

section Node

/-- The instructions of the compute functions. -/
def NodeInstr.isCompute : NodeInstr ν → Bool
  | .beginCompute | .waitPrem | .memcpy | .releasePrem | .access | .execute | .endCompute => true
  | _ => false

theorem isCompute_of_mem_chunkCode {instr : NodeInstr ν} (mem : instr ∈ chunkCode dag n) :
    instr.isCompute = true ∧ instr ≠ .endCompute ∧ instr ≠ .beginCompute := by
  unfold chunkCode at mem
  obtain ⟨round, mem_round, mem⟩ := List.mem_flatten.mp mem
  rw [(List.mem_replicate.mp mem_round).2] at mem
  cases kind : dag.memType with
  | prem =>
      rw [kind] at mem
      simp only [roundCode, List.mem_cons, List.not_mem_nil, or_false] at mem
      rcases mem with rfl | rfl | rfl | rfl <;> simp [NodeInstr.isCompute]
  | sparse =>
      rw [kind] at mem
      simp only [roundCode, List.mem_cons, List.not_mem_nil, or_false] at mem
      rcases mem with rfl | rfl <;> simp [NodeInstr.isCompute]

theorem not_mem_chunkCode {instr : NodeInstr ν} (other : instr.isCompute = false) :
    instr ∉ chunkCode dag n := fun mem => by
  rw [(isCompute_of_mem_chunkCode mem).1] at other
  cases other

@[simp] theorem wait_not_mem_chunkCode : .waitDependency e ∉ chunkCode dag n :=
  not_mem_chunkCode rfl

@[simp] theorem release_not_mem_chunkCode : .releaseDependency e ∉ chunkCode dag n :=
  not_mem_chunkCode rfl

variable [DecidableEq ν]

@[simp] theorem mem_incoming : e ∈ dag.incoming n ↔ e ∈ dag.edge ∧ e.trg = n := by
  simp [Dag.incoming]

@[simp] theorem mem_outgoing : e ∈ dag.outgoing n ↔ e ∈ dag.edge ∧ e.src = n := by
  simp [Dag.outgoing]

@[simp] theorem wait_not_mem_computeCode : .waitDependency e ∉ computeCode dag n := by
  simp [computeCode, releaseCode]

theorem endCompute_mem_computeCode : .endCompute ∈ computeCode dag n := by simp [computeCode]

theorem endCompute_not_mem_releaseCode : .endCompute ∉ releaseCode dag n := by simp [releaseCode]

theorem nodeCode_eq : nodeCode dag n =
    (.trylockStart :: (dag.incoming n).map .waitDependency) ++ computeCode dag n := rfl

/-- The code up to the end of the compute function, and the rest. -/
theorem nodeCode_eq_release : nodeCode dag n =
    (.trylockStart :: (dag.incoming n).map .waitDependency ++
      (.beginCompute :: chunkCode dag n ++ [.endCompute])) ++ releaseCode dag n := by
  simp [nodeCode, computeCode]

/-- The code up to the loop of the compute function, and the rest. -/
theorem nodeCode_eq_chunks : nodeCode dag n =
    (.trylockStart :: (dag.incoming n).map .waitDependency ++ [.beginCompute]) ++
      (chunkCode dag n ++ .endCompute :: releaseCode dag n) := by
  simp [nodeCode, computeCode]

theorem wait_mem_nodeCode : .waitDependency e ∈ nodeCode dag n ↔ e ∈ dag.edge ∧ e.trg = n := by
  simp [nodeCode]

theorem release_mem_nodeCode :
    .releaseDependency e ∈ nodeCode dag n ↔ e ∈ dag.edge ∧ e.src = n := by
  simp [nodeCode, computeCode, releaseCode]

variable {code rest : List (NodeInstr ν)}

/-- Before its last wait a thread has not begun to compute. -/
theorem computeCode_suffix_of_wait (suffix : code <:+ nodeCode dag n)
    (mem : .waitDependency e ∈ code) : computeCode dag n <:+ code := by
  rw [nodeCode_eq] at suffix
  exact post_suffix_of_mem suffix mem wait_not_mem_computeCode

/-- A thread in its compute function has done all its waits. -/
theorem wait_not_mem_of_compute {instr : NodeInstr ν} (suffix : instr :: rest <:+ nodeCode dag n)
    (compute : instr.isCompute = true) : .waitDependency e ∉ instr :: rest := by
  have inside : instr :: rest <:+ computeCode dag n := by
    rw [nodeCode_eq] at suffix
    refine suffix_post_of_head suffix fun mem => ?_
    rcases List.mem_cons.mp mem with rfl | mem
    · cases compute
    · rcases List.mem_map.mp mem with ⟨e', -, rfl⟩
      cases compute
  exact fun mem => wait_not_mem_computeCode (inside.subset mem)

/-- A thread at a release has completed its compute function. -/
theorem endCompute_not_mem_of_release (suffix : .releaseDependency e :: rest <:+ nodeCode dag n) :
    .endCompute ∉ rest := by
  have inside : .releaseDependency e :: rest <:+ releaseCode dag n := by
    rw [nodeCode_eq_release] at suffix
    refine suffix_post_of_head suffix fun mem => ?_
    simp only [List.mem_append, List.mem_cons, List.mem_map, List.not_mem_nil, or_false] at mem
    rcases mem with (mem | mem) | (mem | mem) | mem
    · cases mem
    · obtain ⟨e', -, eq⟩ := mem
      cases eq
    · cases mem
    · exact absurd mem (not_mem_chunkCode rfl)
    · cases mem
  exact fun mem => endCompute_not_mem_releaseCode (inside.subset (List.mem_cons_of_mem _ mem))

/-- With distinct edges a thread waits once for each. -/
theorem wait_not_mem_of_wait (distinct : dag.edge.Nodup)
    (suffix : .waitDependency e :: rest <:+ nodeCode dag n) : .waitDependency e ∉ rest := by
  rw [nodeCode_eq] at suffix
  rcases append_cases suffix with inside | ⟨waits, nonempty, suffix', eq⟩
  · exact absurd (inside.subset List.mem_cons_self) wait_not_mem_computeCode
  · rcases List.exists_cons_of_ne_nil nonempty with ⟨x, xs, rfl⟩
    cases eq
    have nodup : ((dag.incoming n).map NodeInstr.waitDependency).Nodup :=
      (distinct.filter _).map fun a b h => by cases h; rfl
    have suffix : .waitDependency e :: xs <:+ (dag.incoming n).map .waitDependency :=
      (List.suffix_cons_iff.mp suffix').resolve_left (fun eq => nomatch eq)
    simpa using notMem_of_nodup_suffix nodup suffix

/-- A thread with a wait to do has its whole compute function to run. -/
theorem compute_mem_of_wait (suffix : code <:+ nodeCode dag n) (mem : .waitDependency e ∈ code) :
    .beginCompute ∈ code ∧ .endCompute ∈ code := by
  have compute := (computeCode_suffix_of_wait suffix mem).subset
  exact ⟨compute (by simp [computeCode]), compute endCompute_mem_computeCode⟩

omit [DecidableEq ν] in
theorem roundCode_next {kind : MemType} {x : NodeInstr ν} {xs : List (NodeInstr ν)}
    (suffix : x :: xs <:+ roundCode kind) :
    (x = .waitPrem → ∃ rest', xs = .memcpy :: rest') ∧
      (x = .memcpy → ∃ rest', xs = .releasePrem :: rest') := by
  cases kind <;> simp only [roundCode, List.suffix_cons_iff, List.suffix_nil] at suffix <;>
    grind

omit [DecidableEq ν] in
theorem chunkCode_next {x : NodeInstr ν} {xs post : List (NodeInstr ν)} (not_post : x ∉ post)
    (suffix : x :: xs <:+ chunkCode dag n ++ post) :
    (x = .waitPrem → ∃ rest', xs = .memcpy :: rest') ∧
      (x = .memcpy → ∃ rest', xs = .releasePrem :: rest') := by
  unfold chunkCode at suffix
  generalize dag.chunks n = rounds at suffix
  induction rounds with
  | zero => exact absurd (suffix.subset List.mem_cons_self) not_post
  | succ k ih =>
      rw [List.replicate_succ, List.flatten_cons, List.append_assoc] at suffix
      rcases append_cases suffix with later | ⟨round, nonempty, suffix', eq⟩
      · exact ih later
      · rcases List.exists_cons_of_ne_nil nonempty with ⟨y, ys, rfl⟩
        cases eq
        refine (roundCode_next suffix').imp (fun next wait => ?_) (fun next copy => ?_)
        · rcases next wait with ⟨rest', rfl⟩
          exact ⟨_, rfl⟩
        · rcases next copy with ⟨rest', rfl⟩
          exact ⟨_, rfl⟩

/-- In the loop of a compute function `premMutex` is held for the `memcpy` only. -/
theorem prem_next {instr : NodeInstr ν} (suffix : instr :: rest <:+ nodeCode dag n) :
    (instr = .waitPrem → ∃ rest', rest = .memcpy :: rest') ∧
      (instr = .memcpy → ∃ rest', rest = .releasePrem :: rest') := by
  rw [nodeCode_eq_chunks] at suffix
  refine ⟨?_, ?_⟩
  · rintro rfl
    exact (chunkCode_next (by simp [releaseCode]) (suffix_post_of_head suffix (by simp))).1 rfl
  · rintro rfl
    exact (chunkCode_next (by simp [releaseCode]) (suffix_post_of_head suffix (by simp))).2 rfl

/-- The code of a node before it counts itself as done. -/
def workCode (dag : Dag ν) (n : ν) : List (NodeInstr ν) :=
  .trylockStart :: (dag.incoming n).map .waitDependency ++ (.beginCompute :: chunkCode dag n ++
    .endCompute :: (dag.outgoing n).map .releaseDependency)

theorem nodeCode_eq_work :
    nodeCode dag n = workCode dag n ++ [.loadCondition, .storeCondition, .exit] := by
  simp [nodeCode, computeCode, releaseCode, workCode]

theorem store_not_mem_workCode : .storeCondition ∉ workCode dag n := by
  have not_chunk : .storeCondition ∉ chunkCode dag n := not_mem_chunkCode rfl
  simp [workCode, not_chunk]

theorem exit_not_mem_workCode : .exit ∉ workCode dag n := by
  have not_chunk : .exit ∉ chunkCode dag n := not_mem_chunkCode rfl
  simp [workCode, not_chunk]

/-- `hgr_exit` is the last instruction. -/
theorem eq_nil_of_exit (suffix : .exit :: rest <:+ nodeCode dag n) : rest = [] := by
  rw [nodeCode_eq_work] at suffix
  have last := suffix_post_of_head suffix exit_not_mem_workCode
  simpa [List.suffix_cons_iff] using last

/-- The store is the last instruction but one, right after its load. -/
theorem store_last (suffix : .storeCondition :: rest <:+ nodeCode dag n) : rest = [.exit] := by
  rw [nodeCode_eq_work] at suffix
  have last := suffix_post_of_head suffix store_not_mem_workCode
  simpa [List.suffix_cons_iff] using last

theorem load_of_store {instr : NodeInstr ν}
    (suffix : instr :: .storeCondition :: rest <:+ nodeCode dag n) : instr = .loadCondition := by
  rw [nodeCode_eq_work] at suffix
  rcases append_cases suffix with last | ⟨pre, nonempty, suffix', eq⟩
  · have both : instr = .loadCondition ∧ rest = [.exit] := by
      simpa [List.suffix_cons_iff] using last
    exact both.1
  · -- the store would stand before the load
    rcases List.exists_cons_of_ne_nil nonempty with ⟨y, ys, rfl⟩
    cases ys with
    | nil => cases eq
    | cons z zs =>
        cases eq
        have early := suffix'.subset (List.mem_cons_of_mem _ List.mem_cons_self)
        exact absurd early store_not_mem_workCode

theorem store_mem_nodeCode : .storeCondition ∈ nodeCode dag n := by
  simp [nodeCode, computeCode, releaseCode]

/-- A thread that has stored has completed its compute function. -/
theorem endCompute_not_mem_of_stored (suffix : code <:+ nodeCode dag n)
    (stored : .storeCondition ∉ code) : .endCompute ∉ code := by
  rw [nodeCode_eq_release] at suffix
  intro mem
  have rest := post_suffix_of_mem suffix mem endCompute_not_mem_releaseCode
  exact stored (rest.subset (by simp [releaseCode]))

end Node

/-! ## The code of the task -/

variable {main after : List (MainInstr ν)}

theorem mainCode_eq : mainCode dag = (.resetCondition :: createDependency dag) ++ periodCode dag :=
  rfl

@[simp] theorem wait_not_mem_periodCode : .waitDependency e ∉ periodCode dag := by
  simp [periodCode]

theorem create_mem_periodCode : .threadCreate n ∈ periodCode dag ↔ n ∈ dag.node := by
  simp [periodCode]

theorem join_mem_periodCode : .threadJoin n ∈ periodCode dag ↔ n ∈ dag.node := by
  simp [periodCode]

theorem create_mem_mainCode : .threadCreate n ∈ mainCode dag ↔ n ∈ dag.node := by
  rw [mainCode_eq, List.mem_append, create_mem_periodCode]
  simp [createDependency]

theorem join_mem_mainCode : .threadJoin n ∈ mainCode dag ↔ n ∈ dag.node := by
  rw [mainCode_eq, List.mem_append, join_mem_periodCode]
  simp [createDependency]

theorem wait_mem_mainCode : .waitDependency e ∈ mainCode dag ↔ e ∈ dag.edge := by
  simp [mainCode, createDependency, periodCode]

@[simp] theorem waitStart_not_mem_periodCode : .waitStart ∉ periodCode dag := by
  simp [periodCode]

/-- Before the end of `create_dependency`, no thread has been created. -/
theorem create_mem_of_early {instr : MainInstr ν} (suffix : main <:+ mainCode dag)
    (mem : instr ∈ main) (early : instr ∉ periodCode dag) (node : n ∈ dag.node) :
    .threadCreate n ∈ main := by
  rw [mainCode_eq] at suffix
  exact (post_suffix_of_mem suffix mem early).subset (create_mem_periodCode.mpr node)

theorem mainCode_eq_edges : mainCode dag =
    .resetCondition :: ((dag.edge.flatMap fun e => [.initDependency e, .waitDependency e]) ++
      (.initStart :: .waitStart :: periodCode dag)) := by
  simp [mainCode, createDependency]

/-- A dependency made free in `create_dependency` is taken next. -/
theorem wait_of_init (suffix : .initDependency e :: after <:+ mainCode dag) :
    ∃ after', after = .waitDependency e :: after' := by
  have edges : ∀ (es : List (Edge ν)) (post : List (MainInstr ν)),
      .initDependency e ∉ post → .initDependency e :: after <:+
        (es.flatMap fun e => [.initDependency e, .waitDependency e]) ++ post →
      ∃ after', after = .waitDependency e :: after' := by
    intro es post not_post
    induction es with
    | nil => exact fun suffix => absurd (suffix.subset List.mem_cons_self) not_post
    | cons e' es ih =>
        intro suffix
        rw [List.flatMap_cons] at suffix
        rcases List.suffix_cons_iff.mp suffix with eq | suffix
        · cases eq
          exact ⟨_, rfl⟩
        · rcases List.suffix_cons_iff.mp suffix with eq | suffix
          · cases eq
          · exact ih suffix
  rw [mainCode_eq_edges] at suffix
  rcases List.suffix_cons_iff.mp suffix with eq | suffix
  · cases eq
  · exact edges dag.edge _ (by simp [periodCode]) suffix

/-- `create_dependency` waits only for what it has just initialised. -/
theorem init_of_wait {instr : MainInstr ν}
    (suffix : instr :: .waitDependency e :: after <:+ mainCode dag) :
    instr = .initDependency e := by
  have edges : ∀ (es : List (Edge ν)) (first : MainInstr ν) (post : List (MainInstr ν)),
      .waitDependency e ∉ post → instr :: .waitDependency e :: after <:+ first ::
        ((es.flatMap fun e => [.initDependency e, .waitDependency e]) ++ post) →
      instr = .initDependency e := by
    intro es first post not_post
    induction es generalizing first with
    | nil =>
        intro suffix
        rcases List.suffix_cons_iff.mp suffix with eq | suffix
        · cases eq
          exact absurd List.mem_cons_self not_post
        · exact absurd (suffix.subset (List.mem_cons_of_mem _ List.mem_cons_self)) not_post
    | cons e' es ih =>
        intro suffix
        rcases List.suffix_cons_iff.mp suffix with eq | suffix
        · cases eq
        · rcases List.suffix_cons_iff.mp suffix with eq | suffix
          · cases eq
            rfl
          · exact ih _ suffix
  rw [mainCode_eq_edges] at suffix
  exact edges dag.edge _ _ (by simp [periodCode]) suffix

theorem initStart_of_waitStart {instr : MainInstr ν}
    (suffix : instr :: .waitStart :: after <:+ mainCode dag) : instr = .initStart := by
  have split : mainCode dag = (.resetCondition ::
      (dag.edge.flatMap fun e => [.initDependency e, .waitDependency e])) ++
        .initStart :: .waitStart :: periodCode dag := mainCode_eq_edges
  rw [split] at suffix
  rcases append_cases suffix with inside | ⟨pre, nonempty, suffix', eq⟩
  · rcases List.suffix_cons_iff.mp inside with eq | inside
    · cases eq
      rfl
    · rcases List.suffix_cons_iff.mp inside with eq | inside
      · have mem : .waitStart ∈ periodCode dag := (List.cons.inj eq).2 ▸ List.mem_cons_self
        exact absurd mem waitStart_not_mem_periodCode
      · exact absurd (inside.subset (List.mem_cons_of_mem _ List.mem_cons_self))
          waitStart_not_mem_periodCode
  · -- what is left of the first part would be the wait, or leave nothing before it
    rcases List.exists_cons_of_ne_nil nonempty with ⟨y, ys, rfl⟩
    cases ys with
    | nil => cases eq
    | cons z zs =>
        cases eq
        exact absurd (suffix'.subset (List.mem_cons_of_mem _ List.mem_cons_self)) (by simp)

/-- The code of the task before it creates threads. -/
def setupCode (dag : Dag ν) : List (MainInstr ν) := .resetCondition :: createDependency dag

/-- The code of the task after `finish_work`. -/
def teardownCode (dag : Dag ν) : List (MainInstr ν) :=
  dag.node.map .threadJoin ++ (dag.edge.map .destroyDependency ++ [.destroyStart, .waitForPeriod])

theorem mainCode_eq_threads : mainCode dag = setupCode dag ++ (dag.node.map .threadCreate ++
    (.releaseStart :: .createFinish :: .joinFinish :: .releaseStart :: teardownCode dag)) := by
  simp [mainCode, periodCode, setupCode, teardownCode]

/-- The joins come after all threads have been created. -/
theorem create_not_mem_of_join {instr : MainInstr ν} (suffix : instr :: after <:+ mainCode dag)
    (join : instr = .joinFinish ∨ ∃ m, instr = .threadJoin m) : .threadCreate n ∉ after := by
  have not_setup : instr ∉ setupCode dag := by
    rcases join with rfl | ⟨m, rfl⟩ <;> simp [setupCode, createDependency]
  have not_create : instr ∉ dag.node.map MainInstr.threadCreate := by
    rcases join with rfl | ⟨m, rfl⟩ <;> simp
  rw [mainCode_eq_threads] at suffix
  have inside := suffix_post_of_head (suffix_post_of_head suffix not_setup) not_create
  intro mem
  exact absurd (inside.subset (List.mem_cons_of_mem _ mem)) (by simp [teardownCode])

theorem create_nodup_mainCode (suffix : .threadCreate n :: after <:+ mainCode dag) :
    .threadCreate n ∉ after := by
  rw [mainCode_eq_threads] at suffix
  have inside := suffix_post_of_head suffix (by simp [setupCode, createDependency])
  rcases append_cases inside with none | ⟨pre, nonempty, suffix', eq⟩
  · exact absurd (none.subset List.mem_cons_self) (by simp [teardownCode])
  · rcases List.exists_cons_of_ne_nil nonempty with ⟨y, ys, rfl⟩
    cases eq
    have nodup : (dag.node.map MainInstr.threadCreate).Nodup :=
      dag.node_nodup.map fun a b h => by cases h; rfl
    have first := notMem_of_nodup_suffix nodup suffix'
    simpa [teardownCode] using first

/-- `finish_work` joins the thread it creates. -/
theorem finish_of_createFinish (suffix : .createFinish :: after <:+ mainCode dag) :
    .createFinish ∉ after ∧ .joinFinish ∈ after := by
  rw [mainCode_eq_threads] at suffix
  have threads := suffix_post_of_head suffix (by simp [setupCode, createDependency])
  have last := suffix_post_of_head threads (by simp)
  rcases List.suffix_cons_iff.mp last with eq | last
  · cases eq
  rcases List.suffix_cons_iff.mp last with eq | inside
  · cases eq
    simp [teardownCode]
  · exact absurd (inside.subset List.mem_cons_self) (by simp [teardownCode])

/-- The wait for the period is the last instruction. -/
theorem eq_nil_of_waitForPeriod (suffix : .waitForPeriod :: after <:+ mainCode dag) : after = [] := by
  rw [mainCode_eq_threads] at suffix
  have threads := suffix_post_of_head suffix (by simp [setupCode, createDependency])
  have start := suffix_post_of_head threads (by simp)
  have teardown : .waitForPeriod :: after <:+ teardownCode dag := by
    simpa [List.suffix_cons_iff] using start
  have destroys := suffix_post_of_head teardown (by simp)
  have last := suffix_post_of_head destroys (by simp)
  simpa [List.suffix_cons_iff] using last

end Hipert.Gen
