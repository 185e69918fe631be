import Mathlib.Logic.Function.Basic
import Mathlib.Logic.Relation
import Mathlib.Data.List.Basic
import Mathlib.Data.List.Infix
import Mathlib.Data.List.Nodup

/-!
# The generated program

What `task.egl` emits for each DAG, as instruction lists: one body for every node (`prem_memory`,
`sparse_memory`) and one for the task that repeats create, start, finish, join, destroy and wait for
ever. A dependency is a two-state lock, which `hgr_release_dependency` frees whichever thread calls
it. `exec` lets one thread of one DAG make one step; all DAGs share `premMutex`.

The edge name `dag_src_trg` names the lock of an edge, so edges with the same ends share theirs. The
timing and printing calls, the memory handed to the compute functions and the one-time set-up before
the loop are left out.
-/

namespace Hipert.Gen

universe u

variable {ν : Type u}

/-! ## DAGs -/

/-- `dag.mem_type`. -/
inductive MemType where
  | prem
  | sparse
  deriving DecidableEq, Repr

/-- An edge of a DAG; its lock is named by its ends. -/
structure Edge (ν : Type u) where
  src : ν
  trg : ν
  deriving DecidableEq, Repr

/-- A DAG with distinct node names. `chunks` is the number of rounds of a node's compute function:
`num_copies` of a PREM node and `phi` of a SPARSE one. -/
structure Dag (ν : Type u) where
  node : List ν
  edge : List (Edge ν)
  memType : MemType
  chunks : ν → ℕ
  node_nodup : node.Nodup

/-! ## The emitted code -/

/-- The instructions of a node's thread. -/
inductive NodeInstr (ν : Type u) where
  /-- `pthread_mutex_trylock(&lock_start)` -/
  | trylockStart
  | waitDependency (e : Edge ν)
  /-- Entering `hgr_PREM_compute_node` or `hgr_SPARSE_compute_node`. -/
  | beginCompute
  /-- `hgr_wait_dependency(&premMutex)` -/
  | waitPrem
  | memcpy
  /-- `hgr_release_dependency(&premMutex)` -/
  | releasePrem
  /-- The memory access of `hgr_mem_ex`. -/
  | access
  | execute
  /-- Leaving the compute function. -/
  | endCompute
  | releaseDependency (e : Edge ν)
  /-- `var_condition++`: the load … -/
  | loadCondition
  /-- … and the store. -/
  | storeCondition
  /-- `hgr_exit` -/
  | exit
  deriving DecidableEq, Repr

/-- The instructions of a DAG's task. -/
inductive MainInstr (ν : Type u) where
  /-- `var_condition = 0` -/
  | resetCondition
  | initDependency (e : Edge ν)
  | waitDependency (e : Edge ν)
  | initStart
  | waitStart
  | threadCreate (n : ν)
  | releaseStart
  /-- `finish_work`: create the thread of `wait_finish` … -/
  | createFinish
  /-- … and join it. -/
  | joinFinish
  | threadJoin (n : ν)
  | destroyDependency (e : Edge ν)
  | destroyStart
  | waitForPeriod
  deriving DecidableEq, Repr

section Code

variable [DecidableEq ν] (dag : Dag ν) (n : ν)

/-- One round of the loop of a compute function. -/
def roundCode : MemType → List (NodeInstr ν)
  | .prem => [.waitPrem, .memcpy, .releasePrem, .execute]
  | .sparse => [.access, .execute]

/-- The loop of the node's compute function. -/
def chunkCode : List (NodeInstr ν) :=
  (List.replicate (dag.chunks n) (roundCode dag.memType)).flatten

/-- The edges into a node, in the order of the template's loop. -/
def Dag.incoming : List (Edge ν) := dag.edge.filter fun e => e.trg = n

/-- The edges out of a node, in the order of the template's loop. -/
def Dag.outgoing : List (Edge ν) := dag.edge.filter fun e => e.src = n

/-- What a node's thread runs after its compute function. -/
def releaseCode : List (NodeInstr ν) :=
  (dag.outgoing n).map .releaseDependency ++ [.loadCondition, .storeCondition, .exit]

/-- What a node's thread runs after its waits. -/
def computeCode : List (NodeInstr ν) :=
  .beginCompute :: chunkCode dag n ++ .endCompute :: releaseCode dag n

/-- `prem_memory` and `sparse_memory`: the body of a node's thread. -/
def nodeCode : List (NodeInstr ν) :=
  .trylockStart :: (dag.incoming n).map .waitDependency ++ computeCode dag n

/-- `create_dependency`. -/
def createDependency : List (MainInstr ν) :=
  (dag.edge.flatMap fun e => [.initDependency e, .waitDependency e]) ++ [.initStart, .waitStart]

/-- From the end of `create_dependency` to the end of the period. -/
def periodCode : List (MainInstr ν) :=
  dag.node.map .threadCreate ++ [.releaseStart, .createFinish, .joinFinish, .releaseStart] ++
    (dag.node.map .threadJoin ++ dag.edge.map .destroyDependency ++ [.destroyStart, .waitForPeriod])

/-- The body of the task's loop. -/
def mainCode : List (MainInstr ν) := .resetCondition :: createDependency dag ++ periodCode dag

end Code

/-! ## States -/

/-- A dependency: free, or taken. -/
inductive Lock where
  | free
  | taken
  deriving DecidableEq, Repr

/-- The thread of `wait_finish`. -/
inductive Finish where
  | absent
  | spinning
  | exited
  deriving DecidableEq, Repr

/-- A node's thread: the code it has still to run, and the value its load of the counter saw. -/
structure Thread (ν : Type u) where
  code : List (NodeInstr ν)
  loaded : ℕ
  deriving DecidableEq

/-- The threads, locks and counter of one DAG. `thread p n` is the thread that was created for node
`n` in period `p`. -/
structure DagState (ν : Type u) where
  period : ℕ
  main : List (MainInstr ν)
  lock : Edge ν → Lock
  lockStart : Lock
  condition : ℕ
  finish : Finish
  thread : ℕ → ν → Option (Thread ν)

/-- The state in which the task enters its loop. -/
def DagState.init [DecidableEq ν] (dag : Dag ν) : DagState ν where
  period := 0
  main := mainCode dag
  lock _ := .free
  lockStart := .free
  condition := 0
  finish := .absent
  thread _ _ := none

section Steps

variable [DecidableEq ν] (dag : Dag ν)

/-- One lock set to a value. -/
def DagState.setLock (s : DagState ν) (e : Edge ν) (l : Lock) : DagState ν :=
  { s with lock := Function.update s.lock e l }

/-- One thread set. -/
def DagState.setThread (s : DagState ν) (p : ℕ) (n : ν) (t : Thread ν) : DagState ν :=
  { s with thread := fun p' n' => if p' = p ∧ n' = n then some t else s.thread p' n' }

/-- A step of the DAG's task. -/
def mainStep (s : DagState ν) : Option (DagState ν) :=
  match s.main with
  | [] => none
  | .resetCondition :: rest => some { s with main := rest, condition := 0 }
  | .initDependency e :: rest => some { s.setLock e .free with main := rest }
  | .waitDependency e :: rest =>
      if s.lock e = .free then some { s.setLock e .taken with main := rest } else none
  | .initStart :: rest => some { s with main := rest, lockStart := .free }
  | .waitStart :: rest =>
      if s.lockStart = .free then some { s with main := rest, lockStart := .taken } else none
  | .threadCreate n :: rest => some { s.setThread s.period n ⟨nodeCode dag n, 0⟩ with main := rest }
  | .releaseStart :: rest => some { s with main := rest, lockStart := .free }
  | .createFinish :: rest => some { s with main := rest, finish := .spinning }
  | .joinFinish :: rest =>
      if s.finish = .exited then some { s with main := rest, finish := .absent } else none
  | .threadJoin n :: rest =>
      if (s.thread s.period n).map Thread.code = some [] then some { s with main := rest } else none
  | .destroyDependency _ :: rest => some { s with main := rest }
  | .destroyStart :: rest => some { s with main := rest }
  | .waitForPeriod :: _ => some { s with main := mainCode dag, period := s.period + 1 }

/-- A step of `wait_finish`: it leaves its loop when the counter is the number of nodes. -/
def finishStep (s : DagState ν) : Option (DagState ν) :=
  match s.finish with
  | .spinning => if s.condition = dag.node.length then some { s with finish := .exited } else some s
  | _ => none

/-- What a step does to `premMutex`. -/
inductive PremEffect where
  | keep
  | take
  | free
  deriving DecidableEq, Repr

/-- A step of the thread of node `n` created in period `p`. -/
def nodeStep (s : DagState ν) (p : ℕ) (n : ν) : Option (DagState ν × PremEffect) :=
  match s.thread p n with
  | none => none
  | some t =>
    match t.code with
    | [] => none
    | .trylockStart :: rest =>
        some ({ s.setThread p n ⟨rest, t.loaded⟩ with lockStart := .taken }, .keep)
    | .waitDependency e :: rest =>
        if s.lock e = .free then some ((s.setThread p n ⟨rest, t.loaded⟩).setLock e .taken, .keep)
        else none
    | .waitPrem :: rest => some (s.setThread p n ⟨rest, t.loaded⟩, .take)
    | .releasePrem :: rest => some (s.setThread p n ⟨rest, t.loaded⟩, .free)
    | .releaseDependency e :: rest =>
        some ((s.setThread p n ⟨rest, t.loaded⟩).setLock e .free, .keep)
    | .loadCondition :: rest => some (s.setThread p n ⟨rest, s.condition⟩, .keep)
    | .storeCondition :: rest =>
        some ({ s.setThread p n ⟨rest, t.loaded⟩ with condition := t.loaded + 1 }, .keep)
    | .exit :: _ => some (s.setThread p n ⟨[], t.loaded⟩, .keep)
    | .beginCompute :: rest => some (s.setThread p n ⟨rest, t.loaded⟩, .keep)
    | .memcpy :: rest => some (s.setThread p n ⟨rest, t.loaded⟩, .keep)
    | .access :: rest => some (s.setThread p n ⟨rest, t.loaded⟩, .keep)
    | .execute :: rest => some (s.setThread p n ⟨rest, t.loaded⟩, .keep)
    | .endCompute :: rest => some (s.setThread p n ⟨rest, t.loaded⟩, .keep)

end Steps

/-! ## The program -/

variable {ι : Type u}

/-- The threads of the program: for each DAG its task, its `wait_finish` and its nodes' threads. -/
inductive Tid (ι ν : Type u) where
  | main (i : ι)
  | finish (i : ι)
  | node (i : ι) (p : ℕ) (n : ν)
  deriving DecidableEq, Repr

/-- The state of every DAG, and the thread that holds `premMutex`. -/
structure State (ι ν : Type u) where
  dags : ι → DagState ν
  premMutex : Option (Tid ι ν)

variable [DecidableEq ι] [DecidableEq ν] (prog : ι → Dag ν)

/-- The program before its first step. -/
def State.init : State ι ν := ⟨fun i => .init (prog i), none⟩

/-- The state with one DAG replaced. -/
def State.setDag (s : State ι ν) (i : ι) (d : DagState ν) : State ι ν :=
  { s with dags := Function.update s.dags i d }

/-- One step of one thread, if it is not blocked. -/
def exec (tid : Tid ι ν) (s : State ι ν) : Option (State ι ν) :=
  match tid with
  | .main i => (mainStep (prog i) (s.dags i)).map (s.setDag i)
  | .finish i => (finishStep (prog i) (s.dags i)).map (s.setDag i)
  | .node i p n =>
    match nodeStep (s.dags i) p n with
    | none => none
    | some (d, .keep) => some (s.setDag i d)
    | some (d, .take) =>
        if s.premMutex = none then some { s.setDag i d with premMutex := some tid } else none
    | some (d, .free) => some { s.setDag i d with premMutex := none }

/-- One step of any thread. -/
def Step (s s' : State ι ν) : Prop := ∃ tid, exec prog tid s = some s'

/-- The states that interleavings of the threads' steps reach. -/
def Reachable (s : State ι ν) : Prop := Relation.ReflTransGen (Step prog) (State.init prog) s

/-- The threads' steps in a given order, if none of them is blocked. -/
def run (tids : List (Tid ι ν)) (s : State ι ν) : Option (State ι ν) :=
  tids.foldlM (fun s tid => exec prog tid s) s

variable {prog}

theorem Reachable.run {s s' : State ι ν} {tids : List (Tid ι ν)} (reached : Reachable prog s)
    (ran : run prog tids s = some s') : Reachable prog s' := by
  induction tids generalizing s with
  | nil =>
      cases ran
      exact reached
  | cons tid tids ih =>
      obtain ⟨mid, step, ran⟩ := Option.bind_eq_some_iff.mp ran
      exact ih (reached.tail ⟨tid, step⟩) ran

end Hipert.Gen
