import Hipert.Amalthea.Load
import Hipert.Lib.PathCost

/-!
# Effect chains

A transcription of `computeEffectChain` of `main.java`. The runnables of a chain are those of its
events, where the loop starts at the second segment, so the response of a chain of one segment is
left out. The latency is that of the last runnable where all runnables are on one core, although it
should be so where they are in one task.
-/

namespace Hipert.Amalthea

/-! ## `computeEffectChain` -/

/-- The runnable of an event. -/
def eventRunnable (event : Text) : Text :=
  replaceText "RunnableStart_".toList [] (replaceText "?type=events.RunnableEvent".toList [] event)

/-- The runnable of entry `j` of a list of events. -/
def runnableAt (events : List Text) (j : ℕ) : Option Text := do
  let event ← events[j]?
  let value ← nodeValue event
  some (eventRunnable value)

/-- The two types of effect chains: all runnables belong to one task, or to several ones. -/
inductive ChainType
  | oneTask
  | severalTasks
  deriving DecidableEq, Repr

section Compute

variable (J : JavaLang ℚ) (d : Document) (cores : List ModelCore)

/-- The list `effectChainRunnables`. -/
def effectChainRunnables (effectChainName : Text) : Option (List Text) := do
  let stimulusNode := d.stimuliOf effectChainName
  let responseNode := d.responsesOf effectChainName
  let stimulus ← runnableAt stimulusNode 0
  (List.range' 1 (stimulusNode.length - 1)).foldlM (fun runnables j => do
    let stimulus ← runnableAt stimulusNode j
    let response ← runnableAt responseNode j
    some (addNew (addNew runnables stimulus) response)) [stimulus]

/-- The index of the core of a runnable: its name without `CORE`. -/
def coreIndexOf (runnable : Text) : Option ℤ := do
  let task ← taskOfRunnable d runnable
  let core ← coreOfTask d task
  parseInt J (replaceText "CORE".toList [] (replaceText "?type=hw.Core".toList [] core))

/-- The loop that decides the type, over the runnables after the first one. -/
def effectChainType (first : ℤ) : List Text → Option ChainType
  | [] => some .oneTask
  | runnable :: rest => do
      let core ← coreIndexOf J d runnable
      if first ≠ core then some .severalTasks else effectChainType first rest

/-- The loops over the tasks on the core of a runnable and their runnables. -/
def addLatency (totalRT : ℚ) (runnable : Text) : Option ℚ := do
  let taskRunnable ← taskOfRunnable d runnable
  let coreIndex ← coreIndexOf J d runnable
  let core ← if 0 ≤ coreIndex then cores[coreIndex.toNat]? else none
  some (core.tasks.foldl (fun totalRT t =>
    if t.name = taskRunnable then
      t.runnables.foldl (fun totalRT r =>
        if r.name = runnable then totalRT + (r.responseTime + t.period) else totalRT) totalRT
    else totalRT) totalRT)

/-- `computeEffectChain`, with the total that it reports. -/
def computeEffectChain (effectChainName : Text) : Option ℚ := do
  let runnables ← effectChainRunnables d effectChainName
  let first ← runnables.head?
  let last ← runnables.getLast?
  let core ← coreIndexOf J d first
  match ← effectChainType J d core runnables.tail with
  | .oneTask => addLatency J d cores 0 last
  | .severalTasks => runnables.foldlM (addLatency J d cores) 0

/-- A runnable is in one task, that is on one core, with response time and period `latency`. -/
structure Placed (runnable task : Text) (index : ℕ) (latency : ℚ) : Prop where
  calledBy : taskOfRunnable d runnable = some task
  onCore : coreIndexOf J d runnable = some (index : ℤ)
  loadedOnce : ∃ core t r, cores[index]? = some core ∧ core.tasks.filter (·.name = task) = [t] ∧
    t.runnables.filter (·.name = runnable) = [r] ∧ r.responseTime + t.period = latency

end Compute

/-! ## The runnables of a chain -/

/-- The segments of the chain, with their stimuli and responses. -/
structure ChainSegments (d : Document) (effectChainName : Text) (segments : List (Text × Text)) :
    Prop where
  inDocument : d.segmentsOf effectChainName = segments.map fun s => ⟨some s.1, some s.2⟩
  named : ∀ s ∈ segments, s.1 ≠ [] ∧ s.2 ≠ []

/-- The runnables of the events of a segment. -/
def segmentRunnables (s : Text × Text) : Text × Text := (eventRunnable s.1, eventRunnable s.2)

/-- The runnables of a chain: the first stimulus and all responses, without repetitions. -/
def chainPath (segments : List (Text × Text)) : List Text :=
  (pathOf (segments.map segmentRunnables)).destutter (· ≠ ·)

/-- Each response starts the next segment. -/
def Connected (segments : List (Text × Text)) : Prop :=
  (segments.map segmentRunnables).IsChain fun a b => a.2 = b.1

variable {J : JavaLang ℚ} {d : Document} {cores : List ModelCore} {effectChainName : Text}
  {segments : List (Text × Text)}

theorem runnableAt_eq {events : List Text} {j : ℕ} {event : Text} (here : events[j]? = some event)
    (named : event ≠ []) : runnableAt events j = some (eventRunnable event) := by
  rw [runnableAt, here]
  simp [nodeValue, named]

theorem stimuliOf_eq (chain : ChainSegments d effectChainName segments) :
    d.stimuliOf effectChainName = segments.map (·.1) := by
  rw [Document.stimuliOf, chain.inDocument, List.filterMap_map]
  exact congrFun List.filterMap_eq_map segments

theorem responsesOf_eq (chain : ChainSegments d effectChainName segments) :
    d.responsesOf effectChainName = segments.map (·.2) := by
  rw [Document.responsesOf, chain.inDocument, List.filterMap_map]
  exact congrFun List.filterMap_eq_map segments

/-- The loop over the segments from `before` on. -/
theorem loop_eq (before rest : List (Text × Text)) (named : ∀ s ∈ rest, s.1 ≠ [] ∧ s.2 ≠ [])
    (runnables : List Text) :
    (List.range' before.length rest.length).foldlM (fun runnables j => do
      let stimulus ← runnableAt ((before ++ rest).map (·.1)) j
      let response ← runnableAt ((before ++ rest).map (·.2)) j
      some (addNew (addNew runnables stimulus) response)) runnables =
        some ((rest.map segmentRunnables).foldl (fun path p => addNew (addNew path p.1) p.2)
          runnables) := by
  induction rest generalizing before runnables with
  | nil => rfl
  | cons s rest ih =>
      have nonempty := named s List.mem_cons_self
      have stimulus : ((before ++ s :: rest).map (·.1))[before.length]? = some s.1 := by simp
      have response : ((before ++ s :: rest).map (·.2))[before.length]? = some s.2 := by simp
      have next := ih (before ++ [s]) (fun t mem => named t (List.mem_cons_of_mem _ mem))
        (addNew (addNew runnables (segmentRunnables s).1) (segmentRunnables s).2)
      rw [List.append_assoc, List.singleton_append, List.length_append] at next
      rw [List.length_cons, List.range'_succ, List.foldlM_cons,
        runnableAt_eq stimulus nonempty.1, runnableAt_eq response nonempty.2]
      exact next

/-- **Runnables of a chain.** The list holds the stimulus of a single segment, and otherwise all
runnables of the chain. -/
theorem effectChainRunnables_eq {first : Text × Text}
    (chain : ChainSegments d effectChainName (first :: segments))
    (connected : Connected (first :: segments)) :
    effectChainRunnables d effectChainName =
      some (if segments = [] then [eventRunnable first.1] else chainPath (first :: segments)) := by
  have start : runnableAt ((first :: segments).map (·.1)) 0 = some (eventRunnable first.1) :=
    runnableAt_eq rfl (chain.named first List.mem_cons_self).1
  have loop := loop_eq [first] segments
    (fun s mem => chain.named s (List.mem_cons_of_mem _ mem)) [eventRunnable first.1]
  rw [effectChainRunnables, stimuliOf_eq chain, responsesOf_eq chain, start, List.length_map,
    List.length_cons, Nat.add_sub_cancel]
  refine loop.trans (congrArg some ?_)
  split
  next none => rw [none]; rfl
  next some =>
    have more : segments.map segmentRunnables ≠ [] := by simpa using some
    exact @foldl_linked_eq _ _ (segmentRunnables first) _ connected more

/-! ## The latency of a chain -/

section Latency

variable {task : Text → Text} {index : Text → ℕ} {latency : Text → ℚ}

/-- **Step lemma.** A runnable that is loaded once adds its response time and period. -/
theorem addLatency_eq {runnable : Text}
    (placed : Placed J d cores runnable (task runnable) (index runnable) (latency runnable))
    (totalRT : ℚ) : addLatency J d cores totalRT runnable = some (totalRT + latency runnable) := by
  obtain ⟨core, t, r, here, tasks, runnables, sum⟩ := placed.loadedOnce
  have nonneg : (0 : ℤ) ≤ index runnable := Int.natCast_nonneg _
  rw [addLatency, placed.calledBy, placed.onCore]
  simp only [Option.bind_eq_bind, Option.bind_some, if_pos nonneg, Int.toNat_natCast, here]
  rw [foldl_of_filter tasks, foldl_of_filter runnables, sum]

theorem foldlM_addLatency {path : List Text}
    (placed : ∀ r ∈ path, Placed J d cores r (task r) (index r) (latency r)) :
    path.foldlM (addLatency J d cores) 0 = some (path.map latency).sum := by
  rw [foldlM_add fun totalRT r mem => addLatency_eq (placed r mem) totalRT, zero_add]

theorem effectChainType_eq {first : ℕ} {path : List Text}
    (placed : ∀ r ∈ path, coreIndexOf J d r = some (index r : ℤ)) :
    effectChainType J d first path =
      some (if ∀ r ∈ path, first = index r then .oneTask else .severalTasks) := by
  induction path with
  | nil => rfl
  | cons r path ih =>
      rw [effectChainType, placed r List.mem_cons_self]
      simp only [Option.bind_eq_bind, Option.bind_some, ne_eq, Nat.cast_inj, List.forall_mem_cons]
      by_cases same : first = index r
      · rw [if_neg (not_not.mpr same), ih fun s mem => placed s (List.mem_cons_of_mem _ mem)]
        simp only [same, true_and]
      · rw [if_pos same, if_neg fun all => same all.1]

/-- The total for a list of runnables: the cost by their cores. -/
theorem total_eq {first : Text} {path : List Text}
    (placed : ∀ r ∈ first :: path, Placed J d cores r (task r) (index r) (latency r))
    (runnables : effectChainRunnables d effectChainName = some (first :: path)) :
    computeEffectChain J d cores effectChainName =
      some (pathCost index latency (first :: path)) := by
  obtain ⟨last, ends⟩ : ∃ last, (first :: path).getLast? = some last :=
    ⟨_, List.getLast?_eq_some_getLast (List.cons_ne_nil _ _)⟩
  have type : effectChainType J d (index first) path =
      some (if ∀ r ∈ path, index first = index r then .oneTask else .severalTasks) :=
    effectChainType_eq fun r mem => (placed r (List.mem_cons_of_mem _ mem)).onCore
  rw [computeEffectChain, runnables]
  simp only [Option.bind_eq_bind, Option.bind_some, List.head?_cons, ends, List.tail_cons, type,
    (placed first List.mem_cons_self).onCore]
  by_cases one : ∀ r ∈ path, index first = index r
  · rw [pathCost, if_pos one, if_pos ((oneKey_cons index first path).mpr one), ends,
      addLatency_eq (placed last (List.mem_of_getLast? ends))]
    simp
  · rw [pathCost, if_neg one, if_neg (mt (oneKey_cons index first path).mp one)]
    exact foldlM_addLatency placed

/-- Runnables of one task are on one core. -/
theorem index_eq_of_task_eq {a b : Text}
    (placed_a : Placed J d cores a (task a) (index a) (latency a))
    (placed_b : Placed J d cores b (task b) (index b) (latency b)) (same : task a = task b) :
    index a = index b := by
  have core_a := placed_a.onCore
  have core_b := placed_b.onCore
  rw [coreIndexOf, placed_a.calledBy, same, ← placed_b.calledBy, ← coreIndexOf, core_b] at core_a
  exact (Int.ofNat_inj.mp (Option.some.inj core_a)).symm

end Latency

/-- When the total is the latency of the chain. A chain of one segment with two runnables counts its
stimulus only; other chains count as one task what is on one core. -/
def Counted (task : Text → Text) (index : Text → ℕ) (latency : Text → ℚ)
    (first : Text × Text) (segments : List (Text × Text)) : Prop :=
  if segments = [] ∧ eventRunnable first.1 ≠ eventRunnable first.2 then
    if task (eventRunnable first.1) = task (eventRunnable first.2) then
      latency (eventRunnable first.1) = latency (eventRunnable first.2)
    else latency (eventRunnable first.2) = 0
  else
    OneKey task (chainPath (first :: segments)) ∨ ¬ OneKey index (chainPath (first :: segments)) ∨
      ((chainPath (first :: segments)).dropLast.map latency).sum = 0

/-- **Latency of an effect chain.** The total counts every runnable of the chain exactly when the
response of a single segment has no share in it, and what is on one core is in one task or has no
share either. -/
theorem computeEffectChain_iff {task : Text → Text} {index : Text → ℕ} {latency : Text → ℚ}
    {first : Text × Text} (chain : ChainSegments d effectChainName (first :: segments))
    (connected : Connected (first :: segments))
    (placed : ∀ r ∈ chainPath (first :: segments),
      Placed J d cores r (task r) (index r) (latency r)) :
    ∃ total, computeEffectChain J d cores effectChainName = some total ∧
      (total = pathCost task latency (chainPath (first :: segments)) ↔
        Counted task index latency first segments) := by
  have runnables := effectChainRunnables_eq chain connected
  obtain ⟨rest, path⟩ : ∃ rest, chainPath (first :: segments) = eventRunnable first.1 :: rest :=
    exists_destutter'_eq_cons _ _
  by_cases short : segments = [] ∧ eventRunnable first.1 ≠ eventRunnable first.2
  · rcases short with ⟨rfl, differ⟩
    have both : chainPath [first] = [eventRunnable first.1, eventRunnable first.2] :=
      (List.destutter_pair _).trans (if_pos differ)
    have stimulus := placed (eventRunnable first.1) (path ▸ List.mem_cons_self)
    refine ⟨_, total_eq (List.forall_mem_singleton.mpr stimulus) runnables, ?_⟩
    rw [Counted, if_pos ⟨rfl, differ⟩, both, pathCost, if_pos (by simp [OneKey]), pathCost]
    by_cases same : task (eventRunnable first.1) = task (eventRunnable first.2)
    · rw [if_pos ((oneKey_cons task _ _).mpr (List.forall_mem_singleton.mpr same)), if_pos same]
      rfl
    · rw [if_neg fun one => same ((oneKey_cons task _ _).mp one _ List.mem_cons_self), if_neg same]
      simp
  · have list : effectChainRunnables d effectChainName = some (chainPath (first :: segments)) := by
      rw [runnables]
      by_cases single : segments = []
      · have same : eventRunnable first.1 = eventRunnable first.2 :=
          by_contra fun differ => short ⟨single, differ⟩
        rw [if_pos single, single]
        exact congrArg some ((List.destutter_pair _).trans (if_neg (not_not.mpr same))).symm
      · rw [if_neg single]
    rw [path] at list placed
    refine ⟨_, total_eq placed list, ?_⟩
    rw [Counted, if_neg short, path]
    exact pathCost_eq_iff (fun a ha b hb => index_eq_of_task_eq (placed a ha) (placed b hb))
      (List.cons_ne_nil _ _) latency

/-! ## A chain over two tasks -/

/-- The event of a runnable. -/
def eventOf (runnable : String) : Text :=
  "RunnableStart_".toList ++ runnable.toList ++ "?type=events.RunnableEvent".toList

/-- The runnables `R0` and `R1` of two tasks on two cores, with a chain `EC`. -/
def chainDocument (segments : List (Text × Text)) : Document where
  tasks := [⟨some "TA".toList, none, none, none, ["R0?type=sw.Runnable".toList]⟩,
    ⟨some "TB".toList, none, none, none, ["R1?type=sw.Runnable".toList]⟩]
  processAllocations := [⟨some "TA?type=sw.Task".toList, some "S0".toList⟩,
    ⟨some "TB?type=sw.Task".toList, some "S1".toList⟩]
  coreAllocations := [⟨some "S0".toList, some "CORE0?type=hw.Core".toList⟩,
    ⟨some "S1".toList, some "CORE1?type=hw.Core".toList⟩]
  eventChains := [⟨some "EC".toList, segments.map fun s => ⟨some s.1, some s.2⟩⟩]

/-- A task of one runnable. -/
def chainTask (task runnable : String) (period responseTime : ℚ) : ModelTask :=
  { ModelTask.new task.toList period 1 "preemptive".toList with
    runnables := [⟨runnable.toList, 1000, 5, responseTime⟩] }

/-- The two cores after their analysis. -/
def chainCores : List ModelCore :=
  [{ ModelCore.new "CORE0".toList with tasks := [chainTask "TA" "R0" 10 5] },
    { ModelCore.new "CORE1".toList with tasks := [chainTask "TB" "R1" 20 7] }]

/-- Of the two runnables, `R0` has the first value. -/
def ofRunnable {α : Type} (first second : α) (runnable : Text) : α :=
  if runnable = "R0".toList then first else second

theorem placed_chainCores (segments : List (Text × Text)) (runnable : Text)
    (mem : runnable ∈ ["R0".toList, "R1".toList]) :
    Placed rationalLang (chainDocument segments) chainCores runnable
      (ofRunnable "TA".toList "TB".toList runnable) (ofRunnable 0 1 runnable)
      (ofRunnable 15 27 runnable) := by
  rcases List.mem_pair.mp mem with rfl | rfl
  · refine ⟨?_, ?_, _, chainTask "TA" "R0" 10 5, ⟨"R0".toList, 1000, 5, 5⟩, rfl, ?_, ?_, ?_⟩
    · change taskOfRunnable (chainDocument []) _ = _
      decide +kernel
    · change coreIndexOf rationalLang (chainDocument []) _ = _
      decide +kernel
    all_goals decide +kernel
  · refine ⟨?_, ?_, _, chainTask "TB" "R1" 20 7, ⟨"R1".toList, 1000, 5, 7⟩, rfl, ?_, ?_, ?_⟩
    · change taskOfRunnable (chainDocument []) _ = _
      decide +kernel
    · change coreIndexOf rationalLang (chainDocument []) _ = _
      decide +kernel
    all_goals decide +kernel

theorem chainSegments_chainDocument {segments : List (Text × Text)}
    (named : ∀ s ∈ segments, s.1 ≠ [] ∧ s.2 ≠ []) :
    ChainSegments (chainDocument segments) "EC".toList segments := by
  refine ⟨?_, named⟩
  simp [Document.segmentsOf, chainDocument]

/-- From `R0` to `R1` and back: every runnable is counted. -/
theorem computeEffectChain_iff_thereAndBack :
    ∃ total, computeEffectChain rationalLang
        (chainDocument [(eventOf "R0", eventOf "R1"), (eventOf "R1", eventOf "R0")]) chainCores
        "EC".toList = some total ∧
      total = pathCost (ofRunnable "TA".toList "TB".toList) (ofRunnable (15 : ℚ) 27)
        (chainPath [(eventOf "R0", eventOf "R1"), (eventOf "R1", eventOf "R0")]) := by
  have path : chainPath [(eventOf "R0", eventOf "R1"), (eventOf "R1", eventOf "R0")] =
      ["R0".toList, "R1".toList, "R0".toList] := by
    decide +kernel
  have known : ∀ r ∈ ["R0".toList, "R1".toList, "R0".toList], r ∈ ["R0".toList, "R1".toList] := by
    simp
  have connected : Connected [(eventOf "R0", eventOf "R1"), (eventOf "R1", eventOf "R0")] := by
    unfold Connected
    decide +kernel
  obtain ⟨total, reported, counted⟩ := computeEffectChain_iff
    (chainSegments_chainDocument (by decide +kernel)) connected fun r mem =>
      placed_chainCores [(eventOf "R0", eventOf "R1"), (eventOf "R1", eventOf "R0")] r
        (known r (path ▸ mem))
  refine ⟨total, reported, counted.mpr ?_⟩
  rw [Counted, if_neg (by simp), path]
  exact Or.inr (Or.inl (by decide +kernel))

/-- The response of a single segment is not counted. -/
theorem computeEffectChain_drops_response :
    ChainSegments (chainDocument [(eventOf "R0", eventOf "R1")]) "EC".toList
        [(eventOf "R0", eventOf "R1")] ∧
      (∀ r ∈ chainPath [(eventOf "R0", eventOf "R1")],
        Placed rationalLang (chainDocument [(eventOf "R0", eventOf "R1")]) chainCores r
          (ofRunnable "TA".toList "TB".toList r) (ofRunnable 0 1 r) (ofRunnable 15 27 r)) ∧
      computeEffectChain rationalLang (chainDocument [(eventOf "R0", eventOf "R1")]) chainCores
          "EC".toList = some 15 ∧
      pathCost (ofRunnable "TA".toList "TB".toList) (ofRunnable (15 : ℚ) 27)
        (chainPath [(eventOf "R0", eventOf "R1")]) = 42 := by
  have path : chainPath [(eventOf "R0", eventOf "R1")] = ["R0".toList, "R1".toList] := by
    decide +kernel
  refine ⟨chainSegments_chainDocument (by decide +kernel), ?_, by decide +kernel, by decide +kernel⟩
  intro r mem
  exact placed_chainCores _ r (path ▸ mem)

end Hipert.Amalthea
