import Hipert.Amalthea.Load
import Hipert.Lib.MachineInt
import Hipert.Lib.Thinning
import Mathlib.Algebra.Group.Prod
import Mathlib.Algebra.Group.TransferInstance

/-!
# Communication costs

A transcription of `matrixCommunication` of `main.java`, with the figures that it reports. Every pair
of an entry of the one task and an entry of the other one on the same label with another operation is
a communication, so repeated entries count again wherever they communicate.
-/

namespace Hipert.Amalthea

/-! ## Costs -/

/-- `s.substring(s.length()-1)` -/
def lastText (s : Text) : Option Text := if s = [] then none else some (s.drop (s.length - 1))

/-- `label.substring(0,label.length()-2)` -/
def withoutOperation (label : Text) : Option Text :=
  if label.length < 2 then none else some (label.take (label.length - 2))

/-- The cost of a transfer: one cycle between a core and its own memory, and nine otherwise. -/
def calculateCost (labelSrcAllocation coreSource : Text) : Option Int32 := do
  let memory ← lastText labelSrcAllocation
  let core ← lastText coreSource
  some (if memory = core then 1 else 9)

/-- `calculateCostTransaction_LET` -/
def calculateCostTransactionLET : Text → Text → Option Int32 := calculateCost

/-- `calculateCostCopyIn_IMPLICIT` -/
def calculateCostCopyInIMPLICIT : Text → Text → Option Int32 := calculateCost

/-- `calculateCostCopyOut_IMPLICIT` -/
def calculateCostCopyOutIMPLICIT : Text → Text → Option Int32 := calculateCost

/-- The communication types `"h"`, `"nh"` and `"a"`. -/
inductive CommunicationType where
  | h
  | nh
  | a
  deriving DecidableEq, Repr

section Matrix

variable (J : JavaLang ℚ) (d : Document)

/-- `typeOfCommunication` -/
def typeOfCommunication (tSrc tDst : Text) : Option CommunicationType :=
  if contains "ISR".toList tSrc || contains "ISR".toList tDst || contains "Angle".toList tSrc ||
      contains "Angle".toList tDst then some .a
  else if contains "Task_".toList tSrc && contains "Task_".toList tDst then do
    let t1 ← parseInt J (replaceText "ms".toList [] (replaceText "Task_".toList [] tSrc))
    let t2 ← parseInt J (replaceText "ms".toList [] (replaceText "Task_".toList [] tDst))
    if t1 > t2 then
      if t2 = 0 then none else some (if t1.tmod t2 ≠ 0 then .nh else .h)
    else
      if t1 = 0 then none else some (if t2.tmod t1 ≠ 0 then .nh else .h)
  else some .nh

/-- The footprint of a label that is read, by the type of the communication. -/
def footprintLET (tSrc tDst : Text) (footprint : Int32) : Option Int32 := do
  match ← typeOfCommunication J tSrc tDst with
  | .nh =>
      some (if tSrc = "Task_20ms".toList then footprint * 3
        else if tSrc = "Task_50ms".toList then footprint * 2
        else footprint)
  | .a => some (footprint * 3)
  | .h => some footprint

/-- The counters of the inner loops. -/
structure Counters where
  costCopyIn : Int32
  costCopyOut : Int32
  costTransaction : Int32
  implicitFootprint : Int32
  letFootprint : Int32
  deriving DecidableEq

/-- The counters as a tuple. -/
def Counters.equiv : Counters ≃ Int32 × Int32 × Int32 × Int32 × Int32 where
  toFun s := (s.costCopyIn, s.costCopyOut, s.costTransaction, s.implicitFootprint, s.letFootprint)
  invFun p := ⟨p.1, p.2.1, p.2.2.1, p.2.2.2.1, p.2.2.2.2⟩
  left_inv _ := rfl
  right_inv _ := rfl

instance : AddCommGroup Counters := Counters.equiv.addCommGroup

/-- What counts for one operation only, and is `0` for the other one. -/
def countedFor (operation srcOperation : Text) (cost : Option Int32) : Option Int32 :=
  if srcOperation = operation then cost else some 0

/-- What a pair of entries adds to the counters. -/
def communication (tSrc tDst labelSrc labelDest : Text) : Option Counters := do
  let srcOperation ← lastText labelSrc
  let dstOperation ← lastText labelDest
  let label ← withoutOperation labelSrc
  let label' ← withoutOperation labelDest
  if label = label' ∧ srcOperation ≠ dstOperation then do
    let labelSrcAllocation ← labelAllocation d label
    let _labelDstAllocation ← labelAllocation d label'
    let coreSource ← coreOfTask d tSrc
    let coreDest ← coreOfTask d tDst
    let coreSource := replaceText "?type=hw.Core".toList [] coreSource
    let coreDest := replaceText "?type=hw.Core".toList [] coreDest
    let costCopyIn ← calculateCostCopyInIMPLICIT labelSrcAllocation coreSource
    let costCopyOut ← countedFor "w".toList srcOperation
      (calculateCostCopyOutIMPLICIT labelSrcAllocation coreSource)
    let size ← sizeOfLabel J d label
    let costTransaction ← countedFor "w".toList srcOperation
      (calculateCostTransactionLET labelSrcAllocation coreDest)
    let footprint ← countedFor "r".toList srcOperation (footprintLET J tSrc tDst (Int32.ofInt size))
    some ⟨costCopyIn, costCopyOut, costTransaction, Int32.ofInt size, footprint⟩
  else some ⟨0, 0, 0, 0, 0⟩

/-- One round of the loop over the entries of both tasks. -/
def communicate (tSrc tDst labelSrc : Text) (s : Counters) (labelDest : Text) : Option Counters := do
  let c ← communication J d tSrc tDst labelSrc labelDest
  some
    { costCopyIn := s.costCopyIn + c.costCopyIn
      costCopyOut := s.costCopyOut + c.costCopyOut
      costTransaction := s.costTransaction + c.costTransaction
      implicitFootprint := s.implicitFootprint + c.implicitFootprint
      letFootprint := s.letFootprint + c.letFootprint }

/-- The loops over the entries of two tasks. -/
def communicateTasks (tSrc tDst : ModelTask) (s : Counters) : Option Counters :=
  if tSrc.name ≠ tDst.name then
    tSrc.labels.foldlM (fun s labelSrc =>
      tDst.labels.foldlM (communicate J d tSrc.name tDst.name labelSrc) s) s
  else some s

/-- The figures reported for a task and another one. -/
structure PairReport where
  task : Text
  costCopyIn : Int32
  costCopyOut : Int32
  costTransaction : Int32
  deriving DecidableEq

/-- The figures reported for a task. -/
structure TaskReport where
  task : Text
  pairs : List PairReport
  costCopyIn : Int32
  costCopyOut : Int32
  implicitFootprint : Int32
  letFootprint : Int32
  deriving DecidableEq

/-- The loop over the tasks of all cores for one task. -/
def reportTask (tasks : List ModelTask) (tSrc : ModelTask) : Option TaskReport :=
  tasks.foldlM (fun r tDst => do
    -- the footprints run on from task to task, the costs start anew
    let s ← communicateTasks J d tSrc tDst ⟨0, 0, 0, r.implicitFootprint, r.letFootprint⟩
    some
      { r with
        pairs := r.pairs ++ [⟨tDst.name, s.costCopyIn, s.costCopyOut, s.costTransaction⟩]
        costCopyIn := r.costCopyIn + s.costCopyIn
        costCopyOut := r.costCopyOut + s.costCopyOut
        implicitFootprint := s.implicitFootprint
        letFootprint := s.letFootprint }) ⟨tSrc.name, [], 0, 0, 0, 0⟩

/-- `matrixCommunication` -/
def matrixCommunication (cores : List ModelCore) : Option (List TaskReport) :=
  let tasks := cores.flatMap (·.tasks)
  tasks.mapM (reportTask J d tasks)

end Matrix

/-! ## What the loops add up -/

section Sums

variable (J : JavaLang ℚ) (d : Document)

/-- What a pair of entries adds, where its queries have results. -/
def amounts (tSrc tDst labelSrc labelDest : Text) : Counters :=
  (communication J d tSrc tDst labelSrc labelDest).getD 0

/-- What a pair of tasks adds. -/
def taskAmounts (tSrc tDst : ModelTask) : Counters :=
  if tSrc.name ≠ tDst.name then
    pairSum (amounts J d tSrc.name tDst.name) tSrc.labels tDst.labels
  else 0

/-- The queries for the entries of both tasks have results. -/
def Defined (tSrc tDst : ModelTask) : Prop :=
  tSrc.name ≠ tDst.name → ∀ l ∈ tSrc.labels, ∀ l' ∈ tDst.labels,
    ∃ c, communication J d tSrc.name tDst.name l l' = some c

/-- The report with the figures of one more task. -/
def TaskReport.add (r : TaskReport) (task : Text) (c : Counters) : TaskReport :=
  { r with
    pairs := r.pairs ++ [⟨task, c.costCopyIn, c.costCopyOut, c.costTransaction⟩]
    costCopyIn := r.costCopyIn + c.costCopyIn
    costCopyOut := r.costCopyOut + c.costCopyOut
    implicitFootprint := r.implicitFootprint + c.implicitFootprint
    letFootprint := r.letFootprint + c.letFootprint }

/-- The report of a task. -/
def reportOf (tasks : List ModelTask) (tSrc : ModelTask) : TaskReport :=
  (tasks.map fun tDst => (tDst.name, taskAmounts J d tSrc tDst)).foldl (fun r p => r.add p.1 p.2)
    ⟨tSrc.name, [], 0, 0, 0, 0⟩

variable {J d} {tSrc tDst : ModelTask} {tasks : List ModelTask}

theorem communicate_eq {tSrc tDst labelSrc labelDest : Text} {c : Counters}
    (defined : communication J d tSrc tDst labelSrc labelDest = some c) (s : Counters) :
    communicate J d tSrc tDst labelSrc s labelDest =
      some (s + amounts J d tSrc tDst labelSrc labelDest) := by
  rw [communicate, amounts, defined]
  rfl

theorem communicateTasks_eq (defined : Defined J d tSrc tDst) (s : Counters) :
    communicateTasks J d tSrc tDst s = some (s + taskAmounts J d tSrc tDst) := by
  unfold communicateTasks taskAmounts
  split
  next other =>
    refine foldlM_add (fun s l mem => foldlM_add (fun s l' mem' => ?_) s) s
    obtain ⟨c, result⟩ := defined other l mem l' mem'
    exact communicate_eq result s
  next => rw [add_zero]

theorem defined_of_communicateTasks {s r : Counters}
    (ends : communicateTasks J d tSrc tDst s = some r) : Defined J d tSrc tDst := by
  intro other l mem l' mem'
  rw [communicateTasks, if_pos other] at ends
  obtain ⟨before, after, row⟩ := exists_round ends mem
  obtain ⟨before', after', round⟩ := exists_round row mem'
  obtain ⟨c, result, -⟩ := Option.bind_eq_some_iff.mp round
  exact ⟨c, result⟩

theorem footprints_add (x y : Int32) (c : Counters) :
    (⟨0, 0, 0, x, y⟩ : Counters) + c =
      ⟨c.costCopyIn, c.costCopyOut, c.costTransaction, x + c.implicitFootprint,
        y + c.letFootprint⟩ := by
  change Counters.mk (0 + _) (0 + _) (0 + _) _ _ = _
  rw [zero_add, zero_add, zero_add]
  rfl

theorem reportTask_eq (defined : ∀ tDst ∈ tasks, Defined J d tSrc tDst) :
    reportTask J d tasks tSrc = some (reportOf J d tasks tSrc) := by
  rw [reportTask, reportOf, List.foldl_map]
  apply foldlM_eq_some
  intro r tDst mem
  rw [communicateTasks_eq (defined tDst mem), footprints_add]
  rfl

theorem defined_of_reportTask {r : TaskReport} (ends : reportTask J d tasks tSrc = some r)
    {tDst : ModelTask} (mem : tDst ∈ tasks) : Defined J d tSrc tDst := by
  obtain ⟨before, after, round⟩ := exists_round ends mem
  obtain ⟨s, result, -⟩ := Option.bind_eq_some_iff.mp round
  exact defined_of_communicateTasks result

/-- **Run lemma.** The loops end where all queries have results, with the sums of what all pairs of
entries add. -/
theorem matrixCommunication_eq_some {cores : List ModelCore} {report : List TaskReport} :
    matrixCommunication J d cores = some report ↔
      (∀ tSrc ∈ cores.flatMap (·.tasks), ∀ tDst ∈ cores.flatMap (·.tasks), Defined J d tSrc tDst) ∧
        report = (cores.flatMap (·.tasks)).map (reportOf J d (cores.flatMap (·.tasks))) := by
  have value : (∀ tSrc ∈ cores.flatMap (·.tasks), ∀ tDst ∈ cores.flatMap (·.tasks),
      Defined J d tSrc tDst) → matrixCommunication J d cores =
        some ((cores.flatMap (·.tasks)).map (reportOf J d (cores.flatMap (·.tasks)))) :=
    fun defined => mapM_eq_some fun tSrc mem => reportTask_eq (defined tSrc mem)
  refine ⟨?_, ?_⟩
  · intro ends
    have defined : ∀ tSrc ∈ cores.flatMap (·.tasks), ∀ tDst ∈ cores.flatMap (·.tasks),
        Defined J d tSrc tDst := by
      intro tSrc mem tDst mem'
      obtain ⟨r, result⟩ := exists_of_mapM ends mem
      exact defined_of_reportTask result mem'
    exact ⟨defined, Option.some.inj (ends.symm.trans (value defined))⟩
  · intro given
    rcases given with ⟨defined, rfl⟩
    exact value defined

end Sums

/-! ## Removing repeated entries -/

/-- The entry of a label with its operation, as `load_core` adds it. -/
def entryOf (label : Text) (read : Bool) : Text :=
  label ++ if read then "_r".toList else "_w".toList

theorem entryOf_inj {label label' : Text} {read read' : Bool} :
    entryOf label read = entryOf label' read' ↔ label = label' ∧ read = read' := by
  rw [← Prod.mk.injEq]
  exact labelEntry_injective.eq_iff (a := (label, read)) (b := (label', read'))

/-- All entries of the task are entries of labels. -/
def ModelTask.HasEntries (t : ModelTask) : Prop :=
  ∀ e ∈ t.labels, ∃ label read, e = entryOf label read

/-- Repeated entries of the task are removed. -/
structure ModelTask.ThinnedTo (t u : ModelTask) : Prop where
  labels : Thinned t.labels u.labels
  same : u = { t with labels := u.labels }

/-- Repeated entries of the tasks of the core are removed. -/
structure ModelCore.ThinnedTo (c c' : ModelCore) : Prop where
  tasks : List.Forall₂ ModelTask.ThinnedTo c.tasks c'.tasks
  same : c' = { c with tasks := c'.tasks }

theorem withoutOperation_entryOf (label : Text) (read : Bool) :
    withoutOperation (entryOf label read) = some label := by
  have two : (if read then "_r".toList else "_w".toList : Text).length = 2 := by
    cases read <;> rfl
  have length : (entryOf label read).length = label.length + 2 := by
    rw [entryOf, List.length_append, two]
  rw [withoutOperation, if_neg (by omega), length, Nat.add_sub_cancel, entryOf, List.take_left]

theorem lastText_entryOf (label : Text) (read : Bool) :
    lastText (entryOf label read) = some (if read then "r".toList else "w".toList) := by
  cases read <;> simp [lastText, entryOf]

theorem operation_ne_iff (read read' : Bool) :
    (if read then "r".toList else "w".toList : Text) ≠ (if read' then "r".toList else "w".toList) ↔
      read ≠ read' := by
  revert read read'
  decide +kernel

/-- Entries that do not communicate add nothing. -/
theorem communication_of_not {J : JavaLang ℚ} {d : Document} {tSrc tDst label label' : Text}
    {read read' : Bool} (apart : ¬ (label = label' ∧ read ≠ read')) :
    communication J d tSrc tDst (entryOf label read) (entryOf label' read') = some 0 := by
  simp only [communication, lastText_entryOf, withoutOperation_entryOf, Option.bind_eq_bind,
    Option.bind_some, operation_ne_iff, if_neg apart]
  rfl

theorem calculateCost_ne_zero {memory core : Text} {cost : Int32}
    (result : calculateCost memory core = some cost) : cost ≠ 0 := by
  simp only [calculateCost, Option.bind_eq_bind, Option.bind_eq_some_iff,
    Option.some.injEq] at result
  rcases result with ⟨_, -, _, -, rfl⟩
  split <;> decide

/-- Entries that communicate have a copy-in cost. -/
theorem costCopyIn_of_communication {J : JavaLang ℚ} {d : Document} {tSrc tDst label : Text}
    {read read' : Bool} (differ : read ≠ read') {c : Counters}
    (result : communication J d tSrc tDst (entryOf label read) (entryOf label read') = some c) :
    c.costCopyIn ≠ 0 := by
  have matched := And.intro True.intro ((operation_ne_iff read read').mpr differ)
  rw [communication, lastText_entryOf, lastText_entryOf, withoutOperation_entryOf,
    withoutOperation_entryOf] at result
  simp only [Option.bind_eq_bind, Option.bind_some] at result
  rw [if_pos matched] at result
  simp only [Option.bind_eq_some_iff, Option.some.injEq] at result
  rcases result with ⟨_, -, _, -, _, -, _, -, cost, copyIn, _, -, _, -, _, -, _, -, rfl⟩
  exact calculateCost_ne_zero copyIn

section Thinning

variable {J : JavaLang ℚ} {d : Document} {tSrc tDst uSrc uDst : ModelTask}

/-- The copy-in cost of the counters. -/
def Counters.copyIn : Counters →+ Int32 where
  toFun := Counters.costCopyIn
  map_zero' := rfl
  map_add' _ _ := rfl

/-- Two entries that add something have the same label and the two operations. -/
theorem counterpart_of_amounts {tSrc tDst label label' : Text} {read read' : Bool}
    (share : amounts J d tSrc tDst (entryOf label read) (entryOf label' read') ≠ 0) :
    label = label' ∧ read ≠ read' := by
  by_contra apart
  rw [amounts, communication_of_not apart] at share
  exact share rfl

/-- A counterpart with a share is the entry of the label with the other operation. -/
theorem eq_of_amounts {tSrc tDst label : Text} {read : Bool} {e : Text}
    (entry : ∃ label' read', e = entryOf label' read')
    (share : amounts J d tSrc tDst (entryOf label read) e ≠ 0 ∨
      amounts J d tSrc tDst e (entryOf label read) ≠ 0) : e = entryOf label (!read) := by
  rcases entry with ⟨label', read', rfl⟩
  have apart : label' = label ∧ read' ≠ read := by
    rcases share with share | share
    · obtain ⟨same, differ⟩ := counterpart_of_amounts share
      exact ⟨same.symm, differ.symm⟩
    · exact counterpart_of_amounts share
  rw [apart.1, Bool.eq_not_of_ne apart.2]

/-- No repeated entry of the one task communicates with the other one. -/
def NoRepeated (tSrc tDst : ModelTask) : Prop :=
  ∀ label read, entryOf label read ∈ tSrc.labels → entryOf label (!read) ∈ tDst.labels →
    Single tSrc.labels (entryOf label read)

theorem defined_of_thinned (src : tSrc.ThinnedTo uSrc) (dst : tDst.ThinnedTo uDst)
    (defined : Defined J d tSrc tDst) : Defined J d uSrc uDst := by
  rw [src.same, dst.same]
  exact fun other l mem l' mem' =>
    defined other l (src.labels.mem_iff.mp mem) l' (dst.labels.mem_iff.mp mem')

/-- Where no repeated entry communicates, thinning keeps what two tasks add. -/
theorem taskAmounts_thinned (src : tSrc.ThinnedTo uSrc) (dst : tDst.ThinnedTo uDst)
    (entries : tSrc.HasEntries) (entries' : tDst.HasEntries)
    (single : tSrc.name ≠ tDst.name → NoRepeated tSrc tDst ∧ NoRepeated tDst tSrc) :
    taskAmounts J d uSrc uDst = taskAmounts J d tSrc tDst := by
  have names : uSrc.name = tSrc.name ∧ uDst.name = tDst.name := by
    rw [src.same, dst.same]
    exact ⟨rfl, rfl⟩
  rw [taskAmounts, taskAmounts, names.1, names.2]
  split
  next other =>
    obtain ⟨single_src, single_dst⟩ := single other
    refine pairSum_thinned src.labels dst.labels fun e mem e' mem' share => ?_
    rcases entries e mem with ⟨label, read, rfl⟩
    have counterpart := eq_of_amounts (entries' e' mem') (Or.inl share)
    subst counterpart
    refine ⟨single_src label read mem mem', single_dst label (!read) mem' ?_⟩
    rw [Bool.not_not]
    exact mem
  next => rfl

/-- Where no thinning changes the copy-in cost of two tasks, no repeated entry communicates. -/
theorem noRepeated_of_thinned (defined : Defined J d tSrc tDst) (other : tSrc.name ≠ tDst.name)
    (entries : tDst.HasEntries)
    (same : ∀ l l', Thinned tSrc.labels l → Thinned tDst.labels l' →
      (taskAmounts J d { tSrc with labels := l } { tDst with labels := l' }).costCopyIn =
        (taskAmounts J d tSrc tDst).costCopyIn) : NoRepeated tSrc tDst := by
  have costs : ∀ l l', (taskAmounts J d { tSrc with labels := l }
      { tDst with labels := l' }).costCopyIn =
        pairSum (fun e e' => Counters.copyIn (amounts J d tSrc.name tDst.name e e')) l l' := by
    intro l l'
    rw [← map_pairSum, taskAmounts, if_pos other]
    rfl
  have some : ∀ e e', Counters.copyIn (amounts J d tSrc.name tDst.name e e') ≠ 0 →
      amounts J d tSrc.name tDst.name e e' ≠ 0 := by
    intro e e' cost zero
    rw [zero, map_zero] at cost
    exact cost rfl
  intro label read mem mem'
  obtain ⟨c, result⟩ := defined other _ mem _ mem'
  have cost : Counters.copyIn (amounts J d tSrc.name tDst.name (entryOf label read)
      (entryOf label (!read))) ≠ 0 := by
    rw [amounts, result]
    exact costCopyIn_of_communication (by simp) result
  have counterpart : ∀ e' ∈ tDst.labels, Counters.copyIn (amounts J d tSrc.name tDst.name
      (entryOf label read) e') ≠ 0 → e' = entryOf label (!read) := fun e' here share =>
    eq_of_amounts (entries e' here) (Or.inl (some _ _ share))
  refine single_of_thinned (f := fun e e' => Counters.copyIn (amounts J d tSrc.name tDst.name e e'))
    mem mem' counterpart cost fun l l' thin thin' => ?_
  rw [← costs, ← costs]
  exact same l l' thin thin'

/-! ## Removing repeated entries from all tasks -/

theorem thinned_tasks {cores cores' : List ModelCore}
    (all : List.Forall₂ ModelCore.ThinnedTo cores cores') :
    List.Forall₂ ModelTask.ThinnedTo (cores.flatMap (·.tasks)) (cores'.flatMap (·.tasks)) := by
  induction all with
  | nil => exact .nil
  | cons here _ ih => exact List.rel_append here.tasks ih

/-- Thinned tasks are the tasks of thinned cores. -/
theorem exists_thinned_cores {cores : List ModelCore} {tasks : List ModelTask}
    (all : List.Forall₂ ModelTask.ThinnedTo (cores.flatMap (·.tasks)) tasks) :
    ∃ cores', List.Forall₂ ModelCore.ThinnedTo cores cores' ∧
      cores'.flatMap (·.tasks) = tasks := by
  induction cores generalizing tasks with
  | nil =>
      cases all
      exact ⟨[], .nil, rfl⟩
  | cons c cores ih =>
      rw [List.flatMap_cons] at all
      rcases forall₂_append_left.mp all with ⟨own, others, rfl, first, rest⟩
      obtain ⟨cores', thinned, eq⟩ := ih rest
      refine ⟨{ c with tasks := own } :: cores', .cons ⟨first, rfl⟩ thinned, ?_⟩
      rw [List.flatMap_cons, eq]

theorem pairs_reportOf (tasks : List ModelTask) (tSrc : ModelTask) :
    (reportOf J d tasks tSrc).pairs = tasks.map fun tDst =>
      ⟨tDst.name, (taskAmounts J d tSrc tDst).costCopyIn, (taskAmounts J d tSrc tDst).costCopyOut,
        (taskAmounts J d tSrc tDst).costTransaction⟩ := by
  have pairs : ∀ (ps : List (Text × Counters)) (r : TaskReport),
      (ps.foldl (fun r p => r.add p.1 p.2) r).pairs = r.pairs ++ ps.map fun p =>
        ⟨p.1, p.2.costCopyIn, p.2.costCopyOut, p.2.costTransaction⟩ := by
    intro ps
    induction ps with
    | nil => simp
    | cons p ps ih =>
        intro r
        rw [List.foldl_cons, ih]
        simp [TaskReport.add]
  rw [reportOf, pairs, List.map_map]
  rfl

theorem ModelTask.ThinnedTo.refl (t : ModelTask) : t.ThinnedTo t := ⟨Thinned.refl _, rfl⟩

/-- Equal reports have equal copy-in costs of the tasks at the same places. -/
theorem costCopyIn_of_reports {tasks tasks' : List ModelTask}
    (same : tasks.map (reportOf J d tasks) = tasks'.map (reportOf J d tasks')) {i j : ℕ}
    (src : tasks[i]? = some tSrc) (dst : tasks[j]? = some tDst) (src' : tasks'[i]? = some uSrc)
    (dst' : tasks'[j]? = some uDst) :
    (taskAmounts J d tSrc tDst).costCopyIn = (taskAmounts J d uSrc uDst).costCopyIn := by
  have reports := congrArg (·[i]?) same
  simp only [List.getElem?_map, src, src', Option.map_some, Option.some.injEq] at reports
  have pairs := congrArg (fun r => r.pairs[j]?) reports
  simp only [pairs_reportOf, List.getElem?_map, dst, dst', Option.map_some, Option.some.injEq,
    PairReport.mk.injEq] at pairs
  exact pairs.2.1

/-- Where no repeated entry communicates, thinned tasks have the same reports. -/
theorem reports_thinned {tasks tasks' : List ModelTask}
    (all : List.Forall₂ ModelTask.ThinnedTo tasks tasks') (entries : ∀ t ∈ tasks, t.HasEntries)
    (single : ∀ tSrc ∈ tasks, ∀ tDst ∈ tasks, tSrc.name ≠ tDst.name → NoRepeated tSrc tDst) :
    tasks'.map (reportOf J d tasks') = tasks.map (reportOf J d tasks) := by
  refine map_eq_of_forall₂ all fun tSrc mem uSrc src => ?_
  have name : uSrc.name = tSrc.name := by rw [src.same]
  rw [reportOf, reportOf, name]
  congr 1
  refine map_eq_of_forall₂ all fun tDst mem' uDst dst => ?_
  rw [taskAmounts_thinned src dst (entries _ mem) (entries _ mem') fun other =>
    ⟨single _ mem _ mem' other, single _ mem' _ mem other.symm⟩, dst.same]

/-- **Repeated entries.** No removal of repeated entries from the tasks changes a figure exactly
when no repeated entry communicates with a task of another name. -/
theorem matrixCommunication_thinned_iff {cores : List ModelCore} {report : List TaskReport}
    (entries : ∀ t ∈ cores.flatMap (·.tasks), t.HasEntries)
    (returned : matrixCommunication J d cores = some report) :
    (∀ cores', List.Forall₂ ModelCore.ThinnedTo cores cores' →
        matrixCommunication J d cores' = some report) ↔
      ∀ tSrc ∈ cores.flatMap (·.tasks), ∀ tDst ∈ cores.flatMap (·.tasks),
        tSrc.name ≠ tDst.name → NoRepeated tSrc tDst := by
  obtain ⟨defined, value⟩ := matrixCommunication_eq_some.mp returned
  generalize eq : cores.flatMap (·.tasks) = tasks at *
  refine ⟨?_, ?_⟩
  · intro same tSrc mem tDst mem' other
    obtain ⟨i, at_i⟩ := List.getElem?_of_mem mem
    obtain ⟨j, at_j⟩ := List.getElem?_of_mem mem'
    have apart : i ≠ j := by
      rintro rfl
      exact other (congrArg ModelTask.name (Option.some.inj (at_i.symm.trans at_j)))
    apply noRepeated_of_thinned (defined _ mem _ mem') other (entries _ mem')
    intro l l' thin thin'
    -- the two tasks are thinned at their positions, and all other ones stay
    have src : tSrc.ThinnedTo { tSrc with labels := l } := ⟨thin, rfl⟩
    have dst : tDst.ThinnedTo { tDst with labels := l' } := ⟨thin', rfl⟩
    have unchanged := List.forall₂_same.mpr fun t (_ : t ∈ tasks) => ModelTask.ThinnedTo.refl t
    have all := forall₂_set (forall₂_set unchanged at_i src) at_j dst
    obtain ⟨cores', thinned, eq'⟩ := exists_thinned_cores (by rw [eq]; exact all)
    have value' := (matrixCommunication_eq_some.mp (same cores' thinned)).2
    rw [eq', value] at value'
    have inside := (List.getElem?_eq_some_iff.mp at_i).1
    have inside' := (List.getElem?_eq_some_iff.mp at_j).1
    have src_at : ((tasks.set i { tSrc with labels := l }).set j { tDst with labels := l' })[i]? =
        some { tSrc with labels := l } := by
      rw [List.getElem?_set_ne apart.symm, List.getElem?_set_self inside]
    have dst_at : ((tasks.set i { tSrc with labels := l }).set j { tDst with labels := l' })[j]? =
        some { tDst with labels := l' } :=
      List.getElem?_set_self (by rwa [List.length_set])
    exact (costCopyIn_of_reports value' at_i at_j src_at dst_at).symm
  · intro single cores' all
    have tasks' := thinned_tasks all
    rw [eq] at tasks'
    rw [matrixCommunication_eq_some, value]
    refine ⟨?_, (reports_thinned tasks' entries single).symm⟩
    intro uSrc mem uDst mem'
    obtain ⟨tSrc, within, src⟩ := exists_of_forall₂ tasks' mem
    obtain ⟨tDst, within', dst⟩ := exists_of_forall₂ tasks' mem'
    exact defined_of_thinned src dst (defined _ within _ within')

end Thinning

/-- The tasks that `load_core` builds have entries of labels. -/
theorem hasEntries_loadCore {J : JavaLang ℚ} {d : Document} {coreName : Text} {core : ModelCore}
    (loaded : loadCore J d coreName = some core) {t : ModelTask} (mem : t ∈ core.tasks) :
    t.HasEntries := by
  intro e here
  rw [labels_loadCore loaded mem] at here
  rcases List.mem_map.mp here with ⟨a, -, rfl⟩
  exact ⟨a.name, a.firstReads d, rfl⟩

/-! ## Two tasks on a label -/

/-- The label `L` in the memory of `CORE0`, and the tasks `TA` and `TB` on two cores. -/
def labelDocument : Document where
  labels := [⟨some "L".toList, ["8".toList]⟩]
  processAllocations := [⟨some "TA?type=sw.Task".toList, some "S0".toList⟩,
    ⟨some "TB?type=sw.Task".toList, some "S1".toList⟩]
  coreAllocations := [⟨some "S0".toList, some "CORE0?type=hw.Core".toList⟩,
    ⟨some "S1".toList, some "CORE1?type=hw.Core".toList⟩]
  mappings := [⟨some "L?type=sw.Label".toList, some "LRAM0?type=hw.Memory".toList⟩]

/-- The cores of the two tasks, with the labels of `TA`; `TB` writes `L`. -/
def labelCores (labels : List Text) : List ModelCore :=
  [{ ModelCore.new "CORE0".toList with
      tasks := [{ ModelTask.new "TA".toList 10 1 "preemptive".toList with labels }] },
    { ModelCore.new "CORE1".toList with
      tasks := [{ ModelTask.new "TB".toList 20 1 "preemptive".toList with
        labels := [entryOf "L".toList false] }] }]

theorem thinned_labelCores {labels labels' : List Text} (thinned : Thinned labels labels') :
    List.Forall₂ ModelCore.ThinnedTo (labelCores labels) (labelCores labels') :=
  .cons ⟨.cons ⟨thinned, rfl⟩ .nil, rfl⟩ (.cons ⟨.cons ⟨Thinned.refl _, rfl⟩ .nil, rfl⟩ .nil)

/-- Repeated entries of a label that only `TA` accesses may be removed. -/
theorem matrixCommunication_thinned_iff_private :
    ∃ report, matrixCommunication rationalLang labelDocument
        (labelCores [entryOf "L".toList true, entryOf "M".toList true, entryOf "M".toList true]) =
          some report ∧
      matrixCommunication rationalLang labelDocument
        (labelCores [entryOf "L".toList true, entryOf "M".toList true]) = some report := by
  obtain ⟨report, returned⟩ := Option.isSome_iff_exists.mp (by decide +kernel :
    (matrixCommunication rationalLang labelDocument (labelCores
      [entryOf "L".toList true, entryOf "M".toList true, entryOf "M".toList true])).isSome)
  refine ⟨report, returned, (matrixCommunication_thinned_iff ?_ returned).mpr ?_ _
    (thinned_labelCores ⟨by decide +kernel, by decide +kernel⟩)⟩
  · intro t mem e here
    simp only [labelCores, List.flatMap_cons, List.flatMap_nil, List.append_nil,
      List.singleton_append, List.mem_cons, List.not_mem_nil, or_false] at mem
    rcases mem with rfl | rfl
    · simp only [List.mem_cons, List.not_mem_nil, or_false] at here
      rcases here with here | here | here <;> exact ⟨_, _, here⟩
    · exact ⟨_, _, List.mem_singleton.mp here⟩
  · intro tSrc mem tDst mem' other label read entry counterpart
    simp only [labelCores, List.flatMap_cons, List.flatMap_nil, List.append_nil,
      List.singleton_append, List.mem_cons, List.not_mem_nil, or_false] at mem mem'
    rcases mem with rfl | rfl <;> rcases mem' with rfl | rfl
    · exact absurd rfl other
    · rcases entryOf_inj.mp (List.mem_singleton.mp counterpart) with ⟨rfl, same⟩
      have reads : read = true := by simpa using same
      rw [reads]
      decide +kernel
    · rcases entryOf_inj.mp (List.mem_singleton.mp entry) with ⟨rfl, rfl⟩
      decide +kernel
    · exact absurd rfl other

/-- A second read of `L` doubles its copy-in cost. -/
theorem matrixCommunication_counts_twice :
    Thinned [entryOf "L".toList true, entryOf "L".toList true] [entryOf "L".toList true] ∧
      ∃ report report', matrixCommunication rationalLang labelDocument
          (labelCores [entryOf "L".toList true, entryOf "L".toList true]) = some report ∧
        matrixCommunication rationalLang labelDocument (labelCores [entryOf "L".toList true]) =
          some report' ∧
        report.map (·.costCopyIn) = [2, 18] ∧ report'.map (·.costCopyIn) = [1, 9] := by
  have value : (matrixCommunication rationalLang labelDocument
      (labelCores [entryOf "L".toList true, entryOf "L".toList true])).map
        (·.map (·.costCopyIn)) = some [2, 18] := by
    decide +kernel
  have value' : (matrixCommunication rationalLang labelDocument
      (labelCores [entryOf "L".toList true])).map (·.map (·.costCopyIn)) = some [1, 9] := by
    decide +kernel
  obtain ⟨report, returned, costs⟩ := Option.map_eq_some_iff.mp value
  obtain ⟨report', returned', costs'⟩ := Option.map_eq_some_iff.mp value'
  exact ⟨⟨by decide +kernel, by decide +kernel⟩, report, report', returned, returned', costs,
    costs'⟩

end Hipert.Amalthea
