import Hipert.Amalthea.Document
import Hipert.Lib.Labelled
import Hipert.Lib.OptionLoops
import Mathlib.Algebra.Order.Field.Rat
import Mathlib.Data.Rat.Cast.Defs

/-!
# Loading a core

A transcription of `load_core` of `main.java`, with the fields of `Core`, `Task` and `Runnable` that
it and the reports of `main.java` use. Doubles are exact rationals. The labels of a task are one
entry for each runnable item on a label, but the access of an item is looked up by its runnable and
label, which finds the access of the first such item: the entries are right exactly when the reads
recorded as writes balance the writes recorded as reads.
-/

namespace Hipert.Amalthea

/-! ## Runnables, tasks and cores with their names -/

/-- A `Runnable`. -/
structure ModelRunnable where
  name : Text
  nInstructions : ℤ
  executionTime : ℚ
  responseTime : ℚ
  deriving DecidableEq

/-- The constructor of `Runnable`. -/
def ModelRunnable.new (name : Text) (nInstructions : ℤ) : ModelRunnable where
  name := name
  nInstructions := nInstructions
  executionTime := nInstructions / 200000000 * 1000000
  responseTime := 0

/-- A `Task`. -/
structure ModelTask where
  name : Text
  period : ℚ
  deadline : ℚ
  priority : ℤ
  pts : ℤ
  preemptionType : Text
  runnables : List ModelRunnable
  responseTime : ℚ
  executionTime : ℚ
  labels : List Text
  deriving DecidableEq

namespace ModelTask

/-- The constructor of `Task`. -/
def new (name : Text) (period : ℚ) (priority : ℤ) (preemptionType : Text) : ModelTask where
  name := name
  period := period
  deadline := period
  priority := priority
  pts := 10
  preemptionType := preemptionType
  runnables := []
  responseTime := 0
  executionTime := 0
  labels := []

/-- `addRunnable` -/
def addRunnable (t : ModelTask) (r : ModelRunnable) : ModelTask :=
  { t with runnables := t.runnables ++ [r] }

/-- `addLabel` -/
def addLabel (t : ModelTask) (label : Text) : ModelTask := { t with labels := t.labels ++ [label] }

/-- `processInstructions` -/
def processInstructions (t : ModelTask) : ℚ :=
  t.runnables.foldl (fun totalExecutionTime r => totalExecutionTime + r.executionTime) 0

end ModelTask

/-- A `Core`. -/
structure ModelCore where
  name : Text
  tasks : List ModelTask
  nPrivateLabels : Int32
  nSharedLabels : Int32
  sizePrivateLabels : Int32
  sizeSharedLabels : Int32
  labels : List Text
  deriving DecidableEq

namespace ModelCore

/-- The constructor of `Core`. -/
def new (name : Text) : ModelCore := ⟨name, [], 0, 0, 0, 0, []⟩

/-- `addTask` -/
def addTask (c : ModelCore) (t : ModelTask) : ModelCore :=
  { c with tasks := c.tasks ++ [{ t with executionTime := t.processInstructions }] }

end ModelCore

/-! ## `load_core` -/

section Load

variable (J : JavaLang ℚ) (d : Document)

/-- The runnable that a call of a task's call graph names. -/
def loadRunnable (call : Text) : Option ModelRunnable := do
  let runnableName := replaceText "?type=sw.Runnable".toList [] (← nodeValue call)
  let nInstructions ← parseInt J (← firstValue (d.upperBounds runnableName))
  some (ModelRunnable.new runnableName nInstructions)

/-- The task of a process allocation. -/
def loadTask (process : Text) : Option ModelTask := do
  let taskName := replaceText "?type=sw.Task".toList [] (← nodeValue process)
  let period ← periodOfTask J d taskName
  let priority ← priorityOfTask J d taskName
  let preemptionType ← preemptionTypeOfTask d taskName
  (d.calls taskName).foldlM (fun t call => do
    let r ← loadRunnable J d call
    some (t.addRunnable r)) (ModelTask.new taskName period priority preemptionType)

/-- A label with the suffix of an access. -/
def labelEntry (label : Text) (read : Bool) : Text :=
  replaceText "?type=sw.Label".toList [] label ++ if read then "_r".toList else "_w".toList

/-- The labels of one runnable. -/
def assignLabels (t : ModelTask) (r : ModelRunnable) : Option ModelTask :=
  (d.dataOf r.name).foldlM (fun t label => do
    let label ← nodeValue label
    let access ← firstValue (d.accesses r.name label)
    some (t.addLabel (labelEntry label (access = "read".toList)))) t

/-- `load_core` -/
def loadCore (coreName : Text) : Option ModelCore := do
  let core := ModelCore.new (replaceText "?type=os.TaskScheduler".toList [] coreName)
  let core ← (d.processesOf coreName).foldlM (fun core process => do
    let t ← loadTask J d process
    some (core.addTask t)) core
  let tasks ← core.tasks.mapM fun t => t.runnables.foldlM (assignLabels d) t
  some { core with tasks }

end Load

/-! ## What the labels record -/

/-- The access of a runnable item to a label. -/
structure LabelAccess where
  runnable : Text
  label : Text
  access : Option Text
  deriving DecidableEq, Repr

namespace LabelAccess

/-- The name of the label. -/
def name (a : LabelAccess) : Text := replaceText "?type=sw.Label".toList [] a.label

/-- The item reads the label. -/
def reads (a : LabelAccess) : Bool := a.access = some "read".toList

/-- The first item of the runnable on the label reads it. -/
def firstReads (d : Document) (a : LabelAccess) : Bool :=
  firstValue (d.accesses a.runnable a.label) = some "read".toList

end LabelAccess

variable {d : Document}

/-- The accesses of the items of a runnable, in document order. -/
def Document.labelAccesses (d : Document) (runnable : Text) : List LabelAccess :=
  (d.itemsOf runnable).filterMap fun item =>
    item.data.map fun label => ⟨runnable, label, item.access⟩

/-- The accesses of the runnables of a task. -/
def ModelTask.accesses (d : Document) (t : ModelTask) : List LabelAccess :=
  t.runnables.flatMap fun r => d.labelAccesses r.name

theorem dataOf_eq (d : Document) (runnable : Text) :
    d.dataOf runnable = (d.labelAccesses runnable).map (·.label) := by
  rw [Document.dataOf, Document.labelAccesses, List.map_filterMap]
  apply List.filterMap_congr
  intro item _
  cases item.data <;> rfl

theorem runnable_of_mem {runnable : Text} {a : LabelAccess}
    (mem : a ∈ d.labelAccesses runnable) : a.runnable = runnable := by
  obtain ⟨item, -, here⟩ := List.mem_filterMap.mp mem
  rcases Option.map_eq_some_iff.mp here with ⟨label, -, rfl⟩
  rfl

theorem foldl_addLabel (entry : LabelAccess → Text) (as : List LabelAccess) (t : ModelTask) :
    as.foldl (fun t a => t.addLabel (entry a)) t =
      { t with labels := t.labels ++ as.map entry } := by
  induction as generalizing t with
  | nil => simp
  | cons a as ih =>
      rw [List.foldl_cons, ih]
      simp [ModelTask.addLabel]

/-- The loop over the items of a runnable. -/
theorem assignLabels_eq {t t' : ModelTask} {r : ModelRunnable}
    (ends : assignLabels d t r = some t') :
    t' = { t with
      labels := t.labels ++
        (d.labelAccesses r.name).map fun a => labelEntry a.label (a.firstReads d) } := by
  rw [assignLabels, dataOf_eq, List.foldlM_map] at ends
  rw [foldlM_eq_foldl (g := fun t a => t.addLabel (labelEntry a.label (a.firstReads d))) ?_ ends,
    foldl_addLabel]
  intro s a s' mem round
  obtain ⟨label, value, rest⟩ := Option.bind_eq_some_iff.mp round
  obtain ⟨access, found, last⟩ := Option.bind_eq_some_iff.mp rest
  have same : label = a.label := nodeValue_eq value
  subst same
  rw [← Option.some.inj last, LabelAccess.firstReads, runnable_of_mem mem, found]
  simp

/-- The loop over the runnables of a task. -/
theorem foldlM_assignLabels_eq {rs : List ModelRunnable} {t t' : ModelTask}
    (ends : rs.foldlM (assignLabels d) t = some t') :
    t' = { t with
      labels := t.labels ++ (rs.flatMap fun r => d.labelAccesses r.name).map fun a =>
        labelEntry a.label (a.firstReads d) } := by
  induction rs generalizing t with
  | nil =>
      cases ends
      simp
  | cons r rs ih =>
      rw [List.foldlM_cons] at ends
      obtain ⟨mid, round, rest⟩ := Option.bind_eq_some_iff.mp ends
      rw [ih rest, assignLabels_eq round]
      simp

variable {J : JavaLang ℚ}

/-- A task that has just been built has no labels. -/
theorem labels_loadTask {process : Text} {t : ModelTask} (loaded : loadTask J d process = some t) :
    t.labels = [] := by
  simp only [loadTask, Option.bind_eq_bind, Option.bind_eq_some_iff] at loaded
  obtain ⟨_, -, _, -, _, -, _, -, loop⟩ := loaded
  refine foldlM_invariant (fun t => t.labels = []) ?_ rfl loop
  intro s call s' _ empty round
  obtain ⟨r, -, added⟩ := Option.bind_eq_some_iff.mp round
  cases added
  exact empty

/-- **Run lemma.** Every task that is loaded has one entry for each access of its runnables, with
the kind of the first access to the label from the runnable. -/
theorem labels_loadCore {coreName : Text} {core : ModelCore}
    (loaded : loadCore J d coreName = some core) {t : ModelTask} (mem : t ∈ core.tasks) :
    t.labels = (t.accesses d).map fun a => labelEntry a.label (a.firstReads d) := by
  simp only [loadCore, Option.bind_eq_bind, Option.bind_eq_some_iff, Option.some.injEq] at loaded
  rcases loaded with ⟨built, loop, tasks, labelled, rfl⟩
  have unlabelled : ∀ t ∈ built.tasks, t.labels = [] := by
    refine foldlM_invariant (fun core => ∀ t ∈ core.tasks, t.labels = []) ?_ ?_ loop
    · intro core process core' _ empty round t mem
      obtain ⟨task, fresh, added⟩ := Option.bind_eq_some_iff.mp round
      cases added
      rcases List.mem_append.mp mem with earlier | last
      · exact empty t earlier
      · have none : task.labels = [] := labels_loadTask fresh
        rwa [List.mem_singleton.mp last]
    · intro t mem
      cases mem
  obtain ⟨before, within, assigned⟩ := exists_of_mem_mapM labelled mem
  have after := foldlM_assignLabels_eq assigned
  rw [unlabelled before within, List.nil_append] at after
  rw [after]
  rfl

theorem labelEntry_injective : Function.Injective fun p : Text × Bool =>
    p.1 ++ if p.2 then "_r".toList else "_w".toList := by
  rintro ⟨a, p⟩ ⟨b, q⟩ same
  have suffix := congrArg List.getLast? same
  cases p <;> cases q
  · exact congrArg (·, false) (List.append_cancel_right same)
  · simp at suffix
  · simp at suffix
  · exact congrArg (·, true) (List.append_cancel_right same)

/-- The accesses to `name` that are writes recorded as reads. -/
def ModelTask.lostWrites (d : Document) (t : ModelTask) (name : Text) : ℕ :=
  (t.accesses d).countP fun a => a.name = name ∧ a.firstReads d = true ∧ a.reads = false

/-- The accesses to `name` that are reads recorded as writes. -/
def ModelTask.lostReads (d : Document) (t : ModelTask) (name : Text) : ℕ :=
  (t.accesses d).countP fun a => a.name = name ∧ a.reads = true ∧ a.firstReads d = false

/-- Nothing is lost where each runnable accesses a label in one way only. -/
theorem lost_eq_of_agree {t : ModelTask}
    (agree : ∀ a ∈ t.accesses d, a.firstReads d = a.reads) (name : Text) :
    t.lostWrites d name = t.lostReads d name := by
  have writes : t.lostWrites d name = 0 := by
    apply List.countP_eq_zero.mpr
    intro a mem
    simp [agree a mem]
  have reads : t.lostReads d name = 0 := by
    apply List.countP_eq_zero.mpr
    intro a mem
    simp [agree a mem]
  rw [writes, reads]

/-- **Labels of a task.** The entries are one for each access, with its own kind, exactly when as
many writes are recorded as reads as the other way round, for each label. -/
theorem loadCore_labels_iff {coreName : Text} {core : ModelCore}
    (loaded : loadCore J d coreName = some core) : ∀ t ∈ core.tasks,
      t.labels.Perm ((t.accesses d).map fun a => labelEntry a.label a.reads) ↔
        ∀ name, t.lostWrites d name = t.lostReads d name := by
  intro t mem
  have entries : ∀ kind : LabelAccess → Bool,
      ((t.accesses d).map fun a => labelEntry a.label (kind a)) =
        ((t.accesses d).map fun a => (a.name, kind a)).map fun p =>
          p.1 ++ if p.2 then "_r".toList else "_w".toList := by
    intro kind
    rw [List.map_map]
    rfl
  rw [labels_loadCore loaded mem, entries, entries, List.map_perm_map_iff labelEntry_injective,
    map_label_perm_iff]
  rfl

/-! ## A runnable that reads and writes one label -/

/-- The platform on ASCII texts, with the doubles that are integers, read as rationals. -/
def rationalLang : JavaLang ℚ where
  toLowerCase := asciiLang.toLowerCase
  toUpperCase := asciiLang.toUpperCase
  digit := asciiLang.digit
  parseDouble s := (asciiLang.parseDouble s).map fun n => (n : ℚ)
  negOne := -1
  doubleText x := asciiLang.doubleText x.floor
  isEmpty := asciiLang.isEmpty
  toLowerCase_of_subset := asciiLang.toLowerCase_of_subset
  toUpperCase_nil := asciiLang.toUpperCase_nil
  toLowerCase_solidus := asciiLang.toLowerCase_solidus
  digit_solidus := asciiLang.digit_solidus
  parseDouble_nil := rfl
  isEmpty_eq := asciiLang.isEmpty_eq

/-- One task on `CORE0`, whose only runnable has the given items. -/
def oneRunnable (items : List RunnableItem) : Document where
  runnables := [⟨some "R".toList, items ++ [⟨none, none, ["1000".toList]⟩]⟩]
  tasks := [⟨some "T".toList, some "1".toList, some "preemptive".toList, some "S".toList,
    ["R?type=sw.Runnable".toList]⟩]
  stimuli := [⟨some "S".toList, [⟨some "10".toList, some "ms".toList⟩], []⟩]
  processAllocations := [⟨some "T?type=sw.Task".toList, some "C".toList⟩]

/-- The label `L` as an item refers to it. -/
def labelL (access : String) : RunnableItem :=
  ⟨some "L?type=sw.Label".toList, some access.toList, []⟩

/-- The core of `oneRunnable` with these labels on its task. -/
def oneRunnableCore (labels : List Text) : ModelCore :=
  { ModelCore.new "C".toList with
    tasks := [{ ModelTask.new "T".toList 10000 1 "preemptive".toList with
      runnables := [ModelRunnable.new "R".toList 1000]
      executionTime := 5
      labels := labels }] }

/-- With a single kind of access all entries are right. -/
theorem loadCore_labels_iff_twoReads :
    loadCore rationalLang (oneRunnable [labelL "read", labelL "read"]) "C".toList =
        some (oneRunnableCore ["L_r".toList, "L_r".toList]) ∧
      ∀ t ∈ (oneRunnableCore ["L_r".toList, "L_r".toList]).tasks, t.labels.Perm
        ((t.accesses (oneRunnable [labelL "read", labelL "read"])).map fun a =>
          labelEntry a.label a.reads) := by
  have loaded : loadCore rationalLang (oneRunnable [labelL "read", labelL "read"]) "C".toList =
      some (oneRunnableCore ["L_r".toList, "L_r".toList]) := by decide +kernel
  refine ⟨loaded, fun t mem => (loadCore_labels_iff loaded t mem).mpr (lost_eq_of_agree ?_)⟩
  rw [List.mem_singleton.mp mem]
  decide +kernel

/-- The write is recorded as a second read. -/
theorem loadCore_loses_write :
    loadCore rationalLang (oneRunnable [labelL "read", labelL "write"]) "C".toList =
        some (oneRunnableCore ["L_r".toList, "L_r".toList]) ∧
      ¬ ∀ t ∈ (oneRunnableCore ["L_r".toList, "L_r".toList]).tasks, t.labels.Perm
        ((t.accesses (oneRunnable [labelL "read", labelL "write"])).map fun a =>
          labelEntry a.label a.reads) := by
  refine ⟨by decide +kernel, fun right => ?_⟩
  have entries := right _ List.mem_cons_self
  have write : "L_w".toList ∈ (oneRunnableCore ["L_r".toList, "L_r".toList]).tasks.flatMap
      (·.labels) := by
    rw [oneRunnableCore, List.flatMap_singleton]
    exact entries.symm.subset (by decide +kernel)
  exact absurd write (by decide +kernel)

end Hipert.Amalthea
