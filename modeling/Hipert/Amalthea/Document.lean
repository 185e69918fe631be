import Hipert.Lib.JavaText
import Mathlib.Data.Rat.Defs

/-!
# AMALTHEA models

The parts of an AMALTHEA model that `main.java` queries, as lists in document order, and its XPath
queries as look-ups in them. An attribute that is not there is `none`. An exception of the source
(an empty node list, an attribute without text, a text that is no number) ends a method without a
result.
-/

namespace Hipert.Amalthea

/-! ## The document -/

/-- A `runnableItems` element; `upperBounds` are the values of its `deviation/upperBound`. -/
structure RunnableItem where
  data : Option Text := none
  access : Option Text := none
  upperBounds : List Text := []
  deriving DecidableEq, Repr

/-- A `runnables` element of the software model. -/
structure RunnableElement where
  name : Option Text
  items : List RunnableItem
  deriving DecidableEq, Repr

/-- A `tasks` element of the software model; `calls` are the runnables of its call graph. -/
structure TaskElement where
  name : Option Text
  priority : Option Text := none
  preemption : Option Text := none
  stimuli : Option Text := none
  calls : List Text := []
  deriving DecidableEq, Repr

/-- A `labels` element of the software model. -/
structure LabelElement where
  name : Option Text
  numberBits : List Text
  deriving DecidableEq, Repr

/-- A duration: the `value` and the `unit` of an element. -/
structure Duration where
  value : Option Text
  unit : Option Text
  deriving DecidableEq, Repr

/-- A `stimuli` element, with its `recurrence` and `stimulusDeviation/lowerBound` elements. -/
structure StimulusElement where
  name : Option Text
  recurrences : List Duration := []
  lowerBounds : List Duration := []
  deriving DecidableEq, Repr

/-- A `processAllocation` of the mapping model. -/
structure ProcessAllocation where
  process : Option Text
  scheduler : Option Text
  deriving DecidableEq, Repr

/-- A `coreAllocation` of the mapping model. -/
structure CoreAllocation where
  scheduler : Option Text
  core : Option Text
  deriving DecidableEq, Repr

/-- A `mapping` of the mapping model. -/
structure Mapping where
  abstractElement : Option Text
  mem : Option Text
  deriving DecidableEq, Repr

/-- A `segments/eventChain` element. -/
structure Segment where
  stimulus : Option Text
  response : Option Text
  deriving DecidableEq, Repr

/-- An `eventChains` element of the constraints model. -/
structure EventChain where
  name : Option Text
  segments : List Segment
  deriving DecidableEq, Repr

/-- An AMALTHEA model. -/
structure Document where
  runnables : List RunnableElement := []
  tasks : List TaskElement := []
  labels : List LabelElement := []
  stimuli : List StimulusElement := []
  processAllocations : List ProcessAllocation := []
  coreAllocations : List CoreAllocation := []
  mappings : List Mapping := []
  eventChains : List EventChain := []
  deriving DecidableEq, Repr

/-! ## Queries -/

/-- `getFirstChild().getNodeValue()` of an attribute node; an empty attribute has no child. -/
def nodeValue (value : Text) : Option Text := if value = [] then none else some value

/-- `item(0).getFirstChild().getNodeValue()` of a list of attribute nodes. -/
def firstValue (values : List Text) : Option Text := values.head?.bind nodeValue

theorem nodeValue_eq {value text : Text} (found : nodeValue value = some text) : text = value := by
  unfold nodeValue at found
  split at found
  · cases found
  · exact (Option.some.inj found).symm

namespace Document

variable (d : Document)

/-- The items of the runnables named `name`. -/
def itemsOf (name : Text) : List RunnableItem :=
  (d.runnables.filter (·.name = some name)).flatMap (·.items)

/-- `*/swModel/runnables[@name=…]/runnableItems/deviation/upperBound/@value` -/
def upperBounds (name : Text) : List Text := (d.itemsOf name).flatMap (·.upperBounds)

/-- `*/swModel/runnables[@name=…]/runnableItems/@data` -/
def dataOf (name : Text) : List Text := (d.itemsOf name).filterMap (·.data)

/-- `*/swModel/runnables[@name=…]/runnableItems[@data=…]/@access` -/
def accesses (name label : Text) : List Text :=
  ((d.itemsOf name).filter (·.data = some label)).filterMap (·.access)

/-- `*/swModel/runnables[runnableItems[@data=…]]/@name` -/
def runnablesOn (label : Text) : List Text :=
  (d.runnables.filter fun r => r.items.any (·.data = some label)).filterMap (·.name)

/-- The tasks named `name`. -/
def tasksNamed (name : Text) : List TaskElement := d.tasks.filter (·.name = some name)

/-- `*/swModel/tasks[@name=…]/callGraph/graphEntries/calls/@runnable` -/
def calls (name : Text) : List Text := (d.tasksNamed name).flatMap (·.calls)

/-- `*/swModel/tasks[callGraph/graphEntries/calls[@runnable=…]]/@name` -/
def tasksCalling (runnable : Text) : List Text :=
  (d.tasks.filter fun t => t.calls.contains runnable).filterMap (·.name)

/-- `*/mappingModel/processAllocation[@scheduler=…]/@process` -/
def processesOf (scheduler : Text) : List Text :=
  (d.processAllocations.filter (·.scheduler = some scheduler)).filterMap (·.process)

/-- `*/mappingModel/processAllocation[@process=…]/@scheduler` -/
def schedulersOf (process : Text) : List Text :=
  (d.processAllocations.filter (·.process = some process)).filterMap (·.scheduler)

/-- `*/mappingModel/coreAllocation[@scheduler=…]/@core` -/
def coresOf (scheduler : Text) : List Text :=
  (d.coreAllocations.filter (·.scheduler = some scheduler)).filterMap (·.core)

/-- `*/mappingModel/mapping[@abstractElement=…]/@mem` -/
def memories (label : Text) : List Text :=
  (d.mappings.filter (·.abstractElement = some label)).filterMap (·.mem)

/-- `*/swModel/labels[@name=…]/size/@numberBits` -/
def sizes (label : Text) : List Text :=
  (d.labels.filter (·.name = some label)).flatMap (·.numberBits)

/-- The `stimuli` elements named `name`. -/
def stimuliNamed (name : Text) : List StimulusElement := d.stimuli.filter (·.name = some name)

/-- The segments of the event chains named `name`. -/
def segmentsOf (name : Text) : List Segment :=
  (d.eventChains.filter (·.name = some name)).flatMap (·.segments)

/-- `*/constraintsModel/eventChains[@name=…]/segments/eventChain/@stimulus` -/
def stimuliOf (name : Text) : List Text := (d.segmentsOf name).filterMap (·.stimulus)

/-- `*/constraintsModel/eventChains[@name=…]/segments/eventChain/@response` -/
def responsesOf (name : Text) : List Text := (d.segmentsOf name).filterMap (·.response)

end Document

/-! ## The query methods of `main.java` -/

section Methods

variable {Double : Type} (J : JavaLang Double) (d : Document)

/-- `size_of_label` -/
def sizeOfLabel (labelName : Text) : Option ℤ := do
  parseInt J (← firstValue (d.sizes labelName))

/-- `core_of_task`: the core of the last allocation, or the empty text. -/
def coreOfTask (taskName : Text) : Option Text :=
  (d.schedulersOf (taskName ++ "?type=sw.Task".toList)).foldlM (fun _ scheduler => do
    let scheduledTask ← nodeValue scheduler
    firstValue (d.coresOf scheduledTask)) []

/-- `task_of_runnable` -/
def taskOfRunnable (runnableName : Text) : Option Text :=
  firstValue (d.tasksCalling (runnableName ++ "?type=sw.Runnable".toList))

/-- `priority_of_task` -/
def priorityOfTask (taskName : Text) : Option ℤ := do
  parseInt J (← firstValue ((d.tasksNamed taskName).filterMap (·.priority)))

/-- `preemptionType_of_task` -/
def preemptionTypeOfTask (taskName : Text) : Option Text :=
  firstValue ((d.tasksNamed taskName).filterMap (·.preemption))

/-- `labelAllocation` -/
def labelAllocation (label : Text) : Option Text := do
  let mem ← firstValue (d.memories (label ++ "?type=sw.Label".toList))
  some (replaceText "?type=hw.Memory".toList [] mem)

end Methods

/-- `period_of_task`, in microseconds. -/
def periodOfTask (J : JavaLang ℚ) (d : Document) (taskName : Text) : Option ℚ := do
  let stimuli ← firstValue ((d.tasksNamed taskName).filterMap (·.stimuli))
  if contains "stimuli.Sporadic".toList stimuli then do
    let name := replaceText "?type=stimuli.Sporadic".toList [] stimuli
    let bounds := (d.stimuliNamed name).flatMap (·.lowerBounds)
    let periodTime ← J.parseDouble (← firstValue (bounds.filterMap (·.value)))
    let _unitPeriod ← firstValue (bounds.filterMap (·.unit))
    -- `unitPeriod=="ms"` compares references, and a text of the document is no constant
    some periodTime
  else do
    let name := replaceText "?type=stimuli.Periodic".toList [] stimuli
    let recurrences := (d.stimuliNamed name).flatMap (·.recurrences)
    let periodTime ← J.parseDouble (← firstValue (recurrences.filterMap (·.value)))
    let unitPeriod ← firstValue (recurrences.filterMap (·.unit))
    some (if contains "ms".toList unitPeriod then periodTime * 1000 else periodTime)

end Hipert.Amalthea
