import Hipert.Lib.Exec
import Hipert.Lib.JavaText

/-!
# The DOT readers and the model writer

A transcription of `XMLModifier.readDOTFile` and of `XMLGenerator.readDOTFile`, `writeModelFile` and
`Parse`. A file is the list of its lines, and `disk` gives the DOT files; a missing one is the
`IOException` that both readers catch. Each call of `Parse` gets `DAG` objects of its own, as
`packDags` makes them, so the list `dags` holds values. `model` is what the last call has written to
the model file, line by line, where writing succeeds. Console output is left out, and so are the
fields `filename` and `dagMemAccess`, which nothing here reads.
-/

namespace Hipert.Rtdot

/-! ## Data -/

/-- An `Edge`; of its end nodes only the ids are set. -/
structure Edge where
  name : Text
  src : ℤ
  trg : ℤ
  deriving DecidableEq, Repr

/-- A `Node`. -/
structure Node (Double : Type) where
  nodeID : ℤ
  iwcet : Double
  wcet : Double
  maet : Double
  mem_access : ℤ
  mem_unit : Text
  comment : Text
  deriving DecidableEq, Repr

/-- `DAG.mem_access` -/
inductive MemAccess where
  | prem
  | sparse
  deriving DecidableEq, Repr

/-- A `DAG`; the fields of a new one are zero or `null`. -/
structure DAG where
  output_dir : Option Text := none
  sched_policy : Option Text := none
  partitioning_policy : Option Text := none
  period : ℤ := 0
  priority : ℤ := 0
  deadline : ℤ := 0
  map : ℤ := 0
  stride : ℤ := 0
  step : ℤ := 0
  comment : Option Text := none
  dagName : Option Text := none
  dagPath : Option Text := none
  mem_access : Option MemAccess := none
  deriving DecidableEq, Repr

/-- The constructor of a sparse DAG; that of a PREM one leaves the stride zero. -/
def DAG.new (dagPath : Text) (mem_access : MemAccess) (step stride : ℤ)
    (sched_policy partitioning_policy output_dir : Text) : DAG :=
  { dagPath := some dagPath, mem_access := some mem_access, step := step, stride := stride,
    sched_policy := some sched_policy, partitioning_policy := some partitioning_policy,
    output_dir := some output_dir }

/-- The fields of an `XMLModifier`. -/
structure Modifier (Double : Type) where
  edges : List Edge := []
  nodes : List (Node Double) := []
  dag : DAG := {}
  deriving DecidableEq, Repr

/-- The fields of an `XMLGenerator`, and the model file. -/
structure Generator (Double : Type) where
  edges : List Edge := []
  nodes : List (Node Double) := []
  dags : List DAG := []
  model : List Text := []
  deriving DecidableEq, Repr

variable {Double σ : Type} (J : JavaLang Double)

/-! ## What the readers do alike -/

/-- `line.split(key)[1].split(",")[0]`, if both positions exist. -/
def valueAfter (key line : Text) : Option Text :=
  (split key line)[1]?.bind fun rest => (split ",".toList rest)[0]?

/-- `Integer.parseInt` of an array element. -/
def readInt (text : Option Text) : Exec σ ℤ := do
  orThrow .numberFormat (parseInt J (← orThrow .indexOutOfBounds text))

/-- `Double.parseDouble` of an array element. -/
def readDouble (text : Option Text) : Exec σ Double := do
  orThrow .numberFormat (J.parseDouble (← orThrow .indexOutOfBounds text))

/-- Neither a line of task 0 nor one with a brace: an edge or a node. -/
def isGraphLine (line : Text) : Bool := !startsWith "\t0".toList line && !contains "\x7d".toList line

/-- The edge of a line with an arrow. -/
def edgeLine (line : Text) : Exec σ Edge := do
  let src ← readInt J ((split "->".toList line)[0]?.map trim)
  let dst ← readInt J ((split "->".toList line)[1]?.map trim)
  pure ⟨intText src ++ "_".toList ++ intText dst, src, dst⟩

/-- The settings of a period line, stored one after the other. -/
def periodLine (update : (DAG → DAG) → Exec σ PUnit) (line : Text) : Exec σ PUnit := do
  let period ← readInt J (valueAfter "period=".toList line)
  update fun d => { d with period := period }
  let priority ← readInt J (valueAfter "priority=".toList line)
  update fun d => { d with priority := priority }
  let deadline ← readInt J (valueAfter "deadline=".toList line)
  update fun d => { d with deadline := deadline }
  let map ← readInt J ((valueAfter "map=".toList line).map (replaceChar ']' []))
  update fun d => { d with map := map }

/-- A line of a node without its quotes. -/
def unquoted (line : Text) : Text := replaceChar '\"' [] (J.toLowerCase line)

/-- The comment of a node: its line with the quotes escaped. -/
def commentOf (line : Text) : Text := replaceChar '\"' "&quot;".toList (J.toLowerCase line)

/-! ## `XMLModifier` -/

namespace Modifier

/-- `dag.setX(…)` -/
def setDag (f : DAG → DAG) : Exec (Modifier Double) PUnit :=
  modify fun m => { m with dag := f m.dag }

/-- The node of a line that is none of the others. -/
def nodeLine (line : Text) : Exec (Modifier Double) PUnit := do
  setDag fun d => { d with comment := some (commentOf J line) }
  let comment := commentOf J line
  let line := unquoted J line
  let miet ← readDouble J (valueAfter "miet=".toList line)
  let meet ← readDouble J (valueAfter "meet=".toList line)
  let maet ← readDouble J (valueAfter "maet=".toList line)
  let mem_acess ← readInt J (valueAfter "mem=".toList line)
  let unit ← orThrow .indexOutOfBounds (valueAfter "unit=".toList line)
  let mem_unit := J.toUpperCase (replaceChar ']' [] unit)
  let nodeId ← readInt J (split " ".toList line)[0]?
  modify fun m =>
    { m with nodes := m.nodes ++ [⟨nodeId, miet, meet, maet, mem_acess, mem_unit, comment⟩] }

/-- `processString` -/
def processString (line : Text) : Exec (Modifier Double) PUnit :=
  if isGraphLine line then
    if contains "->".toList (trim line) then do
      let edge ← edgeLine J (trim line)
      modify fun m => { m with edges := m.edges ++ [edge] }
    else nodeLine J (trim line)
  else if contains "period".toList line then periodLine J setDag line
  else pure ⟨⟩

/-- `readDOTFile` -/
def readDOTFile (disk : Text → Option (List Text)) (filename : Text) :
    Exec (Modifier Double) PUnit :=
  match disk filename with
  | none => pure ⟨⟩
  | some lines => do
    let line ← orThrow .nullPointer lines.head?
    let dagName ← orThrow .indexOutOfBounds (split " ".toList line)[1]?
    setDag fun d => { d with dagName := some dagName }
    lines.tail.forM (processString J)

end Modifier

/-! ## `XMLGenerator` -/

namespace Generator

/-- `dags.get(index)` -/
def getDag (index : ℕ) : Exec (Generator Double) DAG := do
  orThrow .indexOutOfBounds (← get).dags[index]?

/-- `dags.get(index).setX(…)` -/
def setDag (index : ℕ) (f : DAG → DAG) : Exec (Generator Double) PUnit := do
  let d ← getDag index
  modify fun g => { g with dags := g.dags.set index (f d) }

/-- `MaybeGetVal` -/
def maybeGetVal (line attrName : Text) : Text :=
  let parts := split (attrName ++ "=".toList) (J.toLowerCase line)
  if parts.length < 2 then []
  else
    let parts := split ",".toList (parts.getD 1 [])
    if parts.length < 2 then [] else parts.getD 0 []

/-- `GetValDouble` -/
def getValDouble (line attrName : Text) (defaultValue : Double) : Double :=
  (J.parseDouble (maybeGetVal J line attrName)).getD defaultValue

/-- `GetValInt` -/
def getValInt (line attrName : Text) (defaultValue : ℤ) : ℤ :=
  (parseInt J (maybeGetVal J line attrName)).getD defaultValue

/-- The unit of a node line, `B` if it has none. -/
def memUnit (line : Text) : Text :=
  let mem_unit := J.toUpperCase (replaceChar ']' [] (maybeGetVal J line "unit".toList))
  if J.isEmpty mem_unit then "B".toList else mem_unit

/-- The node of a line that is none of the others. -/
def nodeLine (line : Text) (index : ℕ) : Exec (Generator Double) PUnit := do
  setDag index fun d => { d with comment := some (commentOf J line) }
  let comment := commentOf J line
  let line := unquoted J line
  let miet := getValDouble J line "miet".toList J.negOne
  let meet := getValDouble J line "meet".toList J.negOne
  let maet := getValDouble J line "maet".toList J.negOne
  let mem_acess := getValInt J line "mem".toList 0
  let mem_unit := memUnit J line
  let nodeId ← readInt J (split " ".toList line)[0]?
  modify fun g =>
    { g with nodes := g.nodes ++ [⟨nodeId, miet, meet, maet, mem_acess, mem_unit, comment⟩] }

/-- `processString` -/
def processString (line : Text) (index : ℕ) : Exec (Generator Double) PUnit :=
  if J.isEmpty line then pure ⟨⟩
  else if startsWith "//".toList (trim line) then pure ⟨⟩
  else if isGraphLine line then
    if contains "->".toList (trim line) then do
      let edge ← edgeLine J (trim line)
      modify fun g => { g with edges := g.edges ++ [edge] }
    else nodeLine J (trim line) index
  else if contains "period".toList line then periodLine J (setDag index) line
  else pure ⟨⟩

/-- `readDOTFile` -/
def readDOTFile (disk : Text → Option (List Text)) (filename : Text) (index : ℕ) :
    Exec (Generator Double) PUnit :=
  match disk filename with
  | none => pure ⟨⟩
  | some lines => do
    let line ← orThrow .nullPointer lines.head?
    let dagName ← orThrow .indexOutOfBounds (split " ".toList line)[1]?
    setDag index fun d => { d with dagName := some dagName }
    lines.tail.forM fun line => processString J line index

end Generator

/-! ## The model file -/

/-- A string in a concatenation: `null` is spelled out. -/
def nullable (s : Option Text) : Text := s.getD "null".toList

/-- The string that `mem_access` holds. -/
def MemAccess.text : MemAccess → Text
  | .prem => "prem".toList
  | .sparse => "sparse".toList

/-- The opening line of a DAG. -/
def DAG.openingLine (d : DAG) : Text :=
  "<dagCollection xmi:id=\"".toList ++ nullable d.dagName ++ "\" name=\"".toList ++
    nullable d.dagName ++ "\" period=\"".toList ++ intText d.period ++ "\" priority=\"".toList ++
    intText d.priority ++ "\" deadline=\"".toList ++ intText d.deadline ++
    "\" processor=\"".toList ++ intText d.map ++ "\" mem_type=\"".toList ++
    nullable (d.mem_access.map MemAccess.text) ++ "\" step=\"".toList ++ intText d.step ++
    "\" stride=\"".toList ++ intText d.stride ++ "\">".toList

/-- The line of a node. -/
def DAG.nodeText (d : DAG) (node : Node Double) : Text :=
  let nodeID := nullable d.dagName ++ "_".toList ++ intText node.nodeID
  "<node xmi:id=\"".toList ++ nodeID ++ "\" name=\"".toList ++ nodeID ++ "\" ".toList ++
    "comment=\"".toList ++ node.comment ++ "\" miet=\"".toList ++ J.doubleText node.iwcet ++
    "\" meet=\"".toList ++ J.doubleText node.wcet ++ "\" ".toList ++ "maet=\"".toList ++
    J.doubleText node.maet ++ "\" mem_access=\"".toList ++ intText node.mem_access ++
    "\" mem_unit=\"".toList ++ node.mem_unit ++ "\"/>".toList

/-- The line of an edge. -/
def DAG.edgeText (d : DAG) (edge : Edge) : Text :=
  let edgeName := nullable d.dagName ++ "_".toList ++ edge.name
  let dagSrc := nullable d.dagName ++ "_".toList ++ intText edge.src
  let dagTrg := nullable d.dagName ++ "_".toList ++ intText edge.trg
  "<edge xmi:id=\"".toList ++ edgeName ++ "\" name=\"".toList ++ edgeName ++ "\" src=\"".toList ++
    dagSrc ++ "\" trg=\"".toList ++ dagTrg ++ "\"/>".toList

/-- The opening line of the model file. -/
def DAG.dagSetLine (d : DAG) : Text :=
  ("<GraphMetamodel:DagSet xmi:version=\"2.0\" xmlns:xmi=\"http://www.omg.org/XMI\" ".toList ++
    "xmlns:GraphMetamodel=\"GraphMetamodel\" ".toList) ++
    "xmi:id=\"dagPSocrates\" partitioning_policy=\"".toList ++ nullable d.partitioning_policy ++
    "\" semaphore_protocol=\"PRIO_CEILING\" ".toList ++ "sched_alg=\"".toList ++
    nullable d.sched_policy ++ "\" output_dir=\"".toList ++ nullable d.output_dir ++ "/".toList ++
    "\">".toList

namespace Generator

/-- `writer.println` of each line. -/
def println (lines : List Text) : Exec (Generator Double) PUnit :=
  modify fun g => { g with model := g.model ++ lines }

/-- `createModelFile`: the file starts anew. -/
def createModelFile (d : DAG) : Exec (Generator Double) PUnit := do
  modify fun g => { g with model := [] }
  println ["<?xml version=\"1.0\" encoding=\"ASCII\"?>".toList, d.dagSetLine]

/-- `writeModelFile` -/
def writeModelFile (index : ℕ) : Exec (Generator Double) PUnit := do
  let d ← getDag index
  let g ← get
  println [d.openingLine]
  println (g.nodes.map (d.nodeText J))
  println (g.edges.map d.edgeText)
  println ["</dagCollection>".toList]

/-- `closeModelFile` -/
def closeModelFile : Exec (Generator Double) PUnit := println ["</GraphMetamodel:DagSet>".toList]

/-- The round of `Parse` for one DAG. -/
def parseDag (disk : Text → Option (List Text)) (dag : DAG) (index : ℕ) :
    Exec (Generator Double) PUnit := do
  modify fun g => { g with nodes := [], edges := [] }
  modify fun g => { g with dags := g.dags ++ [dag] }
  let path ← orThrow .nullPointer dag.dagPath
  readDOTFile J disk path index
  writeModelFile J index

/-- `Parse` -/
def Parse (disk : Text → Option (List Text)) (dagsParam : List DAG) :
    Exec (Generator Double) PUnit := do
  createModelFile (← orThrow .indexOutOfBounds dagsParam.head?)
  dagsParam.zipIdx.forM fun (dag, index) => parseDag J disk dag index
  closeModelFile

end Generator

end Hipert.Rtdot
