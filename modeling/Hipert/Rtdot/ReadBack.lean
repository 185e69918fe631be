import Hipert.Rtdot.Names
import Hipert.Lib.Parallel
import Hipert.Lib.XmlAttribute

/-!
# Reading the model back

`writeModelFile` escapes the quotes of a comment and nothing else. So an XML reader obtains from the
attributes what the objects hold if and only if the name of the graph and the units are free of
markup and quotes, and the node lines are free of markup (`writeModelFile_readBack_iff`).
-/

namespace Hipert.Rtdot

open Generator

variable {Double : Type}

/-! ## What is read back -/

/-- A line off which `XMLGenerator` reads a node. -/
def takesNode (line : Text) : Bool :=
  !(trim line).isEmpty && !isComment line && isGraphLine line && !contains "->".toList (trim line)

section Condition

variable (J : JavaLang Double)

/-- From the element of a node, the comment is read as the line in lower case, and the other
attributes as they are held. -/
structure NodeReadBack (d : DAG) (line : Text) (node : Node Double) : Prop where
  comment : ∀ a ∈ (d.nodeElement J node).attributes, a.key = "comment" →
    attValue a.text = some (J.toLowerCase (trim line))
  others : ∀ a ∈ (d.nodeElement J node).attributes, a.key ≠ "comment" → attValue a.text = some a.text

/-- All attributes are read back, those of the nodes beside the lines of the nodes. -/
structure ReadBack (lines : List Text) (d : DAG) (nodes : List (Node Double)) (edges : List Edge) :
    Prop where
  dag : ∀ a ∈ d.element.attributes, attValue a.text = some a.text
  nodes : List.Forall₂ (NodeReadBack J d) (lines.filter takesNode) nodes
  edges : ∀ e ∈ edges, ∀ a ∈ (d.edgeElement e).attributes, attValue a.text = some a.text

/-- A text without markup, quotes, controls and characters beyond ASCII. -/
def PlainText (s : Text) : Prop := ∀ c ∈ s, isAttChar c = true

instance (s : Text) : Decidable (PlainText s) := List.decidableBAll (fun c => isAttChar c = true) s

/-- The line of a node has no markup, and its unit no quotes either. -/
structure PlainLine (line : Text) : Prop where
  comment : ∀ c ∈ J.toLowerCase (trim line), isAttChar c = true ∨ c = '\"'
  mem_unit : PlainText (memUnit J (unquoted J (trim line)))

/-- The name in the first line is plain, and the lines of the nodes are. -/
structure PlainFile (lines : List Text) : Prop where
  name : ∀ first ∈ lines.head?, ∀ name ∈ (split " ".toList first)[1]?, PlainText name
  nodes : ∀ line ∈ lines.tail, takesNode line = true → PlainLine J line

/-- The text of a double has digits, letters, signs and points only. -/
def PlainDoubles : Prop := ∀ x, PlainText (J.doubleText x)

end Condition

/-! ## Plain texts -/

theorem plainText_append {s t : Text} : PlainText (s ++ t) ↔ PlainText s ∧ PlainText t :=
  List.forall_mem_append

theorem plainText_intText (n : ℤ) : PlainText (intText n) := by
  have digits : ∀ m, PlainText (Nat.toDigits 10 m) := fun m c mem =>
    isAttChar_of_isDigit (digit_of_mem_toDigits mem)
  cases n with
  | ofNat n => exact digits n
  | negSucc n => exact List.forall_mem_cons.mpr ⟨by decide, digits (n + 1)⟩

theorem plainText_memAccess (mem_access : Option MemAccess) :
    PlainText (nullable (mem_access.map MemAccess.text)) := by
  cases mem_access with
  | none => decide
  | some mem_access => cases mem_access <;> decide

theorem plainText_qualified {d : DAG} {s : Text} (plain : PlainText s) :
    PlainText (d.qualified s) ↔ PlainText (nullable d.dagName) := by
  have underscore : PlainText "_".toList := by decide
  rw [DAG.qualified, plainText_append, plainText_append]
  exact ⟨fun both => both.1.1, fun name => ⟨⟨name, underscore⟩, plain⟩⟩

/-! ## The elements -/

variable {J : JavaLang Double} {d : DAG}

theorem element_readBack_iff :
    (∀ a ∈ d.element.attributes, attValue a.text = some a.text) ↔
      PlainText (nullable d.dagName) := by
  have number := fun n : ℤ => (attValue_iff _).mpr (plainText_intText n)
  have memory := (attValue_iff _).mpr (plainText_memAccess d.mem_access)
  have name := attValue_iff (nullable d.dagName)
  unfold DAG.element
  simp only [List.forall_mem_cons, number, memory, name]
  refine ⟨?_, ?_⟩
  · exact fun all => all.1
  · exact fun plain => ⟨plain, plain, trivial, trivial, trivial, trivial, trivial, trivial, trivial,
      fun a mem => nomatch mem⟩

theorem edgeElement_readBack {e : Edge} (named : e.Named) (plain : PlainText (nullable d.dagName)) :
    ∀ a ∈ (d.edgeElement e).attributes, attValue a.text = some a.text := by
  have ends := fun n : ℤ => (attValue_iff _).mpr
    ((plainText_qualified (d := d) (plainText_intText n)).mpr plain)
  have underscore : PlainText "_".toList := by decide
  have name : PlainText e.name := by
    rw [named, plainText_append, plainText_append]
    exact ⟨⟨plainText_intText _, underscore⟩, plainText_intText _⟩
  have own := (attValue_iff _).mpr ((plainText_qualified name).mpr plain)
  unfold DAG.edgeElement
  simp only [List.forall_mem_cons, ends, own, true_and]
  exact fun a mem => nomatch mem

theorem nodeOf_fields {line : Text} {n : Node Double} (read : Generator.nodeOf J line = some n) :
    n.comment = replaceChar '\"' "&quot;".toList (J.toLowerCase line) ∧
      n.mem_unit = memUnit J (unquoted J line) := by
  unfold Generator.nodeOf at read
  simp only [Option.bind_eq_bind, Option.bind_eq_some_iff, Option.some.injEq] at read
  rcases read with ⟨nodeID, -, rfl⟩
  exact ⟨rfl, rfl⟩

theorem nodeElement_readBack_iff (doubles : PlainDoubles J) {line : Text} {n : Node Double}
    (read : Generator.nodeOf J (trim line) = some n) :
    NodeReadBack J d line n ↔ PlainText (nullable d.dagName) ∧ PlainLine J line := by
  obtain ⟨escaped, unit⟩ := nodeOf_fields read
  have id := (attValue_iff (d.qualified (intText n.nodeID))).trans
    (plainText_qualified (plainText_intText n.nodeID))
  have double := fun x => (attValue_iff _).mpr (doubles x)
  have number := (attValue_iff _).mpr (plainText_intText n.mem_access)
  have comment : (∀ a ∈ (d.nodeElement J n).attributes, a.key = "comment" →
      attValue a.text = some (J.toLowerCase (trim line))) ↔
        ∀ c ∈ J.toLowerCase (trim line), isAttChar c = true ∨ c = '\"' := by
    rw [← attValue_replaceChar_iff, ← escaped]
    unfold DAG.nodeElement
    simp
  have others : (∀ a ∈ (d.nodeElement J n).attributes, a.key ≠ "comment" →
      attValue a.text = some a.text) ↔ PlainText (nullable d.dagName) ∧
        PlainText (memUnit J (unquoted J (trim line))) := by
    have own : attValue (memUnit J (unquoted J (trim line))) =
        some (memUnit J (unquoted J (trim line))) ↔
          PlainText (memUnit J (unquoted J (trim line))) := attValue_iff _
    unfold DAG.nodeElement
    simp [id, double, number, unit, own]
  refine ⟨?_, ?_⟩
  · intro given
    rcases given with ⟨first, second⟩
    exact ⟨(others.mp second).1, comment.mp first, (others.mp second).2⟩
  · intro given
    rcases given with ⟨name, plain⟩
    exact ⟨comment.mpr plain.comment, others.mpr ⟨name, plain.mem_unit⟩⟩

/-! ## The lines of the nodes -/

theorem effect_of_takesNode {line : Text} {eff : Effect Double}
    (read : Generator.lineEffect J line = some eff) :
    if takesNode line then ∃ n, Generator.nodeOf J (trim line) = some n ∧ eff.nodes = [n]
    else eff.nodes = [] := by
  have takes : takesNode line = (!(J.isEmpty line || isComment line) && isGraphLine line &&
      !contains "->".toList (trim line)) := by rw [takesNode, J.isEmpty_eq, Bool.not_or]
  unfold Generator.lineEffect effectOf at read
  rw [takes]
  split at read
  · rename_i skip
    cases read
    rw [skip]
    rfl
  rename_i kept
  split at read
  · rename_i graph
    split at read
    · rename_i arrow
      rcases Option.map_eq_some_iff.mp read with ⟨e, -, rfl⟩
      rw [arrow, Bool.not_true, Bool.and_false]
      rfl
    · rename_i node
      rcases Option.map_eq_some_iff.mp read with ⟨n, found, rfl⟩
      rw [Bool.eq_false_iff.mpr kept, graph, Bool.eq_false_iff.mpr node]
      exact ⟨n, found, rfl⟩
  · rename_i other
    have none : eff.nodes = [] := by
      split at read
      · rcases exists_settings read with ⟨_, _, _, _, rfl⟩
        rfl
      · cases read
        rfl
    rw [if_neg (by simp [other])]
    exact none

/-- The nodes are read off the lines that take one. -/
theorem forall₂_nodeOf {lines : List Text} {effs : List (Effect Double)}
    (all : List.Forall₂ (fun line eff => Generator.lineEffect J line = some eff) lines effs) :
    List.Forall₂ (fun line n => Generator.nodeOf J (trim line) = some n) (lines.filter takesNode)
      (effs.flatMap Effect.nodes) := by
  induction all with
  | nil => exact .nil
  | @cons line eff lines effs read _ ih =>
      have effect := effect_of_takesNode read
      rw [List.filter_cons, List.flatMap_cons]
      split at effect
      · obtain ⟨n, node, nodes⟩ := effect
        rw [if_pos ‹_›, nodes]
        exact .cons node ih
      · rw [if_neg ‹_›, effect]
        exact ih

theorem readBack_iff (doubles : PlainDoubles J) {lines : List Text} {effs : List (Effect Double)}
    {edges : List Edge} (named : ∀ e ∈ edges, e.Named)
    (all : List.Forall₂ (fun line eff => Generator.lineEffect J line = some eff) lines effs) :
    ReadBack J lines d (effs.flatMap Effect.nodes) edges ↔ PlainText (nullable d.dagName) ∧
      ∀ line ∈ lines, takesNode line = true → PlainLine J line := by
  have nodes := forall₂_iff_of_forall₂ (R := NodeReadBack J d) (forall₂_nodeOf all)
    fun line n read => nodeElement_readBack_iff doubles read
  refine ⟨?_, ?_⟩
  · intro back
    refine ⟨element_readBack_iff.mp back.dag, fun line mem takes => ?_⟩
    exact (nodes.mp back.nodes line (List.mem_filter.mpr ⟨mem, takes⟩)).2
  · intro given
    rcases given with ⟨name, plain⟩
    constructor
    · exact element_readBack_iff.mpr name
    · apply nodes.mpr
      intro line mem
      exact ⟨name, plain line (List.mem_filter.mp mem).1 (List.mem_filter.mp mem).2⟩
    · exact fun e mem => edgeElement_readBack (named e mem) name

/-! ## Runs of the reader -/

theorem lt_length_of_readDOTFile {disk : Text → Option (List Text)} {filename : Text}
    {lines : List Text} {index : ℕ} {g g' : Generator Double} (file : disk filename = some lines)
    (returned : readDOTFile J disk filename index g = .ok ⟨⟩ g') : index < g.dags.length := by
  unfold readDOTFile at returned
  rw [file] at returned
  simp only [Exec.bind_ok, Exec.orThrow_ok] at returned
  rcases returned with ⟨first, _, ⟨-, rfl⟩, name, _, ⟨-, rfl⟩, _, mid, stored, -⟩
  unfold Generator.setDag at stored
  simp only [Exec.bind_ok, Generator.getDag_ok] at stored
  obtain ⟨d, _, ⟨here, -⟩, -⟩ := stored
  exact (List.getElem?_eq_some_iff.mp here).1

/-- **Reading back.** Of a file that is read into an `XMLGenerator` with cleared lists and written
out, an XML reader obtains from every attribute what the objects hold, and from the comment of each
node its line in lower case, if and only if the file is plain. -/
theorem writeModelFile_readBack_iff (doubles : PlainDoubles J) {disk : Text → Option (List Text)}
    {filename : Text} {lines : List Text} {index : ℕ} {g g' : Generator Double}
    (file : disk filename = some lines) (no_nodes : g.nodes = []) (no_edges : g.edges = [])
    (returned : readDOTFile J disk filename index g = .ok ⟨⟩ g') :
    ∃ d g'', g'.dags[index]? = some d ∧ writeModelFile J index g' = .ok ⟨⟩ g'' ∧
      g''.model = g'.model ++ ((d.elements J g'.nodes g'.edges).map Element.line ++
        ["</dagCollection>".toList]) ∧
      (ReadBack J lines.tail d g'.nodes g'.edges ↔ PlainFile J lines) := by
  have valid := lt_length_of_readDOTFile file returned
  rcases (readDOTFile_ok valid).mp returned with ⟨r, reads, rfl⟩
  rw [file] at reads
  cases reads with
  | @lines first name rest effs second all =>
      have here : (g.dags.modify index fun d => Reading.onDag d (some (name, effs)))[index]? =
          some (Reading.onDag g.dags[index] (some (name, effs))) := by
        rw [List.getElem?_modify_eq, List.getElem?_eq_getElem valid]
        rfl
      refine ⟨_, _, here, writeModelFile_ok.mpr ⟨_, here, rfl⟩, by rw [← collection_eq], ?_⟩
      have dagName : nullable (Reading.onDag g.dags[index] (some (name, effs))).dagName = name := by
        rw [Reading.onDag, dagName_foldl]
        rfl
      have named : ∀ e ∈ Reading.edges (some (name, effs)), e.Named :=
        Reads.named (.lines second all)
      have back :=
        readBack_iff (d := Reading.onDag g.dags[index] (some (name, effs))) doubles named all
      rw [dagName] at back
      rw [no_nodes, no_edges, List.nil_append, List.nil_append]
      refine back.trans ⟨fun plain => ⟨?_, plain.2⟩, fun plain => ⟨?_, plain.nodes⟩⟩
      · intro first' head name' here'
        cases head
        cases second.symm.trans here'
        exact plain.1
      · exact plain.name first rfl name second

/-! ## A graph with a label -/

/-- A DOT file with one node, which has a label. -/
def labelLines (name label : String) : List Text :=
  [("digraph " ++ name ++ " \x7b").toList, ("1 [label=\"" ++ label ++ "\"]").toList,
    "\x7d".toList]

/-- An `XMLGenerator` with a DAG, as `Parse` has it before it reads the file. -/
def oneDag : Generator ℤ := { dags := [DAG.new [] .prem 1 0 [] [] []] }

/-- The `XMLGenerator` after reading the file. -/
def labelRead (name label : String) : Generator ℤ :=
  Exec.leaves (readDOTFile asciiLang (fun _ => some (labelLines name label)) [] 0) oneDag

theorem plainDoubles_asciiLang : PlainDoubles asciiLang := by
  intro n
  apply plainText_append.mpr
  exact ⟨plainText_intText n, by decide⟩

theorem writeModelFile_readBack_iff_label :
    ∃ d g'', (labelRead "G" "start").dags[0]? = some d ∧
      writeModelFile asciiLang 0 (labelRead "G" "start") = .ok ⟨⟩ g'' ∧
      g''.model = (labelRead "G" "start").model ++
        ((d.elements asciiLang (labelRead "G" "start").nodes (labelRead "G" "start").edges).map
          Element.line ++ ["</dagCollection>".toList]) ∧
      (ReadBack asciiLang (labelLines "G" "start").tail d (labelRead "G" "start").nodes
          (labelRead "G" "start").edges ↔ PlainFile asciiLang (labelLines "G" "start")) :=
  writeModelFile_readBack_iff plainDoubles_asciiLang rfl rfl rfl
    (Exec.ok_leaves (by decide +kernel))

/-- A quoted name ends the attribute that it stands in. -/
theorem quoted_not_readBack :
    readDOTFile asciiLang (fun _ => some (labelLines "\"G\"" "start")) [] 0 oneDag =
        .ok ⟨⟩ (labelRead "\"G\"" "start") ∧
      ∀ d, (labelRead "\"G\"" "start").dags[0]? = some d →
        ¬ ReadBack asciiLang (labelLines "\"G\"" "start").tail d (labelRead "\"G\"" "start").nodes
          (labelRead "\"G\"" "start").edges := by
  refine ⟨Exec.ok_leaves (by decide +kernel), fun d here back => ?_⟩
  have name : ((labelRead "\"G\"" "start").dags[0]?.map fun d => nullable d.dagName) =
      some "\"G\"".toList := by decide +kernel
  rw [here, Option.map_some] at name
  have plain := element_readBack_iff.mp back.dag
  rw [Option.some.inj name] at plain
  exact absurd (plain '\"' (by decide)) (by decide)

end Hipert.Rtdot
