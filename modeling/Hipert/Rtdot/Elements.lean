import Hipert.Rtdot.History

/-!
# The elements of the model file

`writeModelFile` concatenates an XML element for the DAG, one for each node and one for each edge.
Here each is a tag with its attributes, and the lines that are written are the texts of these
elements (`collection_eq`).
-/

namespace Hipert.Rtdot

variable {Double : Type} (J : JavaLang Double)

/-! ## Elements -/

/-- An attribute of an element, with the text between its quotes. -/
structure Attribute where
  key : String
  text : Text
  deriving DecidableEq, Repr

/-- A tag, its attributes and the end of the tag. -/
structure Element where
  tag : String
  attributes : List Attribute
  closing : String
  deriving DecidableEq, Repr

/-- The attribute as it is written. -/
def Attribute.written (a : Attribute) : Text :=
  " ".toList ++ a.key.toList ++ "=\"".toList ++ a.text ++ "\"".toList

/-- The line of an element. -/
def Element.line (e : Element) : Text :=
  "<".toList ++ e.tag.toList ++ e.attributes.flatMap Attribute.written ++ e.closing.toList

/-- The text of the attribute with this key, if there is one. -/
def Element.value (e : Element) (key : String) : Option Text :=
  (e.attributes.find? fun a => a.key = key).map Attribute.text

/-- The name that the model gives to a node or an edge of a DAG. -/
def DAG.qualified (d : DAG) (name : Text) : Text := nullable d.dagName ++ "_".toList ++ name

/-- The element that a DAG opens. -/
def DAG.element (d : DAG) : Element where
  tag := "dagCollection"
  attributes :=
    [⟨"xmi:id", nullable d.dagName⟩, ⟨"name", nullable d.dagName⟩, ⟨"period", intText d.period⟩,
      ⟨"priority", intText d.priority⟩, ⟨"deadline", intText d.deadline⟩,
      ⟨"processor", intText d.map⟩, ⟨"mem_type", nullable (d.mem_access.map MemAccess.text)⟩,
      ⟨"step", intText d.step⟩, ⟨"stride", intText d.stride⟩]
  closing := ">"

/-- The element of a node. -/
def DAG.nodeElement (d : DAG) (node : Node Double) : Element where
  tag := "node"
  attributes :=
    [⟨"xmi:id", d.qualified (intText node.nodeID)⟩, ⟨"name", d.qualified (intText node.nodeID)⟩,
      ⟨"comment", node.comment⟩, ⟨"miet", J.doubleText node.iwcet⟩,
      ⟨"meet", J.doubleText node.wcet⟩, ⟨"maet", J.doubleText node.maet⟩,
      ⟨"mem_access", intText node.mem_access⟩, ⟨"mem_unit", node.mem_unit⟩]
  closing := "/>"

/-- The element of an edge. -/
def DAG.edgeElement (d : DAG) (edge : Edge) : Element where
  tag := "edge"
  attributes :=
    [⟨"xmi:id", d.qualified edge.name⟩, ⟨"name", d.qualified edge.name⟩,
      ⟨"src", d.qualified (intText edge.src)⟩, ⟨"trg", d.qualified (intText edge.trg)⟩]
  closing := "/>"

/-- The elements of a DAG with these nodes and edges. -/
def DAG.elements (d : DAG) (nodes : List (Node Double)) (edges : List Edge) : List Element :=
  d.element :: nodes.map (d.nodeElement J) ++ edges.map d.edgeElement

/-! ## Their lines -/

theorem line_mk (tag closing : String) (attributes : List Attribute) :
    (Element.mk tag attributes closing).line =
      "<".toList ++ tag.toList ++ attributes.flatMap Attribute.written ++ closing.toList := rfl

theorem written_mk (key : String) (text : Text) :
    (Attribute.mk key text).written =
      " ".toList ++ key.toList ++ "=\"".toList ++ text ++ "\"".toList := rfl

theorem openingLine_eq (d : DAG) : d.openingLine = d.element.line := by
  unfold DAG.openingLine DAG.element
  simp only [line_mk, written_mk, List.flatMap_cons, List.flatMap_nil, List.append_assoc,
    List.append_nil, toList_append_toList, ← String.toList_append, String.reduceAppend]

theorem nodeText_eq (d : DAG) (node : Node Double) :
    d.nodeText J node = (d.nodeElement J node).line := by
  unfold DAG.nodeText DAG.nodeElement DAG.qualified
  simp only [line_mk, written_mk, List.flatMap_cons, List.flatMap_nil, List.append_assoc,
    List.append_nil, toList_append_toList, ← String.toList_append, String.reduceAppend]

theorem edgeText_eq (d : DAG) (edge : Edge) : d.edgeText edge = (d.edgeElement edge).line := by
  unfold DAG.edgeText DAG.edgeElement DAG.qualified
  simp only [line_mk, written_mk, List.flatMap_cons, List.flatMap_nil, List.append_assoc,
    List.append_nil, toList_append_toList, ← String.toList_append, String.reduceAppend]

variable {J}

/-- What is written for a DAG: the lines of its elements, and the end of the collection. -/
theorem collection_eq (d : DAG) (nodes : List (Node Double)) (edges : List Edge) :
    d.collection J nodes edges =
      (d.elements J nodes edges).map Element.line ++ ["</dagCollection>".toList] := by
  have node : d.nodeText J = fun node => (d.nodeElement J node).line := funext (nodeText_eq J d)
  have edge : d.edgeText = fun edge => (d.edgeElement edge).line := funext (edgeText_eq d)
  unfold DAG.collection DAG.elements
  rw [openingLine_eq, node, edge, List.map_append, List.map_cons, List.map_map, List.map_map]
  rfl

end Hipert.Rtdot
