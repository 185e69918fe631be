import Hipert.Lib.XmlTag
import Hipert.Rtdot.ReadBack

/-!
# Loading the model file

The template reads the model file as XML, with an object for each tag, and where the metamodel has
an enumeration for an attribute, the text must be one of its literals. From the lines that `Parse`
writes it loads the elements of the graphs again, with the comments of the nodes as an XML reader
obtains them (`loadModel_written`).
-/

namespace Hipert.Rtdot

/-! ## The loader -/

/-- The attributes with an enumeration for a type, and its literals. -/
def enumerations : List (String × List String) :=
  [("partitioning_policy", ["GLOBAL", "PARTITIONED"]),
    ("semaphore_protocol", ["PRIO_INHERIT", "PRIO_CEILING"]),
    ("sched_alg", ["SCHED_FIFO", "SCHED_RR", "SCHED_OTHER"]), ("mem_type", ["prem", "sparse"]),
    ("mem_unit", ["B", "KB", "MB", "GB"])]

/-- The text is a literal, if the attribute has an enumeration. -/
def Attribute.Legal (a : Attribute) : Prop :=
  ∀ t ∈ enumerations, t.1 = a.key → a.text ∈ t.2.map String.toList

instance (a : Attribute) : Decidable a.Legal :=
  inferInstanceAs (Decidable (∀ t ∈ enumerations, t.1 = a.key → a.text ∈ t.2.map String.toList))

/-- The object of a tag. -/
def Element.ofTag (t : XmlTag) : Option Element :=
  let attributes := t.attributes.map fun a => Attribute.mk (String.ofList a.1) a.2
  if ∀ a ∈ attributes, a.Legal then
    some ⟨String.ofList t.name, attributes, if t.empty then "/>" else ">"⟩
  else none

/-- The object of the tag on a line. -/
def loadElement (line : Text) : Option Element := (readTag line).bind Element.ofTag

/-- The collections from here on; `own` is what has been read of an open one. -/
def loadCollections : Option (List Element) → List Text → Option (List (List Element))
  | _, [] => none
  | none, line :: lines =>
    if line = "</GraphMetamodel:DagSet>".toList ∧ lines = [] then some []
    else (loadElement line).bind fun x =>
      if x.tag = "dagCollection" ∧ x.closing = ">" then loadCollections (some [x]) lines
      else none
  | some own, line :: lines =>
    if line = "</dagCollection>".toList then (loadCollections none lines).map (own :: ·)
    else (loadElement line).bind fun x =>
      if (x.tag = "node" ∨ x.tag = "edge") ∧ x.closing = "/>" then
        loadCollections (some (own ++ [x])) lines
      else none

/-- The elements of each collection in a model file. -/
def loadModel : List Text → Option (List (List Element))
  | declaration :: opening :: lines =>
    if declaration = "<?xml version=\"1.0\" encoding=\"ASCII\"?>".toList then
      (loadElement opening).bind fun x =>
        if x.tag = "GraphMetamodel:DagSet" ∧ x.closing = ">" then loadCollections none lines
        else none
    else none
  | _ => none

/-! ## Lines of elements -/

/-- A tag with these keys, as XML has it. -/
def WellFormed (tag : String) (keys : List String) (closing : String) : Prop :=
  isName tag.toList = true ∧ (∀ key ∈ keys, isName key.toList = true) ∧ keys.Nodup ∧
    (closing = ">" ∨ closing = "/>")

instance (tag : String) (keys : List String) (closing : String) :
    Decidable (WellFormed tag keys closing) :=
  inferInstanceAs (Decidable (_ ∧ _ ∧ _ ∧ _))

/-- The element as a tag of XML. -/
def Element.toTag (x : Element) : XmlTag :=
  ⟨x.tag.toList, x.attributes.map fun a => (a.key.toList, a.text), x.closing = "/>"⟩

theorem written_toTag {x : Element} (closing : x.closing = ">" ∨ x.closing = "/>") :
    x.toTag.written = x.line := by
  have closed : (if (decide (x.closing = "/>")) = true then "/>".toList else ">".toList) =
      x.closing.toList := by
    rcases closing with eq | eq <;> rw [eq] <;> rfl
  rw [XmlTag.written, Element.toTag, Element.line, List.flatMap_map, closed, ← List.append_assoc]
  rfl

theorem ofTag_toTag {x : Element} (closing : x.closing = ">" ∨ x.closing = "/>")
    (legal : ∀ a ∈ x.attributes, a.Legal) : Element.ofTag x.toTag = some x := by
  have attributes : (x.toTag.attributes.map fun a => Attribute.mk (String.ofList a.1) a.2) =
      x.attributes := by
    rw [Element.toTag, List.map_map]
    refine (List.map_congr_left fun a _ => ?_).trans (List.map_id _)
    rw [Function.comp_apply, String.ofList_toList]
    rfl
  have closed : (if x.toTag.empty then "/>" else ">") = x.closing := by
    unfold Element.toTag
    rcases closing with eq | eq <;> rw [eq] <;> rfl
  unfold Element.ofTag
  rw [attributes, if_pos legal, closed, Element.toTag, String.ofList_toList]

/-- A well-formed element is loaded with the values that are read from its attributes. -/
theorem loadElement_line {x : Element} {as : List Attribute}
    (form : WellFormed x.tag (x.attributes.map Attribute.key) x.closing)
    (all : List.Forall₂ (fun a b => a.key = b.key ∧ attValue a.text = some b.text) x.attributes as)
    (legal : ∀ a ∈ as, a.Legal) : loadElement x.line = some { x with attributes := as } := by
  rcases form with ⟨name, keys, distinct, closing⟩
  have keyNames : ∀ a ∈ x.toTag.attributes, isName a.1 = true := by
    intro a mem
    rcases List.mem_map.mp mem with ⟨b, there, rfl⟩
    exact keys b.key (List.mem_map_of_mem there)
  have keyTexts : (x.toTag.attributes.map Prod.fst).Nodup := by
    have texts : x.toTag.attributes.map Prod.fst =
        (x.attributes.map Attribute.key).map String.toList := by
      rw [Element.toTag, List.map_map, List.map_map]
      rfl
    rw [texts]
    exact distinct.map fun _ _ => String.toList_inj.mp
  have values : List.Forall₂ (fun a v => a.1 = v.1 ∧ attValue a.2 = some v.2) x.toTag.attributes
      (as.map fun a => (a.key.toList, a.text)) := by
    apply List.forall₂_map_left_iff.mpr
    apply List.forall₂_map_right_iff.mpr
    exact all.imp fun a b both => ⟨congrArg String.toList both.1, both.2⟩
  rw [loadElement, ← written_toTag closing, readTag_written name keyNames keyTexts values]
  exact ofTag_toTag (x := { x with attributes := as }) closing legal

theorem loadElement_self {x : Element}
    (form : WellFormed x.tag (x.attributes.map Attribute.key) x.closing)
    (back : ∀ a ∈ x.attributes, attValue a.text = some a.text)
    (legal : ∀ a ∈ x.attributes, a.Legal) : loadElement x.line = some x :=
  loadElement_line form (List.forall₂_same.mpr fun a mem => ⟨rfl, back a mem⟩) legal

theorem plainText_of_legal {key : String} {text : Text}
    (known : key ∈ enumerations.map Prod.fst) (legal : Attribute.Legal ⟨key, text⟩) :
    PlainText text := by
  have literals : ∀ t ∈ enumerations, ∀ s ∈ t.2.map String.toList, PlainText s := by decide
  rcases List.mem_map.mp known with ⟨t, mem, same⟩
  exact literals t mem _ (legal t mem same)

theorem legal_of_free {key : String} (free : key ∉ enumerations.map Prod.fst) (text : Text) :
    Attribute.Legal ⟨key, text⟩ := by
  intro t mem same
  refine absurd ?_ free
  rw [← show t.1 = key from same]
  exact List.mem_map_of_mem mem

/-! ## What can be loaded -/

variable {Double : Type} {J : JavaLang Double} {d : DAG} {c : Collection Double}
  {cs : List (Collection Double)}

/-- The settings that `Parse` takes from a DAG for the whole model. -/
structure DAG.LegalSettings (d : DAG) : Prop where
  partitioning_policy :
    Attribute.Legal ⟨"partitioning_policy", nullable d.partitioning_policy⟩
  sched_policy : Attribute.Legal ⟨"sched_alg", nullable d.sched_policy⟩
  output_dir : PlainText (nullable d.output_dir)

/-- The memory type and the units are literals, and XML can hold the comments. -/
structure Collection.Loadable (c : Collection Double) : Prop where
  mem_type : Attribute.Legal ⟨"mem_type", nullable (c.dag.mem_access.map MemAccess.text)⟩
  mem_unit : ∀ n ∈ c.nodes, Attribute.Legal ⟨"mem_unit", n.mem_unit⟩
  comment : ∀ n ∈ c.nodes, attValue n.comment ≠ none

/-- The node with its comment as it is read. -/
def Node.loaded (n : Node Double) : Node Double :=
  { n with comment := (attValue n.comment).getD [] }

/-- The graph with the comments as they are read. -/
def Collection.loaded (c : Collection Double) : Collection Double :=
  { c with nodes := c.nodes.map Node.loaded }

/-- The tag around the collections. -/
def DAG.setElement (d : DAG) : Element where
  tag := "GraphMetamodel:DagSet"
  attributes :=
    [⟨"xmi:version", "2.0".toList⟩, ⟨"xmlns:xmi", "http://www.omg.org/XMI".toList⟩,
      ⟨"xmlns:GraphMetamodel", "GraphMetamodel".toList⟩, ⟨"xmi:id", "dagPSocrates".toList⟩,
      ⟨"partitioning_policy", nullable d.partitioning_policy⟩,
      ⟨"semaphore_protocol", "PRIO_CEILING".toList⟩, ⟨"sched_alg", nullable d.sched_policy⟩,
      ⟨"output_dir", nullable d.output_dir ++ "/".toList⟩]
  closing := ">"

theorem dagSetLine_eq (d : DAG) : d.dagSetLine = d.setElement.line := by
  unfold DAG.dagSetLine DAG.setElement
  simp only [line_mk, written_mk, List.flatMap_cons, List.flatMap_nil, List.append_assoc,
    List.append_nil, toList_append_toList, ← String.toList_append, String.reduceAppend]

theorem loadElement_setElement (settings : d.LegalSettings) :
    loadElement d.dagSetLine = some d.setElement := by
  have form : WellFormed "GraphMetamodel:DagSet"
      ["xmi:version", "xmlns:xmi", "xmlns:GraphMetamodel", "xmi:id", "partitioning_policy",
        "semaphore_protocol", "sched_alg", "output_dir"] ">" := by decide +kernel
  have policy := plainText_of_legal (by decide) settings.partitioning_policy
  have algorithm := plainText_of_legal (by decide) settings.sched_policy
  have directory : PlainText (nullable d.output_dir ++ "/".toList) :=
    plainText_append.mpr ⟨settings.output_dir, by decide⟩
  rw [dagSetLine_eq]
  refine loadElement_self form ?_ ?_
  · have back : ∀ a ∈ d.setElement.attributes, PlainText a.text := by
      unfold DAG.setElement
      simp only [List.forall_mem_cons]
      exact ⟨by decide, by decide, by decide, by decide, policy, by decide, algorithm, directory,
        fun a mem => nomatch mem⟩
    exact fun a mem => (attValue_iff a.text).mpr (back a mem)
  · unfold DAG.setElement
    simp only [List.forall_mem_cons]
    exact ⟨legal_of_free (by decide) _, legal_of_free (by decide) _, legal_of_free (by decide) _,
      legal_of_free (by decide) _, settings.partitioning_policy, by decide, settings.sched_policy,
      legal_of_free (by decide) _, fun a mem => nomatch mem⟩

/-! ## The elements of a graph -/

theorem loadElement_element (name : PlainText c.name)
    (mem_type : Attribute.Legal ⟨"mem_type", nullable (c.dag.mem_access.map MemAccess.text)⟩) :
    loadElement c.dag.element.line = some c.dag.element := by
  have form : WellFormed "dagCollection"
      ["xmi:id", "name", "period", "priority", "deadline", "processor", "mem_type", "step",
        "stride"] ">" := by decide +kernel
  refine loadElement_self form (element_readBack_iff.mpr name) ?_
  unfold DAG.element
  simp only [List.forall_mem_cons]
  exact ⟨legal_of_free (by decide) _, legal_of_free (by decide) _, legal_of_free (by decide) _,
    legal_of_free (by decide) _, legal_of_free (by decide) _, legal_of_free (by decide) _, mem_type,
    legal_of_free (by decide) _, legal_of_free (by decide) _, fun a mem => nomatch mem⟩

theorem loadElement_edgeElement (name : PlainText (nullable d.dagName)) {e : Edge}
    (named : e.Named) : loadElement (d.edgeElement e).line = some (d.edgeElement e) := by
  have form : WellFormed "edge" ["xmi:id", "name", "src", "trg"] "/>" := by decide +kernel
  refine loadElement_self form (edgeElement_readBack named name) ?_
  unfold DAG.edgeElement
  simp only [List.forall_mem_cons]
  exact ⟨legal_of_free (by decide) _, legal_of_free (by decide) _, legal_of_free (by decide) _,
    legal_of_free (by decide) _, fun a mem => nomatch mem⟩

theorem loadElement_nodeElement (doubles : PlainDoubles J) (name : PlainText (nullable d.dagName))
    {n : Node Double} (mem_unit : Attribute.Legal ⟨"mem_unit", n.mem_unit⟩)
    (comment : attValue n.comment ≠ none) :
    loadElement (d.nodeElement J n).line = some (d.nodeElement J n.loaded) := by
  have form : WellFormed "node"
      ["xmi:id", "name", "comment", "miet", "meet", "maet", "mem_access", "mem_unit"] "/>" := by
    decide +kernel
  have id := (attValue_iff _).mpr
    ((plainText_qualified (d := d) (plainText_intText n.nodeID)).mpr name)
  have double := fun x => (attValue_iff _).mpr (doubles x)
  have number := (attValue_iff _).mpr (plainText_intText n.mem_access)
  have unit := (attValue_iff _).mpr (plainText_of_legal (by decide) mem_unit)
  have read : attValue n.comment = some ((attValue n.comment).getD []) := by
    rcases Option.ne_none_iff_exists'.mp comment with ⟨value, there⟩
    rw [there, Option.getD_some]
  have all : List.Forall₂ (fun a b => a.key = b.key ∧ attValue a.text = some b.text)
      (d.nodeElement J n).attributes (d.nodeElement J n.loaded).attributes :=
    .cons ⟨rfl, id⟩ (.cons ⟨rfl, id⟩ (.cons ⟨rfl, read⟩ (.cons ⟨rfl, double _⟩
      (.cons ⟨rfl, double _⟩ (.cons ⟨rfl, double _⟩ (.cons ⟨rfl, number⟩ (.cons ⟨rfl, unit⟩
        .nil)))))))
  refine loadElement_line form all ?_
  simp only [List.forall_mem_cons]
  exact ⟨legal_of_free (by decide) _, legal_of_free (by decide) _, legal_of_free (by decide) _,
    legal_of_free (by decide) _, legal_of_free (by decide) _, legal_of_free (by decide) _,
    legal_of_free (by decide) _, mem_unit, fun a mem => nomatch mem⟩

/-! ## The lines of a graph -/

theorem ne_end_of_load {line : Text} {x : Element} (load : loadElement line = some x) :
    line ≠ "</GraphMetamodel:DagSet>".toList ∧ line ≠ "</dagCollection>".toList := by
  have set_end : loadElement "</GraphMetamodel:DagSet>".toList = none := by decide
  have own_end : loadElement "</dagCollection>".toList = none := by decide
  refine ⟨?_, ?_⟩
  · rintro rfl
    cases set_end.symm.trans load
  · rintro rfl
    cases own_end.symm.trans load

/-- The elements in a collection, up to its end. -/
theorem loadCollections_inside (own : List Element) (lines : List Text) {es es' : List Element}
    (all : List.Forall₂ (fun x y => loadElement x.line = some y ∧
      (y.tag = "node" ∨ y.tag = "edge") ∧ y.closing = "/>") es es') :
    loadCollections (some own) (es.map Element.line ++ "</dagCollection>".toList :: lines) =
      (loadCollections none lines).map ((own ++ es') :: ·) := by
  induction all generalizing own with
  | nil => rw [List.map_nil, List.nil_append, loadCollections, if_pos rfl, List.append_nil]
  | @cons x y es es' here _ ih =>
      rcases here with ⟨load, kind⟩
      rw [List.map_cons, List.cons_append, loadCollections, if_neg (ne_end_of_load load).2, load,
        Option.bind_some, if_pos kind, ih, List.append_assoc]
      rfl

theorem loadCollections_collection (doubles : PlainDoubles J) (name : PlainText c.name)
    (loadable : c.Loadable) (named : ∀ e ∈ c.edges, e.Named) (lines : List Text) :
    loadCollections none ((c.dag.elements J c.nodes c.edges).map Element.line ++
        "</dagCollection>".toList :: lines) =
      (loadCollections none lines).map
        (c.loaded.dag.elements J c.loaded.nodes c.loaded.edges :: ·) := by
  have load := loadElement_element name loadable.mem_type
  have nodes : List.Forall₂ (fun x y => loadElement x.line = some y ∧
      (y.tag = "node" ∨ y.tag = "edge") ∧ y.closing = "/>") (c.nodes.map (c.dag.nodeElement J))
        (c.nodes.map fun n => c.dag.nodeElement J n.loaded) := by
    apply List.forall₂_map_left_iff.mpr
    apply List.forall₂_map_right_iff.mpr
    apply List.forall₂_same.mpr
    intro n mem
    exact ⟨loadElement_nodeElement doubles name (loadable.mem_unit n mem) (loadable.comment n mem),
      .inl rfl, rfl⟩
  have edges : List.Forall₂ (fun x y => loadElement x.line = some y ∧
      (y.tag = "node" ∨ y.tag = "edge") ∧ y.closing = "/>") (c.edges.map c.dag.edgeElement)
        (c.edges.map c.dag.edgeElement) := by
    apply List.forall₂_same.mpr
    intro x mem
    rcases List.mem_map.mp mem with ⟨e, edge, rfl⟩
    exact ⟨loadElement_edgeElement name (named e edge), .inr rfl, rfl⟩
  have inside := loadCollections_inside [c.dag.element] lines (List.rel_append nodes edges)
  unfold DAG.elements
  rw [List.cons_append, List.map_cons, List.cons_append, loadCollections,
    if_neg fun both => (ne_end_of_load load).1 both.1, load, Option.bind_some, if_pos ⟨rfl, rfl⟩,
    inside, Collection.loaded, List.map_map]
  rfl

/-- **Loading.** From the lines that `Parse` writes for graphs with plain names, whose units and
memory types are literals and whose comments XML can hold, the elements of the graphs are loaded. -/
theorem loadModel_written (doubles : PlainDoubles J) (settings : d.LegalSettings)
    (names : ∀ c ∈ cs, PlainText c.name) (loadable : ∀ c ∈ cs, c.Loadable)
    (named : ∀ c ∈ cs, ∀ e ∈ c.edges, e.Named) :
    loadModel (["<?xml version=\"1.0\" encoding=\"ASCII\"?>".toList, d.dagSetLine] ++
        (cs.flatMap fun c =>
          (c.dag.elements J c.nodes c.edges).map Element.line ++ ["</dagCollection>".toList]) ++
        ["</GraphMetamodel:DagSet>".toList]) =
      some ((cs.map Collection.loaded).map fun c => c.dag.elements J c.nodes c.edges) := by
  have collections : loadCollections none ((cs.flatMap fun c =>
      (c.dag.elements J c.nodes c.edges).map Element.line ++ ["</dagCollection>".toList]) ++
        ["</GraphMetamodel:DagSet>".toList]) =
      some ((cs.map Collection.loaded).map fun c => c.dag.elements J c.nodes c.edges) := by
    induction cs with
    | nil => exact if_pos ⟨rfl, rfl⟩
    | cons c cs ih =>
        have rest := ih (fun c mem => names c (List.mem_cons_of_mem _ mem))
          (fun c mem => loadable c (List.mem_cons_of_mem _ mem))
          (fun c mem => named c (List.mem_cons_of_mem _ mem))
        rw [List.flatMap_cons, List.append_assoc, List.append_assoc, List.singleton_append,
          loadCollections_collection doubles (names c List.mem_cons_self)
            (loadable c List.mem_cons_self) (named c List.mem_cons_self), rest]
        rfl
  have opening := loadElement_setElement settings
  rw [List.append_assoc, List.cons_append, List.cons_append, List.nil_append, loadModel,
    if_pos rfl, opening, Option.bind_some, if_pos ⟨rfl, rfl⟩, collections]

end Hipert.Rtdot
