import Hipert.Rtdot.Elements
import Mathlib.Data.List.Nodup

/-!
# The names in the model file

The identifiers of the model are names of graphs, and names of graphs with an underscore and the id
of a node, or the ids of the ends of an edge. Since ids have no underscore, only the name of a graph
can be taken for another identifier, and that happens if it ends like one (`parse_names_iff`).
-/

namespace Hipert.Rtdot

variable {Double : Type}

/-! ## Sets of graphs -/

/-- What `Parse` writes for one DAG. -/
structure Collection (Double : Type) where
  dag : DAG
  nodes : List (Node Double)
  edges : List Edge

namespace Collection

/-- The name of the graph. -/
def name (c : Collection Double) : Text := nullable c.dag.dagName

/-- The name of a node. -/
def nodeName (c : Collection Double) (node : Node Double) : Text :=
  c.dag.qualified (intText node.nodeID)

/-- The name of an edge. -/
def edgeName (c : Collection Double) (edge : Edge) : Text := c.dag.qualified edge.name

/-- The edge goes from a node of the graph to one. -/
def Declares (c : Collection Double) (edge : Edge) : Prop :=
  (∃ n ∈ c.nodes, n.nodeID = edge.src) ∧ ∃ n ∈ c.nodes, n.nodeID = edge.trg

end Collection

/-- The graphs have names of their own, and each has distinct ids and distinct edges between its
nodes. -/
structure DistinctGraphs (cs : List (Collection Double)) : Prop where
  names : (cs.map Collection.name).Nodup
  ids : ∀ c ∈ cs, (c.nodes.map Node.nodeID).Nodup
  edges : ∀ c ∈ cs, (c.edges.map fun e => (e.src, e.trg)).Nodup
  declared : ∀ c ∈ cs, ∀ e ∈ c.edges, c.Declares e

/-- No graph is named like a node or an edge of a graph. -/
def NoNameTaken (cs : List (Collection Double)) : Prop :=
  ∀ c ∈ cs, ∀ c' ∈ cs, (∀ n ∈ c'.nodes, c.name ≠ c'.nodeName n) ∧
    ∀ e ∈ c'.edges, c.name ≠ c'.edgeName e

section Model

variable (J : JavaLang Double)

/-- The elements of all graphs. -/
def elements (cs : List (Collection Double)) : List Element :=
  cs.flatMap fun c => c.dag.elements J c.nodes c.edges

/-- The elements with this identifier. -/
def resolve (es : List Element) (id : Option Text) : List Element :=
  es.filter fun x => x.value "xmi:id" = id

/-- The identifiers are distinct, and what the ends of an edge refer to is the nodes of the edge in
its own graph. -/
structure UniqueNames (cs : List (Collection Double)) : Prop where
  distinct : ((elements J cs).map fun x => x.value "xmi:id").Nodup
  src : ∀ c ∈ cs, ∀ e ∈ c.edges, ∃ n ∈ c.nodes, n.nodeID = e.src ∧
    resolve (elements J cs) ((c.dag.edgeElement e).value "src") = [c.dag.nodeElement J n]
  trg : ∀ c ∈ cs, ∀ e ∈ c.edges, ∃ n ∈ c.nodes, n.nodeID = e.trg ∧
    resolve (elements J cs) ((c.dag.edgeElement e).value "trg") = [c.dag.nodeElement J n]

/-- What these rounds of `Parse` write, one collection for each reading. -/
def collections (us : List DAG) (rs : List (Reading Double)) : List (Collection Double) :=
  List.zipWith (fun u r => ⟨r.onDag u, r.nodes, r.edges⟩) us rs

end Model

/-! ## Identifiers -/

theorem value_element (d : DAG) : d.element.value "xmi:id" = some (nullable d.dagName) := by
  unfold DAG.element Element.value
  simp

theorem value_nodeElement (J : JavaLang Double) (d : DAG) (n : Node Double) :
    (d.nodeElement J n).value "xmi:id" = some (d.qualified (intText n.nodeID)) := by
  unfold DAG.nodeElement Element.value
  simp

theorem value_edgeElement (d : DAG) (e : Edge) :
    (d.edgeElement e).value "xmi:id" = some (d.qualified e.name) := by
  unfold DAG.edgeElement Element.value
  simp

theorem src_edgeElement (d : DAG) (e : Edge) :
    (d.edgeElement e).value "src" = some (d.qualified (intText e.src)) := by
  unfold DAG.edgeElement Element.value
  simp

theorem trg_edgeElement (d : DAG) (e : Edge) :
    (d.edgeElement e).value "trg" = some (d.qualified (intText e.trg)) := by
  unfold DAG.edgeElement Element.value
  simp

/-! ## Taking names apart -/

/-- The edge is named by its ends, as the readers name it. -/
def Edge.Named (e : Edge) : Prop := e.name = intText e.src ++ "_".toList ++ intText e.trg

theorem underscore_not_mem_intText (n : ℤ) : '_' ∉ intText n :=
  not_mem_intText (by decide) (by decide) n

theorem qualified_eq (d : DAG) (s : Text) : d.qualified s = nullable d.dagName ++ '_' :: s := by
  rw [DAG.qualified, List.append_assoc]
  rfl

theorem qualified_name {d : DAG} {e : Edge} (named : e.Named) :
    d.qualified e.name = d.qualified (intText e.src) ++ '_' :: intText e.trg := by
  rw [qualified_eq, qualified_eq, named, List.append_assoc, List.append_assoc]
  rfl

theorem qualified_node_inj {d d' : DAG} {n m : ℤ} :
    d.qualified (intText n) = d'.qualified (intText m) ↔
      nullable d.dagName = nullable d'.dagName ∧ n = m := by
  rw [qualified_eq, qualified_eq,
    append_char_inj (underscore_not_mem_intText n) (underscore_not_mem_intText m),
    intText_injective.eq_iff]

theorem qualified_edge_inj {d d' : DAG} {e e' : Edge} (named : e.Named) (named' : e'.Named) :
    d.qualified e.name = d'.qualified e'.name ↔
      nullable d.dagName = nullable d'.dagName ∧ (e.src, e.trg) = (e'.src, e'.trg) := by
  rw [qualified_name named, qualified_name named',
    append_char_inj (underscore_not_mem_intText _) (underscore_not_mem_intText _),
    qualified_node_inj, intText_injective.eq_iff, and_assoc, Prod.mk.injEq]

/-- A node is named like an edge only if its graph is named like the source of the edge. -/
theorem dagName_of_node_eq_edge {d d' : DAG} {n : ℤ} {e : Edge} (named : e.Named)
    (same : d.qualified (intText n) = d'.qualified e.name) :
    nullable d.dagName = d'.qualified (intText e.src) := by
  rw [qualified_name named, qualified_eq] at same
  exact ((append_char_inj (underscore_not_mem_intText _) (underscore_not_mem_intText _)).mp same).1

namespace Collection

/-- The identifiers of a graph, its nodes and its edges. -/
def identifiers (c : Collection Double) : List Text :=
  c.name :: (c.nodes.map c.nodeName ++ c.edges.map c.edgeName)

theorem mem_identifiers {c : Collection Double} {x : Text} : x ∈ c.identifiers ↔
    x = c.name ∨ (∃ n ∈ c.nodes, c.nodeName n = x) ∨ ∃ e ∈ c.edges, c.edgeName e = x := by
  rw [identifiers, List.mem_cons, List.mem_append, List.mem_map, List.mem_map]

theorem values_elements (J : JavaLang Double) (c : Collection Double) :
    (c.dag.elements J c.nodes c.edges).map (fun x => x.value "xmi:id") =
      c.identifiers.map some := by
  unfold DAG.elements identifiers
  simp only [List.cons_append, List.map_cons, List.map_append, List.map_map, Function.comp_def,
    value_element, value_nodeElement, value_edgeElement]
  rfl

variable {cs : List (Collection Double)} {c c' : Collection Double}

/-- Where no name of a graph is taken, an identifier tells the name of its graph. -/
theorem name_eq_of_mem_identifiers (graphs : DistinctGraphs cs) (free : NoNameTaken cs)
    (mem : c ∈ cs) (mem' : c' ∈ cs) (named : ∀ e ∈ c.edges, e.Named)
    (named' : ∀ e ∈ c'.edges, e.Named) {x : Text} (here : x ∈ c.identifiers)
    (there : x ∈ c'.identifiers) : c.name = c'.name := by
  -- the source of an edge is a node, so no graph has its name
  have apart : ∀ {a b : Collection Double}, a ∈ cs → b ∈ cs → (∀ e ∈ b.edges, e.Named) →
      ∀ (n : Node Double), ∀ e ∈ b.edges, a.nodeName n ≠ b.edgeName e := by
    intro a b memA memB named n e edge same
    obtain ⟨m, node, id⟩ := (graphs.declared b memB e edge).1
    apply (free a memA b memB).1 m node
    rw [nodeName, id]
    exact dagName_of_node_eq_edge (named e edge) same
  rcases mem_identifiers.mp here with rfl | ⟨n, node, rfl⟩ | ⟨e, edge, rfl⟩ <;>
    rcases mem_identifiers.mp there with same | ⟨n', node', same⟩ | ⟨e', edge', same⟩
  · exact same
  · exact absurd same.symm ((free c mem c' mem').1 n' node')
  · exact absurd same.symm ((free c mem c' mem').2 e' edge')
  · exact absurd same.symm ((free c' mem' c mem).1 n node)
  · exact (qualified_node_inj.mp same.symm).1
  · exact absurd same.symm (apart mem mem' named' n e' edge')
  · exact absurd same.symm ((free c' mem' c mem).2 e edge)
  · exact absurd same (apart mem' mem named n' e edge)
  · exact ((qualified_edge_inj (named e edge) (named' e' edge')).mp same.symm).1

theorem nodup_identifiers (graphs : DistinctGraphs cs) (free : NoNameTaken cs) (mem : c ∈ cs)
    (named : ∀ e ∈ c.edges, e.Named) : c.identifiers.Nodup := by
  have nodes : (c.nodes.map c.nodeName).Nodup := by
    have ids := (List.pairwise_map.mp (graphs.ids c mem))
    exact List.pairwise_map.mpr (ids.imp fun apart same => apart (qualified_node_inj.mp same).2)
  have edges : (c.edges.map c.edgeName).Nodup := by
    have ends := List.pairwise_map.mp (graphs.edges c mem)
    apply List.pairwise_map.mpr
    apply ends.imp_of_mem
    intro e e' edge edge' apart same
    exact apart ((qualified_edge_inj (named e edge) (named e' edge')).mp same).2
  have kinds : ∀ x ∈ c.nodes.map c.nodeName, ∀ y ∈ c.edges.map c.edgeName, x ≠ y := by
    intro x node y mem_edge same
    rcases List.mem_map.mp node with ⟨n, -, rfl⟩
    rcases List.mem_map.mp mem_edge with ⟨e, edge, rfl⟩
    obtain ⟨m, source, id⟩ := (graphs.declared c mem e edge).1
    apply (free c mem c mem).1 m source
    rw [nodeName, id]
    exact dagName_of_node_eq_edge (named e edge) same
  apply List.nodup_cons.mpr
  refine ⟨?_, List.nodup_append.mpr ⟨nodes, edges, kinds⟩⟩
  intro taken
  rcases List.mem_append.mp taken with node | edge
  · obtain ⟨n, node, same⟩ := List.mem_map.mp node
    exact (free c mem c mem).1 n node same.symm
  · obtain ⟨e, edge, same⟩ := List.mem_map.mp edge
    exact (free c mem c mem).2 e edge same.symm

end Collection

/-! ## The whole model -/

section Set

variable (J : JavaLang Double) {cs : List (Collection Double)}

theorem values_elements (cs : List (Collection Double)) :
    (elements J cs).map (fun x => x.value "xmi:id") =
      (cs.flatMap Collection.identifiers).map some := by
  rw [elements, List.map_flatMap, List.map_flatMap]
  exact List.flatMap_congr fun c _ => Collection.values_elements J c

theorem distinct_of_noNameTaken (graphs : DistinctGraphs cs) (free : NoNameTaken cs)
    (named : ∀ c ∈ cs, ∀ e ∈ c.edges, e.Named) :
    ((elements J cs).map fun x => x.value "xmi:id").Nodup := by
  have names := List.pairwise_map.mp graphs.names
  rw [values_elements]
  apply List.Nodup.map fun _ _ => Option.some.inj
  apply List.nodup_flatMap.mpr
  refine ⟨?_, ?_⟩
  · exact fun c mem => Collection.nodup_identifiers graphs free mem (named c mem)
  · apply names.imp_of_mem
    intro c c' mem mem' apart x here there
    exact apart (Collection.name_eq_of_mem_identifiers graphs free mem mem' (named c mem)
      (named c' mem') here there)

/-- An element is what its identifier refers to, if it shares it with none. -/
theorem resolve_eq {es : List Element} {x : Element}
    (distinct : (es.map fun x => x.value "xmi:id").Nodup) (mem : x ∈ es) :
    resolve es (x.value "xmi:id") = [x] := by
  have same : ∀ y ∈ es, (decide (y.value "xmi:id" = x.value "xmi:id")) = (y == x) := by
    intro y mem'
    have inj := List.inj_on_of_nodup_map distinct mem' mem
    rw [beq_eq_decide]
    exact decide_eq_decide.mpr ⟨inj, fun eq => by rw [eq]⟩
  have once : es.count x = 1 := List.count_eq_one_of_mem distinct.of_map mem
  rw [resolve, List.filter_congr same, List.filter_beq, once, List.replicate_one]

theorem mem_elements {c : Collection Double} {n : Node Double} (mem : c ∈ cs)
    (node : n ∈ c.nodes) : c.dag.nodeElement J n ∈ elements J cs := by
  apply List.mem_flatMap.mpr
  refine ⟨c, mem, ?_⟩
  apply List.mem_append_left
  exact List.mem_cons_of_mem _ (List.mem_map_of_mem node)

/-- In a set of distinct graphs, the identifiers are distinct and lead from each edge to its nodes if
and only if no graph is named like a node or an edge. -/
theorem uniqueNames_iff (graphs : DistinctGraphs cs) (named : ∀ c ∈ cs, ∀ e ∈ c.edges, e.Named) :
    UniqueNames J cs ↔ NoNameTaken cs := by
  refine ⟨?_, ?_⟩
  · intro unique c mem c' mem'
    have graph : c.dag.element ∈ elements J cs :=
      List.mem_flatMap.mpr ⟨c, mem, List.mem_append_left _ List.mem_cons_self⟩
    refine ⟨?_, ?_⟩
    · intro n node taken
      have same := List.inj_on_of_nodup_map unique.distinct graph (mem_elements J mem' node) (by
        rw [value_element, value_nodeElement]
        exact congrArg some taken)
      exact absurd (congrArg Element.tag same) (by unfold DAG.element DAG.nodeElement; simp)
    · intro e edge taken
      have there : c'.dag.edgeElement e ∈ elements J cs :=
        List.mem_flatMap.mpr ⟨c', mem', List.mem_append_right _ (List.mem_map_of_mem edge)⟩
      have same := List.inj_on_of_nodup_map unique.distinct graph there (by
        rw [value_element, value_edgeElement]
        exact congrArg some taken)
      exact absurd (congrArg Element.tag same) (by unfold DAG.element DAG.edgeElement; simp)
  · intro free
    have distinct := distinct_of_noNameTaken J graphs free named
    have ends : ∀ c ∈ cs, ∀ n ∈ c.nodes,
        resolve (elements J cs) (some (c.dag.qualified (intText n.nodeID))) =
          [c.dag.nodeElement J n] := by
      intro c mem n node
      rw [← value_nodeElement J]
      exact resolve_eq distinct (mem_elements J mem node)
    constructor
    · exact distinct
    · intro c mem e edge
      obtain ⟨n, node, id⟩ := (graphs.declared c mem e edge).1
      refine ⟨n, node, id, ?_⟩
      rw [src_edgeElement, ← id]
      exact ends c mem n node
    · intro c mem e edge
      obtain ⟨n, node, id⟩ := (graphs.declared c mem e edge).2
      refine ⟨n, node, id, ?_⟩
      rw [trg_edgeElement, ← id]
      exact ends c mem n node

end Set

/-! ## Runs of `Parse` -/

variable {J : JavaLang Double}

theorem edgeOf_named {line : Text} {e : Edge} (read : edgeOf J line = some e) : e.Named := by
  unfold edgeOf at read
  simp only [Option.bind_eq_bind, Option.bind_eq_some_iff, Option.some.injEq] at read
  rcases read with ⟨src, -, trg, -, rfl⟩
  rfl

theorem effectOf_named {nodeOf : Text → Option (Node Double)} {line : Text} {eff : Effect Double}
    (read : effectOf J nodeOf line = some eff) : ∀ e ∈ eff.edges, e.Named := by
  intro e mem
  unfold effectOf at read
  split at read
  · split at read
    · rcases Option.map_eq_some_iff.mp read with ⟨e', edge, rfl⟩
      cases List.mem_singleton.mp mem
      exact edgeOf_named edge
    · rcases Option.map_eq_some_iff.mp read with ⟨n, -, rfl⟩
      cases mem
  · split at read
    · rcases exists_settings read with ⟨_, _, _, _, rfl⟩
      cases mem
    · cases read
      cases mem

theorem Generator.lineEffect_named {line : Text} {eff : Effect Double}
    (read : lineEffect J line = some eff) : ∀ e ∈ eff.edges, e.Named := by
  unfold lineEffect at read
  split at read
  · cases read
    exact fun e mem => nomatch mem
  · exact effectOf_named read

theorem Reads.named {file : Option (List Text)} {r : Reading Double}
    (reads : Reads (Generator.lineEffect J) file r) : ∀ e ∈ r.edges, e.Named := by
  cases reads with
  | missing => exact fun e mem => nomatch mem
  | @lines _ _ rest effs _ all =>
      have effects : ∀ e ∈ effs.flatMap Effect.edges, e.Named := by
        induction all with
        | nil => exact fun e mem => nomatch mem
        | cons read _ ih =>
            intro e mem
            rw [List.flatMap_cons] at mem
            rcases List.mem_append.mp mem with mem | mem
            · exact Generator.lineEffect_named read e mem
            · exact ih e mem
      exact effects

theorem collections_named {disk : Text → Option (List Text)} {us ds : List DAG}
    {rs : List (Reading Double)} (all : List.Forall₂ (DAG.Reads J disk) ds rs) :
    ∀ c ∈ collections us rs, ∀ e ∈ c.edges, e.Named := by
  induction all generalizing us with
  | nil =>
      intro c mem
      rw [collections, List.zipWith_nil_right] at mem
      cases mem
  | cons reads _ ih =>
      cases us with
      | nil => exact fun c mem => nomatch mem
      | cons u us =>
          intro c mem
          rcases List.mem_cons.mp mem with rfl | mem
          · exact reads.2.named
          · exact ih c mem

/-- The lines between the first two and the last are those of the collections. -/
theorem flatten_written (us : List DAG) (rs : List (Reading Double)) :
    (List.zipWith (DAG.written J) us rs).flatten = (collections us rs).flatMap fun c =>
      (c.dag.elements J c.nodes c.edges).map Element.line ++ ["</dagCollection>".toList] := by
  have written : DAG.written J = fun (u : DAG) (r : Reading Double) =>
      ((r.onDag u).elements J r.nodes r.edges).map Element.line ++ ["</dagCollection>".toList] :=
    funext fun u => funext fun r => collection_eq _ _ _
  rw [collections, List.flatMap_def, List.map_zipWith, written]

/-- **Names.** In a set of distinct graphs, each with distinct ids and distinct edges between its
nodes, the model that a call writes has distinct identifiers, which lead from each edge to the nodes
of its own graph, if and only if no graph is named like a node or an edge. -/
theorem parse_names_iff {disk : Text → Option (List Text)} {dags : List DAG}
    {rs : List (Reading Double)} {g g' : Generator Double}
    (returned : Generator.Parse J disk dags g = .ok ⟨⟩ g')
    (reads : List.Forall₂ (DAG.Reads J disk) dags rs)
    (graphs : DistinctGraphs (collections (g.dags ++ dags) rs)) :
    (∃ d, dags.head? = some d ∧
      g'.model = ["<?xml version=\"1.0\" encoding=\"ASCII\"?>".toList, d.dagSetLine] ++
        ((collections (g.dags ++ dags) rs).flatMap fun c =>
          (c.dag.elements J c.nodes c.edges).map Element.line ++ ["</dagCollection>".toList]) ++
        ["</GraphMetamodel:DagSet>".toList]) ∧
      (UniqueNames J (collections (g.dags ++ dags) rs) ↔
        NoNameTaken (collections (g.dags ++ dags) rs)) := by
  obtain ⟨d, rs', head, reads', model⟩ := Generator.model_of_parse returned
  cases DAG.Reads.unique reads reads'
  refine ⟨⟨d, head, ?_⟩, uniqueNames_iff J graphs (collections_named reads)⟩
  rw [model, modelFile, flatten_written]

/-! ## Two graphs -/

deriving instance DecidableEq for Effect

instance (c : Collection Double) (e : Edge) : Decidable (c.Declares e) :=
  inferInstanceAs (Decidable ((∃ n ∈ c.nodes, n.nodeID = e.src) ∧ ∃ n ∈ c.nodes, n.nodeID = e.trg))

/-- The graph `G` with an edge from 1 to 2, and another with the node 2. -/
def pairDisk (second : String) (path : Text) : Option (List Text) :=
  if path = "first".toList then
    some ["digraph G \x7b".toList, "1 []".toList, "2 []".toList, "1 -> 2".toList, "\x7d".toList]
  else some [("digraph " ++ second ++ " \x7b").toList, "2 []".toList, "\x7d".toList]

/-- The array with both. -/
def pairDags : List DAG :=
  [DAG.new "first".toList .prem 1 0 [] [] [], DAG.new "second".toList .prem 1 0 [] [] []]

/-- A node without attributes. -/
def bareNode (nodeID : ℤ) : Node ℤ :=
  ⟨nodeID, -1, -1, -1, 0, "B".toList, intText nodeID ++ " []".toList⟩

/-- What is read off the files. -/
def pairReadings (second : String) : List (Reading ℤ) :=
  [some ("G".toList, [.node (bareNode 1), .node (bareNode 2), .edge ⟨"1_2".toList, 1, 2⟩, .nothing]),
    some (second.toList, [.node (bareNode 2), .nothing])]

/-- The `XMLGenerator` after the call. -/
def pairGenerator (second : String) : Generator ℤ :=
  Exec.leaves (Generator.Parse asciiLang (pairDisk second) pairDags) {}

theorem parse_names_iff_pair :
    (∃ d, pairDags.head? = some d ∧
      (pairGenerator "H").model =
        ["<?xml version=\"1.0\" encoding=\"ASCII\"?>".toList, d.dagSetLine] ++
          ((collections pairDags (pairReadings "H")).flatMap fun c =>
            (c.dag.elements asciiLang c.nodes c.edges).map Element.line ++
              ["</dagCollection>".toList]) ++ ["</GraphMetamodel:DagSet>".toList]) ∧
      (UniqueNames asciiLang (collections pairDags (pairReadings "H")) ↔
        NoNameTaken (collections pairDags (pairReadings "H"))) :=
  parse_names_iff (g := {}) (Exec.ok_leaves (by decide +kernel))
    (.cons ⟨rfl, .lines (by decide +kernel) (.cons (by decide +kernel) (.cons (by decide +kernel)
      (.cons (by decide +kernel) (.cons (by decide +kernel) .nil))))⟩
      (.cons ⟨rfl, .lines (by decide +kernel) (.cons (by decide +kernel)
        (.cons (by decide +kernel) .nil))⟩ .nil))
    ⟨by decide +kernel, by decide +kernel, by decide +kernel, by decide +kernel⟩

/-- A graph `G_1` beside `G` has the name of a node, and its node 2 has that of an edge. -/
theorem pair_clash :
    Generator.Parse asciiLang (pairDisk "G_1") pairDags {} = .ok ⟨⟩ (pairGenerator "G_1") ∧
      List.Forall₂ (DAG.Reads asciiLang (pairDisk "G_1")) pairDags (pairReadings "G_1") ∧
      DistinctGraphs (collections pairDags (pairReadings "G_1")) ∧
      ¬ UniqueNames asciiLang (collections pairDags (pairReadings "G_1")) := by
  refine ⟨Exec.ok_leaves (by decide +kernel), ?_, ?_, ?_⟩
  · exact .cons ⟨rfl, .lines (by decide +kernel) (.cons (by decide +kernel)
      (.cons (by decide +kernel) (.cons (by decide +kernel) (.cons (by decide +kernel) .nil))))⟩
      (.cons ⟨rfl, .lines (by decide +kernel) (.cons (by decide +kernel)
        (.cons (by decide +kernel) .nil))⟩ .nil)
  · exact ⟨by decide +kernel, by decide +kernel, by decide +kernel, by decide +kernel⟩
  · intro unique
    have same : ¬ ((elements asciiLang (collections pairDags (pairReadings "G_1"))).map
        fun x => x.value "xmi:id").Nodup := by decide +kernel
    exact same unique.distinct

end Hipert.Rtdot
