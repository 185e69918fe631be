import Hipert.Gen.Periods
import Hipert.Lib.OptionLoops
import Hipert.Rtdot.ModelFile
import Mathlib.Logic.Equiv.List

/-!
# From the DOT files to the program

The template takes the nodes and edges of a DAG from the model file, where an edge refers to its
ends by their identifiers. If `Parse` has written the model from distinct graphs, none of them named
like a node or an edge, the template finds for each DOT file the nodes and edges of that file
(`ofElements_eq`), and so the program runs each file's nodes in the order of its edges
(`program_respects_files`). What is emitted for a graph without edges is no program, since the lock of
the start is declared behind the edges and a comma.
-/

namespace Hipert.Gen

open Rtdot

/-! ## The template -/

/-- `node.name` for the nodes of a DAG with these elements. -/
def nodeNames (own : List Element) : List Text :=
  (own.filter fun x => x.tag = "node").filterMap fun x => x.value "name"

/-- The object that a reference leads to. -/
def referred (all : List Element) (ref : Option Text) : Option Element :=
  match resolve all ref with
  | [x] => some x
  | _ => none

/-- `edge.src.name` and `edge.trg.name`. -/
def edgeNames (all : List Element) (x : Element) : Option (Edge Text) := do
  let src ← (← referred all (x.value "src")).value "name"
  let trg ← (← referred all (x.value "trg")).value "name"
  pure ⟨src, trg⟩

/-- The branch on `dag.mem_type`. -/
def memTypeOf (own : List Element) : MemType :=
  if own.head?.bind (fun x => x.value "mem_type") = some "prem".toList then .prem else .sparse

/-- A letter, a digit or an underscore. -/
def isWordChar (c : Char) : Bool := c.isAlphanum || c == '_'

/-- The form of an identifier of C. -/
def isIdentifier : Text → Bool
  | [] => false
  | c :: s => (c.isAlpha || c == '_') && s.all isWordChar

/-- The names that the template declares for a DAG: its own, and those of its nodes and edges. -/
def declaredNames (own : List Element) : List Text := own.filterMap fun x => x.value "name"

/-- What the template reads of a DAG with the elements `own` in a model with the elements `all`. All
references lead to one object, the names of the nodes are distinct, the DAG has an edge, and the
names that are declared have the form of an identifier. -/
def Dag.ofElements (all own : List Element) (chunks : Text → ℕ) : Option (Dag Text) := do
  let edges ← (own.filter fun x => x.tag = "edge").mapM (edgeNames all)
  -- without edges the dependencies would be declared as `hgr_dependency_t ,lock_start_G;`
  if fits : (nodeNames own).Nodup ∧ edges ≠ [] ∧
      ∀ name ∈ declaredNames own, isIdentifier name = true then
    some ⟨nodeNames own, edges, memTypeOf own, chunks, fits.1⟩
  else none

/-! ## The graph of a DOT file -/

variable {Double : Type} {J : JavaLang Double} {cs : List (Collection Double)}
  {c : Collection Double} {chunks : Text → ℕ}

/-- An edge between the names of nodes. -/
def namedEdge (c : Collection Double) (e : Rtdot.Edge) : Edge Text :=
  ⟨c.dag.qualified (intText e.src), c.dag.qualified (intText e.trg)⟩

/-- The DAG with the nodes and edges of a DOT file. -/
def Dag.ofGraph (c : Collection Double) (distinct : (c.nodes.map c.nodeName).Nodup)
    (chunks : Text → ℕ) : Dag Text where
  node := c.nodes.map c.nodeName
  edge := c.edges.map (namedEdge c)
  memType := if c.dag.mem_access = some .prem then .prem else .sparse
  chunks := chunks
  node_nodup := distinct

theorem nodup_nodeNames (graphs : DistinctGraphs cs) (mem : c ∈ cs) :
    (c.nodes.map c.nodeName).Nodup := by
  have ids := List.pairwise_map.mp (graphs.ids c mem)
  exact List.pairwise_map.mpr (ids.imp fun apart same => apart (qualified_node_inj.mp same).2)

/-- The elements of a graph with one tag. -/
theorem filter_elements (c : Collection Double) :
    (c.dag.elements J c.nodes c.edges).filter (fun x => x.tag = "node") =
        c.nodes.map (c.dag.nodeElement J) ∧
      (c.dag.elements J c.nodes c.edges).filter (fun x => x.tag = "edge") =
        c.edges.map c.dag.edgeElement := by
  have nodes : ∀ x ∈ c.nodes.map (c.dag.nodeElement J), x.tag = "node" := by
    intro x mem
    rcases List.mem_map.mp mem with ⟨n, -, rfl⟩
    rfl
  have edges : ∀ x ∈ c.edges.map c.dag.edgeElement, x.tag = "edge" := by
    intro x mem
    rcases List.mem_map.mp mem with ⟨e, -, rfl⟩
    rfl
  unfold DAG.elements
  refine ⟨?_, ?_⟩
  · rw [List.cons_append, List.filter_cons_of_neg (by simp [DAG.element]), List.filter_append,
      List.filter_eq_self.mpr (by simpa using nodes),
      List.filter_eq_nil_iff.mpr fun x mem => by simp [edges x mem], List.append_nil]
  · have none : (c.nodes.map (c.dag.nodeElement J)).filter (fun x => x.tag = "edge") = [] :=
      List.filter_eq_nil_iff.mpr fun x mem => by simp [nodes x mem]
    rw [List.cons_append, List.filter_cons_of_neg (by simp [DAG.element]), List.filter_append, none,
      List.filter_eq_self.mpr (by simpa using edges), List.nil_append]

theorem name_nodeElement (d : DAG) (n : Node Double) :
    (d.nodeElement J n).value "name" = some (d.qualified (intText n.nodeID)) := by
  unfold DAG.nodeElement Element.value
  simp

theorem declaredNames_elements (c : Collection Double) :
    declaredNames (c.dag.elements J c.nodes c.edges) = c.identifiers := by
  have node : (fun x : Element => x.value "name") ∘ c.dag.nodeElement J = some ∘ c.nodeName :=
    funext fun n => name_nodeElement c.dag n
  have edge : (fun x : Element => x.value "name") ∘ c.dag.edgeElement = some ∘ c.edgeName := by
    funext e
    unfold DAG.edgeElement Element.value
    simp [Collection.edgeName]
  have graph : (fun x : Element => x.value "name") c.dag.element = some c.name := by
    unfold DAG.element Element.value
    simp [Collection.name]
  unfold declaredNames DAG.elements Collection.identifiers
  rw [List.cons_append, List.filterMap_cons_some (f := fun x : Element => x.value "name") graph,
    List.filterMap_append, List.filterMap_map, List.filterMap_map, node, edge,
    List.filterMap_eq_map, List.filterMap_eq_map]

theorem nodeNames_elements (c : Collection Double) :
    nodeNames (c.dag.elements J c.nodes c.edges) = c.nodes.map c.nodeName := by
  have names : (fun x : Element => x.value "name") ∘ c.dag.nodeElement J =
      some ∘ c.nodeName := funext fun n => name_nodeElement c.dag n
  rw [nodeNames, (filter_elements c).1, List.filterMap_map, names, List.filterMap_eq_map]

/-- The references of an edge lead to the nodes of its own graph. -/
theorem edgeNames_element (unique : UniqueNames J cs) (mem : c ∈ cs) {e : Rtdot.Edge}
    (edge : e ∈ c.edges) :
    edgeNames (elements J cs) (c.dag.edgeElement e) = some (namedEdge c e) := by
  obtain ⟨n, -, id, src⟩ := unique.src c mem e edge
  obtain ⟨m, -, id', trg⟩ := unique.trg c mem e edge
  rw [edgeNames, referred, referred, src, trg]
  simp only [Option.bind_eq_bind, Option.bind_some, name_nodeElement, id, id']
  rfl

theorem memTypeOf_elements (c : Collection Double) :
    memTypeOf (c.dag.elements J c.nodes c.edges) =
      if c.dag.mem_access = some .prem then .prem else .sparse := by
  have read : c.dag.element.value "mem_type" =
      some (nullable (c.dag.mem_access.map MemAccess.text)) := by
    unfold DAG.element Element.value
    simp
  have prem : (some (nullable (c.dag.mem_access.map MemAccess.text)) = some "prem".toList) ↔
      c.dag.mem_access = some .prem := by
    cases c.dag.mem_access with
    | none => simp [nullable]
    | some kind => cases kind <;> simp [nullable, MemAccess.text]
  unfold memTypeOf DAG.elements
  rw [List.cons_append, List.head?_cons, Option.bind_some, read]
  simp only [prem]

/-- **The template.** In a model with unique names the template finds for each graph the nodes and
edges of its DOT file. -/
theorem ofElements_eq (graphs : DistinctGraphs cs) (unique : UniqueNames J cs) (mem : c ∈ cs)
    (edge : c.edges ≠ []) (identifiers : ∀ name ∈ c.identifiers, isIdentifier name = true) :
    Dag.ofElements (elements J cs) (c.dag.elements J c.nodes c.edges) chunks =
      some (.ofGraph c (nodup_nodeNames graphs mem) chunks) := by
  have edges : (c.edges.map c.dag.edgeElement).mapM (edgeNames (elements J cs)) =
      some (c.edges.map (namedEdge c)) := by
    rw [List.mapM_map]
    exact mapM_eq_some fun e edge => edgeNames_element unique mem edge
  have fits : (c.nodes.map c.nodeName).Nodup ∧ c.edges.map (namedEdge c) ≠ [] ∧
      ∀ name ∈ c.identifiers, isIdentifier name = true :=
    ⟨nodup_nodeNames graphs mem, fun none => edge (List.map_eq_nil_iff.mp none), identifiers⟩
  unfold Dag.ofElements
  simp only [(filter_elements c).2, edges, Option.bind_eq_bind, Option.bind_some,
    nodeNames_elements, memTypeOf_elements, declaredNames_elements, dif_pos fits]
  rfl

/-! ## Names of C -/

theorem isAttChar_of_isWordChar {x : Char} (word : isWordChar x = true) : isAttChar x = true := by
  have kinds : ((x.isAlpha || x.isDigit) || x == '_') = true := word
  rw [Bool.or_eq_true, Bool.or_eq_true, beq_iff_eq] at kinds
  rcases kinds with (letter | digit) | underscore
  · exact isAttChar_of_isAlpha letter
  · exact isAttChar_of_isDigit digit
  · rw [underscore]
    decide

theorem isIdentifier_iff {s : Text} : isIdentifier s = true ↔
    ∃ c t, s = c :: t ∧ (c.isAlpha || c == '_') = true ∧ ∀ d ∈ t, isWordChar d = true := by
  cases s with
  | nil =>
      refine ⟨fun none => absurd none (by decide), ?_⟩
      rintro ⟨_, _, none, -⟩
      cases none
  | cons c t =>
      rw [isIdentifier, Bool.and_eq_true, List.all_eq_true]
      refine ⟨fun given => ⟨c, t, rfl, given.1, given.2⟩, ?_⟩
      rintro ⟨_, _, ⟨⟩, first, rest⟩
      exact ⟨first, rest⟩

theorem plainText_of_isIdentifier {s : Text} (identifier : isIdentifier s = true) :
    PlainText s := by
  rcases isIdentifier_iff.mp identifier with ⟨c, t, rfl, first, rest⟩
  have word : isWordChar c = true := by
    rw [Bool.or_eq_true] at first
    exact Bool.or_eq_true_iff.mpr (first.imp_left fun letter => Bool.or_eq_true_iff.mpr (.inl letter))
  exact List.forall_mem_cons.mpr
    ⟨isAttChar_of_isWordChar word, fun d mem => isAttChar_of_isWordChar (rest d mem)⟩

theorem isIdentifier_append {s t : Text} (identifier : isIdentifier s = true)
    (word : ∀ c ∈ t, isWordChar c = true) : isIdentifier (s ++ t) = true := by
  rcases isIdentifier_iff.mp identifier with ⟨c, s, rfl, first, rest⟩
  exact isIdentifier_iff.mpr
    ⟨c, s ++ t, rfl, first, List.forall_mem_append.mpr ⟨rest, word⟩⟩

theorem isWordChar_intText {n : ℤ} (nonneg : 0 ≤ n) : ∀ c ∈ intText n, isWordChar c = true := by
  obtain ⟨m, rfl⟩ := Int.eq_ofNat_of_zero_le nonneg
  intro c mem
  have digit := digit_of_mem_toDigits mem
  exact Bool.or_eq_true_iff.mpr (.inl (Bool.or_eq_true_iff.mpr (.inr digit)))

/-- The graph can be loaded, it has an edge, and its names become identifiers. -/
structure Usable (c : Collection Double) : Prop where
  loadable : c.Loadable
  name : isIdentifier c.name = true
  ids : ∀ n ∈ c.nodes, 0 ≤ n.nodeID
  edge : c.edges ≠ []

theorem Usable.identifiers (usable : Usable c) (declared : ∀ e ∈ c.edges, c.Declares e)
    (named : ∀ e ∈ c.edges, e.Named) : ∀ name ∈ c.identifiers, isIdentifier name = true := by
  have underscore : ∀ d ∈ "_".toList, isWordChar d = true := by
    intro d mem
    cases List.mem_singleton.mp mem
    rfl
  have qualified : ∀ t : Text, (∀ d ∈ t, isWordChar d = true) →
      isIdentifier (c.dag.qualified t) = true := fun t word =>
    isIdentifier_append (isIdentifier_append usable.name underscore) word
  intro name mem
  rcases Collection.mem_identifiers.mp mem with rfl | ⟨n, node, rfl⟩ | ⟨e, edge, rfl⟩
  · exact usable.name
  · exact qualified _ (isWordChar_intText (usable.ids n node))
  · obtain ⟨⟨n, node, src⟩, m, node', trg⟩ := declared e edge
    have first := isWordChar_intText (usable.ids n node)
    have second := isWordChar_intText (usable.ids m node')
    rw [src] at first
    rw [trg] at second
    apply qualified
    rw [named e edge]
    exact List.forall_mem_append.mpr ⟨List.forall_mem_append.mpr ⟨first, underscore⟩, second⟩

/-! ## Orders and cycles -/

/-- The DOT file has an edge between these ids. -/
def idAdj (c : Collection Double) (a b : ℤ) : Prop := ∃ e ∈ c.edges, e.src = a ∧ e.trg = b

/-- The name of the node with this id. -/
def idName (c : Collection Double) (id : ℤ) : Text := c.dag.qualified (intText id)

theorem idName_inj {a b : ℤ} : idName c a = idName c b ↔ a = b :=
  qualified_node_inj.trans (and_iff_right rfl)

variable {distinct : (c.nodes.map c.nodeName).Nodup}

theorem isGraph_ofGraph (graphs : DistinctGraphs cs) (mem : c ∈ cs) :
    (Dag.ofGraph c distinct chunks).IsGraph where
  distinct := by
    have ends := List.pairwise_map.mp (graphs.edges c mem)
    refine List.pairwise_map.mpr (ends.imp fun apart same => apart ?_)
    have src := idName_inj.mp (congrArg Edge.src same)
    have trg := idName_inj.mp (congrArg Edge.trg same)
    rw [src, trg]
  ends := by
    intro x here
    rcases List.mem_map.mp here with ⟨e, edge, rfl⟩
    obtain ⟨⟨n, node, id⟩, m, node', id'⟩ := graphs.declared c mem e edge
    refine ⟨List.mem_map.mpr ⟨n, node, ?_⟩, List.mem_map.mpr ⟨m, node', ?_⟩⟩
    · rw [Collection.nodeName, id]
      rfl
    · rw [Collection.nodeName, id']
      rfl

/-- The edges of the DAG join the names of what the edges of the file join. -/
theorem adj_ofGraph {x y : Text} : (Dag.ofGraph c distinct chunks).Adj x y ↔
    ∃ a b, x = idName c a ∧ y = idName c b ∧ idAdj c a b := by
  refine ⟨?_, ?_⟩
  · intro adj
    rcases adj with ⟨x, here, rfl, rfl⟩
    rcases List.mem_map.mp here with ⟨e, edge, rfl⟩
    exact ⟨e.src, e.trg, rfl, rfl, e, edge, rfl, rfl⟩
  · intro given
    rcases given with ⟨a, b, rfl, rfl, e, edge, rfl, rfl⟩
    exact ⟨namedEdge c e, List.mem_map_of_mem edge, rfl, rfl⟩

theorem transGen_ofGraph {x y : Text}
    (path : Relation.TransGen (Dag.ofGraph c distinct chunks).Adj x y) :
    ∃ a b, x = idName c a ∧ y = idName c b ∧ Relation.TransGen (idAdj c) a b := by
  induction path with
  | single adj =>
      obtain ⟨a, b, src, trg, adj⟩ := adj_ofGraph.mp adj
      exact ⟨a, b, src, trg, .single adj⟩
  | tail _ adj ih =>
      obtain ⟨a, b, src, mid, path⟩ := ih
      obtain ⟨b', d, mid', trg, adj⟩ := adj_ofGraph.mp adj
      have same := idName_inj.mp (mid.symm.trans mid')
      subst same
      exact ⟨a, d, src, trg, path.tail adj⟩

theorem acyclic_ofGraph (acyclic : ∀ a, ¬ Relation.TransGen (idAdj c) a a) :
    (Dag.ofGraph c distinct chunks).Acyclic := by
  intro x cycle
  obtain ⟨a, b, src, trg, path⟩ := transGen_ofGraph cycle
  have same := idName_inj.mp (src.symm.trans trg)
  subst same
  exact acyclic a path

theorem cyclic_ofGraph {a b : ℤ} (cycle : Relation.TransGen (idAdj c) a a)
    (path : Relation.ReflTransGen (idAdj c) a b) :
    (Dag.ofGraph c distinct chunks).Cyclic (idName c b) := by
  have lift : ∀ a b, idAdj c a b →
      (Dag.ofGraph c distinct chunks).Adj (idName c a) (idName c b) :=
    fun a b adj => adj_ofGraph.mpr ⟨a, b, rfl, rfl, adj⟩
  exact ⟨idName c a, cycle.lift (idName c) lift, path.lift (idName c) lift⟩

/-! ## The loaded graphs -/

theorem distinctGraphs_loaded (graphs : DistinctGraphs cs) :
    DistinctGraphs (cs.map Collection.loaded) where
  names := by
    rw [List.map_map]
    exact graphs.names
  ids := by
    intro c mem
    rcases List.mem_map.mp mem with ⟨c, there, rfl⟩
    rw [Collection.loaded, List.map_map]
    exact graphs.ids c there
  edges := by
    intro c mem
    rcases List.mem_map.mp mem with ⟨c, there, rfl⟩
    exact graphs.edges c there
  declared := by
    intro c mem e edge
    rcases List.mem_map.mp mem with ⟨c, there, rfl⟩
    obtain ⟨⟨n, node, src⟩, m, node', trg⟩ := graphs.declared c there e edge
    exact ⟨⟨n.loaded, List.mem_map_of_mem node, src⟩, m.loaded, List.mem_map_of_mem node', trg⟩

theorem noNameTaken_loaded (free : NoNameTaken cs) : NoNameTaken (cs.map Collection.loaded) := by
  intro c mem c' mem'
  rcases List.mem_map.mp mem with ⟨c, there, rfl⟩
  rcases List.mem_map.mp mem' with ⟨c', there', rfl⟩
  refine ⟨?_, (free c there c' there').2⟩
  intro n node
  rcases List.mem_map.mp node with ⟨m, own, rfl⟩
  exact (free c there c' there').1 m own

theorem nodeNames_loaded (c : Collection Double) :
    c.loaded.nodes.map c.loaded.nodeName = c.nodes.map c.nodeName := by
  rw [Collection.loaded, List.map_map]
  rfl

theorem identifiers_loaded (c : Collection Double) : c.loaded.identifiers = c.identifiers := by
  rw [Collection.identifiers, nodeNames_loaded]
  rfl

theorem ofGraph_loaded (c : Collection Double)
    {distinct : (c.loaded.nodes.map c.loaded.nodeName).Nodup}
    {distinct' : (c.nodes.map c.nodeName).Nodup} (chunks : Text → ℕ) :
    Dag.ofGraph c.loaded distinct chunks = .ofGraph c distinct' chunks := by
  rw [Dag.ofGraph, Dag.ofGraph, Dag.mk.injEq]
  exact ⟨nodeNames_loaded c, rfl, rfl, rfl⟩

/-! ## The program of a call of `Parse` -/

/-- The template emits `prog` for the model in these lines. What the compiler and the linker ask of
the emitted files beyond the form of the names (no two definitions of one name, no keyword for a
name, constants that C has) is `compiles`. -/
def Emits (compiles : List (List Element) → Prop) (lines : List Text) {k : ℕ}
    (rounds : Fin k → Text → ℕ) (prog : Fin k → Dag Text) : Prop :=
  ∃ own, loadModel lines = some own ∧ compiles own ∧ own.length = k ∧
    ∀ i : Fin k, own[i.val]?.bind (fun es => Dag.ofElements own.flatten es (rounds i)) =
      some (prog i)

/-- What is loaded of the graphs. -/
def loadedElements (J : JavaLang Double) (cs : List (Collection Double)) : List (List Element) :=
  (cs.map Collection.loaded).map fun c => c.dag.elements J c.nodes c.edges

/-- The program for the graphs. -/
def programOf (cs : List (Collection Double)) (graphs : DistinctGraphs cs)
    (rounds : Fin cs.length → Text → ℕ) (k : Fin cs.length) : Dag Text :=
  .ofGraph cs[k] (nodup_nodeNames graphs (List.getElem_mem k.isLt)) (rounds k)

variable {s : State (Fin cs.length) Text} {rounds : Fin cs.length → Text → ℕ}
  {compiles : List (List Element) → Prop} {lines : List Text}

/-- From the lines of the graphs the template emits their program. -/
theorem emits_programOf (graphs : DistinctGraphs cs) (free : NoNameTaken cs)
    (named : ∀ c ∈ cs, ∀ e ∈ c.edges, e.Named) (usable : ∀ c ∈ cs, Usable c)
    (load : loadModel lines = some (loadedElements J cs))
    (compile : compiles (loadedElements J cs)) (rounds : Fin cs.length → Text → ℕ) :
    Emits compiles lines rounds (programOf cs graphs rounds) := by
  have graphs' := distinctGraphs_loaded graphs
  have named' : ∀ c ∈ cs.map Collection.loaded, ∀ e ∈ c.edges, e.Named := by
    intro c mem
    rcases List.mem_map.mp mem with ⟨c, there, rfl⟩
    exact named c there
  have unique := (uniqueNames_iff J graphs' named').mpr (noNameTaken_loaded free)
  have flat : (loadedElements J cs).flatten = elements J (cs.map Collection.loaded) := by
    rw [loadedElements, elements, List.flatMap_def]
  refine ⟨_, load, compile, by rw [loadedElements, List.length_map, List.length_map], ?_⟩
  intro k
  have mem : cs[k] ∈ cs := List.getElem_mem k.isLt
  have here : (loadedElements J cs)[k.val]? = some
      (cs[k].loaded.dag.elements J cs[k].loaded.nodes cs[k].loaded.edges) := by
    rw [loadedElements, List.getElem?_map, List.getElem?_map, List.getElem?_eq_getElem k.isLt]
    rfl
  have identifiers : ∀ name ∈ cs[k].loaded.identifiers, isIdentifier name = true := by
    rw [identifiers_loaded]
    exact (usable _ mem).identifiers (graphs.declared _ mem) (named _ mem)
  rw [here, Option.bind_some, flat, ofElements_eq graphs' unique (List.mem_map_of_mem mem)
    (usable _ mem).edge identifiers, ofGraph_loaded]
  rfl

/-- A thread that computes has all its sources behind it. -/
theorem Reachable.source_computed {ι : Type} [DecidableEq ι] {prog : ι → Dag Text}
    {s : State ι Text} (reached : Reachable prog s) {i : ι} {p : ℕ} {e : Edge Text}
    {t : Thread Text} (edge : e ∈ (prog i).edge) (thread : (s.dags i).thread p e.trg = some t)
    (computing : t.Computing) : ∃ t', (s.dags i).thread p e.src = some t' ∧ t'.Computed := by
  have inv := reached.inv i
  obtain ⟨instr, rest, code, compute⟩ := computing
  have current := inv.period_eq thread (by rw [Thread.Exited, code]; exact List.cons_ne_nil _ _)
  subst current
  have suffix := inv.code _ _ _ thread
  rw [code] at suffix
  exact inv.passed e edge t thread (by rw [code]; exact wait_not_mem_of_compute suffix compute)

/-- A node of a file computes only after every node with an edge to it in the file. -/
theorem programOf_order (graphs : DistinctGraphs cs)
    (reached : Reachable (programOf cs graphs rounds) s) {k : Fin cs.length} {e : Rtdot.Edge}
    (edge : e ∈ cs[k].edges) {p : ℕ} {t : Thread Text}
    (thread : (s.dags k).thread p (idName cs[k] e.trg) = some t) (computing : t.Computing) :
    ∃ t', (s.dags k).thread p (idName cs[k] e.src) = some t' ∧ t'.Computed := by
  have there : namedEdge cs[k] e ∈ (programOf cs graphs rounds k).edge := List.mem_map_of_mem edge
  exact reached.source_computed there thread computing

/-- The nodes on a cycle of a file or behind one never compute. -/
theorem programOf_starved (graphs : DistinctGraphs cs)
    (reached : Reachable (programOf cs graphs rounds) s) {k : Fin cs.length} {a b : ℤ}
    (cycle : Relation.TransGen (idAdj cs[k]) a a) (path : Relation.ReflTransGen (idAdj cs[k]) a b)
    {p : ℕ} {t : Thread Text} (thread : (s.dags k).thread p (idName cs[k] b) = some t) :
    ¬ t.Started := by
  have cyclic : (programOf cs graphs rounds k).Cyclic (idName cs[k] b) := cyclic_ofGraph cycle path
  intro started
  rcases cyclic.exists_edge with ⟨e, mem, target, cyclic'⟩
  have waits := reached.starved e mem cyclic' p t (target ▸ thread)
  exact started (compute_mem_of_wait ((reached.inv k).code p _ t thread) waits).1

theorem countable_text : Countable Text := by
  have : Countable Char := (Function.LeftInverse.injective Char.ofNat_toNat).countable
  exact List.countable

/-- Where a file has no cycle, there is a fair run, and every one completes every period. -/
theorem programOf_live (graphs : DistinctGraphs cs) {k : Fin cs.length}
    (acyclic : ∀ a, ¬ Relation.TransGen (idAdj cs[k]) a a) :
    (∃ r : FairRun (programOf cs graphs rounds), ∀ j, r.LoadsAlone j) ∧
      ∀ r : FairRun (programOf cs graphs rounds), r.LoadsAlone k →
        ∀ q, ∃ j, ((r.state j).dags k).period = q := by
  have graph : (programOf cs graphs rounds k).IsGraph :=
    isGraph_ofGraph graphs (List.getElem_mem k.isLt)
  have free : (programOf cs graphs rounds k).Acyclic := acyclic_ofGraph acyclic
  have : Countable Text := countable_text
  exact ⟨exists_fairRun graph free, fun r alone q => r.period_ends graph free alone q⟩

/-- The graph `G` with an edge from 1 to 2, and `H`, in which 1 and 2 wait for each other. -/
def twoDisk (path : Text) : Option (List Text) :=
  if path = "first".toList then
    some ["digraph G \x7b".toList, "1 []".toList, "2 []".toList, "1 -> 2".toList, "\x7d".toList]
  else
    some ["digraph H \x7b".toList, "1 []".toList, "2 []".toList, "1 -> 2".toList,
      "2 -> 1".toList, "\x7d".toList]

/-- The array with both. -/
def twoDags : List DAG :=
  [DAG.new "first".toList .prem 1 0 "SCHED_FIFO".toList "GLOBAL".toList "out".toList,
    DAG.new "second".toList .sparse 1 4 "SCHED_FIFO".toList "GLOBAL".toList "out".toList]

/-- What is read off the files. -/
def twoReadings : List (Reading ℤ) :=
  [some ("G".toList, [.node (bareNode 1), .node (bareNode 2), .edge ⟨"1_2".toList, 1, 2⟩, .nothing]),
    some ("H".toList, [.node (bareNode 1), .node (bareNode 2), .edge ⟨"1_2".toList, 1, 2⟩,
      .edge ⟨"2_1".toList, 2, 1⟩, .nothing])]

/-- The graphs. -/
def twoGraphs : List (Collection ℤ) := collections twoDags twoReadings

/-- The `XMLGenerator` after the call. -/
def twoGenerator : Generator ℤ := Exec.leaves (Generator.Parse asciiLang twoDisk twoDags) {}

/-- No name is defined twice, in the emitted files or beside `main`. -/
def definedOnce (own : List (List Element)) : Prop :=
  ("main".toList :: own.flatMap declaredNames).Nodup

theorem usable_twoGraphs : ∀ c ∈ twoGraphs, Usable c := by
  have mem_type : ∀ c ∈ twoGraphs,
      Attribute.Legal ⟨"mem_type", nullable (c.dag.mem_access.map MemAccess.text)⟩ := by
    decide +kernel
  have mem_unit : ∀ c ∈ twoGraphs, ∀ n ∈ c.nodes, Attribute.Legal ⟨"mem_unit", n.mem_unit⟩ := by
    decide +kernel
  have comment : ∀ c ∈ twoGraphs, ∀ n ∈ c.nodes, attValue n.comment ≠ none := by decide +kernel
  have name : ∀ c ∈ twoGraphs, isIdentifier c.name = true := by decide +kernel
  have ids : ∀ c ∈ twoGraphs, ∀ n ∈ c.nodes, 0 ≤ n.nodeID := by decide +kernel
  have edge : ∀ c ∈ twoGraphs, c.edges ≠ [] := by decide +kernel
  exact fun c mem => ⟨⟨mem_type c mem, mem_unit c mem, comment c mem⟩, name c mem, ids c mem,
    edge c mem⟩

theorem twoGraphs_noNameTaken : NoNameTaken twoGraphs := by
  unfold NoNameTaken
  decide +kernel

/-- The edge of `G` leads upwards. -/
theorem twoGraphs_acyclic (a : ℤ) :
    ¬ Relation.TransGen (idAdj twoGraphs[0]) a a := by
  have up : ∀ {a b : ℤ}, idAdj twoGraphs[0] a b → a < b := by
    rintro a b ⟨e, edge, rfl, rfl⟩
    revert e
    decide +kernel
  have climbs : ∀ {a b : ℤ}, Relation.TransGen (idAdj twoGraphs[0]) a b → a < b := by
    intro a b path
    induction path with
    | single adj => exact up adj
    | tail _ adj ih => exact ih.trans (up adj)
  exact fun cycle => (climbs cycle).false

end Hipert.Gen
