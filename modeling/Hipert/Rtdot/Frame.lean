import Hipert.Rtdot.Reread
import Mathlib.Data.List.Nodup

/-!
# What an edit changes

A call of `modifyXML` rewrites every node whose token ends with the name. So a reader of the file
finds the new settings, the same edges and, of the nodes, only the one with the name changed, if and
only if no other token ends with the name, the name does not begin like task 0, and the values are
read as they were given (`modifyXML_onlyChanges_iff`).
-/

namespace Hipert.Rtdot

variable {Double : Type} {J : JavaLang Double}

/-! ## The property -/

section Property

variable (J)

/-- From these contents, the settings of the values are read, and beside them what `m` has, except
that the node with the id of the values is the new one. -/
def OnlyChanges (a : Args) (m : Modifier Double) (contents : Text) : Prop :=
  ∃ (m' : Modifier Double) (new : Node Double) (period priority deadline map : ℤ),
    a.node J = some new ∧
      a.settings J = some (.settings period priority deadline map : Effect Double) ∧
      readContents J contents {} = .ok ⟨⟩ m' ∧
      m'.dag.numbers = (period, priority, deadline, map) ∧ m'.dag.dagName = m.dag.dagName ∧
      m'.edges = m.edges ∧
      m'.nodes = m.nodes.map fun node => if node.nodeID = new.nodeID then new else node

variable {J}

theorem OnlyChanges.nodeIDs {a : Args} {m : Modifier Double} {contents : Text}
    (only : OnlyChanges J a m contents) :
    ∃ m', readContents J contents {} = .ok ⟨⟩ m' ∧
      m'.nodes.map Node.nodeID = m.nodes.map Node.nodeID := by
  obtain ⟨m', new, _, _, _, _, -, -, read, -, -, -, nodes⟩ := only
  refine ⟨m', read, ?_⟩
  rw [nodes, List.map_map]
  apply List.map_congr_left
  intro node _
  rw [Function.comp_apply]
  split
  · exact Eq.symm ‹_›
  · rfl

end Property

/-! ## Names like that of task 0 -/

theorem nodes_of_not_graph {line : Text} {eff : Effect Double}
    (read : Modifier.lineEffect J line = some eff) (task : ¬ isGraphLine line = true) :
    eff.nodes = [] := by
  unfold Modifier.lineEffect effectOf at read
  rw [if_neg task] at read
  split at read
  · rcases exists_settings read with ⟨_, _, _, _, rfl⟩
    rfl
  · cases read
    rfl

/-- A node that is renamed to a name that begins with a zero is lost. -/
theorem length_nodes_rewrite {a : Args} (formed : a.WellFormed) (zero : a.nodeName.head? = some '0')
    {ls : List Line} {effs effs' : List (Effect Double)} (valid : ∀ l ∈ ls, l.Valid)
    (all : List.Forall₂ (fun l eff => Modifier.lineEffect J l.text = some eff) ls effs)
    (all' : List.Forall₂ (fun l eff => Modifier.lineEffect J (a.rewrite l).text = some eff) ls
      effs') :
    (effs'.flatMap Effect.nodes).length + (tokens ls).countP (fun t => a.nodeName <:+ t) =
      (effs.flatMap Effect.nodes).length := by
  induction all generalizing effs' with
  | nil =>
      cases all'
      rfl
  | @cons l eff ls effs read _ ih =>
      cases all' with
      | @cons _ eff' _ effs' read' rest =>
          obtain ⟨first, others⟩ := List.forall_mem_cons.mp valid
          have later := ih others rest
          have here := lineReads_of_valid first read
          rw [List.flatMap_cons, List.flatMap_cons, List.length_append, List.length_append]
          cases here with
          | settings p q e m =>
              have task : ¬ isGraphLine (Line.settings a.periodRest).text = true := by
                intro graph
                cases graph
              rw [nodes_of_not_graph read' task]
              change 0 + _ + (tokens ls).countP _ = 0 + _
              omega
          | @node indent token rest n node =>
              change _ + _ + (token :: tokens ls).countP _ = 1 + _
              rw [Args.rewrite] at read'
              rw [List.countP_cons]
              split at read'
              · rename_i ends
                rw [← nodeLine_text] at read'
                have task : ¬ isGraphLine a.nodeLine = true := fun graph =>
                  (isGraphLine_nodeLine formed).mp graph zero
                rw [nodes_of_not_graph read' task, if_pos (decide_eq_true ends), List.length_nil]
                omega
              · rename_i other
                cases read.symm.trans read'
                rw [if_neg (by simpa using other)]
                change 1 + _ + (_ + 0) = _
                omega
          | other none same =>
              cases read.symm.trans read'
              rw [none]
              change 0 + _ + (tokens ls).countP _ = 0 + _
              omega

theorem length_readContents_lt {a : Args} {contents first : Text} {ls : List Line}
    {m m' : Modifier Double} (form : InForm (readLines contents) first ls) (formed : a.WellFormed)
    (zero : a.nodeName.head? = some '0') (present : a.nodeName ∈ tokens ls)
    (read : readContents J contents {} = .ok ⟨⟩ m)
    (fresh : readContents J (a.newContents contents) {} = .ok ⟨⟩ m') :
    m'.nodes.length < m.nodes.length := by
  rcases readContents_ok.mp read with ⟨_, _, name, effs, file, -, all, rfl⟩
  rcases readContents_ok.mp fresh with ⟨_, _, name', effs', file', -, all', rfl⟩
  rw [form.lines_eq] at file
  rw [readLines_newContents formed form] at file'
  cases file
  cases file'
  rw [List.forall₂_map_left_iff] at all
  rw [List.forall₂_map_left_iff, List.forall₂_map_left_iff] at all'
  have lost := length_nodes_rewrite formed zero form.valid all all'
  have some_lost : 0 < (tokens ls).countP fun t => a.nodeName <:+ t :=
    List.countP_pos_iff.mpr ⟨_, present, by simp⟩
  dsimp only
  omega

/-! ## The edit -/

/-- The nodes beside their tokens: replacing by token is replacing by id if and only if no other
token ends with the name and the same node is put in. -/
theorem replace_eq_iff {entries : List (Text × Node Double)} {name : Text} {new found : Node Double}
    (distinct : ((entries.map Prod.snd).map Node.nodeID).Nodup)
    (present : name ∈ entries.map Prod.fst)
    (named : ∀ p ∈ entries, p.1 = name → p.2.nodeID = new.nodeID)
    (same_id : found.nodeID = new.nodeID) :
    (entries.map fun p => if name <:+ p.1 then found else p.2) =
        ((entries.map Prod.snd).map fun node => if node.nodeID = new.nodeID then new else node) ↔
      (∀ token ∈ entries.map Prod.fst, name <:+ token → token = name) ∧ found = new := by
  obtain ⟨p₀, mem₀, name₀⟩ := List.mem_map.mp present
  rw [List.map_map] at distinct
  have own : ∀ p ∈ entries, p.2.nodeID = new.nodeID → p.1 = name := by
    intro p mem id
    have same := List.inj_on_of_nodup_map distinct mem mem₀ (id.trans (named p₀ mem₀ name₀).symm)
    rw [same, name₀]
  rw [List.map_map, List.map_inj_left]
  refine ⟨?_, ?_⟩
  · intro same
    refine ⟨?_, ?_⟩
    · intro token mem_token ends
      rcases List.mem_map.mp mem_token with ⟨p, mem, rfl⟩
      apply own p mem
      by_contra other
      have eq := same p mem
      rw [Function.comp_apply, if_pos ends, if_neg other] at eq
      rw [← eq] at other
      exact other same_id
    · have here := same p₀ mem₀
      rw [Function.comp_apply, if_pos (named p₀ mem₀ name₀), name₀,
        if_pos (List.suffix_refl name)] at here
      exact here
  · intro given p mem
    rcases given with ⟨only, rfl⟩
    rw [Function.comp_apply]
    by_cases ends : name <:+ p.1
    · rw [if_pos ends, if_pos (named p mem (only p.1 (List.mem_map_of_mem mem) ends))]
    · rw [if_neg ends, if_neg]
      intro id
      apply ends
      rw [own p mem id]

/-- **Edits.** In a file in this form with distinct ids, a call that names a node that is there, with
well-formed values, changes only this node and the settings, for a reader of the file, if and only if
no other token ends with the name, the name does not begin with a zero, and the values are the same in
the case in which they are read. -/
theorem modifyXML_onlyChanges_iff (locale : AsciiCase J) {a : Args} {s s' : Session Double}
    {m : Modifier Double} {first : Text} {ls : List Line}
    (form : InForm (readLines s.contents) first ls) (formed : a.WellFormed)
    (meet : (J.parseDouble a.MEET).isSome) (present : a.nodeName ∈ tokens ls)
    (read : readContents J s.contents {} = .ok ⟨⟩ m) (distinct : (m.nodes.map Node.nodeID).Nodup)
    (returned : Session.modifyXML J a s = .ok ⟨⟩ s') :
    OnlyChanges J a m s'.contents ↔
      (∀ token ∈ tokens ls, a.nodeName <:+ token → token = a.nodeName) ∧
        a.nodeName.head? ≠ some '0' ∧ a.ReadsAs J a.MEET := by
  rcases exists_given returned with ⟨n, period, priority, deadline, map, stored, settings, rfl⟩
  obtain ⟨new, node⟩ := exists_node stored meet
  obtain ⟨gives, comment⟩ := gives_of_node node
  by_cases zero : a.nodeName.head? = some '0'
  · -- the named node is lost, so there are fewer nodes than before
    refine iff_of_false ?_ fun all => all.2.1 zero
    intro given
    rcases given with ⟨m', new', _, _, _, _, -, -, fresh, -, -, -, nodes'⟩
    have fewer := length_readContents_lt form formed zero present read fresh
    rw [nodes', List.length_map] at fewer
    exact lt_irrefl _ fewer
  by_cases readable : ∃ found, a.readNode J = some found
  case neg =>
    -- nothing can be read after the call
    apply iff_of_false
    · intro given
      rcases given with ⟨m', _, _, _, _, _, -, -, fresh, -⟩
      exact readable (exists_readNode_of_readContents locale form formed zero present fresh)
    · exact fun all => readable (exists_readNode gives all.2.2)
  obtain ⟨found, line⟩ := readable
  obtain ⟨entries, dag, tokens_eq, nodes, lines, fresh, numbers, rest⟩ :=
    exists_readContents locale form formed zero line settings read
  have id_of_name : ∀ p ∈ entries, p.1 = a.nodeName → p.2.nodeID = new.nodeID := by
    intro p mem same
    obtain ⟨indent, rest, here, read⟩ := lines p mem
    have parsed := nodeID_of_token locale (form.valid _ here) (same ▸ formed.nodeName) read
    rw [same, gives.nodeID] at parsed
    exact (Option.some.inj parsed).symm
  have same_node : found = new ↔ a.ReadsAs J a.MEET := by
    rw [Node.eq_iff, comment_readNode line, comment, and_iff_left rfl]
    exact attributes_readNode_iff gives line
  rw [nodes] at distinct
  have kept := replace_eq_iff distinct (tokens_eq ▸ present) id_of_name
    (nodeID_readNode gives line)
  rw [tokens_eq, same_node, ← nodes] at kept
  rw [and_iff_right zero, ← kept]
  refine ⟨?_, ?_⟩
  · intro given
    rcases given with ⟨m', new', _, _, _, _, node', -, fresh', -, -, -, nodes'⟩
    cases node.symm.trans node'
    cases fresh.symm.trans fresh'
    exact nodes'
  · intro nodes'
    have name : dag.dagName = m.dag.dagName := by
      change dag.rest.dagName = m.dag.rest.dagName
      rw [rest]
    exact ⟨_, new, period, priority, deadline, map, node, settings, fresh, numbers, name, rfl,
      nodes'⟩

/-! ## A file with two nodes -/

/-- The lines of a file with the node 1 and another. -/
def twoLines (token : String) : List Line :=
  [.settings "=500, priority=50, deadline=1000, map=0]".toList,
    .node "\t".toList "1".toList "=\"10\", MEET=\"10\", MAET=\"10\", MEM=\"1\", UNIT=\"MB\"]".toList,
    .node "\t".toList token.toList
      "=\"20\", MEET=\"20\", MAET=\"20\", MEM=\"5\", UNIT=\"KB\"]".toList,
    .other ("\t1 -> " ++ token).toList, .other "\x7d".toList]

/-- The file. -/
def twoNodes (token : String) : Text :=
  writeLines ("digraph G \x7b".toList :: (twoLines token).map Line.text)

/-- The file and an `XMLModifier` that has read it. -/
def twoNodesSession (token : String) : Session ℤ :=
  ⟨twoNodes token, Exec.leaves (readContents asciiLang (twoNodes token)) {}⟩

/-- New values for the node 1. -/
def editOne : Args where
  nodeName := "1".toList
  period := "600".toList
  deadline := "900".toList
  priority := "40".toList
  map := "1".toList
  MIET := "7".toList
  MEET := "8".toList
  MAET := "9".toList
  MEM := "2".toList
  MEM_UNIT := "KB".toList
  index := 0

theorem editOne_wellFormed : editOne.WellFormed := by
  constructor
  all_goals decide

theorem editOne_readsAs : editOne.ReadsAs asciiLang editOne.MEET := by
  constructor
  all_goals decide

theorem twoNodes_inForm (token : String) (lines : readLines (twoNodes token) =
      "digraph G \x7b".toList :: (twoLines token).map Line.text)
    (node : Line.Valid (.node "\t".toList token.toList
      "=\"20\", MEET=\"20\", MAET=\"20\", MEM=\"5\", UNIT=\"KB\"]".toList))
    (edge : Line.Valid (.other ("\t1 -> " ++ token).toList)) :
    InForm (readLines (twoNodes token)) "digraph G \x7b".toList (twoLines token) where
  lines_eq := lines
  first_period := by decide +kernel
  first_node := by decide +kernel
  valid := by
    unfold twoLines
    simp only [List.forall_mem_cons]
    refine ⟨.settings (by decide), .node (forall_chars (by decide)) (by decide)
      (forall_chars (by decide)) (by decide) (by decide) (by decide +kernel) (by decide +kernel),
      node, edge,
      .other (by decide +kernel) (by decide +kernel) (by decide +kernel), fun l mem => nomatch mem⟩
  settings := ⟨_, List.mem_cons_self⟩

/-- The session after the call with these values. -/
def editedOne (token : String) : Session ℤ :=
  Exec.leaves (Session.modifyXML asciiLang editOne) (twoNodesSession token)

theorem twoNodes_inForm_two :
    InForm (readLines (twoNodes "2")) "digraph G \x7b".toList (twoLines "2") := by
  apply twoNodes_inForm
  · decide +kernel
  · exact .node (forall_chars (by decide)) (by decide) (forall_chars (by decide)) (by decide)
      (by decide) (by decide +kernel) (by decide +kernel)
  · exact .other (by decide +kernel) (by decide +kernel) (by decide +kernel)

theorem twoNodes_read {token : String}
    (returns : (Exec.stateAfter (readContents asciiLang (twoNodes token)) {}).isSome) :
    readContents asciiLang (twoNodesSession token).contents {} =
      .ok ⟨⟩ (twoNodesSession token).modifier := by
  simp only [twoNodesSession]
  exact Exec.ok_leaves returns

theorem editedOne_returned {token : String}
    (returns : (Exec.stateAfter (Session.modifyXML asciiLang editOne)
      (twoNodesSession token)).isSome) :
    Session.modifyXML asciiLang editOne (twoNodesSession token) = .ok ⟨⟩ (editedOne token) := by
  rw [editedOne]
  exact Exec.ok_leaves returns

theorem modifyXML_onlyChanges_iff_two :
    OnlyChanges asciiLang editOne (twoNodesSession "2").modifier (editedOne "2").contents ↔
      (∀ token ∈ tokens (twoLines "2"), editOne.nodeName <:+ token → token = editOne.nodeName) ∧
        editOne.nodeName.head? ≠ some '0' ∧ editOne.ReadsAs asciiLang editOne.MEET :=
  modifyXML_onlyChanges_iff (s := twoNodesSession "2") asciiCase_asciiLang twoNodes_inForm_two
    editOne_wellFormed (by decide +kernel) (by decide) (twoNodes_read (by decide +kernel))
    (by decide +kernel) (editedOne_returned (by decide +kernel))

/-- The node 11 is rewritten with the node 1, and a reader finds the id 1 twice. -/
theorem editedOne_clash :
    InForm (readLines (twoNodesSession "11").contents) "digraph G \x7b".toList (twoLines "11") ∧
      editOne.WellFormed ∧ editOne.ReadsAs asciiLang editOne.MEET ∧
      editOne.nodeName ∈ tokens (twoLines "11") ∧
      readContents asciiLang (twoNodesSession "11").contents {} =
        .ok ⟨⟩ (twoNodesSession "11").modifier ∧
      ((twoNodesSession "11").modifier.nodes.map Node.nodeID).Nodup ∧
      Session.modifyXML asciiLang editOne (twoNodesSession "11") = .ok ⟨⟩ (editedOne "11") ∧
      ¬ OnlyChanges asciiLang editOne (twoNodesSession "11").modifier (editedOne "11").contents := by
  refine ⟨?_, editOne_wellFormed, editOne_readsAs, by decide, twoNodes_read (by decide +kernel),
    by decide +kernel, editedOne_returned (by decide +kernel), ?_⟩
  · apply twoNodes_inForm
    · decide +kernel
    · exact .node (forall_chars (by decide)) (by decide) (forall_chars (by decide)) (by decide)
        (by decide) (by decide +kernel) (by decide +kernel)
    · exact .other (by decide +kernel) (by decide +kernel) (by decide +kernel)
  · intro only
    obtain ⟨m', read, ids⟩ := only.nodeIDs
    have twice : (Exec.stateAfter (readContents asciiLang (editedOne "11").contents) {}).map
        (fun m => m.nodes.map Node.nodeID) = some [1, 1] := by decide +kernel
    rw [Exec.stateAfter_eq_some.mpr read, Option.map_some, ids] at twice
    revert twice
    decide +kernel

end Hipert.Rtdot
