import Hipert.Lib.AsciiFields
import Hipert.Lib.Parallel
import Hipert.Rtdot.LineLayout

/-!
# DOT files laid out anew

The edits of a DOT file that change its layout only, and what `XMLGenerator` makes of them. Three
things in it depend on the layout: the name of the DAG, which is the second word of the first line
with its indentation (`nameIn`); the lines of task 0; and the last attribute of a node. An edit
keeps what is read just if it leaves these alone (`Edit.Keeps`), and so does any number of such
edits (`readDOTFile_layout`).
-/

namespace Hipert.Rtdot

variable {Double : Type} {J : JavaLang Double}

/-! ## Edits -/

/-- Where the name of the DAG stands, by the indentation of the first line: it is the second word of
the rest, or the first one with the tabs behind the only space, or the tabs between two spaces. -/
inductive NamePlace where
  | second
  | behind (tabs : Text)
  | between (tabs : Text)

/-- The place that an indentation gives the name. -/
def namePlace : Text → NamePlace
  | [] => .second
  | c :: ws =>
    if c = ' ' then if ' ' ∈ ws then .between (ws.takeWhile (· ≠ ' ')) else .behind ws
    else namePlace ws

/-- The name at this place before the rest of the line. -/
def NamePlace.name (body : Text) : NamePlace → Option Text
  | second => (split " ".toList body)[1]?
  | behind tabs => some (tabs ++ body.takeWhile (· ≠ ' '))
  | between tabs => some tabs

/-- The name in a first line of blanks: the tabs behind its first space, if any tab comes later. -/
def blankName : Text → Option Text
  | [] => none
  | c :: ws =>
    if c = ' ' then if '\t' ∈ ws then some (ws.takeWhile (· ≠ ' ')) else none else blankName ws

/-- The name in a first line of this indentation and rest. -/
def nameIn (ws body : Text) : Option Text :=
  if body = [] then blankName ws else (namePlace ws).name body

/-- Another indentation of the first line, or an edit of another one. -/
inductive Edit where
  | first (ws ws' body : Text) (rest : List Text)
  | line (top : Text) (before : List Text) (e : LineEdit) (after : List Text)

namespace Edit

/-- The file before. -/
def source : Edit → List Text
  | first ws _ body rest => (ws ++ body) :: rest
  | line top before e after => top :: (before ++ e.source :: after)

/-- The file afterwards. -/
def target : Edit → List Text
  | first _ ws' body rest => (ws' ++ body) :: rest
  | line top before e after => top :: (before ++ e.target :: after)

/-- The indentations are all that stands before the rest; any other edit is one of a line. -/
def Valid : Edit → Prop
  | first ws ws' body _ => (LineEdit.indent ws ws' body).Valid
  | line _ _ e _ => e.Valid

/-- The name is the same in both first lines; any other line says the same. -/
def Keeps (J : JavaLang Double) : Edit → Prop
  | first ws ws' body _ => nameIn ws body = nameIn ws' body
  | line _ _ e _ => e.Keeps J

end Edit

/-- An edit that keeps what is read leads from the one file to the other. -/
def KeepingStep (J : JavaLang Double) (lines lines' : List Text) : Prop :=
  ∃ e : Edit, e.Valid ∧ e.Keeps J ∧ e.source = lines ∧ e.target = lines'

/-- The same edges, nodes and DAGs, comments apart. -/
structure Generator.Matches (g g' : Generator Double) : Prop where
  edges : g.edges = g'.edges
  nodes : g.nodes.map Node.bare = g'.nodes.map Node.bare
  dags : g.dags.map DAG.bare = g'.dags.map DAG.bare

/-! ## The first line -/

section First

variable {ws body : Text}

/-- The second word of a first line that is not blank. -/
theorem split_indent_append (indent : IsIndent ws) {c : Char} (first : c ∈ body.head?)
    (other : c ≠ ' ') :
    (split " ".toList (ws ++ body))[1]? = (namePlace ws).name body := by
  induction ws with
  | nil => rfl
  | cons d ws ih =>
      have rest := ih fun x mem => indent x (List.mem_cons_of_mem _ mem)
      rw [split_getElem?_one, List.cons_append]
      rcases indent d List.mem_cons_self with rfl | rfl
      · have cut : pieces " ".toList 0 (' ' :: (ws ++ body)) = [] :: pieces [' '] 0 (ws ++ body) :=
          pieces_char List.not_mem_nil _
        have mem : c ∈ ws ++ body := List.mem_append_right _ (List.mem_of_mem_head? first)
        rw [cut, List.tail_cons, head_rdropWhile_pieces mem other, head_pieces_char,
          List.takeWhile_append, namePlace, if_pos rfl]
        by_cases space : ' ' ∈ ws
        · have short : ¬ (ws.takeWhile (· ≠ ' ')).length = ws.length := by
            intro whole
            have all := List.takeWhile_eq_self_iff.mp
              ((List.takeWhile_prefix (· ≠ ' ')).eq_of_length whole)
            exact absurd (all ' ' space) (by simp)
          rw [if_pos space, if_neg short]
          rfl
        · have whole : ws.takeWhile (· ≠ ' ') = ws := List.takeWhile_eq_self_iff.mpr fun x mem => by
            simpa using ne_of_mem_of_not_mem mem space
          rw [if_neg space, if_pos (congrArg List.length whole)]
          rfl
      · obtain ⟨p, ps, eq⟩ :=
          List.exists_cons_of_ne_nil (pieces_ne_nil " ".toList 0 (ws ++ body))
        rw [split_getElem?_one, eq] at rest
        rw [pieces_of_not_isPrefix (not_prefix_cons _ (by decide) (by decide)), eq, namePlace,
          if_neg (by decide), ← rest]
        rfl

/-- The second word of a first line of blanks. -/
theorem split_blank (indent : IsIndent ws) : (split " ".toList ws)[1]? = blankName ws := by
  induction ws with
  | nil => rfl
  | cons d ws ih =>
      have rest := ih fun x mem => indent x (List.mem_cons_of_mem _ mem)
      rw [split_getElem?_one]
      rcases indent d List.mem_cons_self with rfl | rfl
      · have cut : pieces " ".toList 0 (' ' :: ws) = [] :: pieces [' '] 0 ws :=
          pieces_char List.not_mem_nil _
        rw [cut, List.tail_cons, blankName, if_pos rfl]
        by_cases tab : '\t' ∈ ws
        · rw [if_pos tab, head_rdropWhile_pieces tab (by decide), head_pieces_char]
        · have spaces : ∀ x ∈ ws, x = ' ' := fun x mem =>
            (indent x (List.mem_cons_of_mem _ mem)).resolve_right fun eq => tab (eq ▸ mem)
          rw [if_neg tab, rdropWhile_pieces_char.mpr spaces]
          rfl
      · obtain ⟨p, ps, eq⟩ := List.exists_cons_of_ne_nil (pieces_ne_nil " ".toList 0 ws)
        rw [split_getElem?_one, eq] at rest
        rw [pieces_of_not_isPrefix (not_prefix_cons _ (by decide) (by decide)), eq, blankName,
          if_neg (by decide), ← rest]
        rfl

/-- The second word of the first line. -/
theorem split_indent (indent : IsIndent ws) (first : ∀ c ∈ body.head?, c ≠ ' ' ∧ c ≠ '\t') :
    (split " ".toList (ws ++ body))[1]? = nameIn ws body := by
  unfold nameIn
  cases body with
  | nil => rw [List.append_nil, if_pos rfl, split_blank indent]
  | cons c body =>
      have other := (first c rfl).1
      rw [if_neg (List.cons_ne_nil c body), split_indent_append indent rfl other]

end First

/-! ## Readings without comments -/

/-- A reading without the comments of its nodes. -/
def Reading.bare (r : Reading Double) : Reading Double :=
  r.map fun (name, effs) => (name, effs.map Effect.bare)

section Bare

theorem edges_bare (r : Reading Double) : r.bare.edges = r.edges := by
  rcases r with - | ⟨name, effs⟩
  · rfl
  · change (effs.map Effect.bare).flatMap Effect.edges = effs.flatMap Effect.edges
    rw [List.flatMap_map]
    refine List.flatMap_congr fun eff _ => ?_
    cases eff <;> rfl

theorem nodes_bare (r : Reading Double) : r.bare.nodes = r.nodes.map Node.bare := by
  rcases r with - | ⟨name, effs⟩
  · rfl
  · change (effs.map Effect.bare).flatMap Effect.nodes = (effs.flatMap Effect.nodes).map Node.bare
    rw [List.flatMap_map, List.map_flatMap]
    refine List.flatMap_congr fun eff _ => ?_
    cases eff <;> rfl

theorem bare_foldl {effs : List (Effect Double)} {d d' : DAG} (same : d.bare = d'.bare) :
    ((effs.map Effect.bare).foldl Effect.onDag d).bare = (effs.foldl Effect.onDag d').bare := by
  induction effs generalizing d d' with
  | nil => exact same
  | cons eff effs ih =>
      rw [List.map_cons, List.foldl_cons, List.foldl_cons]
      apply ih
      unfold DAG.bare at same ⊢
      rw [DAG.mk.injEq] at same
      cases eff <;> simp [Effect.bare, Effect.onDag, same]

theorem onDag_bare (r : Reading Double) (d : DAG) : (r.bare.onDag d).bare = (r.onDag d).bare := by
  rcases r with - | ⟨name, effs⟩
  · rfl
  · exact bare_foldl rfl

end Bare

/-! ## Readings of edited files -/

section Readings

variable {e : Edit} {r r' : Reading Double}

/-- **Step lemma.** An edit that keeps what is read keeps the reading, comments apart. -/
theorem Edit.exists_reads (mapping : CharCase J) (valid : e.Valid) (keeps : e.Keeps J)
    (reads : Reads (Generator.lineEffect J) (some e.source) r) :
    ∃ r', Reads (Generator.lineEffect J) (some e.target) r' ∧ r.bare = r'.bare := by
  cases e with
  | first ws ws' body rest =>
      obtain ⟨indent, indent', head⟩ := valid
      cases reads with
      | lines second all =>
          rw [split_indent indent head, keeps, ← split_indent indent' head] at second
          exact ⟨_, .lines second all, rfl⟩
  | line top before e after =>
      cases reads with
      | lines second all =>
          obtain ⟨effs, eff, effs', rfl, all_before, here, all_after⟩ := forall₂_append_cons.mp all
          obtain ⟨eff', here', same⟩ := exists_bare_eq mapping valid keeps here
          refine ⟨_, .lines second
            (forall₂_append_cons.mpr ⟨effs, eff', effs', rfl, all_before, here', all_after⟩), ?_⟩
          simp only [Reading.bare, Option.map_some, List.map_append, List.map_cons, same]

/-- An edit with which the same is read keeps what is read. -/
theorem Edit.keeps_of_reads (mapping : CharCase J) (valid : e.Valid)
    (reads : Reads (Generator.lineEffect J) (some e.source) r)
    (reads' : Reads (Generator.lineEffect J) (some e.target) r') (edges : r.edges = r'.edges)
    (nodes : r.nodes.map Node.bare = r'.nodes.map Node.bare) {d : DAG}
    (name : (r.onDag d).dagName = (r'.onDag d).dagName) : e.Keeps J := by
  cases e with
  | first ws ws' body rest =>
      obtain ⟨indent, indent', head⟩ := valid
      cases reads with
      | lines second all =>
          cases reads' with
          | lines second' all' =>
              change nameIn ws body = nameIn ws' body
              rw [← split_indent indent head, ← split_indent indent' head, second, second']
              rw [Reading.onDag, Reading.onDag, dagName_foldl, dagName_foldl] at name
              exact name
  | line top before e after =>
      cases reads with
      | lines second all =>
          cases reads' with
          | lines second' all' =>
              obtain ⟨effs, eff, effs', rfl, all_before, here, all_after⟩ :=
                forall₂_append_cons.mp all
              obtain ⟨effs₂, eff₂, effs₂', rfl, all_before₂, here₂, all_after₂⟩ :=
                forall₂_append_cons.mp all'
              cases readings_unique all_before all_before₂
              cases readings_unique all_after all_after₂
              simp only [Reading.edges, Reading.nodes, List.flatMap_append, List.flatMap_cons,
                List.map_append, List.append_cancel_left_eq,
                List.append_cancel_right_eq] at edges nodes
              exact keeps_of_same mapping valid here here₂ edges nodes

end Readings

/-! ## Runs -/

namespace Generator

variable {g g' g'' : Generator Double} {index : ℕ} {lines lines' : List Text} {filename : Text}

theorem Matches.trans (first : g.Matches g') (second : g'.Matches g'') : g.Matches g'' where
  edges := first.edges.trans second.edges
  nodes := first.nodes.trans second.nodes
  dags := first.dags.trans second.dags

/-- A file that is read has its DAG in the list. -/
theorem index_lt {disk : Text → Option (List Text)} (here : disk filename = some lines)
    (accepted : readDOTFile J disk filename index g = .ok ⟨⟩ g') : index < g.dags.length := by
  unfold readDOTFile at accepted
  rw [here] at accepted
  simp only [Exec.bind_ok, Exec.orThrow_ok] at accepted
  rcases accepted with ⟨_, _, ⟨-, rfl⟩, _, _, ⟨-, rfl⟩, _, _, stored, -⟩
  unfold setDag at stored
  obtain ⟨d, _, got, -⟩ := Exec.bind_ok.mp stored
  exact (List.getElem?_eq_some_iff.mp (getDag_ok.mp got).1).1

/-- The state after a reading. -/
def after (index : ℕ) (g : Generator Double) (r : Reading Double) : Generator Double :=
  { g with
    edges := g.edges ++ r.edges
    nodes := g.nodes ++ r.nodes
    dags := g.dags.modify index fun d => r.onDag d }

theorem after_matches_of_bare {r r' : Reading Double} (same : r.bare = r'.bare) :
    (g.after index r).Matches (g.after index r') where
  edges := by
    change g.edges ++ r.edges = g.edges ++ r'.edges
    rw [← edges_bare r, same, edges_bare]
  nodes := by
    change (g.nodes ++ r.nodes).map Node.bare = (g.nodes ++ r'.nodes).map Node.bare
    rw [List.map_append, List.map_append, ← nodes_bare r, same, nodes_bare]
  dags := by
    change (g.dags.modify index r.onDag).map DAG.bare = (g.dags.modify index r'.onDag).map DAG.bare
    refine List.ext_getElem? fun i => ?_
    rw [List.getElem?_map, List.getElem?_map, List.getElem?_modify, List.getElem?_modify]
    cases g.dags[i]? with
    | none => rfl
    | some d =>
        have bare : (r.onDag d).bare = (r'.onDag d).bare := by
          rw [← onDag_bare, same, onDag_bare]
        by_cases here : index = i <;> simp [here, bare]

theorem Matches.of_after {r r' : Reading Double} (valid : index < g.dags.length)
    (same : (g.after index r).Matches (g.after index r')) :
    r.edges = r'.edges ∧ r.nodes.map Node.bare = r'.nodes.map Node.bare ∧
      (r.onDag g.dags[index]).bare = (r'.onDag g.dags[index]).bare := by
  obtain ⟨edges, nodes, dags⟩ := same
  refine ⟨List.append_cancel_left edges, ?_, ?_⟩
  · have parts : (g.nodes ++ r.nodes).map Node.bare = (g.nodes ++ r'.nodes).map Node.bare := nodes
    rw [List.map_append, List.map_append] at parts
    exact List.append_cancel_left parts
  · have at_index := congrArg (·[index]?) dags
    have here : g.dags[index]? = some g.dags[index] := List.getElem?_eq_getElem valid
    simpa [after, here] using at_index

/-- **One edit.** What is read stays the same just if the edit keeps it. -/
theorem readDOTFile_edit_iff (mapping : CharCase J) {e : Edit} (valid : e.Valid)
    (accepted : readDOTFile J (fun _ => some e.source) filename index g = .ok ⟨⟩ g') :
    (∃ g'', readDOTFile J (fun _ => some e.target) filename index g = .ok ⟨⟩ g'' ∧ g'.Matches g'') ↔
      e.Keeps J := by
  have inside := index_lt rfl accepted
  rcases (readDOTFile_ok inside).mp accepted with ⟨r, reads, rfl⟩
  refine ⟨?_, ?_⟩
  · intro given
    rcases given with ⟨g'', returned, same⟩
    rcases (readDOTFile_ok inside).mp returned with ⟨r', reads', rfl⟩
    obtain ⟨edges, nodes, dag⟩ := Matches.of_after inside same
    have bare_name : ∀ d : DAG, d.bare.dagName = d.dagName := fun _ => rfl
    have name : (r.onDag g.dags[index]).dagName = (r'.onDag g.dags[index]).dagName := by
      rw [← bare_name, dag, bare_name]
    exact Edit.keeps_of_reads mapping valid reads reads' edges nodes name
  · intro keeps
    obtain ⟨r', reads', same⟩ := Edit.exists_reads mapping valid keeps reads
    exact ⟨_, (readDOTFile_ok inside).mpr ⟨r', reads', rfl⟩, after_matches_of_bare same⟩

/-- **Layout.** For a file that is read: an edit of its layout leaves what is read as it is just if
the edit keeps it, and so do any number of edits that keep it. -/
theorem readDOTFile_layout (mapping : CharCase J) {disk : Text → Option (List Text)}
    (here : disk filename = some lines)
    (accepted : readDOTFile J disk filename index g = .ok ⟨⟩ g') :
    (∀ e : Edit, e.Valid → e.source = lines →
      ((∃ g'', readDOTFile J (fun _ => some e.target) filename index g = .ok ⟨⟩ g'' ∧
        g'.Matches g'') ↔ e.Keeps J)) ∧
    ∀ lines', Relation.ReflTransGen (KeepingStep J) lines lines' →
      ∃ g'', readDOTFile J (fun _ => some lines') filename index g = .ok ⟨⟩ g'' ∧ g'.Matches g'' := by
  have start : readDOTFile J (fun _ => some lines) filename index g = .ok ⟨⟩ g' := by
    unfold readDOTFile at accepted ⊢
    rwa [here] at accepted
  refine ⟨fun e valid eq => ?_, fun lines' run => ?_⟩
  · subst eq
    exact readDOTFile_edit_iff mapping valid start
  · induction run with
    | refl => exact ⟨g', start, ⟨rfl, rfl, rfl⟩⟩
    | tail _ step ih =>
        obtain ⟨mid, returned, same⟩ := ih
        rcases step with ⟨e, valid, keeps, rfl, rfl⟩
        obtain ⟨last, returned', same'⟩ := (readDOTFile_edit_iff mapping valid returned).mpr keeps
        exact ⟨last, returned', same.trans same'⟩

end Generator

/-! ## A file with two tasks -/

theorem charCase_asciiLang : CharCase asciiLang where
  exists_lower := by
    refine ⟨fun c => [c.toLower], fun s _ => (List.flatMap_pure_eq_map Char.toLower s).symm,
      fun c blank => ?_, forall_chars (by decide), fun c d mem sep => ?_⟩
    · have small : c.val.toNat ≤ ' '.val.toNat := of_decide_eq_true blank
      exact congrArg (fun c => [c]) (ascii_forall (P := fun c => isBlankChar c → c.toLower = c)
        (by decide +kernel) (lt_of_le_of_lt small (by decide)) blank)
    · rw [List.mem_singleton] at mem
      subst mem
      by_cases ascii : c.toNat < 128
      · exact ascii_forall (P := fun c => c.toLower ∈ ",=".toList → c = c.toLower)
          (by decide +kernel) ascii sep
      · unfold Char.toLower
        split
        · rename_i upper
          have small : c.val.toNat ≤ 'Z'.val.toNat := upper.2
          exact absurd (lt_of_le_of_lt small (by decide)) ascii
        · rfl

/-- A graph with a line of task 0 and a node. -/
def twoTasks : List Text :=
  ["digraph G \x7b".toList, "\t0 [label=x, style=invis]".toList,
    "\t1 [MIET=10, MEET=10, MAET=11, MEM=4, style=invis]".toList, "\x7d".toList]

/-- The line of its node. -/
def nodeOne : NodeLine := ⟨"\t".toList, "1".toList, [], []⟩

/-- The attributes of its node. -/
def attributesOne : List Text :=
  ["MIET=10".toList, " MEET=10".toList, " MAET=11".toList, " MEM=4".toList, " style=invis".toList]

theorem nodeOne_valid : nodeOne.Valid attributesOne where
  indent := forall_chars (by decide)
  name := ⟨'1', by decide, by decide⟩
  sign := by decide
  attributes := by decide
  sigma := by decide
  comment := by decide
  node := ⟨by decide, by decide⟩

/-- The memory accesses of the node come last. -/
def memLast : Edit :=
  .line "digraph G \x7b".toList ["\t0 [label=x, style=invis]".toList]
    (.permute nodeOne attributesOne
      ["MIET=10".toList, " MEET=10".toList, " MAET=11".toList, " style=invis".toList,
        " MEM=4".toList]) ["\x7d".toList]

/-- The line of task 0 begins with spaces. -/
def spaced : Edit :=
  .line "digraph G \x7b".toList []
    (.indent "\t".toList "    ".toList "0 [label=x, style=invis]".toList)
    ["\t1 [MIET=10, MEET=10, MAET=11, MEM=4, style=invis]".toList, "\x7d".toList]

/-- The first line begins with spaces. -/
def indented : Edit :=
  .first [] "  ".toList "digraph G \x7b".toList twoTasks.tail

/-- The memory accesses of the node come first. -/
def memFirst : Edit :=
  .line "digraph G \x7b".toList ["\t0 [label=x, style=invis]".toList]
    (.permute nodeOne attributesOne
      ["MEM=4".toList, " MIET=10".toList, " MEET=10".toList, " MAET=11".toList,
        " style=invis".toList]) ["\x7d".toList]

theorem memFirst_valid : memFirst.Valid := ⟨nodeOne_valid, by decide⟩

theorem memLast_valid : memLast.Valid := ⟨nodeOne_valid, by decide⟩

theorem isIndent_nil : IsIndent [] := by
  intro c mem
  cases mem

theorem spaced_valid : spaced.Valid := by
  refine ⟨forall_chars (by decide), forall_chars (by decide), fun c head => ?_⟩
  have zero : "0 [label=x, style=invis]".toList.head? = some '0' := by decide
  rw [zero, Option.mem_some_iff] at head
  subst head
  decide

theorem indented_valid : indented.Valid := by
  refine ⟨isIndent_nil, forall_chars (by decide), fun c head => ?_⟩
  have letter : "digraph G \x7b".toList.head? = some 'd' := by decide
  rw [letter, Option.mem_some_iff] at head
  subst head
  decide

/-- What is read from it. -/
def readTwoTasks : Generator ℤ :=
  Exec.leaves (Generator.readDOTFile asciiLang (fun _ => some twoTasks) [] 0) { dags := [{}] }

theorem twoTasks_read :
    Generator.readDOTFile asciiLang (fun _ => some twoTasks) [] 0 { dags := [{}] } =
      .ok ⟨⟩ readTwoTasks :=
  Exec.ok_leaves (by decide +kernel)

theorem readDOTFile_layout_twoTasks :
    ((∃ g, Generator.readDOTFile asciiLang (fun _ => some memFirst.target) [] 0
        { dags := [{}] } = .ok ⟨⟩ g ∧ readTwoTasks.Matches g) ↔ memFirst.Keeps asciiLang) ∧
      ∃ g, Generator.readDOTFile asciiLang (fun _ => some memFirst.target) [] 0
        { dags := [{}] } = .ok ⟨⟩ g ∧ readTwoTasks.Matches g := by
  have here : (fun _ : Text => some twoTasks) [] = some twoTasks := rfl
  have layout := Generator.readDOTFile_layout charCase_asciiLang here twoTasks_read
  have keeps : memFirst.Keeps asciiLang := by
    change nodeOne.KeepsKeys asciiLang _ _
    decide +kernel
  have source : memFirst.source = twoTasks := by decide
  exact ⟨layout.1 memFirst memFirst_valid source,
    layout.2 _ (.single ⟨memFirst, memFirst_valid, keeps, source, rfl⟩)⟩

/-- Nodes and DAGs that are not those read before. -/
theorem not_matches {lines : List Text}
    (differ : (Exec.stateAfter (Generator.readDOTFile asciiLang (fun _ => some lines) [] 0)
        { dags := [{}] }).map (fun g => (g.nodes.map Node.bare, g.dags.map DAG.bare)) ≠
      some (readTwoTasks.nodes.map Node.bare, readTwoTasks.dags.map DAG.bare)) :
    ¬ ∃ g, Generator.readDOTFile asciiLang (fun _ => some lines) [] 0 { dags := [{}] } = .ok ⟨⟩ g ∧
      readTwoTasks.Matches g := by
  intro given
  rcases given with ⟨g, read, same⟩
  apply differ
  rw [Exec.stateAfter_eq_some.mpr read, Option.map_some, same.nodes, same.dags]

/-- After each of these edits something else is read: the node without its memory accesses, a node
0, no name. -/
theorem readDOTFile_depends_on_layout :
    Generator.readDOTFile asciiLang (fun _ => some twoTasks) [] 0 { dags := [{}] } =
        .ok ⟨⟩ readTwoTasks ∧
      ∀ e ∈ [memLast, spaced, indented], e.Valid ∧ e.source = twoTasks ∧
        ¬ ∃ g, Generator.readDOTFile asciiLang (fun _ => some e.target) [] 0 { dags := [{}] } =
          .ok ⟨⟩ g ∧ readTwoTasks.Matches g := by
  refine ⟨twoTasks_read, fun e mem => ?_⟩
  simp only [List.mem_cons, List.not_mem_nil, or_false] at mem
  rcases mem with rfl | rfl | rfl
  · exact ⟨memLast_valid, by decide, not_matches (by decide +kernel)⟩
  · exact ⟨spaced_valid, by decide, not_matches (by decide +kernel)⟩
  · exact ⟨indented_valid, by decide, not_matches (by decide +kernel)⟩

end Hipert.Rtdot
