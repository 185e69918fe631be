import Hipert.Rtdot.Frame
import Mathlib.Logic.Relation

/-!
# The modifier and its file

`modifyXML` keeps a second copy of what it writes to the file, in the `XMLModifier`. Along every run
of calls that name nodes by their tokens and places and give `MEET` the value of `MIET`, a reader of
the file finds what the modifier has (`inStep_of_run`). After a call with another value for `MEET` it
does not (`Tracks.inStep_iff`), as the method stores `MIET` in its place.
-/

namespace Hipert.Rtdot

variable {Double : Type}

/-! ## The property -/

variable (J : JavaLang Double)

/-- A new `XMLModifier` that reads the file has the attributes that the modifier has. -/
def InStep (s : Session Double) : Prop :=
  ∃ m : Modifier Double, readContents J s.contents {} = .ok ⟨⟩ m ∧
    m.dag.numbers = s.modifier.dag.numbers ∧ m.dag.rest = s.modifier.dag.rest ∧
    m.nodes.map Node.attributes = s.modifier.nodes.map Node.attributes

/-- No token ends with another. -/
def SuffixFree (ids : List Text) : Prop := ids.Pairwise fun t u => ¬ t <:+ u ∧ ¬ u <:+ t

/-- The call names a node by its token and its place, and its values are well-formed. -/
structure Args.Names (ids : List Text) (a : Args) : Prop where
  formed : a.WellFormed
  named : ids[a.index.toNat]? = some a.nodeName

/-- A call that returns, for a node whose name does not begin like task 0, with values that are read
as `modifyXML` stores them. -/
def Edits (ids : List Text) (s s' : Session Double) : Prop :=
  ∃ a : Args, a.Names ids ∧ a.nodeName.head? ≠ some '0' ∧ a.ReadsAs J a.MIET ∧
    Session.modifyXML J a s = .ok ⟨⟩ s'

variable {J}

/-! ## One call -/

/-- The file has the nodes with these tokens, and the modifier is in step with it. -/
def Tracks (J : JavaLang Double) (ids : List Text) (s : Session Double) : Prop :=
  ∃ first ls, InForm (readLines s.contents) first ls ∧ tokens ls = ids ∧ InStep J s

theorem suffixFree_cons {t : Text} {ids : List Text} :
    SuffixFree (t :: ids) ↔ (∀ u ∈ ids, ¬ t <:+ u ∧ ¬ u <:+ t) ∧ SuffixFree ids :=
  List.pairwise_cons

/-- The tokens stay. -/
theorem map_suffixFree {ids : List Text} (free : SuffixFree ids) {name : Text} (mem : name ∈ ids) :
    (ids.map fun token => if name <:+ token then name else token) = ids := by
  induction ids with
  | nil => rfl
  | cons t ids ih =>
      obtain ⟨apart, free⟩ := suffixFree_cons.mp free
      rw [List.map_cons]
      rcases List.mem_cons.mp mem with rfl | mem
      · have others : (ids.map fun token => if name <:+ token then name else token) = ids := by
          apply (List.map_congr_left fun u later => if_neg (apart u later).1).trans
          exact List.map_id _
        rw [if_pos (List.suffix_refl name), others]
      · rw [if_neg (apart name mem).2, ih free mem]

/-- Replacing by token and storing at the place of the token give the same attributes if and only if
both give the same attributes to this node. -/
theorem attributes_modify_iff {entries : List (Text × Node Double)} {nodes : List (Node Double)}
    {name : Text} {new : Node Double} {f : Node Double → Node Double} {index : ℕ}
    {stored : ℤ × Double × Double × Double × ℤ × Text}
    (free : SuffixFree (entries.map Prod.fst)) (here : (entries.map Prod.fst)[index]? = some name)
    (same : (entries.map Prod.snd).map Node.attributes = nodes.map Node.attributes)
    (stores : ∀ node, (f node).attributes = stored) :
    (entries.map fun p => if name <:+ p.1 then new else p.2).map Node.attributes =
      (nodes.modify index f).map Node.attributes ↔ new.attributes = stored := by
  induction entries generalizing nodes index with
  | nil => cases here
  | cons p entries ih =>
      cases nodes with
      | nil => cases same
      | cons node nodes =>
          obtain ⟨apart, free⟩ := suffixFree_cons.mp free
          obtain ⟨first, rest⟩ := List.cons.inj same
          cases index with
          | zero =>
              have own : p.1 = name := Option.some.inj here
              have others : (entries.map fun p => if name <:+ p.1 then new else p.2) =
                  entries.map Prod.snd := by
                apply List.map_congr_left
                intro q mem
                rw [← own]
                exact if_neg (apart q.1 (List.mem_map_of_mem mem)).1
              rw [List.map_cons, List.map_cons, if_pos (by rw [own]), others, rest,
                List.modify_zero_cons, List.map_cons, stores]
              exact List.cons_eq_cons.trans (and_iff_left rfl)
          | succ index =>
              have later : (entries.map Prod.fst)[index]? = some name := here
              have other : ¬ name <:+ p.1 := (apart name (List.mem_of_getElem? later)).2
              rw [List.map_cons, List.map_cons, if_neg other, List.modify_succ_cons, List.map_cons,
                ← first]
              exact (List.cons_eq_cons.trans (and_iff_right rfl)).trans (ih free later rest)

/-- After a call the modifier is in step with the file if and only if the name does not begin like
task 0 and the values are read as they are stored, with `MIET` in place of `MEET`. -/
theorem Tracks.inStep_iff (locale : AsciiCase J) {ids : List Text} (free : SuffixFree ids) {a : Args}
    {s s' : Session Double} (tracks : Tracks J ids s) (names : a.Names ids)
    (returned : Session.modifyXML J a s = .ok ⟨⟩ s') :
    InStep J s' ↔ a.nodeName.head? ≠ some '0' ∧ a.ReadsAs J a.MIET := by
  rcases tracks with ⟨first, ls, form, rfl, m, read, numbers, rest, nodes⟩
  have present : a.nodeName ∈ tokens ls := List.mem_of_getElem? names.named
  rcases exists_given returned with ⟨n, period, priority, deadline, map, gives, settings, rfl⟩
  by_cases zero : a.nodeName.head? = some '0'
  · refine iff_of_false ?_ fun both => both.1 zero
    intro given
    rcases given with ⟨m', fresh, -, -, nodes'⟩
    have fewer := length_readContents_lt form names.formed zero present read fresh
    have lengths := congrArg List.length nodes
    have lengths' := congrArg List.length nodes'
    simp only [List.length_map, List.length_modify] at lengths lengths'
    omega
  rw [and_iff_right zero]
  by_cases readable : ∃ found, a.readNode J = some found
  case neg =>
    apply iff_of_false
    · intro given
      rcases given with ⟨m', fresh, -⟩
      exact readable (exists_readNode_of_readContents locale form names.formed zero present fresh)
    · exact fun same => readable (exists_readNode gives same)
  obtain ⟨found, line⟩ := readable
  obtain ⟨entries, dag, tokens_eq, nodes_eq, -, fresh, numbers', rest'⟩ :=
    exists_readContents locale form names.formed zero line settings read
  rw [nodes_eq] at nodes
  have same :
      (entries.map fun p => if a.nodeName <:+ p.1 then found else p.2).map Node.attributes =
          (s.modifier.nodes.modify a.index.toNat fun node =>
            { n with comment := node.comment }).map Node.attributes ↔
        found.attributes = n.attributes :=
    attributes_modify_iff (tokens_eq ▸ free) (tokens_eq ▸ names.named) nodes fun _ => rfl
  rw [← attributes_readNode_iff gives line, ← same]
  refine ⟨?_, ?_⟩
  · intro given
    rcases given with ⟨m', fresh', -, -, nodes'⟩
    cases fresh.symm.trans fresh'
    exact nodes'
  · exact fun nodes' => ⟨_, fresh, numbers', rest'.trans rest, nodes'⟩

/-- **Step lemma.** Such a call keeps the modifier in step with the file. -/
theorem Tracks.step (locale : AsciiCase J) {ids : List Text} (free : SuffixFree ids)
    {s s' : Session Double} (tracks : Tracks J ids s) (edits : Edits J ids s s') :
    Tracks J ids s' := by
  obtain ⟨a, names, head, same, returned⟩ := edits
  have inStep := (tracks.inStep_iff locale free names returned).mpr ⟨head, same⟩
  rcases tracks with ⟨first, ls, form, rfl, _⟩
  refine ⟨first, ls.map a.rewrite, ?_, ?_, inStep⟩
  · rw [Session.contents_modifyXML J returned]
    exact inForm_newContents names.formed head form
  · rw [tokens_rewrite]
    exact map_suffixFree free (List.mem_of_getElem? names.named)

/-! ## Runs -/

/-- **Runs.** The modifier that has read a file in this form, in which no token ends with another,
is in step with the file along every run of such calls. -/
theorem inStep_of_run (locale : AsciiCase J) {s s' : Session Double} {first : Text} {ls : List Line}
    (form : InForm (readLines s.contents) first ls) (free : SuffixFree (tokens ls))
    (read : readContents J s.contents {} = .ok ⟨⟩ s.modifier)
    (run : Relation.ReflTransGen (Edits J (tokens ls)) s s') : InStep J s' := by
  have tracks : Tracks J (tokens ls) s' := by
    induction run with
    | refl => exact ⟨first, ls, form, rfl, s.modifier, read, rfl, rfl, rfl⟩
    | tail _ edits ih => exact ih.step locale free edits
  obtain ⟨_, _, -, -, inStep⟩ := tracks
  exact inStep

/-- New values for the node 1, with one number for `MIET` and `MEET`. -/
def evenOne : Args := { editOne with MEET := "7".toList }

theorem evenOne_names : evenOne.Names (tokens (twoLines "2")) where
  formed := { editOne_wellFormed with MEET := by decide }
  named := by decide

theorem evenOne_readsAs : evenOne.ReadsAs asciiLang evenOne.MIET :=
  { editOne_readsAs with MEET := rfl }

theorem suffixFree_two : SuffixFree (tokens (twoLines "2")) := by
  unfold SuffixFree
  decide

theorem inStep_of_run_two :
    InStep asciiLang (Exec.leaves (Session.modifyXML asciiLang evenOne) (twoNodesSession "2")) :=
  inStep_of_run (s := twoNodesSession "2") asciiCase_asciiLang twoNodes_inForm_two suffixFree_two
    (twoNodes_read (by decide +kernel))
    (.single ⟨evenOne, evenOne_names, by decide, evenOne_readsAs, Exec.ok_leaves (by decide +kernel)⟩)

/-- The node 1 gets 8 for `MEET` in the file and 7 in the modifier. -/
theorem editedOne_not_inStep :
    InForm (readLines (twoNodesSession "2").contents) "digraph G \x7b".toList (twoLines "2") ∧
      SuffixFree (tokens (twoLines "2")) ∧
      readContents asciiLang (twoNodesSession "2").contents {} =
        .ok ⟨⟩ (twoNodesSession "2").modifier ∧
      editOne.Names (tokens (twoLines "2")) ∧ editOne.ReadsAs asciiLang editOne.MEET ∧
      Session.modifyXML asciiLang editOne (twoNodesSession "2") = .ok ⟨⟩ (editedOne "2") ∧
      ¬ InStep asciiLang (editedOne "2") := by
  refine ⟨twoNodes_inForm_two, suffixFree_two, twoNodes_read (by decide +kernel),
    ⟨editOne_wellFormed, by decide⟩, editOne_readsAs, editedOne_returned (by decide +kernel), ?_⟩
  intro given
  rcases given with ⟨m, read, -, -, nodes⟩
  have memory : (editedOne "2").modifier.nodes.map Node.wcet = [7, 20] := by decide +kernel
  have file : (Exec.stateAfter (readContents asciiLang (editedOne "2").contents) {}).map
      (fun m => m.nodes.map Node.wcet) = some [8, 20] := by decide +kernel
  have same : m.nodes.map Node.wcet = (editedOne "2").modifier.nodes.map Node.wcet := by
    have wcets := congrArg (List.map fun x => x.2.2.1) nodes
    rw [List.map_map, List.map_map] at wcets
    exact wcets
  rw [Exec.stateAfter_eq_some.mpr read, Option.map_some, same, memory] at file
  revert file
  decide

end Hipert.Rtdot
