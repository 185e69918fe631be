import Hipert.Rtdot.Effects

/-!
# Where the two readers agree

`XMLGenerator` takes the value of an attribute only if something follows it after a comma, and skips
comments; `XMLModifier` does neither. Line by line (`exists_effect`), the readers find the same edges,
nodes with the same ids, and nodes with the same values exactly if each value is followed so or is
the default (`NodeLineAgrees`). Their settings agree exactly if the last period line of the file and
the last one outside comments set the same numbers (`lastSettings`).
-/

namespace Hipert.Rtdot

variable {Double : Type} {J : JavaLang Double}

/-! ## The condition -/

section Condition

variable (J)

/-- Behind the first `attr=` there is a comma with something after it. -/
def CommaAfter (attr text : Text) : Prop :=
  2 ≤ (split ",".toList ((split (attr ++ "=".toList) text).getD 1 [])).length

/-- The unit on a node line, as `XMLModifier` takes it. -/
def unitOf (text : Text) : Text :=
  J.toUpperCase (replaceChar ']' [] ((valueAfter "unit=".toList text).getD []))

/-- Each value of the node line is followed by a comma or is the default, and the unit is not blank
where a comma follows it. -/
structure NodeLineAgrees (text : Text) : Prop where
  miet : CommaAfter "miet".toList text ∨
    (valueAfter "miet=".toList text).bind J.parseDouble = some J.negOne
  meet : CommaAfter "meet".toList text ∨
    (valueAfter "meet=".toList text).bind J.parseDouble = some J.negOne
  maet : CommaAfter "maet".toList text ∨
    (valueAfter "maet=".toList text).bind J.parseDouble = some J.negOne
  mem : CommaAfter "mem".toList text ∨ (valueAfter "mem=".toList text).bind (parseInt J) = some 0
  unit : (CommaAfter "unit".toList text ∧ J.isEmpty (unitOf J text) = false) ∨
    unitOf J text = "B".toList

/-- A line that both readers take for a node unless they skip it. -/
def IsNodeLine (line : Text) : Prop :=
  isGraphLine line = true ∧ contains "->".toList (trim line) = false

/-- The period, priority, deadline and map after a line. -/
def settingsAfter (numbers : ℤ × ℤ × ℤ × ℤ) (line : Text) : ℤ × ℤ × ℤ × ℤ :=
  if isGraphLine line then numbers
  else if contains "period".toList line then
    match settingsOf J line with
    | some (.settings period priority deadline map) => (period, priority, deadline, map)
    | _ => numbers
  else numbers

/-- The numbers of the last period line, or zeros. -/
def lastSettings (lines : List Text) : ℤ × ℤ × ℤ × ℤ := lines.foldl (settingsAfter J) (0, 0, 0, 0)

/-- The node lines agree, and the last period line and the last one outside comments set the same
numbers. -/
structure LinesAgree (lines : List Text) : Prop where
  nodes : ∀ line ∈ lines, IsNodeLine line → NodeLineAgrees J (unquoted J (trim line))
  settings : lastSettings J (lines.filter fun line => !isComment line) = lastSettings J lines

/-- The lines after the first agree, if the file is there. -/
def FileAgrees (file : Option (List Text)) : Prop :=
  ∀ lines, file = some lines → LinesAgree J lines.tail

end Condition

/-- The generator's only DAG and its lists hold what the modifier holds. -/
def Generator.Agrees (g : Generator Double) (m : Modifier Double) : Prop :=
  ∃ d, g.dags = [d] ∧ d.dagName = m.dag.dagName ∧ d.numbers = m.dag.numbers ∧
    g.edges = m.edges ∧ g.nodes = m.nodes

/-! ## One attribute -/

theorem replaceChar_nil_subset (c : Char) (s : Text) : replaceChar c [] s ⊆ s := by
  intro x mem
  obtain ⟨y, here, mem⟩ := List.mem_flatMap.mp mem
  split at mem
  · cases mem
  · cases List.mem_singleton.mp mem
    exact here

theorem toLowerCase_unquoted (line : Text) : J.toLowerCase (unquoted J line) = unquoted J line :=
  J.toLowerCase_of_subset line _ (replaceChar_nil_subset _ _)

theorem maybeGetVal_cases {line attr value : Text} (lower : J.toLowerCase line = line)
    (here : valueAfter (attr ++ "=".toList) line = some value) :
    (CommaAfter attr line ∧ Generator.maybeGetVal J line attr = value) ∨
      (¬ CommaAfter attr line ∧ Generator.maybeGetVal J line attr = []) := by
  obtain ⟨rest, second, first⟩ := Option.bind_eq_some_iff.mp here
  have long : ¬ (split (attr ++ "=".toList) line).length < 2 := by
    have inside := (List.getElem?_eq_some_iff.mp second).1
    omega
  have rest_eq : (split (attr ++ "=".toList) line).getD 1 [] = rest := by
    rw [List.getD_eq_getElem?_getD, second]
    rfl
  have value_eq : (split ",".toList rest).getD 0 [] = value := by
    rw [List.getD_eq_getElem?_getD, first]
    rfl
  have val : Generator.maybeGetVal J line attr =
      if (split ",".toList rest).length < 2 then [] else value := by
    unfold Generator.maybeGetVal
    rw [lower, if_neg long, rest_eq]
    dsimp only
    rw [value_eq]
  unfold CommaAfter
  rw [rest_eq, val]
  by_cases comma : 2 ≤ (split ",".toList rest).length
  · exact Or.inl ⟨comma, if_neg (by omega)⟩
  · exact Or.inr ⟨comma, if_pos (by omega)⟩

theorem getValDouble_eq_iff (attr : Text) {line : Text} {x : Double} (lower : J.toLowerCase line = line)
    (here : (valueAfter (attr ++ "=".toList) line).bind J.parseDouble = some x) :
    Generator.getValDouble J line attr J.negOne = x ↔
      CommaAfter attr line ∨
        (valueAfter (attr ++ "=".toList) line).bind J.parseDouble = some J.negOne := by
  obtain ⟨value, found, parsed⟩ := Option.bind_eq_some_iff.mp here
  unfold Generator.getValDouble
  rw [here]
  rcases maybeGetVal_cases lower found with ⟨comma, val⟩ | ⟨none, val⟩
  · rw [val, parsed]
    exact iff_of_true rfl (Or.inl comma)
  · rw [val, J.parseDouble_nil, or_iff_right none, Option.some.injEq]
    exact eq_comm

theorem getValInt_eq_iff (attr : Text) {line : Text} {n : ℤ} (lower : J.toLowerCase line = line)
    (here : (valueAfter (attr ++ "=".toList) line).bind (parseInt J) = some n) :
    Generator.getValInt J line attr 0 = n ↔
      CommaAfter attr line ∨ (valueAfter (attr ++ "=".toList) line).bind (parseInt J) = some 0 := by
  obtain ⟨value, found, parsed⟩ := Option.bind_eq_some_iff.mp here
  unfold Generator.getValInt
  rw [here]
  rcases maybeGetVal_cases lower found with ⟨comma, val⟩ | ⟨none, val⟩
  · rw [val, parsed]
    exact iff_of_true rfl (Or.inl comma)
  · rw [val, parseInt_nil, or_iff_right none, Option.some.injEq]
    exact eq_comm

theorem memUnit_eq_iff {line unit : Text} (lower : J.toLowerCase line = line)
    (here : valueAfter "unit=".toList line = some unit) :
    Generator.memUnit J line = J.toUpperCase (replaceChar ']' [] unit) ↔
      (CommaAfter "unit".toList line ∧ J.isEmpty (unitOf J line) = false) ∨
        unitOf J line = "B".toList := by
  have unit_eq : J.toUpperCase (replaceChar ']' [] unit) = unitOf J line := by
    rw [unitOf, here]
    rfl
  have found : valueAfter ("unit".toList ++ "=".toList) line = some unit := here
  unfold Generator.memUnit
  rcases maybeGetVal_cases lower found with ⟨comma, val⟩ | ⟨none, val⟩
  · rw [val, unit_eq]
    by_cases blank : J.isEmpty (unitOf J line) = true
    · rw [if_pos blank]
      refine ⟨?_, ?_⟩
      · exact fun eq => Or.inr eq.symm
      · rintro (⟨-, filled⟩ | eq)
        · rw [blank] at filled
          cases filled
        · exact eq.symm
    · rw [if_neg blank]
      exact iff_of_true rfl (Or.inl ⟨comma, Bool.not_eq_true _ ▸ blank⟩)
  · have nothing : J.toUpperCase (replaceChar ']' [] []) = [] := J.toUpperCase_nil
    have empty : J.isEmpty [] = true := J.isEmpty_eq []
    rw [val, unit_eq, nothing, if_pos empty]
    refine ⟨?_, ?_⟩
    · exact fun eq => Or.inr eq.symm
    · rintro (⟨comma, -⟩ | eq)
      · exact absurd comma none
      · exact eq.symm

/-- The readers find nodes with the same id, and the same node exactly if the line agrees. -/
theorem Modifier.nodeOf_agrees {line : Text} {n : Node Double} (read : nodeOf J line = some n) :
    ∃ n', Generator.nodeOf J line = some n' ∧ (n' = n ↔ NodeLineAgrees J (unquoted J line)) := by
  have lower := toLowerCase_unquoted (J := J) line
  unfold nodeOf at read
  obtain ⟨miet, a, read⟩ := Option.bind_eq_some_iff.mp read
  obtain ⟨meet, b, read⟩ := Option.bind_eq_some_iff.mp read
  obtain ⟨maet, c, read⟩ := Option.bind_eq_some_iff.mp read
  obtain ⟨mem, e, read⟩ := Option.bind_eq_some_iff.mp read
  obtain ⟨unit, f, read⟩ := Option.bind_eq_some_iff.mp read
  obtain ⟨nodeID, g, read⟩ := Option.bind_eq_some_iff.mp read
  cases read
  refine ⟨_, Option.bind_eq_some_iff.mpr ⟨nodeID, g, rfl⟩, ?_⟩
  have miet_iff := getValDouble_eq_iff "miet".toList lower a
  have meet_iff := getValDouble_eq_iff "meet".toList lower b
  have maet_iff := getValDouble_eq_iff "maet".toList lower c
  have mem_iff := getValInt_eq_iff "mem".toList lower e
  have unit_iff := memUnit_eq_iff lower f
  rw [Node.mk.injEq]
  refine ⟨?_, ?_⟩
  · intro given
    rcases given with ⟨-, eq_miet, eq_meet, eq_maet, eq_mem, eq_unit, -⟩
    exact ⟨miet_iff.mp eq_miet, meet_iff.mp eq_meet, maet_iff.mp eq_maet, mem_iff.mp eq_mem,
      unit_iff.mp eq_unit⟩
  · intro agrees
    exact ⟨rfl, miet_iff.mpr agrees.miet, meet_iff.mpr agrees.meet, maet_iff.mpr agrees.maet,
      mem_iff.mpr agrees.mem, unit_iff.mpr agrees.unit, rfl⟩

/-! ## One line -/

theorem exists_solidus_of_isComment {line : Text} (comment : isComment line = true) :
    ∃ t, trim line = '/' :: t := by
  unfold isComment startsWith at comment
  obtain ⟨rest, eq⟩ := List.isPrefixOf_iff_prefix.mp comment
  exact ⟨_, eq.symm⟩

/-- A comment is no edge and no node to `XMLModifier`: it throws instead. -/
theorem isGraphLine_of_isComment {line : Text} {eff : Effect Double}
    (read : Modifier.lineEffect J line = some eff) (comment : isComment line = true) :
    isGraphLine line = false := by
  obtain ⟨t, eq⟩ := exists_solidus_of_isComment comment
  by_contra graph
  rw [Bool.not_eq_false] at graph
  unfold Modifier.lineEffect effectOf at read
  rw [if_pos graph, eq] at read
  split at read
  · obtain ⟨e, edge, -⟩ := Option.map_eq_some_iff.mp read
    unfold edgeOf at edge
    obtain ⟨src, number, -⟩ := Option.bind_eq_some_iff.mp edge
    obtain ⟨p, trimmed_first, number⟩ := Option.bind_eq_some_iff.mp number
    rcases Option.map_eq_some_iff.mp trimmed_first with ⟨q, first, rfl⟩
    rcases head_split (by decide) (by decide) first with ⟨s, rfl⟩
    obtain ⟨s', trimmed⟩ := trim_cons s (c := '/') (by decide)
    rw [trimmed, parseInt_solidus] at number
    cases number
  · obtain ⟨n, node, -⟩ := Option.map_eq_some_iff.mp read
    unfold Modifier.nodeOf at node
    obtain ⟨_, _, node⟩ := Option.bind_eq_some_iff.mp node
    obtain ⟨_, _, node⟩ := Option.bind_eq_some_iff.mp node
    obtain ⟨_, _, node⟩ := Option.bind_eq_some_iff.mp node
    obtain ⟨_, _, node⟩ := Option.bind_eq_some_iff.mp node
    obtain ⟨_, _, node⟩ := Option.bind_eq_some_iff.mp node
    obtain ⟨nodeID, number, -⟩ := Option.bind_eq_some_iff.mp node
    obtain ⟨p, first, number⟩ := Option.bind_eq_some_iff.mp number
    obtain ⟨low, lower⟩ := J.toLowerCase_solidus t
    have unquoted_eq : unquoted J ('/' :: t) = '/' :: replaceChar '\"' [] low := by
      rw [unquoted, lower]
      rfl
    rw [unquoted_eq] at first
    rcases head_split (by decide) (by decide) first with ⟨s, rfl⟩
    rw [parseInt_solidus] at number
    cases number

/-- A blank line makes `XMLModifier` throw. -/
theorem isEmpty_eq_false {line : Text} {eff : Effect Double}
    (read : Modifier.lineEffect J line = some eff) : J.isEmpty line = false := by
  by_contra blank
  rw [Bool.not_eq_false] at blank
  have nothing : trim line = [] := List.isEmpty_iff.mp (J.isEmpty_eq line ▸ blank)
  have all := blank_of_trim nothing
  have graph : isGraphLine line = true := by
    unfold isGraphLine
    rw [Bool.and_eq_true, Bool.not_eq_true', Bool.not_eq_true']
    refine ⟨?_, ?_⟩
    · by_contra zero
      rw [Bool.not_eq_false] at zero
      have pre := List.isPrefixOf_iff_prefix.mp zero
      cases all '0' (pre.subset (by decide))
    · by_contra brace
      rw [Bool.not_eq_false] at brace
      cases all '\x7d' (subset_of_contains brace (by decide))
  unfold Modifier.lineEffect effectOf at read
  rw [if_pos graph, nothing, if_neg (by decide)] at read
  obtain ⟨n, node, -⟩ := Option.map_eq_some_iff.mp read
  unfold Modifier.nodeOf at node
  obtain ⟨miet, value, -⟩ := Option.bind_eq_some_iff.mp node
  obtain ⟨p, found, -⟩ := Option.bind_eq_some_iff.mp value
  have unquoted_nil : unquoted J [] = [] := by rw [unquoted, toLowerCase_nil]; rfl
  rw [unquoted_nil] at found
  cases found

/-- What the two readers take from one line. -/
inductive LineStep (J : JavaLang Double) (line : Text) : Effect Double → Effect Double → Prop
  /-- A comment, which may only have settings for `XMLModifier`. -/
  | comment {eff : Effect Double} : isComment line = true → ¬ IsNodeLine line →
    eff.edges = [] → eff.nodes = [] → LineStep J line eff .nothing
  /-- A node, with the same values if the line agrees. -/
  | node {n n' : Node Double} : isComment line = false → IsNodeLine line →
    (n' = n ↔ NodeLineAgrees J (unquoted J (trim line))) → LineStep J line (.node n) (.node n')
  | same {eff : Effect Double} : isComment line = false → ¬ IsNodeLine line → eff.nodes = [] →
    LineStep J line eff eff

theorem Generator.lineEffect_eq {line : Text} (filled : J.isEmpty line = false)
    (not_comment : isComment line = false) :
    lineEffect J line = effectOf J (nodeOf J) line := by
  unfold lineEffect
  rw [filled, not_comment]
  rfl

/-- **Step lemma.** Where `XMLModifier` reads a line, `XMLGenerator` does. -/
theorem exists_effect {line : Text} {eff : Effect Double}
    (read : Modifier.lineEffect J line = some eff) :
    ∃ eff', Generator.lineEffect J line = some eff' ∧ LineStep J line eff eff' := by
  have filled := isEmpty_eq_false read
  unfold Generator.lineEffect
  rw [filled, Bool.false_or]
  by_cases comment : isComment line = true
  · have graph := isGraphLine_of_isComment read comment
    rw [if_pos comment]
    refine ⟨_, rfl, ?_⟩
    have not_node : ¬ IsNodeLine line := fun node => by cases graph.symm.trans node.1
    unfold Modifier.lineEffect effectOf at read
    rw [if_neg (by simp [graph])] at read
    split at read
    · rcases exists_settings read with ⟨_, _, _, _, rfl⟩
      exact .comment comment not_node rfl rfl
    · cases read
      exact .comment comment not_node rfl rfl
  · have not_comment := Bool.not_eq_true _ ▸ comment
    rw [if_neg comment]
    unfold Modifier.lineEffect at read
    unfold effectOf at read ⊢
    by_cases graph : isGraphLine line = true
    · rw [if_pos graph] at read ⊢
      by_cases arrow : contains "->".toList (trim line) = true
      · rw [if_pos arrow] at read ⊢
        rcases Option.map_eq_some_iff.mp read with ⟨e, edge, rfl⟩
        refine ⟨_, read, .same not_comment (fun node => ?_) rfl⟩
        cases arrow.symm.trans node.2
      · rw [if_neg arrow] at read ⊢
        rcases Option.map_eq_some_iff.mp read with ⟨n, node, rfl⟩
        obtain ⟨n', node', agrees⟩ := Modifier.nodeOf_agrees node
        exact ⟨_, Option.map_eq_some_iff.mpr ⟨n', node', rfl⟩,
          .node not_comment ⟨graph, Bool.not_eq_true _ ▸ arrow⟩ agrees⟩
    · rw [if_neg graph] at read ⊢
      have not_node : ¬ IsNodeLine line := fun node => graph node.1
      refine ⟨eff, read, .same not_comment not_node ?_⟩
      split at read
      · rcases exists_settings read with ⟨_, _, _, _, rfl⟩
        rfl
      · cases read
        rfl

/-! ## All lines -/

theorem numbers_onDag {line : Text} {eff : Effect Double} (d : DAG)
    (nodeOf : Text → Option (Node Double)) (read : effectOf J nodeOf line = some eff) :
    (eff.onDag d).numbers = settingsAfter J d.numbers line := by
  unfold effectOf at read
  unfold settingsAfter
  by_cases graph : isGraphLine line = true
  · rw [if_pos graph] at read ⊢
    split at read
    · rcases Option.map_eq_some_iff.mp read with ⟨e, -, rfl⟩
      rfl
    · rcases Option.map_eq_some_iff.mp read with ⟨n, -, rfl⟩
      rfl
  · rw [if_neg graph] at read ⊢
    by_cases period : contains "period".toList line = true
    · rw [if_pos period] at read ⊢
      rcases exists_settings read with ⟨_, _, _, _, rfl⟩
      rw [read]
      rfl
    · rw [if_neg period] at read ⊢
      cases read
      rfl

/-- **Run lemma.** Where `XMLModifier` reads all lines, `XMLGenerator` does, with the same edges, and
with the same nodes exactly if all node lines agree. -/
theorem exists_effects {lines : List Text} {effs : List (Effect Double)}
    (read : List.Forall₂ (fun line eff => Modifier.lineEffect J line = some eff) lines effs) :
    ∃ effs', List.Forall₂ (fun line eff => Generator.lineEffect J line = some eff) lines effs' ∧
      effs'.flatMap Effect.edges = effs.flatMap Effect.edges ∧
      (effs'.flatMap Effect.nodes = effs.flatMap Effect.nodes ↔
        ∀ line ∈ lines, IsNodeLine line → NodeLineAgrees J (unquoted J (trim line))) ∧
      (∀ d, (effs.foldl Effect.onDag d).numbers = lines.foldl (settingsAfter J) d.numbers) ∧
      ∀ d, (effs'.foldl Effect.onDag d).numbers =
        (lines.filter fun line => !isComment line).foldl (settingsAfter J) d.numbers := by
  induction read with
  | nil => exact ⟨[], .nil, rfl, by simp, fun _ => rfl, fun _ => rfl⟩
  | @cons line eff lines effs first _ ih =>
      obtain ⟨effs', read', edges, nodes, numbers, numbers'⟩ := ih
      obtain ⟨eff', first', step⟩ := exists_effect first
      have filled := isEmpty_eq_false first
      refine ⟨eff' :: effs', .cons first' read', ?_, ?_, fun d => ?_, fun d => ?_⟩
      · rw [List.flatMap_cons, List.flatMap_cons, edges]
        cases step with
        | comment _ _ no_edges => rw [no_edges]; rfl
        | node => rfl
        | same => rfl
      · rw [List.flatMap_cons, List.flatMap_cons, List.forall_mem_cons, ← nodes]
        cases step with
        | comment _ not_node _ no_nodes =>
            rw [no_nodes]
            exact (and_iff_right fun node => absurd node not_node).symm
        | node _ node agrees =>
            refine (List.cons_eq_cons (b := _)).trans ?_
            rw [agrees]
            exact and_congr_left fun _ => ⟨fun holds _ => holds, fun holds => holds node⟩
        | same _ not_node no_nodes =>
            rw [no_nodes]
            exact (and_iff_right fun node => absurd node not_node).symm
      · rw [List.foldl_cons, List.foldl_cons, numbers, numbers_onDag d _ first]
      · rw [List.foldl_cons, numbers']
        cases step with
        | comment comment =>
            rw [List.filter_cons_of_neg (by simp [comment])]
            rfl
        | node not_comment =>
            rw [Generator.lineEffect_eq filled not_comment] at first'
            rw [List.filter_cons_of_pos (by simp [not_comment]), List.foldl_cons,
              numbers_onDag d _ first']
        | same not_comment =>
            rw [Generator.lineEffect_eq filled not_comment] at first'
            rw [List.filter_cons_of_pos (by simp [not_comment]), List.foldl_cons,
              numbers_onDag d _ first']

/-! ## Whole files -/

/-- **Agreement of the readers.** Where `XMLModifier` reads a DOT file without an exception,
`XMLGenerator` reads it to the same name, settings, edges and nodes if and only if the values on the
node lines are followed by commas or default, and the last period line is no comment or repeats the
settings. -/
theorem readDOTFile_agree_iff {disk : Text → Option (List Text)} {filename : Text}
    {m : Modifier Double} (returned : Modifier.readDOTFile J disk filename {} = .ok ⟨⟩ m)
    (path : Text) (mem_access : MemAccess) (step stride : ℤ) (sched part out : Text) :
    (∃ g, Generator.readDOTFile J disk filename 0
        { dags := [DAG.new path mem_access step stride sched part out] } = .ok ⟨⟩ g ∧
      g.Agrees m) ↔ FileAgrees J (disk filename) := by
  rcases Modifier.readDOTFile_ok.mp returned with ⟨r, reads, rfl⟩
  have valid : 0 < ({ dags := [DAG.new path mem_access step stride sched part out] } :
    Generator Double).dags.length := Nat.one_pos
  simp only [Generator.readDOTFile_ok valid]
  unfold FileAgrees
  generalize disk filename = file at reads ⊢
  cases reads with
  | missing =>
      refine iff_of_true ⟨_, ⟨none, .missing, rfl⟩, ?_⟩ (fun _ h => nomatch h)
      exact ⟨_, rfl, rfl, rfl, rfl, rfl⟩
  | @lines first name rest effs second all =>
      obtain ⟨effs', all', edges, nodes, numbers, numbers'⟩ := exists_effects all
      have left := numbers' { DAG.new path mem_access step stride sched part out with
        dagName := some name }
      have right := numbers { dagName := some name }
      refine ⟨?_, ?_⟩
      · rintro ⟨_, ⟨r, reads', rfl⟩, d, dags, -, same, -, same_nodes⟩ _ ⟨⟩
        cases reads' with
        | lines second' all'' =>
            cases second.symm.trans second'
            cases readings_unique all' all''
            cases dags
            exact ⟨nodes.mp same_nodes, left.symm.trans (same.trans right)⟩
      · intro agrees
        have holds := agrees _ rfl
        refine ⟨_, ⟨_, .lines second all', rfl⟩, _, rfl, ?_, ?_, edges, nodes.mpr holds.nodes⟩
        · exact (dagName_foldl _ effs').trans (dagName_foldl { dagName := some name } effs).symm
        · exact left.trans (holds.settings.trans right.symm)

/-- A file with one node, whose unit has another attribute behind it. -/
def unitInside (_ : Text) : Option (List Text) :=
  some ["digraph G3 \x7b".toList,
    "\t0 [period=1500, priority=50, deadline=1500, map=0]".toList,
    "\t1 [MIET=\"54\", MEET=\"54\", MAET=\"54\", MEM=\"100\", UNIT=\"KB\", style=invis]".toList,
    "\x7d".toList]

/-- What `XMLModifier` reads from `unitInside`. -/
def unitInsideModifier : Modifier ℤ :=
  Exec.leaves (Modifier.readDOTFile asciiLang unitInside []) {}

theorem readDOTFile_agree_iff_unitInside :
    ∃ g, Generator.readDOTFile asciiLang unitInside [] 0
        { dags := [DAG.new [] .prem 1 0 [] [] []] } = .ok ⟨⟩ g ∧ g.Agrees unitInsideModifier := by
  have read : Modifier.readDOTFile asciiLang unitInside [] {} = .ok ⟨⟩ unitInsideModifier :=
    Exec.stateAfter_eq_some.mp (by decide +kernel)
  refine (readDOTFile_agree_iff read [] .prem 1 0 [] [] []).mpr ?_
  rintro _ ⟨⟩
  refine ⟨?_, by decide +kernel⟩
  have only : ∀ line ∈ ((unitInside []).getD []).tail, IsNodeLine line →
      line = ((unitInside []).getD []).getD 2 [] := by
    unfold IsNodeLine
    decide +kernel
  intro line mem node
  cases only line mem node
  have comma : ∀ attr ∈ ["miet".toList, "meet".toList, "maet".toList, "mem".toList, "unit".toList],
      CommaAfter attr (unquoted asciiLang (trim (((unitInside []).getD []).getD 2 []))) := by
    unfold CommaAfter
    decide +kernel
  simp only [List.forall_mem_cons] at comma
  obtain ⟨miet, meet, maet, mem, unit, -⟩ := comma
  exact ⟨Or.inl miet, Or.inl meet, Or.inl maet, Or.inl mem, Or.inl ⟨unit, by decide +kernel⟩⟩

/-- A file with one node, whose unit is the last attribute of the line. -/
def unitLast (_ : Text) : Option (List Text) :=
  some ["digraph G3 \x7b".toList,
    "\t0 [period=1500, priority=50, deadline=1500, map=0]".toList,
    "\t1 [MIET=\"54\", MEET=\"54\", MAET=\"54\", MEM=\"100\", UNIT=\"KB\"]".toList,
    "\x7d".toList]

/-- What `XMLModifier` reads from `unitLast`. -/
def unitLastModifier : Modifier ℤ where
  nodes := [⟨1, 54, 54, 54, 100, "KB".toList,
    "1 [miet=&quot;54&quot;, meet=&quot;54&quot;, maet=&quot;54&quot;, ".toList ++
      "mem=&quot;100&quot;, unit=&quot;kb&quot;]".toList⟩]
  dag := {
    dagName := some "G3".toList
    period := 1500
    priority := 50
    deadline := 1500
    comment := some ("1 [miet=&quot;54&quot;, meet=&quot;54&quot;, maet=&quot;54&quot;, ".toList ++
      "mem=&quot;100&quot;, unit=&quot;kb&quot;]".toList) }

theorem unitLast_read :
    Modifier.readDOTFile asciiLang unitLast [] {} = .ok ⟨⟩ unitLastModifier :=
  Exec.stateAfter_eq_some.mp (by decide +kernel)

/-- `XMLModifier` reads the unit `KB`, which `XMLGenerator` takes for bytes. -/
theorem unitLast_lost :
    Modifier.readDOTFile asciiLang unitLast [] {} = .ok ⟨⟩ unitLastModifier ∧
      ¬ ∃ g, Generator.readDOTFile asciiLang unitLast [] 0
        { dags := [DAG.new [] .prem 1 0 [] [] []] } = .ok ⟨⟩ g ∧ g.Agrees unitLastModifier := by
  refine ⟨unitLast_read, ?_⟩
  intro given
  rcases given with ⟨g, returned, d, -, -, -, -, nodes⟩
  have units : (Exec.stateAfter (Generator.readDOTFile asciiLang unitLast [] 0)
      { dags := [DAG.new [] .prem 1 0 [] [] []] }).map
        (fun g => g.nodes.map Node.mem_unit) = some ["B".toList] := by decide +kernel
  rw [Exec.stateAfter_eq_some.mpr returned, Option.map_some, nodes] at units
  exact absurd units (by decide +kernel)

end Hipert.Rtdot
