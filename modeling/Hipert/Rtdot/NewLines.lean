import Hipert.Rtdot.Modify
import Hipert.Lib.AsciiFields
import Hipert.Lib.KeyValue

/-!
# Reading the new lines

`XMLModifier` reads off the lines that `modifyXML` writes the settings that it was given
(`lineEffect_periodLine`) and a node (`lineEffect_nodeLine`), which has the values that were given if
and only if these are the same in their other case (`attributes_readNode_iff`).
-/

namespace Hipert.Rtdot

variable {Double : Type} {J : JavaLang Double}

/-! ## Values -/

/-- The values have none of the characters that separate values or lines, and the integers are in
ASCII digits. -/
structure Args.WellFormed (a : Args) : Prop where
  nodeName : IsNumeral a.nodeName
  period : IsNumeral a.period
  deadline : IsNumeral a.deadline
  priority : IsNumeral a.priority
  map : IsNumeral a.map
  MIET : IsField a.MIET
  MEET : IsField a.MEET
  MAET : IsField a.MAET
  MEM : IsNumeral a.MEM
  MEM_UNIT : FieldText a.MEM_UNIT

section Values

variable (J)

/-- The settings that the values give. -/
def Args.settings (a : Args) : Option (Effect Double) := do
  let period ← parseInt J a.period
  let priority ← parseInt J a.priority
  let deadline ← parseInt J a.deadline
  let map ← parseInt J a.map
  some (.settings period priority deadline map)

/-- The node that the values give. -/
def Args.node (a : Args) : Option (Node Double) := do
  let miet ← J.parseDouble a.MIET
  let meet ← J.parseDouble a.MEET
  let maet ← J.parseDouble a.MAET
  let mem_access ← parseInt J a.MEM
  let nodeID ← parseInt J a.nodeName
  some ⟨nodeID, miet, meet, maet, mem_access, a.MEM_UNIT, commentOf J (trim a.nodeLine)⟩

/-- The node that is read off the new line, where the numbers are in lower case and the unit is put
back into capitals. -/
def Args.readNode (a : Args) : Option (Node Double) := do
  let miet ← J.parseDouble (a.MIET.map Char.toLower)
  let meet ← J.parseDouble (a.MEET.map Char.toLower)
  let maet ← J.parseDouble (a.MAET.map Char.toLower)
  let mem_access ← parseInt J a.MEM
  let nodeID ← parseInt J a.nodeName
  some ⟨nodeID, miet, meet, maet, mem_access, a.MEM_UNIT.map fun c => c.toLower.toUpper,
    commentOf J (trim a.nodeLine)⟩

/-- The attributes of a node. -/
def Node.attributes (n : Node Double) : ℤ × Double × Double × Double × ℤ × Text :=
  (n.nodeID, n.iwcet, n.wcet, n.maet, n.mem_access, n.mem_unit)

/-- A node with the values, and with that of `meet` for `MEET`. -/
structure Args.Gives (a : Args) (meet : Text) (n : Node Double) : Prop where
  nodeID : parseInt J a.nodeName = some n.nodeID
  iwcet : J.parseDouble a.MIET = some n.iwcet
  wcet : J.parseDouble meet = some n.wcet
  maet : J.parseDouble a.MAET = some n.maet
  mem_access : parseInt J a.MEM = some n.mem_access
  mem_unit : n.mem_unit = a.MEM_UNIT

/-- In the case in which they are read the values are the same, with that of `meet` for `MEET`. -/
structure Args.ReadsAs (a : Args) (meet : Text) : Prop where
  MIET : J.parseDouble (a.MIET.map Char.toLower) = J.parseDouble a.MIET
  MEET : J.parseDouble (a.MEET.map Char.toLower) = J.parseDouble meet
  MAET : J.parseDouble (a.MAET.map Char.toLower) = J.parseDouble a.MAET
  MEM_UNIT : (a.MEM_UNIT.map fun c => c.toLower.toUpper) = a.MEM_UNIT

end Values

theorem Node.eq_iff {n n' : Node Double} :
    n = n' ↔ n.attributes = n'.attributes ∧ n.comment = n'.comment := by
  cases n
  cases n'
  simp only [Node.mk.injEq, Node.attributes, Prod.mk.injEq, and_assoc]

theorem gives_of_node {a : Args} {n : Node Double} (node : a.node J = some n) :
    a.Gives J a.MEET n ∧ n.comment = commentOf J (trim a.nodeLine) := by
  unfold Args.node at node
  simp only [Option.bind_eq_bind, Option.bind_eq_some_iff, Option.some.injEq] at node
  rcases node with ⟨_, miet, _, meet, _, maet, _, mem, _, id, rfl⟩
  exact ⟨⟨id, miet, meet, maet, mem, rfl⟩, rfl⟩

theorem exists_node {a : Args} {meet : Text} {n : Node Double} (gives : a.Gives J meet n)
    (number : (J.parseDouble a.MEET).isSome) : ∃ new, a.node J = some new := by
  obtain ⟨x, parsed⟩ := Option.isSome_iff_exists.mp number
  rw [Args.node, gives.iwcet, parsed, gives.maet, gives.mem_access, gives.nodeID]
  exact ⟨_, rfl⟩

section ReadNode

variable {a : Args} {meet : Text} {n found : Node Double}

theorem nodeID_readNode (gives : a.Gives J meet n) (read : a.readNode J = some found) :
    found.nodeID = n.nodeID := by
  unfold Args.readNode at read
  simp only [Option.bind_eq_bind, Option.bind_eq_some_iff, Option.some.injEq] at read
  rcases read with ⟨_, -, _, -, _, -, _, -, _, id, rfl⟩
  exact Option.some.inj (id.symm.trans gives.nodeID)

theorem comment_readNode (read : a.readNode J = some found) :
    found.comment = commentOf J (trim a.nodeLine) := by
  unfold Args.readNode at read
  simp only [Option.bind_eq_bind, Option.bind_eq_some_iff, Option.some.injEq] at read
  rcases read with ⟨_, -, _, -, _, -, _, -, _, -, rfl⟩
  rfl

/-- What is read is what was given if and only if the values are the same in their other case. -/
theorem attributes_readNode_iff (gives : a.Gives J meet n) (read : a.readNode J = some found) :
    found.attributes = n.attributes ↔ a.ReadsAs J meet := by
  unfold Args.readNode at read
  simp only [Option.bind_eq_bind, Option.bind_eq_some_iff, Option.some.injEq] at read
  rcases read with ⟨_, miet, _, meet', _, maet, _, mem, _, id, rfl⟩
  rw [Node.attributes, Node.attributes]
  simp only [Prod.mk.injEq]
  refine ⟨?_, ?_⟩
  · intro given
    rcases given with ⟨-, rfl, rfl, rfl, -, unit⟩
    exact ⟨miet.trans gives.iwcet.symm, meet'.trans gives.wcet.symm, maet.trans gives.maet.symm,
      unit.trans gives.mem_unit⟩
  · intro same
    rw [same.MIET, gives.iwcet] at miet
    rw [same.MEET, gives.wcet] at meet'
    rw [same.MAET, gives.maet] at maet
    rw [gives.mem_access] at mem
    rw [gives.nodeID] at id
    exact ⟨(Option.some.inj id).symm, (Option.some.inj miet).symm, (Option.some.inj meet').symm,
      (Option.some.inj maet).symm, (Option.some.inj mem).symm,
      same.MEM_UNIT.trans gives.mem_unit.symm⟩

theorem exists_readNode (gives : a.Gives J meet n) (same : a.ReadsAs J meet) :
    ∃ found, a.readNode J = some found := by
  rw [Args.readNode, same.MIET, gives.iwcet, same.MEET, gives.wcet, same.MAET, gives.maet,
    gives.mem_access, gives.nodeID]
  exact ⟨_, rfl⟩

end ReadNode

/-! ## Values behind keys -/

/-- The value behind a key, in a line of keys that begin with commas. -/
theorem valueAfter_pairs {name key w k v : Text} {ps : List (Text × Text)} {i : ℕ}
    (sign : key = name ++ ['=']) (picks : PicksKey '=' name (ps.map Prod.fst) i)
    (here : ps[i]? = some (k, v)) (commas : ∀ k ∈ (ps.map Prod.fst).tail, k.head? = some ',')
    (values : ∀ p ∈ ps, IsValue p.2) (free : '=' ∉ w) :
    valueAfter key (w ++ pairsText '=' ps) = some v := by
  obtain ⟨-, comma, filled⟩ := values _ (List.mem_of_getElem? here)
  have rest := split_pairs picks here (fun p mem => (values p mem).1) free filled
  have next : ∀ p ∈ (ps.drop (i + 1)).head?, p.1.head? = some ',' := by
    intro p head
    rw [List.head?_drop] at head
    apply commas
    have later : (ps.map Prod.fst).tail[i]? = some p.1 := by
      rw [List.getElem?_tail, List.getElem?_map, head]
      rfl
    exact List.mem_of_getElem? later
  rw [valueAfter, sign, rest, Option.bind_some]
  exact head_split_comma comma filled next

theorem pairsText_eq (ps : List (Text × Text)) :
    pairsText '=' ps = ps.flatMap fun p => p.1 ++ ("=".toList ++ p.2) := rfl

/-! ## The line of task 0 -/

/-- The keys and values of the line of task 0. -/
def Args.periodPairs (a : Args) : List (Text × Text) :=
  [("period".toList, a.period), (", priority".toList, a.priority),
    (", deadline".toList, a.deadline), (", map".toList, a.map ++ "]".toList)]

theorem periodLine_eq (a : Args) :
    a.periodLine = "\t0 [".toList ++ pairsText '=' a.periodPairs := by
  rw [pairsText_eq]
  unfold Args.periodLine Args.periodPairs
  simp only [List.flatMap_cons, List.flatMap_nil, List.append_assoc, List.append_nil,
    toList_append_toList, String.reduceAppend]

theorem settingsOf_periodLine {a : Args} (formed : a.WellFormed) :
    settingsOf J a.periodLine = a.settings J := by
  have values : ∀ p ∈ a.periodPairs, IsValue p.2 := by
    simp only [Args.periodPairs, List.forall_mem_cons]
    exact ⟨formed.period.isField.isValue, formed.priority.isField.isValue,
      formed.deadline.isField.isValue, formed.map.isField.text.isValue_append,
      fun p mem => nomatch mem⟩
  have keys : a.periodPairs.map Prod.fst =
      ["period".toList, ", priority".toList, ", deadline".toList, ", map".toList] := rfl
  have commas : ∀ k ∈ (a.periodPairs.map Prod.fst).tail, k.head? = some ',' := by
    rw [keys]
    decide
  have value := fun (name key : Text) (i : ℕ) (k v : Text) (sign : key = name ++ ['='])
      (picks : PicksKey '=' name ["period".toList, ", priority".toList, ", deadline".toList,
        ", map".toList] i) (here : a.periodPairs[i]? = some (k, v)) =>
    valueAfter_pairs (w := "\t0 [".toList) sign (keys ▸ picks) here commas values (by decide)
  have period : valueAfter "period=".toList a.periodLine = some a.period := by
    rw [periodLine_eq]
    exact value "period".toList _ 0 _ _ (by decide) (by decide) rfl
  have priority : valueAfter "priority=".toList a.periodLine = some a.priority := by
    rw [periodLine_eq]
    exact value "priority".toList _ 1 _ _ (by decide) (by decide) rfl
  have deadline : valueAfter "deadline=".toList a.periodLine = some a.deadline := by
    rw [periodLine_eq]
    exact value "deadline".toList _ 2 _ _ (by decide) (by decide) rfl
  have map : valueAfter "map=".toList a.periodLine = some (a.map ++ "]".toList) := by
    rw [periodLine_eq]
    exact value "map".toList _ 3 _ _ (by decide) (by decide) rfl
  have bare : replaceChar ']' [] (a.map ++ "]".toList) = a.map := by
    rw [replaceChar_append, replaceChar_of_not_mem (formed.map.isField.text.not_mem (by decide))]
    exact List.append_nil _
  unfold settingsOf Args.settings
  rw [period, priority, deadline, map, Option.map_some, bare]
  rfl

/-! ## The line of the node -/

/-- The keys and values of the line of the node, as they are read. -/
def Args.nodePairs (a : Args) : List (Text × Text) :=
  [("miet".toList, a.MIET.map Char.toLower), (", meet".toList, a.MEET.map Char.toLower),
    (", maet".toList, a.MAET.map Char.toLower), (", mem".toList, a.MEM),
    (", unit".toList, a.MEM_UNIT.map Char.toLower ++ "]".toList)]

/-- What comes behind the first key of the line of the node. -/
def Args.nodeRest (a : Args) : Text :=
  "=".toList ++ QM ++ a.MIET ++ QM ++ ", MEET=".toList ++ QM ++ a.MEET ++ QM ++ ", MAET=".toList ++
    QM ++ a.MAET ++ QM ++ ", MEM=".toList ++ QM ++ a.MEM ++ QM ++ ", UNIT=".toList ++ QM ++
    a.MEM_UNIT ++ QM ++ "]".toList

theorem nodeLine_eq (a : Args) :
    a.nodeLine = "\t".toList ++ (a.nodeName ++ (" [MIET".toList ++ a.nodeRest)) := by
  unfold Args.nodeLine Args.nodeRest QM
  simp only [List.append_assoc, toList_append_toList, String.reduceAppend]

theorem restText_nodeRest {a : Args} (formed : a.WellFormed) : RestText a.nodeRest := by
  have quote : RestText QM := by decide
  have miet : RestText "=".toList := by decide
  have meet : RestText ", MEET=".toList := by decide
  have maet : RestText ", MAET=".toList := by decide
  have mem : RestText ", MEM=".toList := by decide
  have unit : RestText ", UNIT=".toList := by decide
  have bracket : RestText "]".toList := by decide
  unfold Args.nodeRest
  simp only [restText_append, quote, miet, meet, maet, mem, unit, bracket, formed.MIET.text.rest,
    formed.MEET.text.rest, formed.MAET.text.rest, formed.MEM.isField.text.rest,
    formed.MEM_UNIT.rest, and_self]

/-- A text in lower case and without quotes. -/
def lowUnquoted (s : Text) : Text := replaceChar '\"' [] (s.map Char.toLower)

theorem lowUnquoted_append (s t : Text) : lowUnquoted (s ++ t) = lowUnquoted s ++ lowUnquoted t := by
  rw [lowUnquoted, List.map_append, replaceChar_append]
  rfl

theorem lowUnquoted_field {t : Text} (field : FieldText t) : lowUnquoted t = t.map Char.toLower :=
  replaceChar_of_not_mem (field.toLower.not_mem (by decide))

theorem lowUnquoted_numeral {t : Text} (numeral : IsNumeral t) : lowUnquoted t = t := by
  rw [lowUnquoted_field numeral.isField.text, numeral.toLower_eq]

theorem lowUnquoted_nodeRest {a : Args} (formed : a.WellFormed) :
    "miet".toList ++ lowUnquoted a.nodeRest = pairsText '=' a.nodePairs := by
  have quote : lowUnquoted QM = [] := by decide
  have sign : lowUnquoted "=".toList = "=".toList := by decide
  have meet : lowUnquoted ", MEET=".toList = ", meet=".toList := by decide
  have maet : lowUnquoted ", MAET=".toList = ", maet=".toList := by decide
  have mem : lowUnquoted ", MEM=".toList = ", mem=".toList := by decide
  have unit : lowUnquoted ", UNIT=".toList = ", unit=".toList := by decide
  have bracket : lowUnquoted "]".toList = "]".toList := by decide
  rw [pairsText_eq]
  unfold Args.nodeRest Args.nodePairs
  simp only [lowUnquoted_append, quote, sign, meet, maet, mem, unit, bracket,
    lowUnquoted_field formed.MIET.text, lowUnquoted_field formed.MEET.text,
    lowUnquoted_field formed.MAET.text,
    lowUnquoted_numeral formed.MEM, lowUnquoted_field formed.MEM_UNIT, List.flatMap_cons,
    List.flatMap_nil, List.append_assoc, List.append_nil, List.nil_append, toList_append_toList,
    String.reduceAppend]

theorem trim_nodeLine {a : Args} (formed : a.WellFormed) :
    trim a.nodeLine = a.nodeName ++ (" [MIET".toList ++ a.nodeRest) := by
  obtain ⟨c, name, named⟩ := List.exists_cons_of_ne_nil formed.nodeName.nonempty
  rw [nodeLine_eq]
  apply trim_append
  · exact forall_chars (by decide)
  · rw [named]
    intro d head
    cases head
    apply isBlankChar_of_isNumeralChar
    apply formed.nodeName.chars
    rw [named]
    exact List.mem_cons_self
  · unfold Args.nodeRest
    intro d last
    simp only [← List.append_assoc] at last
    rw [List.getLast?_append] at last
    cases last
    decide

theorem unquoted_nodeLine (locale : AsciiCase J) {a : Args} (formed : a.WellFormed) :
    unquoted J (trim a.nodeLine) =
      (a.nodeName ++ " [".toList) ++ pairsText '=' a.nodePairs := by
  have ascii : ∀ c ∈ a.nodeName ++ (" [MIET".toList ++ a.nodeRest), c.toNat < 128 := by
    intro c mem
    rcases List.mem_append.mp mem with name | mem
    · exact formed.nodeName.isField.text.ascii c name
    rcases List.mem_append.mp mem with literal | rest
    · have all : ∀ c ∈ " [MIET".toList, c.toNat < 128 := forall_chars (by decide)
      exact all c literal
    · exact toNat_lt_of_isRestChar (restText_nodeRest formed c rest)
  have key : lowUnquoted " [MIET".toList = " [".toList ++ "miet".toList := by decide
  rw [trim_nodeLine formed, unquoted, locale.lower _ ascii]
  change lowUnquoted _ = _
  rw [lowUnquoted_append, lowUnquoted_append, lowUnquoted_numeral formed.nodeName, key,
    List.append_assoc, lowUnquoted_nodeRest formed, List.append_assoc]

/-- The node that `XMLModifier` reads off the new line. -/
theorem nodeOf_nodeLine (locale : AsciiCase J) {a : Args} (formed : a.WellFormed) :
    Modifier.nodeOf J (trim a.nodeLine) = a.readNode J := by
  have values : ∀ p ∈ a.nodePairs, IsValue p.2 := by
    simp only [Args.nodePairs, List.forall_mem_cons]
    exact ⟨formed.MIET.toLower.isValue, formed.MEET.toLower.isValue, formed.MAET.toLower.isValue,
      formed.MEM.isField.isValue, formed.MEM_UNIT.toLower.isValue_append, fun p mem => nomatch mem⟩
  have keys : a.nodePairs.map Prod.fst =
      ["miet".toList, ", meet".toList, ", maet".toList, ", mem".toList, ", unit".toList] := rfl
  have commas : ∀ k ∈ (a.nodePairs.map Prod.fst).tail, k.head? = some ',' := by
    rw [keys]
    decide
  have free : '=' ∉ a.nodeName ++ " [".toList := fun mem =>
    (List.mem_append.mp mem).elim (formed.nodeName.isField.text.not_mem (by decide)) (by decide)
  have value := fun (name key : Text) (i : ℕ) (k v : Text) (sign : key = name ++ ['='])
      (picks : PicksKey '=' name ["miet".toList, ", meet".toList, ", maet".toList, ", mem".toList,
        ", unit".toList] i) (here : a.nodePairs[i]? = some (k, v)) =>
    valueAfter_pairs sign (keys ▸ picks) here commas values free
  have line := unquoted_nodeLine locale formed
  have miet : valueAfter "miet=".toList (unquoted J (trim a.nodeLine)) =
      some (a.MIET.map Char.toLower) := by
    rw [line]
    exact value "miet".toList _ 0 _ _ (by decide) (by decide) rfl
  have meet : valueAfter "meet=".toList (unquoted J (trim a.nodeLine)) =
      some (a.MEET.map Char.toLower) := by
    rw [line]
    exact value "meet".toList _ 1 _ _ (by decide) (by decide) rfl
  have maet : valueAfter "maet=".toList (unquoted J (trim a.nodeLine)) =
      some (a.MAET.map Char.toLower) := by
    rw [line]
    exact value "maet".toList _ 2 _ _ (by decide) (by decide) rfl
  have mem : valueAfter "mem=".toList (unquoted J (trim a.nodeLine)) = some a.MEM := by
    rw [line]
    exact value "mem".toList _ 3 _ _ (by decide) (by decide) rfl
  have unit : valueAfter "unit=".toList (unquoted J (trim a.nodeLine)) =
      some (a.MEM_UNIT.map Char.toLower ++ "]".toList) := by
    rw [line]
    exact value "unit".toList _ 4 _ _ (by decide) (by decide) rfl
  have id : (split " ".toList (unquoted J (trim a.nodeLine)))[0]? = some a.nodeName := by
    rw [line, List.append_assoc]
    exact head_split_append (formed.nodeName.not_mem (by decide)) formed.nodeName.nonempty
  have capital : J.toUpperCase (replaceChar ']' [] (a.MEM_UNIT.map Char.toLower ++ "]".toList)) =
      a.MEM_UNIT.map fun c => c.toLower.toUpper := by
    have bare : replaceChar ']' [] (a.MEM_UNIT.map Char.toLower ++ "]".toList) =
        a.MEM_UNIT.map Char.toLower := by
      rw [replaceChar_append, replaceChar_of_not_mem (formed.MEM_UNIT.toLower.not_mem (by decide))]
      exact List.append_nil _
    rw [bare, locale.upper _ formed.MEM_UNIT.toLower.ascii, List.map_map]
    rfl
  unfold Modifier.nodeOf Args.readNode
  rw [miet, meet, maet, mem, unit, id]
  simp only [Option.bind_eq_bind, Option.bind_some, capital]

/-! ## Their effects -/

theorem lineEffect_periodLine {a : Args} (formed : a.WellFormed) :
    Modifier.lineEffect J a.periodLine = a.settings J := by
  have tail : a.periodLine = "\t0 [period".toList ++ ("=".toList ++ (a.period ++
      (", priority=".toList ++ (a.priority ++ (", deadline=".toList ++ (a.deadline ++
        (", map=".toList ++ (a.map ++ "]".toList)))))))) := by
    unfold Args.periodLine
    simp only [List.append_assoc, toList_append_toList, String.reduceAppend]
  have task : isGraphLine a.periodLine = false := by
    rw [tail]
    rfl
  have period : contains "period".toList a.periodLine = true := by
    rw [contains_iff, tail]
    exact ⟨"\t0 [".toList, _, rfl⟩
  rw [← settingsOf_periodLine formed]
  unfold Modifier.lineEffect effectOf
  rw [if_neg (by rw [task]; decide), if_pos period]

theorem contains_eq_false {sub s : Text} {c : Char} (mem : c ∈ sub) (free : c ∉ s) :
    contains sub s = false :=
  Bool.eq_false_iff.mpr fun here => free (subset_of_contains here mem)

theorem not_mem_nodeLine {a : Args} (formed : a.WellFormed) {c : Char}
    (other : isRestChar c = false) (literal : c ∉ "\t [MIET".toList) : c ∉ a.nodeLine := by
  have field : isFieldChar c = false := (Bool.or_eq_false_iff.mp other).1
  rw [nodeLine_eq]
  intro mem
  rcases List.mem_append.mp mem with tab | mem
  · exact literal (List.mem_append_left _ tab)
  rcases List.mem_append.mp mem with name | mem
  · exact formed.nodeName.isField.text.not_mem field name
  rcases List.mem_append.mp mem with key | rest
  · exact literal (List.mem_cons_of_mem '\t' key)
  · exact (restText_nodeRest formed).not_mem other rest

theorem isGraphLine_nodeLine {a : Args} (formed : a.WellFormed) :
    isGraphLine a.nodeLine = true ↔ a.nodeName.head? ≠ some '0' := by
  have brace : contains "\x7d".toList a.nodeLine = false :=
    contains_eq_false (c := '\x7d') (by decide) (not_mem_nodeLine formed (by decide) (by decide))
  obtain ⟨c, name, named⟩ := List.exists_cons_of_ne_nil formed.nodeName.nonempty
  have start : startsWith "\t0".toList a.nodeLine = ('0' == c) := by
    rw [nodeLine_eq, named]
    simp [startsWith, List.isPrefixOf]
  rw [isGraphLine, brace, start, named, List.head?_cons]
  refine ⟨?_, ?_⟩
  · rintro graph ⟨⟩
    cases graph
  · intro other
    have apart : ('0' == c) = false := beq_eq_false_iff_ne.mpr fun eq => other (by rw [eq])
    rw [apart]
    rfl

theorem arrow_nodeLine {a : Args} (formed : a.WellFormed) :
    contains "->".toList (trim a.nodeLine) = false := by
  apply contains_eq_false (c := '>') (by decide)
  rw [trim_nodeLine formed]
  intro mem
  apply not_mem_nodeLine formed (c := '>') (by decide) (by decide)
  rw [nodeLine_eq]
  exact List.mem_append_right _ mem

theorem lineEffect_nodeLine (locale : AsciiCase J) {a : Args} (formed : a.WellFormed)
    (node : a.nodeName.head? ≠ some '0') :
    Modifier.lineEffect J a.nodeLine = (a.readNode J).map .node := by
  rw [← nodeOf_nodeLine locale formed]
  unfold Modifier.lineEffect effectOf
  rw [if_pos ((isGraphLine_nodeLine formed).mpr node), if_neg (by rw [arrow_nodeLine formed]; decide)]

end Hipert.Rtdot
