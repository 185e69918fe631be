import Hipert.Rtdot.Effects
import Hipert.Lib.TextLines

/-!
# Editing a DOT file

A transcription of `XMLModifier.modifyXML`, which rewrites lines of the DOT file and then stores the
new values one after the other, each as soon as it is parsed. A session has the contents of the file
and the modifier; that the file can be opened and written is taken for granted. A call that throws
has rewritten the file all the same and keeps what it has stored by then (`modifyXML_error`).
-/

namespace Hipert.Rtdot

variable {Double α : Type}

/-! ## The method -/

/-- The arguments, except for the path. -/
structure Args where
  nodeName : Text
  period : Text
  deadline : Text
  priority : Text
  map : Text
  MIET : Text
  MEET : Text
  MAET : Text
  MEM : Text
  MEM_UNIT : Text
  index : ℤ
  deriving DecidableEq, Repr

/-- The quotation mark. -/
def QM : Text := "\"".toList

namespace Args

/-- The new line of task 0. -/
def periodLine (a : Args) : Text :=
  "\t".toList ++ "0 [period=".toList ++ a.period ++ ", priority=".toList ++ a.priority ++
    ", deadline=".toList ++ a.deadline ++ ", map=".toList ++ a.map ++ "]".toList

/-- The new line of the node. -/
def nodeLine (a : Args) : Text :=
  "\t".toList ++ a.nodeName ++ " [MIET=".toList ++ QM ++ a.MIET ++ QM ++ ", MEET=".toList ++ QM ++
    a.MEET ++ QM ++ ", ".toList ++ "MAET=".toList ++ QM ++ a.MAET ++ QM ++ ", MEM=".toList ++ QM ++
    a.MEM ++ QM ++ ", UNIT=".toList ++ QM ++ a.MEM_UNIT ++ QM ++ "]".toList

/-- What becomes of a line of the file. -/
def newLine (a : Args) (line : Text) : Text :=
  let line := if contains "0 [period".toList line then a.periodLine else line
  if contains (a.nodeName ++ " [MIET".toList) line then a.nodeLine else line

/-- The contents that the file gets. -/
def newContents (a : Args) (contents : Text) : Text :=
  writeLines ((readLines contents).map a.newLine)

end Args

/-- A modifier and the contents of the file that it edits. -/
structure Session (Double : Type) where
  contents : Text
  modifier : Modifier Double
  deriving DecidableEq, Repr

namespace Session

/-- `nodes.get(index)`, if it exists. -/
def node? (s : Session Double) (index : ℤ) : Option (Node Double) :=
  if 0 ≤ index then s.modifier.nodes[index.toNat]? else none

/-- `this.nodes.get(index).setX(…)`, where the value is computed after the node is fetched. -/
def setNode (index : ℤ) (value : Option α) (set : α → Node Double → Node Double) :
    Exec (Session Double) PUnit := do
  let node ← orThrow .indexOutOfBounds ((← get).node? index)
  let x ← orThrow .numberFormat value
  modify fun s =>
    { s with modifier := { s.modifier with nodes := s.modifier.nodes.set index.toNat (set x node) } }

/-- `this.dag.setX(…)` -/
def setDag (value : Option ℤ) (set : ℤ → DAG → DAG) : Exec (Session Double) PUnit := do
  let n ← orThrow .numberFormat value
  modify fun s => { s with modifier := { s.modifier with dag := set n s.modifier.dag } }

variable (J : JavaLang Double)

/-- `modifyXML` -/
def modifyXML (a : Args) : Exec (Session Double) PUnit := do
  modify fun s => { s with contents := a.newContents s.contents }
  setNode a.index (J.parseDouble a.MIET) fun x node => { node with wcet := x }
  setNode a.index (J.parseDouble a.MIET) fun x node => { node with iwcet := x }
  setNode a.index (J.parseDouble a.MAET) fun x node => { node with maet := x }
  setNode a.index (parseInt J a.MEM) fun n node => { node with mem_access := n }
  setNode a.index (some a.MEM_UNIT) fun unit node => { node with mem_unit := unit }
  setNode a.index (parseInt J a.nodeName) fun n node => { node with nodeID := n }
  setDag (parseInt J a.period) fun n dag => { dag with period := n }
  setDag (parseInt J a.deadline) fun n dag => { dag with deadline := n }
  setDag (parseInt J a.map) fun n dag => { dag with map := n }
  setDag (parseInt J a.priority) fun n dag => { dag with priority := n }

end Session

/-! ## The stores -/

/-- The node at an index changed in place. -/
def Modifier.modifyNode (index : ℤ) (f : Node Double → Node Double) (m : Modifier Double) :
    Modifier Double :=
  { m with nodes := m.nodes.modify index.toNat f }

/-- The DAG changed. -/
def Modifier.modifyDag (f : DAG → DAG) (m : Modifier Double) : Modifier Double :=
  { m with dag := f m.dag }

/-- What a call stores where the index is valid, value by value; there is nothing to store where the
argument is no number. -/
def Args.stores (J : JavaLang Double) (a : Args) : List (Option (Modifier Double → Modifier Double)) :=
  [(J.parseDouble a.MIET).map fun x => .modifyNode a.index fun node => { node with wcet := x },
    (J.parseDouble a.MIET).map fun x => .modifyNode a.index fun node => { node with iwcet := x },
    (J.parseDouble a.MAET).map fun x => .modifyNode a.index fun node => { node with maet := x },
    (parseInt J a.MEM).map fun n => .modifyNode a.index fun node => { node with mem_access := n },
    some (.modifyNode a.index fun node => { node with mem_unit := a.MEM_UNIT }),
    (parseInt J a.nodeName).map fun n => .modifyNode a.index fun node => { node with nodeID := n },
    (parseInt J a.period).map fun n => .modifyDag fun dag => { dag with period := n },
    (parseInt J a.deadline).map fun n => .modifyDag fun dag => { dag with deadline := n },
    (parseInt J a.map).map fun n => .modifyDag fun dag => { dag with map := n },
    (parseInt J a.priority).map fun n => .modifyDag fun dag => { dag with priority := n }]

namespace Session

/-- A value that is stored if there is one. -/
def store (f : Option (Modifier Double → Modifier Double)) : Exec (Session Double) PUnit := do
  let f ← orThrow .numberFormat f
  modify fun s => { s with modifier := f s.modifier }

variable {index : ℤ} {s s' : Session Double}

theorem setNode_eq {node : Node Double} (here : s.node? index = some node) (value : Option α)
    (set : α → Node Double → Node Double) :
    setNode index value set s = store (value.map fun x => .modifyNode index (set x)) s := by
  have fetched : s.modifier.nodes[index.toNat]? = some node := by
    unfold node? at here
    split at here
    · exact here
    · cases here
  have first : setNode index value set s = (orThrow .indexOutOfBounds (s.node? index) >>= fun node =>
      orThrow .numberFormat value >>= fun x => modify fun s =>
        { s with modifier :=
          { s.modifier with nodes := s.modifier.nodes.set index.toNat (set x node) } }) s := rfl
  rw [first, here]
  cases value with
  | none => rfl
  | some x =>
      have stored : s.modifier.nodes.set index.toNat (set x node) =
          s.modifier.nodes.modify index.toNat (set x) := (modify_eq_set (set x) fetched).symm
      have same : ({ s with modifier :=
          { s.modifier with nodes := s.modifier.nodes.set index.toNat (set x node) } } :
            Session Double) = { s with modifier := s.modifier.modifyNode index (set x) } := by
        rw [Modifier.modifyNode, stored]
      exact congrArg (EStateM.Result.ok PUnit.unit) same

theorem setDag_eq (value : Option ℤ) (set : ℤ → DAG → DAG) :
    (setDag value set : Exec (Session Double) PUnit) =
      store (value.map fun n => .modifyDag (set n)) := by
  cases value <;> rfl

theorem node?_modifyNode (index : ℤ) (f : Node Double → Node Double) :
    ({ s with modifier := s.modifier.modifyNode index f } : Session Double).node? index =
      (s.node? index).map f := by
  unfold node? Modifier.modifyNode
  split
  · exact List.getElem?_modify_eq ..
  · rfl

/-- The first of two calls that give the same, where the index is valid before both. -/
theorem setNode_bind {value : Option α} {set : α → Node Double → Node Double}
    {rest rest' : Exec (Session Double) PUnit} (valid : (s.node? index).isSome)
    (later : ∀ mid : Session Double, (mid.node? index).isSome → rest mid = rest' mid) :
    (setNode index value set >>= fun _ => rest) s =
      (store (value.map fun x => .modifyNode index (set x)) >>= fun _ => rest') s := by
  obtain ⟨node, here⟩ := Option.isSome_iff_exists.mp valid
  have first : (setNode index value set >>= fun _ => rest) s =
      EStateM.bind (setNode index value set) (fun _ => rest) s := rfl
  rw [first, EStateM.bind, setNode_eq here]
  cases value with
  | none => rfl
  | some x =>
      apply later
      rw [node?_modifyNode, here]
      rfl

variable (J : JavaLang Double)

/-- Where the index is valid, a call rewrites the file and makes its stores. -/
theorem modifyXML_eq {a : Args} (valid : (s.node? a.index).isSome) :
    modifyXML J a s =
      (a.stores J).forM store { s with contents := a.newContents s.contents } := by
  unfold modifyXML Args.stores
  simp only [List.forM_eq_forM, List.forM_cons, List.forM_nil, setDag_eq, bind_pure_unit]
  have valid₀ : (({ s with contents := a.newContents s.contents } : Session Double).node?
      a.index).isSome := valid
  apply setNode_bind valid₀
  intro s₁ valid₁
  apply setNode_bind valid₁
  intro s₂ valid₂
  apply setNode_bind valid₂
  intro s₃ valid₃
  apply setNode_bind valid₃
  intro s₄ valid₄
  apply setNode_bind valid₄
  intro s₅ valid₅
  apply setNode_bind valid₅
  intro s₆ _
  rfl

theorem modifyXML_index {a : Args} (invalid : s.node? a.index = none) :
    modifyXML J a s =
      .error .indexOutOfBounds { s with contents := a.newContents s.contents } := by
  have first : ∀ (value : Option Double) (set : Double → Node Double → Node Double)
      (rest : PUnit → Exec (Session Double) PUnit) (s : Session Double),
      s.node? a.index = none → (setNode a.index value set >>= rest) s =
        .error .indexOutOfBounds s := by
    intro value set rest s invalid
    have fetch : (setNode a.index value set >>= rest) s =
      (((orThrow .indexOutOfBounds (s.node? a.index) : Exec (Session Double) (Node Double)) >>=
        fun node => orThrow .numberFormat value >>= fun x => modify fun s =>
          { s with modifier := { s.modifier with
            nodes := s.modifier.nodes.set a.index.toNat (set x node) } }) >>= rest) s := rfl
    rw [fetch, invalid]
    rfl
  exact first _ _ _ _ invalid

/-- The stores up to the first that fails. -/
theorem forM_store_error {fs : List (Option (Modifier Double → Modifier Double))} {exc : Exc}
    (failed : fs.forM store s = .error exc s') :
    exc = .numberFormat ∧ ∃ (before : List (Modifier Double → Modifier Double))
      (rest : List (Option (Modifier Double → Modifier Double))),
      fs = before.map some ++ none :: rest ∧
      s' = { s with modifier := before.foldl (fun m f => f m) s.modifier } := by
  induction fs generalizing s with
  | nil => cases failed
  | cons f fs ih =>
      cases f with
      | none =>
          cases failed
          exact ⟨rfl, [], fs, rfl, rfl⟩
      | some f =>
          have later : fs.forM store { s with modifier := f s.modifier } = .error exc s' := failed
          rcases ih later with ⟨number, before, rest, rfl, rfl⟩
          exact ⟨number, f :: before, rest, rfl, rfl⟩

theorem forM_store_cons_ok {f : Option (Modifier Double → Modifier Double)}
    {fs : List (Option (Modifier Double → Modifier Double))} :
    (f :: fs).forM store s = .ok ⟨⟩ s' ↔ ∃ g, f = some g ∧
      fs.forM store { s with modifier := g s.modifier } = .ok ⟨⟩ s' := by
  cases f with
  | none =>
      refine ⟨?_, ?_⟩
      · exact fun returned => nomatch returned
      · intro given
        rcases given with ⟨g, none, -⟩
        cases none
  | some f =>
      refine ⟨?_, ?_⟩
      · exact fun returned => ⟨f, rfl, returned⟩
      · intro given
        rcases given with ⟨g, eq, returned⟩
        cases eq
        exact returned

/-- **Run lemma.** A call that returns has parsed all values but `MEET`, rewritten the file and
stored the values. -/
theorem modifyXML_ok {a : Args} (returned : modifyXML J a s = .ok ⟨⟩ s') :
    ∃ miet maet mem_access nodeID period deadline map priority,
      J.parseDouble a.MIET = some miet ∧ J.parseDouble a.MAET = some maet ∧
      parseInt J a.MEM = some mem_access ∧ parseInt J a.nodeName = some nodeID ∧
      parseInt J a.period = some period ∧ parseInt J a.deadline = some deadline ∧
      parseInt J a.map = some map ∧ parseInt J a.priority = some priority ∧
      (s.node? a.index).isSome ∧
      s' = {
        contents := a.newContents s.contents
        modifier := {
          s.modifier with
          nodes := s.modifier.nodes.modify a.index.toNat fun node =>
            { node with
              wcet := miet, iwcet := miet, maet := maet, mem_access := mem_access,
              mem_unit := a.MEM_UNIT, nodeID := nodeID }
          dag :=
            { s.modifier.dag with
              period := period, deadline := deadline, map := map, priority := priority } } } := by
  cases fetched : s.node? a.index with
  | none =>
      rw [modifyXML_index J fetched] at returned
      cases returned
  | some node =>
      rw [modifyXML_eq J (by rw [fetched]; rfl)] at returned
      unfold Args.stores at returned
      simp only [forM_store_cons_ok, Option.map_eq_some_iff, Option.some.injEq] at returned
      obtain ⟨_, ⟨miet, parsed₁, rfl⟩, _, ⟨miet', parsed₁', rfl⟩, _, ⟨maet, parsed₂, rfl⟩, _,
        ⟨mem_access, parsed₃, rfl⟩, _, rfl, _, ⟨nodeID, parsed₄, rfl⟩, _, ⟨period, parsed₅, rfl⟩, _,
        ⟨deadline, parsed₆, rfl⟩, _, ⟨map, parsed₇, rfl⟩, _, ⟨priority, parsed₈, rfl⟩, stored⟩ :=
        returned
      cases parsed₁.symm.trans parsed₁'
      cases stored
      refine ⟨miet, maet, mem_access, nodeID, period, deadline, map, priority, parsed₁, parsed₂,
        parsed₃, parsed₄, parsed₅, parsed₆, parsed₇, parsed₈, rfl, ?_⟩
      simp only [Modifier.modifyNode, Modifier.modifyDag, List.modify_modify_eq, Function.comp_def]

theorem contents_modifyXML {a : Args} (returned : modifyXML J a s = .ok ⟨⟩ s') :
    s'.contents = a.newContents s.contents := by
  rcases modifyXML_ok J returned with ⟨_, _, _, _, _, _, _, _, -, -, -, -, -, -, -, -, -, rfl⟩
  rfl

/-- **Failing edits.** A call that throws has rewritten the file. It has changed nothing in memory if
the index is invalid; otherwise it has stored the values before the first that is no number, and
nothing else. -/
theorem modifyXML_error {a : Args} {exc : Exc} (failed : modifyXML J a s = .error exc s') :
    s'.contents = a.newContents s.contents ∧
      (exc = .indexOutOfBounds ∧ s.node? a.index = none ∧ s'.modifier = s.modifier ∨
        exc = .numberFormat ∧ (s.node? a.index).isSome ∧
          ∃ (before : List (Modifier Double → Modifier Double))
            (rest : List (Option (Modifier Double → Modifier Double))),
            a.stores J = before.map some ++ none :: rest ∧
              s'.modifier = before.foldl (fun m f => f m) s.modifier) := by
  cases fetched : s.node? a.index with
  | none =>
      rw [modifyXML_index J fetched] at failed
      cases failed
      exact ⟨rfl, Or.inl ⟨rfl, rfl, rfl⟩⟩
  | some node =>
      rw [modifyXML_eq J (by rw [fetched]; rfl)] at failed
      rcases forM_store_error failed with ⟨number, before, rest, stores, rfl⟩
      exact ⟨rfl, Or.inr ⟨number, rfl, before, rest, stores, rfl⟩⟩

/-- A DOT file with a node. -/
def oneNode : Text :=
  writeLines ["digraph G \x7b".toList, "\t0 [period=500, priority=50, deadline=1000, map=0]".toList,
    "\t1 [MIET=\"10\", MEET=\"10\", MAET=\"10\", MEM=\"1\", UNIT=\"MB\"]".toList, "\x7d".toList]

/-- The file and an `XMLModifier` that has read it. -/
def oneNodeSession : Session ℤ :=
  ⟨oneNode, Exec.leaves (Modifier.readDOTFile asciiLang (fun _ => some (readLines oneNode)) []) {}⟩

/-- New values, of which the priority is no number. -/
def wordPriority : Args where
  nodeName := "1".toList
  period := "600".toList
  deadline := "900".toList
  priority := "high".toList
  map := "1".toList
  MIET := "7".toList
  MEET := "7".toList
  MAET := "7".toList
  MEM := "2".toList
  MEM_UNIT := "KB".toList
  index := 0

/-- The session after the call with these values. -/
def wordPriorityLeft : Session ℤ := Exec.leaves (modifyXML asciiLang wordPriority) oneNodeSession

theorem wordPriority_failed :
    modifyXML asciiLang wordPriority oneNodeSession = .error .numberFormat wordPriorityLeft := by
  obtain ⟨exc, failed⟩ := Exec.error_of_stateAfter (x := modifyXML asciiLang wordPriority)
    (s := oneNodeSession) (by decide +kernel)
  have index : (oneNodeSession.node? wordPriority.index).isSome := by decide +kernel
  have number : exc = .numberFormat := by
    rw [modifyXML_eq _ index] at failed
    exact (forM_store_error failed).1
  rw [number] at failed
  exact failed

theorem modifyXML_error_wordPriority :
    wordPriorityLeft.contents = wordPriority.newContents oneNodeSession.contents ∧
      (Exc.numberFormat = .indexOutOfBounds ∧ oneNodeSession.node? wordPriority.index = none ∧
          wordPriorityLeft.modifier = oneNodeSession.modifier ∨
        Exc.numberFormat = .numberFormat ∧ (oneNodeSession.node? wordPriority.index).isSome ∧
          ∃ (before : List (Modifier ℤ → Modifier ℤ))
            (rest : List (Option (Modifier ℤ → Modifier ℤ))),
            wordPriority.stores asciiLang = before.map some ++ none :: rest ∧
              wordPriorityLeft.modifier = before.foldl (fun m f => f m) oneNodeSession.modifier) :=
  modifyXML_error asciiLang wordPriority_failed

/-- The call throws after it has changed the file, the node and the DAG. -/
theorem wordPriority_changes :
    modifyXML asciiLang wordPriority oneNodeSession = .error .numberFormat wordPriorityLeft ∧
      wordPriorityLeft.contents ≠ oneNodeSession.contents ∧
      wordPriorityLeft.modifier.nodes ≠ oneNodeSession.modifier.nodes ∧
      wordPriorityLeft.modifier.dag.numbers ≠ oneNodeSession.modifier.dag.numbers :=
  ⟨wordPriority_failed, by decide +kernel, by decide +kernel, by decide +kernel⟩

end Session

end Hipert.Rtdot
