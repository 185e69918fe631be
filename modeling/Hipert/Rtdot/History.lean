import Hipert.Rtdot.Effects

/-!
# What earlier calls leave behind

`Parse` clears the nodes and the edges for each DAG but never the list `dags`, and it counts the
indices from zero in each call. So round `i` of a call reads its file into, and writes out, the
`i`-th DAG of all calls so far (`model_of_rounds`), and the model is that of a new `XMLGenerator`
if and only if each of these DAGs gives the same output as the one of the call (`SameOutput`).
-/

namespace Hipert.Rtdot

variable {Double : Type} {J : JavaLang Double}

/-! ## The condition -/

/-- The DOT file of a DAG. -/
def DAG.file (disk : Text → Option (List Text)) (d : DAG) : Option (List Text) :=
  d.dagPath.bind disk

/-- A line from which `XMLGenerator` takes the settings. -/
def IsPeriodLine (line : Text) : Prop :=
  isComment line = false ∧ isGraphLine line = false ∧ contains "period".toList line = true

/-- The file of `d`, read into `u` and written out, gives what it gives with `d` itself: the memory
type, step and stride are those of `d`, and so are the name if the file is missing and the numbers if
it has no period line. -/
structure SameOutput (disk : Text → Option (List Text)) (u d : DAG) : Prop where
  mem_access : u.mem_access = d.mem_access
  step : u.step = d.step
  stride : u.stride = d.stride
  dagName : d.file disk = none → nullable u.dagName = nullable d.dagName
  numbers : (∀ lines, d.file disk = some lines → ∀ line ∈ lines.tail, ¬ IsPeriodLine line) →
    u.numbers = d.numbers

section Collection

variable (J)

/-- The reading that `Parse` takes of the file of a DAG. -/
def DAG.Reads (disk : Text → Option (List Text)) (d : DAG) (r : Reading Double) : Prop :=
  d.dagPath.isSome ∧ Rtdot.Reads (Generator.lineEffect J) (d.file disk) r

/-- The lines that `writeModelFile` writes for a DAG with these nodes and edges. -/
def DAG.collection (d : DAG) (nodes : List (Node Double)) (edges : List Edge) : List Text :=
  [d.openingLine] ++ nodes.map (d.nodeText J) ++ edges.map d.edgeText ++
    ["</dagCollection>".toList]

/-- The lines of a round of `Parse` that reads a file into `u`. -/
def DAG.written (u : DAG) (r : Reading Double) : List Text :=
  (r.onDag u).collection J r.nodes r.edges

/-- The model file for these DAGs and readings. -/
def modelFile (d : DAG) (us : List DAG) (rs : List (Reading Double)) : List Text :=
  ["<?xml version=\"1.0\" encoding=\"ASCII\"?>".toList, d.dagSetLine] ++
    (List.zipWith (DAG.written J) us rs).flatten ++ ["</GraphMetamodel:DagSet>".toList]

/-- The rounds of `Parse` from index `k` on. -/
def Generator.rounds (disk : Text → Option (List Text)) (ds : List DAG) (k : ℕ) :
    Exec (Generator Double) PUnit :=
  (ds.zipIdx k).forM fun (dag, index) => parseDag J disk dag index

/-- A call of `Parse`: the files at its time and its array. -/
structure Call where
  disk : Text → Option (List Text)
  dagsParam : List DAG

/-- An `XMLGenerator` after these calls; one that throws leaves what it has changed by then. -/
def afterCalls (history : List Call) : Generator Double :=
  history.foldl (fun g call => Exec.leaves (Generator.Parse J call.disk call.dagsParam) g) {}

end Collection

/-! ## The lines of one DAG -/

theorem quote_not_mem_memAccess (mem_access : Option MemAccess) :
    '\"' ∉ nullable (mem_access.map MemAccess.text) := by
  cases mem_access with
  | none => decide
  | some mem_access => cases mem_access <;> decide

theorem memAccess_injective :
    Function.Injective fun mem_access : Option MemAccess =>
      nullable (mem_access.map MemAccess.text) := by
  intro a b eq
  cases a with
  | none =>
      cases b with
      | none => rfl
      | some b => cases b <;> exact absurd eq (by decide)
  | some a =>
      cases b with
      | none => cases a <;> exact absurd eq (by decide)
      | some b => cases a <;> cases b <;> first | rfl | exact absurd eq (by decide)

/-- The opening line shows the name, the numbers, the memory type, the step and the stride. -/
theorem openingLine_eq_iff {d d' : DAG} : d.openingLine = d'.openingLine ↔
    nullable d.dagName = nullable d'.dagName ∧ d.numbers = d'.numbers ∧
      d.mem_access = d'.mem_access ∧ d.step = d'.step ∧ d.stride = d'.stride := by
  have number := fun (key : Text) (quoted : key.getLast? = some '\"') (a b : Text) (n m : ℤ) =>
    (append_value_inj (a := a) (b := b) quoted (quote_not_mem_intText n)
      (quote_not_mem_intText m)).trans (and_congr_right fun _ => intText_injective.eq_iff)
  unfold DAG.openingLine DAG.numbers
  -- the attributes from the last to the first
  rw [List.append_left_inj, number _ (by decide), number _ (by decide),
    append_value_inj (by decide) (quote_not_mem_memAccess _) (quote_not_mem_memAccess _),
    memAccess_injective.eq_iff, number _ (by decide), number _ (by decide), number _ (by decide),
    number _ (by decide), append_twice_inj]
  simp only [Prod.mk.injEq]
  tauto

theorem collection_eq_iff {d d' : DAG} {nodes : List (Node Double)} {edges : List Edge} :
    d.collection J nodes edges = d'.collection J nodes edges ↔ d.openingLine = d'.openingLine := by
  refine ⟨?_, ?_⟩
  · intro eq
    exact (List.cons.inj eq).1
  · intro eq
    have name := (openingLine_eq_iff.mp eq).1
    have node : d.nodeText J = d'.nodeText J := by
      funext node
      unfold DAG.nodeText
      rw [name]
    have edge : d.edgeText = d'.edgeText := by
      funext edge
      unfold DAG.edgeText
      rw [name]
    unfold DAG.collection
    rw [eq, node, edge]

theorem length_written (u : DAG) (r : Reading Double) :
    (u.written J r).length = r.nodes.length + r.edges.length + 2 := by
  simp only [DAG.written, DAG.collection, List.length_append, List.length_map, List.length_singleton]
  omega

/-! ## What a reading sets -/

theorem onDag_settings (d : DAG) (eff : Effect Double) :
    (eff.onDag d).mem_access = d.mem_access ∧ (eff.onDag d).step = d.step ∧
      (eff.onDag d).stride = d.stride := by
  cases eff <;> exact ⟨rfl, rfl, rfl⟩

theorem foldl_onDag_settings (d : DAG) (effs : List (Effect Double)) :
    (effs.foldl Effect.onDag d).mem_access = d.mem_access ∧
      (effs.foldl Effect.onDag d).step = d.step ∧
      (effs.foldl Effect.onDag d).stride = d.stride := by
  induction effs generalizing d with
  | nil => exact ⟨rfl, rfl, rfl⟩
  | cons eff effs ih =>
      obtain ⟨mem_access, step, stride⟩ := onDag_settings d eff
      rw [List.foldl_cons, ← mem_access, ← step, ← stride]
      exact ih (eff.onDag d)

theorem numbers_onDag_eq_iff {line : Text} {eff : Effect Double}
    (read : Generator.lineEffect J line = some eff) (u d : DAG) :
    (eff.onDag u).numbers = (eff.onDag d).numbers ↔ IsPeriodLine line ∨ u.numbers = d.numbers := by
  unfold IsPeriodLine
  unfold Generator.lineEffect at read
  by_cases skipped : (J.isEmpty line || isComment line) = true
  · rw [if_pos skipped] at read
    cases read
    refine (or_iff_right ?_).symm
    intro given
    rcases given with ⟨not_comment, -, period⟩
    rw [not_comment, Bool.or_false] at skipped
    -- a blank line has no letters
    cases blank_of_trim (List.isEmpty_iff.mp (J.isEmpty_eq line ▸ skipped)) 'p' (subset_of_contains period (by decide))
  · rw [if_neg skipped] at read
    rw [Bool.or_eq_true, not_or, Bool.not_eq_true, Bool.not_eq_true] at skipped
    rw [and_iff_right skipped.2]
    unfold effectOf at read
    split at read
    · rename_i graph
      have unchanged : ∀ d : DAG, (eff.onDag d).numbers = d.numbers := by
        intro d
        split at read
        · rcases Option.map_eq_some_iff.mp read with ⟨e, -, rfl⟩
          rfl
        · rcases Option.map_eq_some_iff.mp read with ⟨n, -, rfl⟩
          rfl
      rw [unchanged, unchanged, graph]
      exact (or_iff_right fun period => nomatch period.1).symm
    · rename_i graph
      split at read
      · rename_i period
        rcases exists_settings read with ⟨_, _, _, _, rfl⟩
        exact iff_of_true rfl (Or.inl ⟨Bool.not_eq_true _ ▸ graph, period⟩)
      · rename_i period
        cases read
        exact (or_iff_right fun here => period here.2).symm

theorem numbers_foldl_eq_iff {lines : List Text} {effs : List (Effect Double)}
    (all : List.Forall₂ (fun line eff => Generator.lineEffect J line = some eff) lines effs)
    (u d : DAG) : (effs.foldl Effect.onDag u).numbers = (effs.foldl Effect.onDag d).numbers ↔
      (∃ line ∈ lines, IsPeriodLine line) ∨ u.numbers = d.numbers := by
  induction all generalizing u d with
  | nil => simp
  | cons first _ ih =>
      rw [List.foldl_cons, List.foldl_cons, ih, numbers_onDag_eq_iff first]
      simp only [List.mem_cons, or_and_right, exists_or, exists_eq_left]
      rw [or_assoc, or_left_comm]

theorem written_eq_iff {disk : Text → Option (List Text)} {u d : DAG} {r : Reading Double}
    (reads : d.Reads J disk r) : u.written J r = d.written J r ↔ SameOutput disk u d := by
  unfold DAG.written
  rw [collection_eq_iff, openingLine_eq_iff]
  obtain ⟨-, reads⟩ := reads
  generalize eq : d.file disk = file at reads
  cases reads with
  | missing =>
      refine ⟨?_, ?_⟩
      · intro given
        rcases given with ⟨dagName, numbers, mem_access, step, stride⟩
        exact ⟨mem_access, step, stride, fun _ => dagName, fun _ => numbers⟩
      · intro same
        have no_lines : ∀ lines, d.file disk = some lines →
            ∀ line ∈ lines.tail, ¬ IsPeriodLine line := fun lines here => by cases eq.symm.trans here
        exact ⟨same.dagName eq, same.numbers no_lines, same.mem_access, same.step, same.stride⟩
  | @lines first name rest effs second all =>
      obtain ⟨u_mem, u_step, u_stride⟩ := foldl_onDag_settings { u with dagName := some name } effs
      obtain ⟨d_mem, d_step, d_stride⟩ := foldl_onDag_settings { d with dagName := some name } effs
      have dagName := (dagName_foldl { u with dagName := some name } effs).trans
        (dagName_foldl { d with dagName := some name } effs).symm
      have numbers := numbers_foldl_eq_iff all { u with dagName := some name }
        { d with dagName := some name }
      simp only [Reading.onDag]
      rw [u_mem, u_step, u_stride, d_mem, d_step, d_stride, numbers, dagName,
        and_iff_right rfl]
      refine ⟨?_, ?_⟩
      · intro given
        rcases given with ⟨numbers, mem_access, step, stride⟩
        refine ⟨mem_access, step, stride, fun missing => ?_, fun silent => ?_⟩
        · cases eq.symm.trans missing
        · apply numbers.resolve_left
          intro given
          rcases given with ⟨line, mem, period⟩
          exact silent _ eq line mem period
      · intro same
        refine ⟨?_, same.mem_access, same.step, same.stride⟩
        by_cases period : ∃ line ∈ rest, IsPeriodLine line
        · exact Or.inl period
        · apply Or.inr
          apply same.numbers
          intro lines here line mem settings
          cases eq.symm.trans here
          exact period ⟨line, mem, settings⟩

/-! ## Running `Parse` -/

theorem Reads.unique {lineEffect : Text → Option (Effect Double)} {file : Option (List Text)}
    {r r' : Reading Double} (reads : Reads lineEffect file r) (reads' : Reads lineEffect file r') :
    r = r' := by
  cases reads with
  | missing =>
      cases reads'
      rfl
  | lines second all =>
      cases reads' with
      | lines second' all' =>
          cases second.symm.trans second'
          rw [readings_unique all all']

theorem DAG.Reads.unique {disk : Text → Option (List Text)} {ds : List DAG}
    {rs rs' : List (Reading Double)} (all : List.Forall₂ (DAG.Reads J disk) ds rs)
    (all' : List.Forall₂ (DAG.Reads J disk) ds rs') : rs = rs' :=
  Relator.RightUnique.forall₂ (fun _ _ _ left right => left.2.unique right.2) all all'

namespace Generator

variable {disk : Text → Option (List Text)} {g g' : Generator Double} {index : ℕ} {d : DAG}

theorem writeModelFile_ok : writeModelFile J index g = .ok ⟨⟩ g' ↔
    ∃ d, g.dags[index]? = some d ∧
      g' = { g with model := g.model ++ d.collection J g.nodes g.edges } := by
  unfold writeModelFile println DAG.collection
  simp only [Exec.bind_ok, getDag_ok, Exec.get_ok, Exec.modify_ok]
  refine ⟨?_, ?_⟩
  · intro given
    rcases given with ⟨d, _, ⟨here, rfl⟩, _, _, ⟨rfl, rfl⟩, _, _, rfl, _, _, rfl, _, _, rfl, rfl⟩
    exact ⟨d, here, by simp only [List.append_assoc]⟩
  · intro given
    rcases given with ⟨d, here, rfl⟩
    exact ⟨d, _, ⟨here, rfl⟩, _, _, ⟨rfl, rfl⟩, ⟨⟩, _, rfl, ⟨⟩, _, rfl, ⟨⟩, _, rfl,
      by simp only [List.append_assoc]⟩

theorem lt_length_added (valid : index ≤ g.dags.length) (d : DAG) :
    index < (g.dags ++ [d]).length := by
  rw [List.length_append, List.length_singleton]
  omega

/-- **Step lemma.** The round at `index` reads the file of its own DAG, which is stored last, into
the DAG stored at `index`. -/
theorem parseDag_ok (valid : index ≤ g.dags.length) : parseDag J disk d index g = .ok ⟨⟩ g' ↔
    ∃ r u, d.Reads J disk r ∧ (g.dags ++ [d])[index]? = some u ∧
      g' = ⟨r.edges, r.nodes, (g.dags ++ [d]).modify index fun d => r.onDag d,
        g.model ++ u.written J r⟩ := by
  have inside := lt_length_added valid d
  unfold parseDag DAG.Reads DAG.written
  simp only [Exec.bind_ok, Exec.modify_ok, Exec.orThrow_ok, writeModelFile_ok]
  refine ⟨?_, ?_⟩
  · intro given
    rcases given with ⟨_, _, rfl, _, _, rfl, path, _, ⟨here, rfl⟩, _, _, read, u, there, rfl⟩
    rcases (readDOTFile_ok inside).mp read with ⟨r, reads, rfl⟩
    rw [List.getElem?_modify_eq] at there
    rcases Option.map_eq_some_iff.mp there with ⟨u, before, rfl⟩
    refine ⟨r, u, ⟨by rw [here]; rfl, ?_⟩, before, rfl⟩
    rw [DAG.file, here]
    exact reads
  · intro given
    rcases given with ⟨r, u, ⟨some_path, reads⟩, there, rfl⟩
    obtain ⟨path, here⟩ := Option.isSome_iff_exists.mp some_path
    rw [DAG.file, here] at reads
    refine ⟨⟨⟩, _, rfl, ⟨⟩, _, rfl, path, _, ⟨here, rfl⟩, ⟨⟩, _,
      (readDOTFile_ok inside).mpr ⟨r, reads, rfl⟩, r.onDag u, ?_, rfl⟩
    rw [List.getElem?_modify_eq, there]
    rfl

/-- **Run lemma.** The rounds from the one at `k` read into the DAGs stored from `k` on. -/
theorem model_of_rounds {ds : List DAG} {k : ℕ} (valid : k ≤ g.dags.length)
    (returned : rounds J disk ds k g = .ok ⟨⟩ g') :
    ∃ rs, List.Forall₂ (DAG.Reads J disk) ds rs ∧ g'.model =
      g.model ++ (List.zipWith (DAG.written J) ((g.dags ++ ds).drop k) rs).flatten := by
  induction ds generalizing g k with
  | nil =>
      rcases Exec.pure_ok.mp returned with ⟨-, rfl⟩
      refine ⟨[], .nil, ?_⟩
      rw [List.zipWith_nil_right, List.flatten_nil, List.append_nil]
  | cons d ds ih =>
      rw [rounds, List.zipIdx_cons, List.forM_eq_forM, List.forM_cons, Exec.bind_ok] at returned
      obtain ⟨_, mid, first, later⟩ := returned
      rcases (parseDag_ok valid).mp first with ⟨r, u, reads, there, rfl⟩
      have inside := lt_length_added valid d
      obtain ⟨rs, all, model⟩ := ih (by rw [List.length_modify]; exact inside) later
      refine ⟨r :: rs, .cons reads all, ?_⟩
      have rest : ((g.dags ++ [d]).modify k (fun d => r.onDag d) ++ ds).drop (k + 1) =
          (g.dags ++ d :: ds).drop (k + 1) := by
        rw [List.drop_append_of_le_length (by rw [List.length_modify]; exact inside),
          List.drop_modify_of_lt _ _ _ _ (Nat.lt_succ_self k),
          ← List.drop_append_of_le_length inside, List.append_assoc, List.singleton_append]
      have here : (g.dags ++ d :: ds)[k]? = some u := by
        rw [← List.singleton_append, ← List.append_assoc, List.getElem?_append_left inside, there]
      obtain ⟨long, here⟩ := List.getElem?_eq_some_iff.mp here
      rw [model, rest, List.drop_eq_getElem_cons long, here, List.zipWith_cons_cons,
        List.flatten_cons, List.append_assoc]

theorem exists_rounds {ds : List DAG} {rs : List (Reading Double)} {k : ℕ}
    (valid : k ≤ g.dags.length) (all : List.Forall₂ (DAG.Reads J disk) ds rs) :
    ∃ g', rounds J disk ds k g = .ok ⟨⟩ g' := by
  induction all generalizing g k with
  | nil => exact ⟨g, rfl⟩
  | @cons d r ds rs reads _ ih =>
      have inside := lt_length_added valid d
      obtain ⟨mid, first, kept⟩ : ∃ mid, parseDag J disk d k g = .ok ⟨⟩ mid ∧
          k + 1 ≤ mid.dags.length := by
        refine ⟨_, (parseDag_ok valid).mpr ⟨r, _, reads, List.getElem?_eq_getElem inside, rfl⟩, ?_⟩
        rw [List.length_modify]
        exact inside
      obtain ⟨g', later⟩ := ih kept
      refine ⟨g', ?_⟩
      rw [rounds, List.zipIdx_cons, List.forM_eq_forM, List.forM_cons, Exec.bind_ok]
      exact ⟨⟨⟩, mid, first, later⟩

/-- A call that returns writes the DAGs of all calls so far, from the first on. -/
theorem model_of_parse {ds : List DAG} (returned : Parse J disk ds g = .ok ⟨⟩ g') :
    ∃ d rs, ds.head? = some d ∧ List.Forall₂ (DAG.Reads J disk) ds rs ∧
      g'.model = modelFile J d (g.dags ++ ds) rs := by
  unfold Parse createModelFile closeModelFile println at returned
  simp only [Exec.bind_ok, Exec.orThrow_ok, Exec.modify_ok] at returned
  rcases returned with ⟨d, _, ⟨head, rfl⟩, _, _, ⟨_, _, rfl, rfl⟩, _, mid, rounds, rfl⟩
  obtain ⟨rs, all, model⟩ := model_of_rounds (Nat.zero_le _) rounds
  refine ⟨d, rs, head, all, ?_⟩
  rw [modelFile, model]
  rfl

theorem exists_parse {ds : List DAG} {d : DAG} {rs : List (Reading Double)}
    (head : ds.head? = some d) (all : List.Forall₂ (DAG.Reads J disk) ds rs) :
    ∃ g', Parse J disk ds g = .ok ⟨⟩ g' := by
  unfold Parse createModelFile closeModelFile println
  simp only [Exec.bind_ok, Exec.orThrow_ok, Exec.modify_ok]
  obtain ⟨mid, rounds⟩ := exists_rounds (k := 0) (Nat.zero_le _) all
  exact ⟨_, d, _, ⟨head, rfl⟩, ⟨⟩, _, ⟨⟨⟩, _, rfl, rfl⟩, ⟨⟩, mid, rounds, rfl⟩

end Generator

/-! ## All histories -/

/-- The blocks of lines agree one by one, since the reading gives their lengths. -/
theorem flatten_written_eq_iff {disk : Text → Option (List Text)} {us ds : List DAG}
    {rs : List (Reading Double)} (all : List.Forall₂ (DAG.Reads J disk) ds rs)
    (long : ds.length ≤ us.length) :
    (List.zipWith (DAG.written J) us rs).flatten = (List.zipWith (DAG.written J) ds rs).flatten ↔
      ∀ (i : ℕ) (u d : DAG), us[i]? = some u → ds[i]? = some d → SameOutput disk u d := by
  induction all generalizing us with
  | nil =>
      rw [List.zipWith_nil_right, List.zipWith_nil_right]
      exact iff_of_true rfl fun i u d _ none => by cases none
  | @cons d r ds rs reads _ ih =>
      cases us with
      | nil => cases long
      | cons u us =>
          have lengths : (u.written J r).length = (d.written J r).length := by
            rw [length_written, length_written]
          rw [List.zipWith_cons_cons, List.zipWith_cons_cons, List.flatten_cons, List.flatten_cons,
            ← Nat.and_forall_add_one]
          simp only [List.getElem?_cons_zero, List.getElem?_cons_succ, Option.some.injEq]
          have first : (∀ v e : DAG, u = v → d = e → SameOutput disk v e) ↔ SameOutput disk u d :=
            ⟨fun all => all u d rfl rfl, by rintro same _ _ rfl rfl; exact same⟩
          rw [first, ← ih (Nat.le_of_succ_le_succ long), ← written_eq_iff reads]
          refine ⟨?_, ?_⟩
          · exact fun eq => List.append_inj eq lengths
          · intro given
            rcases given with ⟨first, rest⟩
            rw [first, rest]

/-- A call writes what a new `XMLGenerator` would if and only if each DAG it reads into gives the
output of its own. -/
theorem Generator.parse_model_iff {disk : Text → Option (List Text)} {dags : List DAG}
    {g g' : Generator Double} (returned : Parse J disk dags g = .ok ⟨⟩ g') :
    (∃ f d rs, Parse J disk dags {} = .ok ⟨⟩ f ∧ dags.head? = some d ∧
        List.Forall₂ (DAG.Reads J disk) dags rs ∧ f.model = modelFile J d dags rs ∧
        g'.model = f.model) ↔
      ∀ (i : ℕ) (u d : DAG), (g.dags ++ dags)[i]? = some u → dags[i]? = some d →
        SameOutput disk u d := by
  obtain ⟨d, rs, head, all, model⟩ := model_of_parse returned
  have long : dags.length ≤ (g.dags ++ dags).length := by
    rw [List.length_append]
    omega
  have files : modelFile J d (g.dags ++ dags) rs = modelFile J d dags rs ↔
      (List.zipWith (DAG.written J) (g.dags ++ dags) rs).flatten =
        (List.zipWith (DAG.written J) dags rs).flatten := by
    unfold modelFile
    rw [List.append_left_inj, List.append_right_inj]
  rw [← flatten_written_eq_iff all long, ← files]
  refine ⟨?_, ?_⟩
  · intro given
    rcases given with ⟨f, d', rs', -, head', all', model', same⟩
    cases head.symm.trans head'
    cases DAG.Reads.unique all all'
    rw [← model, same, model']
  · intro eq
    obtain ⟨f, fresh⟩ := exists_parse (g := {}) head all
    obtain ⟨d', rs', head', all', model'⟩ := model_of_parse fresh
    cases head.symm.trans head'
    cases DAG.Reads.unique all all'
    exact ⟨f, d, rs, fresh, head, all, model', by rw [model, eq, model']; rfl⟩

/-- **Histories.** After any calls of `Parse`, some of which may have thrown, a call that returns
writes the model file of a new `XMLGenerator` if and only if, at each of its indices, the DAG stored
there by then, the first of all calls or its own, gives the output of its own. -/
theorem parse_afterCalls_iff {history : List Call} {disk : Text → Option (List Text)}
    {dags : List DAG} {g' : Generator Double}
    (returned : Generator.Parse J disk dags (afterCalls J history) = .ok ⟨⟩ g') :
    (∃ f d rs, Generator.Parse J disk dags {} = .ok ⟨⟩ f ∧ dags.head? = some d ∧
        List.Forall₂ (DAG.Reads J disk) dags rs ∧ f.model = modelFile J d dags rs ∧
        g'.model = f.model) ↔
      ∀ (i : ℕ) (u d : DAG), ((afterCalls J history).dags ++ dags)[i]? = some u →
        dags[i]? = some d → SameOutput disk u d :=
  Generator.parse_model_iff returned

/-- A DOT file without nodes, edges and settings. -/
def emptyGraph (_ : Text) : Option (List Text) := some ["digraph G \x7b".toList, "\x7d".toList]

/-- A call for one DAG with sparse memory accesses. -/
def sparseCall : Call := ⟨emptyGraph, [DAG.new [] .sparse 1 4 [] [] []]⟩

/-- The `XMLGenerator` after two calls with the same settings and other paths. -/
def sparseTwice : Generator ℤ :=
  Exec.leaves (Generator.Parse asciiLang emptyGraph [DAG.new "b".toList .sparse 1 4 [] [] []])
    (afterCalls asciiLang [sparseCall])

theorem parse_afterCalls_iff_sparseTwice :
    ∃ f d rs, Generator.Parse asciiLang emptyGraph [DAG.new "b".toList .sparse 1 4 [] [] []] {} =
        .ok ⟨⟩ f ∧ [DAG.new "b".toList .sparse 1 4 [] [] []].head? = some d ∧
        List.Forall₂ (DAG.Reads asciiLang emptyGraph)
          [DAG.new "b".toList .sparse 1 4 [] [] []] rs ∧
        f.model = modelFile asciiLang d [DAG.new "b".toList .sparse 1 4 [] [] []] rs ∧
        sparseTwice.model = f.model := by
  have returned : Generator.Parse asciiLang emptyGraph [DAG.new "b".toList .sparse 1 4 [] [] []]
      (afterCalls asciiLang [sparseCall]) = .ok ⟨⟩ sparseTwice :=
    Exec.stateAfter_eq_some.mp (by decide +kernel)
  refine (parse_afterCalls_iff returned).mpr ?_
  intro i u d here own
  cases i with
  | succ i => cases own
  | zero =>
      have stored : ((afterCalls asciiLang [sparseCall]).dags ++
          [DAG.new "b".toList .sparse 1 4 [] [] []])[0]? =
            some { DAG.new [] .sparse 1 4 [] [] [] with dagName := some "G".toList } := by
        decide +kernel
      cases here.symm.trans stored
      cases own
      refine ⟨rfl, rfl, rfl, ?_, fun _ => rfl⟩
      intro missing
      have there : (DAG.new "b".toList .sparse 1 4 [] [] []).file emptyGraph ≠ none := by
        decide +kernel
      exact absurd missing there

/-- The `XMLGenerator` after the sparse call and a PREM one. -/
def premAfterSparse : Generator ℤ :=
  Exec.leaves (Generator.Parse asciiLang emptyGraph [DAG.new [] .prem 1 0 [] [] []])
    (afterCalls asciiLang [sparseCall])

theorem premAfterSparse_returned :
    Generator.Parse asciiLang emptyGraph [DAG.new [] .prem 1 0 [] [] []]
      (afterCalls asciiLang [sparseCall]) = .ok ⟨⟩ premAfterSparse :=
  Exec.stateAfter_eq_some.mp (by decide +kernel)

/-- After the sparse call, the PREM one writes `mem_type="sparse"` and the stride 4. -/
theorem premAfterSparse_stale :
    Generator.Parse asciiLang emptyGraph [DAG.new [] .prem 1 0 [] [] []]
        (afterCalls asciiLang [sparseCall]) = .ok ⟨⟩ premAfterSparse ∧
      ¬ ∃ f, Generator.Parse asciiLang emptyGraph [DAG.new [] .prem 1 0 [] [] []] {} = .ok ⟨⟩ f ∧
        premAfterSparse.model = f.model := by
  refine ⟨premAfterSparse_returned, ?_⟩
  intro given
  rcases given with ⟨f, returned, same⟩
  have stale : (Exec.stateAfter
      (Generator.Parse asciiLang emptyGraph [DAG.new [] .prem 1 0 [] [] []]) {}).map
        Generator.model ≠ some premAfterSparse.model := by decide +kernel
  apply stale
  rw [Exec.stateAfter_eq_some.mpr returned, Option.map_some, same]

end Hipert.Rtdot
