import Hipert.Lib.OptionLoops
import Hipert.Lib.StrideWalk
import Hipert.Runtime.Random

/-!
# Strided access patterns

`stride_generator` walks through the indices below the data size of a node with the stride of its
DAG, and `pre_load_tasks` hands this walk to `hgr_mem_ex`. The walk visits the multiples of the
greatest common divisor. Its indices run up to the number of bytes but count elements, so they stay
within the bytes of the node only for elements of one byte, for a single phase, or for a walk that
moves by at most one place.
-/

namespace Hipert.Runtime

/-- Entry `i` of `stride_generator`. -/
def strideEntry (stride : Int32) (size : Int64) (i : ℕ) : UInt64 :=
  UInt64.ofNat i * stride.toInt64.toUInt64 % size.toUInt64

/-- `stride_generator`. The allocation is assumed to have room for `size` entries, which it can only
have below `2 ^ 61`: from there on its number of bytes wraps. -/
def strideGenerator (stride : Int32) (size : Int64) : HeapArray UInt64 :=
  -- a negative `size` makes `malloc` fail, so that no entry is allocated
  (HeapArray.alloc size.toInt.toNat).fill size.toUInt64.toNat (strideEntry stride size)

/-! ## The array -/

section Generator

variable {stride : Int32} {size : Int64}

theorem strideGenerator_rounds (positive : 1 ≤ size.toInt) :
    size.toUInt64.toNat = size.toInt.toNat := by
  have rounds := toNat_toUInt64 (a := size) (by omega)
  omega

/-- All stores are inside and every entry is written. -/
theorem strideGenerator_spec (positive : 1 ≤ size.toInt) :
    (strideGenerator stride size).InBounds ∧ (strideGenerator stride size).Holds
      ((List.range size.toInt.toNat).map (strideEntry stride size)) := by
  rw [strideGenerator, strideGenerator_rounds positive]
  exact ⟨HeapArray.inBounds_fill (HeapArray.inBounds_alloc _) le_rfl _, HeapArray.holds_fill _ _⟩

theorem strideEntry_lt (positive : 1 ≤ size.toInt) (i : ℕ) :
    (strideEntry stride size i).toNat < size.toInt.toNat := by
  rw [strideEntry, UInt64.toNat_mod, strideGenerator_rounds positive]
  exact Nat.mod_lt _ (by omega)

theorem strideEntry_zero : strideEntry stride size 0 = 0 := by
  rw [strideEntry, show UInt64.ofNat 0 = 0 from rfl, UInt64.zero_mul, UInt64.zero_mod]

/-- An entry is a step of the walk as long as the product does not wrap. -/
theorem toNat_strideEntry (moves : 1 ≤ stride.toInt) (positive : 1 ≤ size.toInt) {i : ℕ}
    (fits : i * stride.toInt.toNat < 2 ^ 64) :
    (strideEntry stride size i).toNat = strideWalk stride.toInt.toNat size.toInt.toNat i := by
  have step := toNat_toInt64_toUInt64 (a := stride) (by omega)
  have step_nat : stride.toInt64.toUInt64.toNat = stride.toInt.toNat := by omega
  have short : i < 2 ^ 64 := by
    calc i = i * 1 := (mul_one i).symm
      _ ≤ i * stride.toInt.toNat := Nat.mul_le_mul_left i (by omega)
      _ < 2 ^ 64 := fits
  rw [strideEntry, UInt64.toNat_mod, UInt64.toNat_mul, strideGenerator_rounds positive, step_nat,
    UInt64.toNat_ofNat_of_lt' short, Nat.mod_eq_of_lt fits, strideWalk]

/-- A walk that has not turned around yet has not wrapped. -/
theorem product_fits {i : ℕ} (inside : i < size.toInt.toNat)
    (ahead : i * (stride.toInt.toNat % size.toInt.toNat) < size.toInt.toNat) :
    i * stride.toInt.toNat < 2 ^ 64 := by
  have narrow := stride.toInt_lt
  have wide := size.toInt_lt
  rcases lt_or_ge stride.toInt.toNat size.toInt.toNat with short | long
  · rw [Nat.mod_eq_of_lt short] at ahead
    omega
  · calc i * stride.toInt.toNat ≤ 2 ^ 31 * 2 ^ 31 := Nat.mul_le_mul (by omega) (by omega)
      _ < 2 ^ 64 := by norm_num

/-- The walk of a stride stays below the number of elements that `size` bytes have room for. -/
theorem strideEntry_lt_iff {bytes : ℕ} (moves : 1 ≤ stride.toInt) (positive : 1 ≤ size.toInt)
    (nonempty : 0 < bytes) :
    (∀ i < size.toInt.toNat / bytes,
        (strideEntry stride size i).toNat < size.toInt.toNat / bytes) ↔
      bytes = 1 ∨ size.toInt.toNat < 2 * bytes ∨ stride.toInt.toNat % size.toInt.toNat ≤ 1 := by
  refine ⟨?_, ?_⟩
  · intro below
    by_contra many
    have wide : 2 ≤ bytes := by omega
    have several : 2 ≤ size.toInt.toNat / bytes :=
      (Nat.le_div_iff_mul_le nonempty).mpr (by omega)
    have half : 2 * (size.toInt.toNat / bytes) ≤ size.toInt.toNat := by
      calc 2 * (size.toInt.toNat / bytes) ≤ bytes * (size.toInt.toNat / bytes) :=
            Nat.mul_le_mul_right _ wide
        _ ≤ size.toInt.toNat := Nat.mul_div_le _ bytes
    have walks : 2 ≤ stride.toInt.toNat % size.toInt.toNat := by omega
    obtain ⟨i, early, ahead, out⟩ := exists_step_out walks several half
    have fits := product_fits (early.trans_le (Nat.div_le_self _ bytes)) ahead
    have less := below i early
    rw [toNat_strideEntry moves positive fits] at less
    omega
  · rintro (single | few | slow) i early
    · rw [single, Nat.div_one]
      exact strideEntry_lt positive i
    · have one : size.toInt.toNat / bytes < 2 := (Nat.div_lt_iff_lt_mul nonempty).mpr few
      have first : i = 0 := by omega
      subst first
      rwa [strideEntry_zero]
    · have inside : i < size.toInt.toNat := early.trans_le (Nat.div_le_self _ bytes)
      have ahead := (mul_mod_le slow i).trans_lt inside
      rw [toNat_strideEntry moves positive (product_fits inside ahead)]
      exact (strideWalk_le slow inside).trans_lt early

end Generator

/-! ## The bytes that are read -/

/-- The bytes of an access, from the start of the node's buffer. -/
def Access.offsets : Access → List ℕ
  | .none => []
  | .outside => []
  | .element index bytes => (List.range bytes).map (index.toNat * bytes + ·)

/-- No access leaves the first `data_size` bytes of the buffer. -/
def SparseNode.StaysWithin (node : SparseNode) (pointer : HeapArray UInt64) : Prop :=
  ∃ phases, (hgrMemEx node pointer).Returns phases ∧ ∀ p ∈ phases, p.access ≠ .outside ∧
    ∀ offset ∈ p.access.offsets, offset < node.dataSize.toInt.toNat

/-- An element lies within a number of bytes if it is one of those that they have room for. -/
theorem offsets_lt_iff {index : UInt64} {bytes size : ℕ} (positive : 0 < bytes) :
    (∀ offset ∈ (Access.element index bytes).offsets, offset < size) ↔
      index.toNat < size / bytes := by
  rw [Nat.lt_iff_add_one_le, Nat.le_div_iff_mul_le positive, add_mul, one_mul]
  refine ⟨?_, ?_⟩
  · intro within
    have last := within (index.toNat * bytes + (bytes - 1))
      (List.mem_map_of_mem (List.mem_range.mpr (by omega)))
    omega
  · intro room offset mem
    rcases List.mem_map.mp mem with ⟨byte, inside, rfl⟩
    rw [List.mem_range] at inside
    omega

/-- A node stays within its bytes if the entries that it reads are below its number of phases. -/
theorem SparseNode.staysWithin_iff {node : SparseNode} {pointer : HeapArray UInt64}
    {entries : List UInt64} (typed : node.granularity ∈ granularities)
    (phi : node.phi.toNat = node.dataSize.toInt.toNat / node.granularity.toInt.toNat)
    (holds : pointer.Holds entries) :
    node.StaysWithin pointer ↔
      ∀ i < node.phi.toNat, ∃ index, entries[i]? = some index ∧ index.toNat < node.phi.toNat := by
  have positive : 0 < node.granularity.toInt.toNat := by
    have := (elementSize_eq typed).2
    omega
  have returns := @hgrMemEx_returns node pointer (typed_of_mem typed)
  refine ⟨?_, ?_⟩
  · intro given i inside
    rcases given with ⟨phases, ends, within⟩
    rw [returns.mp ends] at within
    obtain ⟨known, bytes⟩ := within _ (List.mem_map_of_mem (List.mem_range.mpr inside))
    rw [phase_access typed holds] at known bytes
    cases entry : entries[i]? with
    | none =>
        rw [entry] at known
        exact absurd rfl known
    | some index =>
        rw [entry] at bytes
        refine ⟨index, rfl, ?_⟩
        rw [phi]
        exact (offsets_lt_iff positive).mp bytes
  · intro below
    refine ⟨_, returns.mpr rfl, fun p mem => ?_⟩
    rcases List.mem_map.mp mem with ⟨i, inside, rfl⟩
    obtain ⟨index, entry, less⟩ := below i (List.mem_range.mp inside)
    rw [phase_access typed holds, entry]
    refine ⟨Access.noConfusion, ?_⟩
    rw [phi] at less
    exact (offsets_lt_iff positive).mpr less

section Load

variable {amount : Int64} {unit : DataGranularity} {granularity stride : Int32}
  {wcet frequency : ℚ} {nodeID : Int32}

/-- A pattern of at least as many entries as the node has phases. -/
theorem staysWithin_of_holds {pointer : HeapArray UInt64} {rounds : ℕ} {entry : ℕ → UInt64}
    (positive : 1 ≤ (calcDataSize amount unit).toInt) (typed : granularity ∈ granularities)
    (holds : pointer.Holds ((List.range rounds).map entry))
    (enough : (calcDataSize amount unit).toInt.toNat / granularity.toInt.toNat ≤ rounds) :
    (hgrLoadSparseNode amount unit granularity stride wcet frequency nodeID).StaysWithin pointer ↔
      ∀ i < (calcDataSize amount unit).toInt.toNat / granularity.toInt.toNat,
        (entry i).toNat < (calcDataSize amount unit).toInt.toNat / granularity.toInt.toNat := by
  have granularity_pos := (elementSize_eq typed).2
  have phi : (hgrLoadSparseNode amount unit granularity stride wcet frequency nodeID).phi.toNat =
      (calcDataSize amount unit).toInt.toNat / granularity.toInt.toNat := by
    have quotient := (@phi_hgrLoadSparseNode amount unit granularity stride wcet frequency nodeID
      (by omega) granularity_pos).2
    rw [← toNat_ediv (by omega) granularity_pos.le, ← quotient, Int.toNat_natCast]
  rw [SparseNode.staysWithin_iff typed phi holds, phi]
  refine forall₂_congr fun i early => ?_
  rw [List.getElem?_map, List.getElem?_range (early.trans_le enough), Option.map_some]
  simp only [Option.some.injEq, exists_eq_left']

/-- **Footprint.** Nodes of single bytes, nodes of a single phase and walks that move by at most one
place stay within their bytes. -/
theorem staysWithin_strideGenerator_iff (moves : 1 ≤ stride.toInt)
    (positive : 1 ≤ (calcDataSize amount unit).toInt) (typed : granularity ∈ granularities) :
    (hgrLoadSparseNode amount unit granularity stride wcet frequency nodeID).StaysWithin
        (strideGenerator stride (calcDataSize amount unit)) ↔
      granularity.toInt = 1 ∨ (calcDataSize amount unit).toInt < 2 * granularity.toInt ∨
        stride.toInt % (calcDataSize amount unit).toInt ≤ 1 := by
  have granularity_pos := (elementSize_eq typed).2
  have step : ((stride.toInt.toNat % (calcDataSize amount unit).toInt.toNat : ℕ) : ℤ) =
      stride.toInt % (calcDataSize amount unit).toInt := by
    rw [Int.natCast_mod, Int.toNat_of_nonneg (by omega), Int.toNat_of_nonneg (by omega)]
  rw [staysWithin_of_holds positive typed (strideGenerator_spec positive).2 (Nat.div_le_self _ _),
    strideEntry_lt_iff moves positive (by omega)]
  refine or_congr ?_ (or_congr ?_ ?_) <;> omega

/-- Every walk stays inside of the array that was allocated, which has as many elements as the node
has bytes. -/
theorem strideGenerator_inside (positive : 1 ≤ (calcDataSize amount unit).toInt)
    (typed : granularity ∈ granularities) :
    ∃ phases, (hgrMemEx (hgrLoadSparseNode amount unit granularity stride wcet frequency nodeID)
        (strideGenerator stride (calcDataSize amount unit))).Returns phases ∧
      ∀ p ∈ phases, ∃ index bytes, p.access = .element index bytes ∧
        index.toNat <
          (hgrLoadSparseNode amount unit granularity stride wcet frequency nodeID).elements := by
  apply hgrMemEx_inside positive typed (strideGenerator_spec positive).2
  · simp
  · intro index mem
    rcases List.mem_map.mp mem with ⟨i, -, rfl⟩
    have less := @strideEntry_lt stride _ positive i
    omega

/-- Over one entry for each phase, as `hgr_compute_sparse_task` asks for, every stride stays within
the bytes of the node. -/
theorem staysWithin_strideGenerator_phi (typed : granularity ∈ granularities)
    (room : granularity.toInt ≤ (calcDataSize amount unit).toInt) :
    (hgrLoadSparseNode amount unit granularity stride wcet frequency nodeID).StaysWithin
      (strideGenerator stride (calcDataSize amount unit / granularity.toInt64)) := by
  have granularity_pos := (elementSize_eq typed).2
  have phi := toInt_div (a := calcDataSize amount unit) (b := granularity.toInt64) (by omega)
    (by rwa [Int32.toInt_toInt64])
  rw [Int32.toInt_toInt64] at phi
  have one : 1 ≤ (calcDataSize amount unit / granularity.toInt64).toInt := by
    rw [phi]
    exact (Int.le_ediv_iff_mul_le granularity_pos).mpr (by omega)
  have rounds : (calcDataSize amount unit / granularity.toInt64).toInt.toNat =
      (calcDataSize amount unit).toInt.toNat / granularity.toInt.toNat := by
    rw [phi, toNat_ediv (by omega) granularity_pos.le]
  rw [staysWithin_of_holds (by omega) typed (strideGenerator_spec one).2 rounds.ge, ← rounds]
  exact fun i _ => strideEntry_lt one i

end Load

/-! ## The nodes of a DAG -/

/-- The attributes of a node that `pre_load_tasks` writes into its calls. -/
structure TaskData where
  memAccess : Int64
  memUnit : DataGranularity
  miet : ℚ

/-- `pre_load_tasks` of a DAG with sparse accesses: each node and its pointer array. The calls of
`rand` for node `i` return the results `rand i`. -/
def preLoadTasks (node : List TaskData) (step stride : Int32) (frequency : ℚ)
    (rand : ℕ → ℕ → Int32) : Option (List (SparseNode × HeapArray UInt64)) :=
  node.zipIdx.mapM fun (task, i) => do
    let data := hgrLoadSparseNode task.memAccess task.memUnit step stride task.miet frequency
      (Int32.ofNat i)
    let pointer ←
      if stride = 0 then randomGenerator data.dataSize (rand i)
      else some (strideGenerator stride data.dataSize)
    some (data, pointer)

section PreLoad

variable {node : List TaskData} {granularity stride : Int32} {frequency : ℚ}
  {rand : ℕ → ℕ → Int32}

/-- With a stride every node has its walk. -/
theorem preLoadTasks_eq (moves : 1 ≤ stride.toInt) :
    preLoadTasks node granularity stride frequency rand = some (node.zipIdx.map fun task =>
      (hgrLoadSparseNode task.1.memAccess task.1.memUnit granularity stride task.1.miet frequency
          (Int32.ofNat task.2),
        strideGenerator stride (calcDataSize task.1.memAccess task.1.memUnit))) := by
  have strided : stride ≠ 0 := by
    intro zero
    rw [zero] at moves
    exact absurd moves (by decide)
  apply mapM_eq_some
  rintro ⟨task, i⟩ -
  exact if_neg strided

/-- What holds of every task's node and its walk holds of the nodes that are loaded. -/
theorem forall₂_preLoadTasks {R : TaskData → SparseNode × HeapArray UInt64 → Prop}
    (moves : 1 ≤ stride.toInt)
    (each : ∀ task i, R task (hgrLoadSparseNode task.memAccess task.memUnit granularity stride
      task.miet frequency i, strideGenerator stride (calcDataSize task.memAccess task.memUnit))) :
    ∃ data, preLoadTasks node granularity stride frequency rand = some data ∧
      List.Forall₂ R node data := by
  refine ⟨_, preLoadTasks_eq moves, ?_⟩
  rw [List.forall₂_map_right_iff]
  conv => lhs; rw [← List.zipIdx_map_fst 0 node]
  rw [List.forall₂_map_left_iff, List.forall₂_same]
  exact fun task _ => each task.1 _

/-- **Declared memory.** A loaded node stays within the bytes that it declares if its elements are
single bytes, if these bytes have room for one element only, or if the walk moves by at most one
place. -/
theorem preLoadTasks_staysWithin_iff (typed : granularity ∈ granularities)
    (moves : 1 ≤ stride.toInt) :
    ∃ data, preLoadTasks node granularity stride frequency rand = some data ∧
      List.Forall₂ (fun task loaded => 1 ≤ (calcDataSize task.memAccess task.memUnit).toInt →
        (loaded.1.StaysWithin loaded.2 ↔ granularity.toInt = 1 ∨
          (calcDataSize task.memAccess task.memUnit).toInt < 2 * granularity.toInt ∨
          stride.toInt % (calcDataSize task.memAccess task.memUnit).toInt ≤ 1)) node data :=
  forall₂_preLoadTasks moves fun _ _ positive =>
    staysWithin_strideGenerator_iff moves positive typed

/-- A kilobyte of `int`s in sequence, which stays within it. -/
theorem preLoadTasks_staysWithin_sequential :
    ∃ data, preLoadTasks [⟨1, .KB, 1⟩] 4 1 1 (fun _ _ => 0) = some data ∧
      ∀ loaded ∈ data, loaded.1.StaysWithin loaded.2 := by
  obtain ⟨data, loads, all⟩ :=
    @preLoadTasks_staysWithin_iff [⟨1, .KB, 1⟩] 4 1 1 (fun _ _ => 0) (by decide) (by decide)
  refine ⟨data, loads, fun loaded mem => ?_⟩
  obtain ⟨task, known, exact⟩ := exists_of_forall₂ all mem
  cases List.mem_singleton.mp known
  exact (exact (by decide)).mpr (by decide)

/-- Eight bytes of `int`s with a stride of two elements: the second phase reads the bytes from 8 to
11. -/
theorem preLoadTasks_leaves_two_ints :
    ∃ data, preLoadTasks [⟨8, .B, 1⟩] 4 2 1 (fun _ _ => 0) = some data ∧
      ∃ loaded ∈ data, 1 ≤ loaded.1.dataSize.toInt ∧ ¬ loaded.1.StaysWithin loaded.2 := by
  refine ⟨_, preLoadTasks_eq (by decide), _, List.mem_singleton_self _, by decide, ?_⟩
  rw [staysWithin_strideGenerator_iff (by decide) (by decide) (by decide)]
  decide

end PreLoad

/-! ## The elements that are read -/

/-- The element of an access. -/
def Access.index : Access → Option ℕ
  | .none => Option.none
  | .outside => Option.none
  | .element index _ => some index.toNat

/-- The different elements that the phases read. -/
def elementsRead (phases : List SparsePhase) : Finset ℕ :=
  (phases.filterMap (·.access.index)).toFinset

/-- The phases read the first entries of the pointer array. -/
theorem elementsRead_phases {node : SparseNode} {pointer : HeapArray UInt64} {entries : List UInt64}
    (typed : node.granularity ∈ granularities) (holds : pointer.Holds entries) (rounds : ℕ) :
    elementsRead ((List.range rounds).map (node.phase pointer)) =
      ((entries.map UInt64.toNat).take rounds).toFinset := by
  have element : ∀ i, (node.phase pointer i).access.index = (pointer.load i).map UInt64.toNat := by
    intro i
    rw [SparseNode.phase_access typed holds, holds.load_eq]
    cases entries[i]? <;> rfl
  rw [elementsRead, List.filterMap_map, ← List.map_take, ← holds.filterMap_load rounds,
    List.map_filterMap]
  exact congrArg List.toFinset (List.filterMap_congr fun i _ => element i)

section Elements

variable {stride : Int32} {size : Int64}

/-- Without a wrap the entries are the walk. -/
theorem map_toNat_strideEntry (moves : 1 ≤ stride.toInt) (positive : 1 ≤ size.toInt)
    (fits : stride.toInt * size.toInt < 2 ^ 64) :
    ((List.range size.toInt.toNat).map (strideEntry stride size)).map UInt64.toNat =
      (List.range size.toInt.toNat).map (strideWalk stride.toInt.toNat size.toInt.toNat) := by
  rw [List.map_map]
  refine List.map_congr_left fun i mem => toNat_strideEntry moves positive ?_
  rw [List.mem_range] at mem
  have whole : size.toInt.toNat * stride.toInt.toNat < 2 ^ 64 := by
    zify
    rwa [Int.toNat_of_nonneg (by omega), Int.toNat_of_nonneg (by omega), mul_comm]
  exact (Nat.mul_le_mul_right _ mem.le).trans_lt whole

/-- **The walk of a stride.** Up to the period the entries are the multiples of the greatest common
divisor, each once, and then they come again; so this is what the phases of a node read. -/
theorem strideGenerator_visitsMultiples (moves : 1 ≤ stride.toInt) (positive : 1 ≤ size.toInt)
    (fits : stride.toInt * size.toInt < 2 ^ 64) :
    (strideGenerator stride size).InBounds ∧
      ∃ entries, (strideGenerator stride size).Holds entries ∧
        VisitsMultiples stride.toInt.toNat size.toInt.toNat (entries.map UInt64.toNat) ∧
        ∀ node : SparseNode, node.granularity ∈ granularities →
          ∃ phases, (hgrMemEx node (strideGenerator stride size)).Returns phases ∧
            phases.length = node.phi.toNat ∧
            (node.phi.toNat ≤ size.toInt.toNat → ∀ p ∈ phases, p.access.index ≠ none) ∧
            (elementsRead phases).card = min node.phi.toNat
              (size.toInt.toNat / stride.toInt.toNat.gcd size.toInt.toNat) := by
  obtain ⟨inBounds, holds⟩ := @strideGenerator_spec stride size positive
  have walk := map_toNat_strideEntry moves positive fits
  refine ⟨inBounds, _, holds, ?_, fun node typed => ?_⟩
  · rw [walk]
    exact visitsMultiples_walk (by omega)
  · refine ⟨_, (hgrMemEx_returns (typed_of_mem typed)).mpr rfl, by simp, fun enough p mem => ?_, ?_⟩
    · rcases List.mem_map.mp mem with ⟨i, inside, rfl⟩
      rw [SparseNode.phase_access typed holds, List.getElem?_map,
        List.getElem?_range ((List.mem_range.mp inside).trans_le enough)]
      exact Option.some_ne_none _
    · rw [elementsRead_phases typed holds, walk]
      exact card_toFinset_take_walk (by omega) _

/-- The stride 4 in six places visits 0, 2 and 4, which the six phases of a node of six bytes read. -/
theorem strideGenerator_visitsMultiples_six :
    (∃ entries, (strideGenerator 4 6).Holds entries ∧
      VisitsMultiples 4 6 (entries.map UInt64.toNat)) ∧
    ∃ phases, (hgrMemEx (hgrLoadSparseNode 6 .B 1 4 1 1 0) (strideGenerator 4 6)).Returns phases ∧
      phases.length = 6 ∧ (∀ p ∈ phases, p.access.index ≠ none) ∧
      (elementsRead phases).card = 3 := by
  obtain ⟨-, entries, holds, visits, reads⟩ :=
    @strideGenerator_visitsMultiples 4 6 (by decide) (by decide) (by decide)
  obtain ⟨phases, returns, length, known, different⟩ :=
    reads (hgrLoadSparseNode 6 .B 1 4 1 1 0) (by decide)
  exact ⟨⟨entries, holds, visits⟩, phases, returns, length, known (by decide), different⟩

end Elements

end Hipert.Runtime
