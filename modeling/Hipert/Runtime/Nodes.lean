import Hipert.Lib.Countdown
import Hipert.Lib.HeapArray
import Hipert.Lib.MachineInt

/-!
# The nodes of the runtime

The functions of `hgr_common.c` that load a node and the functions of `_hgr_computation.c` that run
it. The integers are the machine integers of C on a 64-bit Linux: `int` is `Int32`, `long` is
`Int64` and `unsigned long` is `UInt64`, with the conversions where the source has them. The
floating-point products are exact rationals. The conversion of a floating-point number to an
`unsigned long` that cannot hold it, which C leaves undefined, gives no value.

A run of a node is the list of its phases, with what each reads, copies and iterates. Timing,
locking and output are left out.
-/

namespace Hipert.Runtime

/-! ## Sizes -/

/-- The unit of a node's amount of data. -/
inductive DataGranularity where
  | B
  | KB
  | MB
  | GB
  deriving DecidableEq, Repr

/-- `ROUND_UP`. -/
def roundUp (a b : UInt64) : Int32 :=
  let div : Int32 := (a / b).toInt64.toInt32
  if 0 ≤ a ^^^ b ∧ a % b ≠ 0 then div + 1 else div

/-- `calc_data_size`. -/
def calcDataSize (size : Int64) : DataGranularity → Int64
  | .B => size
  | .KB => size * 1024
  | .MB => size * 1024 * 1024
  | .GB => size * 1024 * 1024 * 1024

/-- The conversion of a floating-point integer to `unsigned long`. -/
def toUnsignedLong (x : ℤ) : Option UInt64 :=
  if 0 ≤ x ∧ x < 2 ^ 64 then some (UInt64.ofNat x.toNat) else none

/-- The bytes of one unit. -/
def DataGranularity.bytes : DataGranularity → ℤ
  | .B => 1
  | .KB => 1024
  | .MB => 1024 * 1024
  | .GB => 1024 * 1024 * 1024

theorem DataGranularity.bytes_pos (unit : DataGranularity) : 0 < unit.bytes := by
  cases unit <;> decide

/-- The data size of a 32-bit amount does not overflow. -/
theorem calcDataSize_toInt {size : Int64} (nonneg : 0 ≤ size.toInt) (fits : size.toInt < 2 ^ 31)
    (unit : DataGranularity) : (calcDataSize size unit).toInt = size.toInt * unit.bytes := by
  have kilo : (1024 : Int64).toInt = 1024 := by decide
  cases unit with
  | B => exact (mul_one _).symm
  | KB =>
      rw [calcDataSize, Int64.toInt_mul, kilo, bmod64_eq_self (by omega) (by omega)]
      rfl
  | MB =>
      rw [calcDataSize, Int64.toInt_mul, Int64.toInt_mul, kilo,
        bmod64_eq_self (x := size.toInt * 1024) (by omega) (by omega),
        bmod64_eq_self (by omega) (by omega), DataGranularity.bytes]
      omega
  | GB =>
      rw [calcDataSize, Int64.toInt_mul, Int64.toInt_mul, Int64.toInt_mul, kilo,
        bmod64_eq_self (x := size.toInt * 1024) (by omega) (by omega),
        bmod64_eq_self (x := size.toInt * 1024 * 1024) (by omega) (by omega),
        bmod64_eq_self (by omega) (by omega), DataGranularity.bytes]
      omega

/-- The number of pieces of a cache's size that some bytes of data need. -/
def chunkCount (size cSize : ℤ) : ℤ := ⌈(size : ℚ) / cSize⌉

theorem le_chunkCount_mul {size cSize : ℤ} (positive : 0 < cSize) :
    size ≤ chunkCount size cSize * cSize := by
  have pos : (0 : ℚ) < cSize := by exact_mod_cast positive
  have above := Int.le_ceil ((size : ℚ) / cSize)
  rw [div_le_iff₀ pos, ← Int.cast_mul, Int.cast_le] at above
  exact above

theorem chunkCount_sub_one_mul_lt {size cSize : ℤ} (positive : 0 < cSize) :
    (chunkCount size cSize - 1) * cSize < size := by
  have pos : (0 : ℚ) < cSize := by exact_mod_cast positive
  have below := Int.ceil_lt_add_one ((size : ℚ) / cSize)
  rw [← sub_lt_iff_lt_add, lt_div_iff₀ pos, ← Int.cast_one, ← Int.cast_sub, ← Int.cast_mul,
    Int.cast_lt] at below
  exact below

theorem chunkCount_pos_iff {size cSize : ℤ} (positive : 0 < cSize) :
    0 < chunkCount size cSize ↔ 0 < size := by
  have pos : (0 : ℚ) < cSize := by exact_mod_cast positive
  rw [chunkCount, Int.ceil_pos, div_pos_iff_of_pos_right pos, Int.cast_pos]

/-- The number of copies is the number of chunks, read as an `int`. -/
theorem roundUp_toInt {size : Int64} {cSize : Int32} (nonneg : 0 ≤ size.toInt)
    (positive : 0 < cSize.toInt) :
    (roundUp size.toUInt64 cSize.toInt64.toUInt64).toInt =
      (chunkCount size.toInt cSize.toInt).bmod (2 ^ 32) := by
  have divisor := toNat_toInt64_toUInt64 positive.le
  have quotient : ((size.toUInt64 / cSize.toInt64.toUInt64).toNat : ℤ) =
      size.toInt / cSize.toInt := by
    rw [UInt64.toNat_div, Int.natCast_div, toNat_toUInt64 nonneg, divisor]
  have less : size.toInt / cSize.toInt < 2 ^ 63 :=
    (Int.ediv_le_self _ nonneg).trans_lt size.toInt_lt
  have div : (size.toUInt64 / cSize.toInt64.toUInt64).toInt64.toInt32.toInt =
      (size.toInt / cSize.toInt).bmod (2 ^ 32) := by
    rw [Int64.toInt_toInt32, toInt_toInt64 (by omega), quotient]
  have remainder : size.toUInt64 % cSize.toInt64.toUInt64 ≠ 0 ↔
      size.toInt % cSize.toInt ≠ 0 := by
    rw [ne_eq, ← UInt64.toNat_inj, ← Int.natCast_inj, UInt64.toNat_mod, Int.natCast_mod,
      toNat_toUInt64 nonneg, divisor]
    rfl
  rw [chunkCount, ceil_div_eq positive, roundUp]
  by_cases exact : size.toInt % cSize.toInt = 0
  · rw [if_neg (fun both => remainder.mp both.2 exact), if_pos exact, add_zero, div]
  · rw [if_pos ⟨UInt64.zero_le, remainder.mpr exact⟩, if_neg exact, Int32.toInt_add, div]
    exact bmod32_add_one _

/-- `loop: dec c; jnz loop` on a field of a node. -/
def executionPhase : Option UInt64 → Fueled (Option ℕ)
  | none => pure none
  | some c => do
      let iterations ← decJnz c.toBitVec
      pure (some iterations)

theorem executionPhase_returns (counter : Option UInt64) :
    (executionPhase counter).Returns (counter.map fun c => iterationsFrom c.toBitVec) := by
  cases counter with
  | none => exact Fueled.returns_pure.mpr rfl
  | some c =>
      apply Fueled.returns_bind.mpr
      exact ⟨_, (decJnz_returns (by decide)).mpr rfl, Fueled.returns_pure.mpr rfl⟩

/-! ## PREM nodes -/

/-- `PREM_node_t`. -/
structure PremNode where
  dataGranularity : DataGranularity
  granularity : Int32
  nodeID : Int32
  numCopies : Int32
  dataSize : Int64
  wcet : ℚ
  wcetPerCycle : Option UInt64
  wcetCycles : Option UInt64
  dataSizePointer : HeapArray Int64

/-- The array `data_size_pointer` as `hgr_load_PREM_node` leaves it. -/
def chunkArray (dataSize : Int64) (cSize numCopies : Int32) : HeapArray Int64 :=
  -- a negative `num_copies` makes `malloc` fail, so that no entry is allocated
  let array : HeapArray Int64 := HeapArray.alloc numCopies.toInt.toNat
  if numCopies ≤ 1 then array.store 0 dataSize
  else
    let last := (numCopies - 1).toInt.toNat
    (array.fill last fun _ => cSize.toInt64).store last
      (dataSize - (cSize * (numCopies - 1)).toInt64)

/-- `hgr_load_PREM_node`, where `cache_size` returns `cSize`. -/
def hgrLoadPremNode (cSize : Int32) (dataSize : Int64) (dataGranularity : DataGranularity)
    (granularity : Int32) (wcet frequency : ℚ) (nodeID : Int32) : PremNode :=
  let size := calcDataSize dataSize dataGranularity
  let numCopies := roundUp size.toUInt64 cSize.toInt64.toUInt64
  let wcetCycles := toUnsignedLong ⌈wcet * 1000 * 1000 * frequency⌉
  { dataGranularity, granularity, nodeID, wcet, numCopies, wcetCycles
    dataSize := size
    dataSizePointer := chunkArray size cSize numCopies
    wcetPerCycle :=
      if numCopies ≤ 1 then wcetCycles
      else wcetCycles.map (· / numCopies.toInt64.toUInt64) }

/-- One round of `hgr_PREM_compute_node`: a `memcpy` between two offsets, of as many bytes as the
entry read from `data_size_pointer` says if there is one, and an execution phase. -/
structure PremPhase where
  source : ℕ
  destination : ℕ
  size : Option UInt64
  iterations : Option ℕ
  deriving DecidableEq, Repr

/-- `hgr_PREM_compute_node`. -/
def hgrPremComputeNode (node : PremNode) : Fueled (List PremPhase) := do
  let (_, phases) ← countdown (fun (position, phases) => do
    let iterations ← executionPhase node.wcetPerCycle
    let phase : PremPhase :=
      { source := 0
        destination := 0
        size := (node.dataSizePointer.load position).map Int64.toUInt64
        iterations }
    pure (position + 1, phases ++ [phase])) node.numCopies.toBitVec (0, [])
  pure phases

/-- The phase that `hgr_PREM_compute_node` runs with `data_size_pointer` advanced to `position`. -/
def PremNode.phase (node : PremNode) (position : ℕ) : PremPhase where
  source := 0
  destination := 0
  size := (node.dataSizePointer.load position).map Int64.toUInt64
  iterations := node.wcetPerCycle.map fun c => iterationsFrom c.toBitVec

/-- `hgr_PREM_compute_node` returns and runs one phase per copy, `num_copies` read as unsigned. -/
theorem hgrPremComputeNode_returns {node : PremNode} {phases : List PremPhase} :
    (hgrPremComputeNode node).Returns phases ↔
      phases = (List.range node.numCopies.toBitVec.toNat).map node.phase := by
  have round : ∀ s : ℕ × List PremPhase, Fueled.Returns (do
      let iterations ← executionPhase node.wcetPerCycle
      let phase : PremPhase :=
        { source := 0
          destination := 0
          size := (node.dataSizePointer.load s.1).map Int64.toUInt64
          iterations }
      pure (s.1 + 1, s.2 ++ [phase])) (s.1 + 1, s.2 ++ [node.phase s.1]) := by
    intro s
    exact Fueled.returns_bind.mpr ⟨_, executionPhase_returns _, Fueled.returns_pure.mpr rfl⟩
  rw [hgrPremComputeNode, Fueled.returns_bind]
  simp only [countdown_returns round, iterate_collect, Fueled.returns_pure]
  simp [eq_comm]

/-! ## SPARSE nodes -/

/-- `SPARSE_node_t`, with the number of elements allocated behind its typed pointer. -/
structure SparseNode where
  dataGranularity : DataGranularity
  granularity : Int32
  stride : Int32
  nodeID : Int32
  dataSize : Int64
  wcet : ℚ
  phi : UInt64
  wcetCycles : Option UInt64
  elements : ℕ

/-- The size of the type behind the pointer that is used for a granularity: `char`, `int`, `double`
or `long double`. -/
def elementSize (granularity : Int32) : Option ℕ :=
  if granularity = 1 then some 1
  else if granularity = 4 then some 4
  else if granularity = 8 then some 8
  else if granularity = 16 then some 16
  else none

/-- `hgr_load_SPARSE_node`, for a granularity that is not zero. -/
def hgrLoadSparseNode (dataSize : Int64) (dataGranularity : DataGranularity)
    (granularity stride : Int32) (wcet frequency : ℚ) (nodeID : Int32) : SparseNode :=
  let size := calcDataSize dataSize dataGranularity
  let phi := size / granularity.toInt64
  let wcetCycles := wcet * 1000 * 1000 * frequency - 4
  { dataGranularity, granularity, stride, nodeID, wcet
    dataSize := size
    phi := phi.toUInt64
    -- dividing by a zero `phi` gives an infinity or no number
    wcetCycles := if phi = 0 then none else toUnsignedLong ⌈wcetCycles / phi.toInt⌉
    elements := if (elementSize granularity).isSome then size.toInt.toNat else 0 }

/-- The memory phase of a round of `hgr_mem_ex`: no read, a read of the pointer array outside of it,
or the read of an element of some bytes. -/
inductive Access where
  | none
  | outside
  | element (index : UInt64) (bytes : ℕ)
  deriving DecidableEq, Repr

/-- One round of `hgr_mem_ex`. -/
structure SparsePhase where
  access : Access
  iterations : Option ℕ
  deriving DecidableEq, Repr

/-- The memory phase with the pointer at `position`, and where it leaves the pointer. -/
def memoryPhase (granularity : Int32) (pointer : HeapArray UInt64) (position : ℕ) : Access × ℕ :=
  match elementSize granularity with
  | none => (.none, position)
  | some bytes =>
      match pointer.load position with
      | none => (.outside, position + 1)
      | some index => (.element index bytes, position + 1)

/-- `hgr_mem_ex`. -/
def hgrMemEx (node : SparseNode) (pointer : HeapArray UInt64) : Fueled (List SparsePhase) := do
  let (_, phases) ← countdown (fun (position, phases) => do
    let (access, next) := memoryPhase node.granularity pointer position
    let iterations ← executionPhase node.wcetCycles
    pure (next, phases ++ [{ access, iterations }])) node.phi.toBitVec (0, [])
  pure phases

/-- The granularities with a typed pointer. -/
def granularities : List Int32 := [1, 4, 8, 16]

theorem elementSize_eq {granularity : Int32} (typed : granularity ∈ granularities) :
    elementSize granularity = some granularity.toInt.toNat ∧ 0 < granularity.toInt := by
  unfold granularities at typed
  simp only [List.mem_cons, List.not_mem_nil, or_false] at typed
  rcases typed with rfl | rfl | rfl | rfl <;> decide

theorem typed_of_mem {granularity : Int32} (typed : granularity ∈ granularities) :
    (elementSize granularity).isSome := by
  rw [(elementSize_eq typed).1, Option.isSome_some]

/-- The number of phases of a SPARSE node. -/
theorem phi_hgrLoadSparseNode {amount : Int64} {unit : DataGranularity}
    {granularity stride : Int32} {wcet frequency : ℚ} {nodeID : Int32}
    (nonneg : 0 ≤ (calcDataSize amount unit).toInt) (positive : 0 < granularity.toInt) :
    (calcDataSize amount unit / granularity.toInt64).toInt =
        (calcDataSize amount unit).toInt / granularity.toInt ∧
      ((hgrLoadSparseNode amount unit granularity stride wcet frequency nodeID).phi.toNat : ℤ) =
        (calcDataSize amount unit).toInt / granularity.toInt := by
  have quotient : (calcDataSize amount unit / granularity.toInt64).toInt =
      (calcDataSize amount unit).toInt / granularity.toInt := by
    rw [toInt_div nonneg (by simpa using positive), Int32.toInt_toInt64]
  refine ⟨quotient, ?_⟩
  rw [← quotient]
  apply toNat_toUInt64
  rw [quotient]
  exact Int.ediv_nonneg nonneg positive.le

/-- The phase that `hgr_mem_ex` runs with its pointer advanced to `position`. -/
def SparseNode.phase (node : SparseNode) (pointer : HeapArray UInt64) (position : ℕ) :
    SparsePhase where
  access := (memoryPhase node.granularity pointer position).1
  iterations := node.wcetCycles.map fun c => iterationsFrom c.toBitVec

theorem memoryPhase_next {granularity : Int32} (typed : (elementSize granularity).isSome)
    (pointer : HeapArray UInt64) (position : ℕ) :
    (memoryPhase granularity pointer position).2 = position + 1 := by
  obtain ⟨bytes, size⟩ := Option.isSome_iff_exists.mp typed
  rw [memoryPhase, size]
  cases pointer.load position <;> rfl

/-- `hgr_mem_ex` returns and runs `phi` phases, for a granularity with a typed pointer. -/
theorem hgrMemEx_returns {node : SparseNode} {pointer : HeapArray UInt64}
    (typed : (elementSize node.granularity).isSome) {phases : List SparsePhase} :
    (hgrMemEx node pointer).Returns phases ↔
      phases = (List.range node.phi.toNat).map (node.phase pointer) := by
  have round : ∀ s : ℕ × List SparsePhase, Fueled.Returns (do
      let iterations ← executionPhase node.wcetCycles
      pure ((memoryPhase node.granularity pointer s.1).2,
        s.2 ++ [{ access := (memoryPhase node.granularity pointer s.1).1, iterations }]))
      (s.1 + 1, s.2 ++ [node.phase pointer s.1]) := by
    intro s
    rw [memoryPhase_next typed]
    exact Fueled.returns_bind.mpr ⟨_, executionPhase_returns _, Fueled.returns_pure.mpr rfl⟩
  rw [hgrMemEx, Fueled.returns_bind]
  simp only [countdown_returns round, iterate_collect, Fueled.returns_pure]
  simp [eq_comm]

/-- A phase reads the element that the pointer array has for it. -/
theorem SparseNode.phase_access {node : SparseNode} {pointer : HeapArray UInt64}
    {entries : List UInt64} (typed : node.granularity ∈ granularities)
    (holds : pointer.Holds entries) (position : ℕ) :
    (node.phase pointer position).access = (entries[position]?).elim Access.outside
      fun index => .element index node.granularity.toInt.toNat := by
  simp only [SparseNode.phase, memoryPhase, (elementSize_eq typed).1, holds.load_eq]
  cases entries[position]? <;> rfl

end Hipert.Runtime
