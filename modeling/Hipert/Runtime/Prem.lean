import Hipert.Runtime.Nodes
import Mathlib.Algebra.BigOperators.Group.List.Basic
import Mathlib.Data.List.Count

/-!
# Chunks of a PREM node

`hgr_load_PREM_node` cuts the data of a node into chunks of the cache's size and
`hgr_PREM_compute_node` copies one of them in each phase. The cut is exact as long as there is
data, the number of chunks fits in an `int` and so does the product that gives the last chunk. The
copies always read from the start of the data, so they cover it once only when there is a single
chunk.
-/

namespace Hipert.Runtime

/-! ## The chunk array -/

section ChunkArray

variable {dataSize : Int64} {cSize numCopies : Int32}

/-- The last of several chunks. -/
def lastChunk (dataSize : Int64) (cSize numCopies : Int32) : Int64 :=
  dataSize - (cSize * (numCopies - 1)).toInt64

/-- The chunk sizes of a positive number of copies. -/
def chunkList (dataSize : Int64) (cSize numCopies : Int32) : List Int64 :=
  if numCopies ≤ 1 then [dataSize]
  else List.replicate (numCopies - 1).toInt.toNat cSize.toInt64 ++
    [lastChunk dataSize cSize numCopies]

theorem le_one_iff : numCopies ≤ 1 ↔ numCopies.toInt ≤ 1 := by
  rw [Int32.le_iff_toInt_le]
  rfl

theorem toInt_sub_one (positive : 0 < numCopies.toInt) :
    (numCopies - 1).toInt = numCopies.toInt - 1 := by
  have bound := numCopies.toInt_lt
  rw [Int32.toInt_sub]
  exact bmod32_eq_self (by rw [show (1 : Int32).toInt = 1 from rfl]; omega)
    (by rw [show (1 : Int32).toInt = 1 from rfl]; omega)

/-- Without an entry the only store goes outside of the array. -/
theorem chunkArray_not_inBounds (none : numCopies.toInt ≤ 0) :
    ¬ (chunkArray dataSize cSize numCopies).InBounds := by
  have few : numCopies ≤ 1 := le_one_iff.mpr (by omega)
  rw [chunkArray, if_pos few, HeapArray.inBounds_store, HeapArray.entries_alloc]
  omega

theorem chunkArray_entries :
    (chunkArray dataSize cSize numCopies).entries = numCopies.toInt.toNat := by
  unfold chunkArray
  split <;> simp

/-- With at least one copy all stores are inside and every entry is written. -/
theorem chunkArray_spec (positive : 0 < numCopies.toInt) :
    (chunkArray dataSize cSize numCopies).InBounds ∧
      (chunkArray dataSize cSize numCopies).Holds (chunkList dataSize cSize numCopies) := by
  unfold chunkArray chunkList
  split
  next few =>
    have one : numCopies.toInt = 1 := by
      have := le_one_iff.mp few
      omega
    refine ⟨HeapArray.inBounds_store.mpr ⟨by simp [one], HeapArray.inBounds_alloc _⟩,
      by simp [one], fun i inside => ?_⟩
    have first : i = 0 := by
      rw [HeapArray.entries_store, HeapArray.entries_alloc, one] at inside
      omega
    subst first
    exact HeapArray.load_store_self (by simp [one]) _
  next many =>
    rw [le_one_iff] at many
    have last : (numCopies - 1).toInt.toNat + 1 = numCopies.toInt.toNat := by
      rw [toInt_sub_one positive]
      omega
    refine ⟨HeapArray.inBounds_store.mpr ⟨?_, ?_⟩, ?_, fun i inside => ?_⟩
    · rw [HeapArray.entries_fill, HeapArray.entries_alloc]
      omega
    · exact HeapArray.inBounds_fill (HeapArray.inBounds_alloc _)
        (by rw [HeapArray.entries_alloc]; omega) _
    · rw [List.length_append, List.length_replicate, List.length_singleton, last,
        HeapArray.entries_store, HeapArray.entries_fill, HeapArray.entries_alloc]
    · rw [HeapArray.entries_store, HeapArray.entries_fill, HeapArray.entries_alloc] at inside
      rcases Nat.lt_succ_iff_lt_or_eq.mp (inside.trans_eq last.symm) with earlier | final
      · rw [HeapArray.load_store_ne _ earlier.ne, HeapArray.load_fill earlier inside,
          List.getElem?_append_left (by simpa using earlier), List.getElem?_replicate,
          if_pos earlier]
      · subst final
        rw [HeapArray.load_store_self (by simpa using inside),
          List.getElem?_append_right (by simp), List.length_replicate, Nat.sub_self]
        rfl

theorem chunkList_length (positive : 0 < numCopies.toInt) :
    (chunkList dataSize cSize numCopies).length = numCopies.toInt.toNat := by
  rw [(chunkArray_spec positive).2.1, chunkArray_entries]

/-- The sum of several chunk sizes. -/
theorem chunkList_sum (many : 1 < numCopies.toInt) :
    ((chunkList dataSize cSize numCopies).map Int64.toInt).sum =
      (numCopies.toInt - 1) * cSize.toInt + (lastChunk dataSize cSize numCopies).toInt := by
  rw [chunkList, if_neg (by rw [le_one_iff]; omega), List.map_append, List.map_replicate,
    List.sum_append, List.sum_replicate, toInt_sub_one (by omega), Int32.toInt_toInt64,
    nsmul_eq_mul, Int.toNat_of_nonneg (by omega)]
  simp

/-- Every entry of the chunk list is a full chunk or the last. -/
theorem mem_chunkList (many : 1 < numCopies.toInt) {v : Int64} :
    v ∈ chunkList dataSize cSize numCopies →
      v.toInt = cSize.toInt ∨ v = lastChunk dataSize cSize numCopies := by
  rw [chunkList, if_neg (by rw [le_one_iff]; omega), List.mem_append, List.mem_singleton]
  rintro (full | last)
  · left
    rw [(List.mem_replicate.mp full).2, Int32.toInt_toInt64]
  · exact Or.inr last

theorem lastChunk_toInt : (lastChunk dataSize cSize numCopies).toInt =
    (dataSize.toInt - (cSize.toInt * (numCopies - 1).toInt).bmod (2 ^ 32)).bmod (2 ^ 64) := by
  rw [lastChunk, Int64.toInt_sub, Int32.toInt_toInt64, Int32.toInt_mul]

/-- The last chunk is what the full chunks leave, as long as the product fits in an `int`. -/
theorem lastChunk_of_fits (nonneg : 0 ≤ dataSize.toInt) (positive : 0 < numCopies.toInt)
    (cache : 0 < cSize.toInt) (fits : (numCopies.toInt - 1) * cSize.toInt < 2 ^ 31) :
    (lastChunk dataSize cSize numCopies).toInt =
      dataSize.toInt - (numCopies.toInt - 1) * cSize.toInt := by
  have product : 0 ≤ (numCopies.toInt - 1) * cSize.toInt :=
    mul_nonneg (by omega) cache.le
  have bound := dataSize.toInt_lt
  rw [lastChunk_toInt, toInt_sub_one positive, mul_comm cSize.toInt,
    bmod32_eq_self (by omega) fits, bmod64_eq_self (by omega) (by omega)]

/-- The chunk sizes add up to the data size only where the product fits. -/
theorem chunkList_sum_iff (nonneg : 0 ≤ dataSize.toInt) (small : dataSize.toInt < 2 ^ 62)
    (positive : 0 < numCopies.toInt) (cache : 0 < cSize.toInt) :
    ((chunkList dataSize cSize numCopies).map Int64.toInt).sum = dataSize.toInt ↔
      (numCopies.toInt - 1) * cSize.toInt < 2 ^ 31 := by
  rcases lt_or_eq_of_le (Int.add_one_le_of_lt positive) with many | one
  · rw [chunkList_sum many]
    refine ⟨?_, ?_⟩
    · intro sum
      rw [lastChunk_toInt, toInt_sub_one positive, mul_comm cSize.toInt] at sum
      set product := (numCopies.toInt - 1) * cSize.toInt
      have low := Int.le_bmod (x := product) (m := 2 ^ 32) (by decide)
      have high := Int.bmod_lt (x := product) (m := 2 ^ 32) (by decide)
      rw [bmod64_eq_self (by omega) (by omega)] at sum
      omega
    · intro fits
      rw [lastChunk_of_fits nonneg positive cache fits]
      omega
  · have single : chunkList dataSize cSize numCopies = [dataSize] :=
      if_pos (le_one_iff.mpr (by omega))
    have nothing : (numCopies.toInt - 1) * cSize.toInt = 0 := by simp [← one]
    rw [single, nothing]
    simp

end ChunkArray

/-! ## Exact chunking -/

/-- The chunks of a loaded node are exact for a cache of `cSize` bytes: the stores stay inside of
the array, there are as many chunks as the data needs, they are neither empty nor too large and
they add up to the data, and no copy of a run leaves the `data_size` bytes at its destination. -/
structure PremNode.ChunkingExact (node : PremNode) (cSize : Int32) : Prop where
  inBounds : node.dataSizePointer.InBounds
  count : node.numCopies.toInt = chunkCount node.dataSize.toInt cSize.toInt
  chunks : ∃ sizes, node.dataSizePointer.Holds sizes ∧
    (∀ v ∈ sizes, 1 ≤ v.toInt ∧ v.toInt ≤ min cSize.toInt node.dataSize.toInt) ∧
    (sizes.map Int64.toInt).sum = node.dataSize.toInt
  copies : ∃ phases, (hgrPremComputeNode node).Returns phases ∧
    ∀ p ∈ phases, ∃ n ∈ p.size, (p.destination + n.toNat : ℤ) ≤ node.dataSize.toInt

/-- As many rounds are run as there are copies. -/
theorem toNat_toBitVec {n : Int32} (nonneg : 0 ≤ n.toInt) : n.toBitVec.toNat = n.toInt.toNat := by
  have bound := n.toInt_lt
  have reads : n.toInt = (n.toBitVec.toNat : ℤ).bmod (2 ^ 32) := BitVec.toInt_eq_toNat_bmod _
  have less := n.toBitVec.isLt
  rw [Int.bmod_def] at reads
  split at reads <;> omega

/-- Every phase of a run copies one of the chunks. -/
theorem PremNode.phase_size {node : PremNode} {sizes : List Int64}
    (holds : node.dataSizePointer.Holds sizes) {position : ℕ} (inside : position < sizes.length) :
    (node.phase position).size = some sizes[position].toUInt64 := by
  have entry := holds.2 position (inside.trans_eq holds.1)
  rw [PremNode.phase, entry, List.getElem?_eq_getElem inside, Option.map_some]

/-- No copy leaves the destination, where no chunk is larger than the data. -/
theorem destination_le {node : PremNode} {sizes : List Int64}
    (holds : node.dataSizePointer.Holds sizes)
    (bounds : ∀ v ∈ sizes, 1 ≤ v.toInt ∧ v.toInt ≤ node.dataSize.toInt) {p : PremPhase}
    (mem : p ∈ (List.range sizes.length).map node.phase) :
    ∃ n ∈ p.size, (p.destination + n.toNat : ℤ) ≤ node.dataSize.toInt := by
  rcases List.mem_map.mp mem with ⟨position, inside, rfl⟩
  have inside := List.mem_range.mp inside
  have bound := bounds _ (List.getElem_mem inside)
  refine ⟨_, PremNode.phase_size holds inside, ?_⟩
  rw [toNat_toUInt64 (by omega)]
  simp only [PremNode.phase]
  omega

section Load

variable {cSize : Int32} {amount : Int64} {unit : DataGranularity} {granularity : Int32}
  {wcet frequency : ℚ} {nodeID : Int32}

theorem numCopies_hgrLoadPremNode (nonneg : 0 ≤ (calcDataSize amount unit).toInt)
    (cache : 0 < cSize.toInt) :
    (hgrLoadPremNode cSize amount unit granularity wcet frequency nodeID).numCopies.toInt =
      (chunkCount (calcDataSize amount unit).toInt cSize.toInt).bmod (2 ^ 32) :=
  roundUp_toInt nonneg cache

/-- The chunks of one copy, or of several whose sizes fit, are neither empty nor too large. -/
theorem chunkList_bounds {dataSize : Int64} {numCopies : Int32} (positive : 0 < dataSize.toInt)
    (cache : 0 < cSize.toInt) (count : numCopies.toInt = chunkCount dataSize.toInt cSize.toInt)
    (fits : (numCopies.toInt - 1) * cSize.toInt < 2 ^ 31) {v : Int64}
    (mem : v ∈ chunkList dataSize cSize numCopies) :
    1 ≤ v.toInt ∧ v.toInt ≤ min cSize.toInt dataSize.toInt := by
  have copies : 0 < numCopies.toInt := by rwa [count, chunkCount_pos_iff cache]
  have enough : dataSize.toInt ≤ chunkCount dataSize.toInt cSize.toInt * cSize.toInt :=
    le_chunkCount_mul cache
  have needed : (chunkCount dataSize.toInt cSize.toInt - 1) * cSize.toInt < dataSize.toInt :=
    chunkCount_sub_one_mul_lt cache
  rw [← count] at enough needed
  rcases lt_or_eq_of_le (Int.add_one_le_of_lt copies) with many | one
  · have several : cSize.toInt ≤ (numCopies.toInt - 1) * cSize.toInt :=
      le_mul_of_one_le_left cache.le (by omega)
    have rest : numCopies.toInt * cSize.toInt =
        (numCopies.toInt - 1) * cSize.toInt + cSize.toInt := by ring
    rcases mem_chunkList (by omega) mem with full | last
    · rw [full]
      omega
    · rw [last, lastChunk_of_fits positive.le copies cache fits]
      omega
  · rw [← one] at enough
    have few : numCopies ≤ 1 := le_one_iff.mpr (by omega)
    rw [chunkList, if_pos few, List.mem_singleton] at mem
    subst mem
    omega

/-- **Exact chunking.** The chunks of a node are exact when there is data to cut, the number of
chunks fits in an `int`, and so do the bytes before the last chunk; and only then. -/
theorem chunkingExact_iff (nonneg : 0 ≤ (calcDataSize amount unit).toInt)
    (small : (calcDataSize amount unit).toInt < 2 ^ 62) (cache : 0 < cSize.toInt) :
    (hgrLoadPremNode cSize amount unit granularity wcet frequency nodeID).ChunkingExact cSize ↔
      0 < (calcDataSize amount unit).toInt ∧
        chunkCount (calcDataSize amount unit).toInt cSize.toInt < 2 ^ 31 ∧
        (chunkCount (calcDataSize amount unit).toInt cSize.toInt - 1) * cSize.toInt < 2 ^ 31 := by
  set node := hgrLoadPremNode cSize amount unit granularity wcet frequency nodeID with loaded
  set size := calcDataSize amount unit with size_eq
  have array : node.dataSizePointer = chunkArray size cSize node.numCopies := rfl
  have dataSize : node.dataSize = size := rfl
  refine ⟨?_, ?_⟩
  · intro exact
    have count := exact.count
    rw [dataSize] at count
    have copies : 0 < node.numCopies.toInt := by
      by_contra none
      have outside : ¬ (chunkArray size cSize node.numCopies).InBounds :=
        chunkArray_not_inBounds (not_lt.mp none)
      rw [← array] at outside
      exact outside exact.inBounds
    have bound := node.numCopies.toInt_lt
    obtain ⟨sizes, holds, -, sum⟩ := exact.chunks
    refine ⟨(chunkCount_pos_iff cache).mp (count ▸ copies), count ▸ bound, ?_⟩
    rw [array] at holds
    rw [holds.unique (chunkArray_spec copies).2, dataSize] at sum
    rw [← count]
    exact (chunkList_sum_iff nonneg small copies cache).mp sum
  · intro given
    rcases given with ⟨positive, fits, product⟩
    have count : node.numCopies.toInt = chunkCount size.toInt cSize.toInt := by
      have some_chunk := (chunkCount_pos_iff cache).mpr positive
      rw [numCopies_hgrLoadPremNode nonneg cache, bmod32_eq_self (by omega) fits]
    have copies : 0 < node.numCopies.toInt := by rwa [count, chunkCount_pos_iff cache]
    rw [← count] at product
    obtain ⟨inBounds, holds⟩ := @chunkArray_spec size cSize node.numCopies copies
    have bounds := fun v => chunkList_bounds (v := v) positive cache count product
    have sum := (chunkList_sum_iff nonneg small copies cache).mpr product
    refine ⟨array ▸ inBounds, count, ⟨_, array ▸ holds, bounds, sum⟩,
      _, hgrPremComputeNode_returns.mpr rfl, fun p mem => ?_⟩
    rw [toNat_toBitVec copies.le, ← chunkList_length copies] at mem
    apply destination_le (array ▸ holds) ?_ mem
    exact fun v here => ⟨(bounds v here).1, (bounds v here).2.trans (min_le_right _ _)⟩

/-- **Exact chunking of a 32-bit amount.** The cut is exact for every amount but zero as long as
the number of chunks, and the bytes before the last one, fit in an `int`. -/
theorem hgrLoadPremNode_chunkingExact_iff (nonneg : 0 ≤ amount.toInt)
    (fits : amount.toInt < 2 ^ 31) (cache : 0 < cSize.toInt) :
    (hgrLoadPremNode cSize amount unit granularity wcet frequency nodeID).ChunkingExact cSize ↔
      0 < amount.toInt ∧
        chunkCount (amount.toInt * unit.bytes) cSize.toInt < 2 ^ 31 ∧
        (chunkCount (amount.toInt * unit.bytes) cSize.toInt - 1) * cSize.toInt < 2 ^ 31 := by
  have size := calcDataSize_toInt nonneg fits unit
  have unit_le : unit.bytes ≤ 2 ^ 30 := by cases unit <;> decide
  have small : amount.toInt * unit.bytes < 2 ^ 62 :=
    calc amount.toInt * unit.bytes
      _ ≤ amount.toInt * 2 ^ 30 := mul_le_mul_of_nonneg_left unit_le nonneg
      _ < 2 ^ 62 := by omega
  rw [chunkingExact_iff (by rw [size]; exact mul_nonneg nonneg unit.bytes_pos.le)
    (by rw [size]; exact small) cache, size, mul_pos_iff_of_pos_right unit.bytes_pos]

end Load

/-- The cut of two kilobytes for a cache of one is exact. -/
theorem chunkingExact_two_kilobytes :
    (hgrLoadPremNode 1024 2 .KB 1 (1 / 10) 1000 0).ChunkingExact 1024 := by
  apply (hgrLoadPremNode_chunkingExact_iff (by decide) (by decide) (by decide)).mpr
  rw [chunkCount, ceil_div_eq (by decide)]
  decide

/-- Three gigabytes and a cache of one megabyte: the bytes before the last chunk overflow. -/
theorem not_chunkingExact_three_gigabytes :
    (0 : ℤ) ≤ (3 : Int64).toInt ∧ (3 : Int64).toInt < 2 ^ 31 ∧ 0 < (1048576 : Int32).toInt ∧
      ¬ (hgrLoadPremNode 1048576 3 .GB 1 (1 / 10) 1000 0).ChunkingExact 1048576 := by
  refine ⟨by decide, by decide, by decide, fun exact => ?_⟩
  have product := ((chunkingExact_iff (by decide) (by decide) (by decide)).mp exact).2.2
  rw [chunkCount, ceil_div_eq (by decide)] at product
  exact absurd product (by decide)

/-! ## Coverage -/

/-- The phase copies the byte at `offset` of the node's data. -/
def PremPhase.reads (p : PremPhase) (offset : ℕ) : Bool :=
  p.size.any fun n => decide (p.source ≤ offset ∧ offset < p.source + n.toNat)

/-- A whole run reads every byte of the node's data in exactly one of its copies. -/
def PremNode.CoversOnce (node : PremNode) : Prop :=
  ∃ phases, (hgrPremComputeNode node).Returns phases ∧
    ∀ offset < node.dataSize.toInt.toNat, phases.countP (·.reads offset) = 1

/-- The chunk sizes of the node add up to its data size. -/
def PremNode.ChunksAddUp (node : PremNode) : Prop :=
  ∃ sizes, node.dataSizePointer.Holds sizes ∧ (sizes.map Int64.toInt).sum = node.dataSize.toInt

/-- A copy of at least one byte reads the first byte of the data. -/
theorem reads_zero {node : PremNode} {sizes : List Int64}
    (holds : node.dataSizePointer.Holds sizes) {position : ℕ} (inside : position < sizes.length)
    (positive : 0 < sizes[position].toInt) : (node.phase position).reads 0 = true := by
  have size := toNat_toUInt64 positive.le
  rw [PremPhase.reads, PremNode.phase_size holds inside]
  simp [PremNode.phase]
  omega

/-- Where every copy has some bytes, each of them reads the first byte. -/
theorem countP_reads_zero {node : PremNode} {sizes : List Int64}
    (holds : node.dataSizePointer.Holds sizes) (positive : ∀ v ∈ sizes, 0 < v.toInt) :
    ((List.range sizes.length).map node.phase).countP (·.reads 0) = sizes.length := by
  have all : ∀ p ∈ (List.range sizes.length).map node.phase, p.reads 0 = true := by
    intro p mem
    rcases List.mem_map.mp mem with ⟨position, inside, rfl⟩
    have inside := List.mem_range.mp inside
    exact reads_zero holds inside (positive _ (List.getElem_mem inside))
  rw [List.countP_eq_length.mpr all, List.length_map, List.length_range]

/-- A single copy reads all bytes. -/
theorem reads_of_single {node : PremNode} {size : Int64} (holds : node.dataSizePointer.Holds [size])
    {offset : ℕ} (inside : offset < size.toInt.toNat) : (node.phase 0).reads offset = true := by
  have bytes := toNat_toUInt64 (a := size) (by omega)
  rw [PremPhase.reads, PremNode.phase_size holds (List.length_pos_of_mem List.mem_cons_self)]
  simp [PremNode.phase]
  omega

section Load

variable {cSize : Int32} {amount : Int64} {unit : DataGranularity} {granularity : Int32}
  {wcet frequency : ℚ} {nodeID : Int32}

/-- A node whose chunks add up has a copy, and its chunks are those of the list. -/
theorem chunks_of_addUp (positive : 1 ≤ (calcDataSize amount unit).toInt) {node : PremNode}
    (loaded : node = hgrLoadPremNode cSize amount unit granularity wcet frequency nodeID)
    (addUp : node.ChunksAddUp) :
    0 < node.numCopies.toInt ∧
      node.dataSizePointer.Holds (chunkList (calcDataSize amount unit) cSize node.numCopies) ∧
      ((chunkList (calcDataSize amount unit) cSize node.numCopies).map Int64.toInt).sum =
        (calcDataSize amount unit).toInt := by
  have array : node.dataSizePointer =
      chunkArray (calcDataSize amount unit) cSize node.numCopies := loaded ▸ rfl
  have dataSize : node.dataSize = calcDataSize amount unit := loaded ▸ rfl
  obtain ⟨sizes, holds, sum⟩ := addUp
  rw [dataSize] at sum
  have copies : 0 < node.numCopies.toInt := by
    by_contra none
    have empty : sizes = [] := by
      apply List.eq_nil_of_length_eq_zero
      rw [holds.1, array, chunkArray_entries]
      omega
    rw [empty, List.map_nil, List.sum_nil] at sum
    omega
  have list : sizes = chunkList (calcDataSize amount unit) cSize node.numCopies :=
    holds.unique (array ▸ (chunkArray_spec copies).2)
  exact ⟨copies, list ▸ holds, list ▸ sum⟩

/-- Every chunk of a node whose chunks add up holds some data. -/
theorem chunkList_pos {dataSize : Int64} {numCopies : Int32} (positive : 0 < dataSize.toInt)
    (cache : 0 < cSize.toInt) (copies : 0 < numCopies.toInt)
    (few : numCopies.toInt ≤ chunkCount dataSize.toInt cSize.toInt)
    (sum : ((chunkList dataSize cSize numCopies).map Int64.toInt).sum = dataSize.toInt)
    {v : Int64} (mem : v ∈ chunkList dataSize cSize numCopies) : 0 < v.toInt := by
  rcases lt_or_eq_of_le (Int.add_one_le_of_lt copies) with many | one
  · rcases mem_chunkList (by omega) mem with full | last
    · rwa [full]
    · rw [chunkList_sum (by omega)] at sum
      have needed : (chunkCount dataSize.toInt cSize.toInt - 1) * cSize.toInt < dataSize.toInt :=
        chunkCount_sub_one_mul_lt cache
      have fewer : (numCopies.toInt - 1) * cSize.toInt ≤
          (chunkCount dataSize.toInt cSize.toInt - 1) * cSize.toInt :=
        mul_le_mul_of_nonneg_right (by omega) cache.le
      rw [last]
      omega
  · rw [chunkList, if_pos (le_one_iff.mpr (by omega)), List.mem_singleton] at mem
    rwa [mem]

/-- **Coverage.** A run covers the data once where there is a single copy. With several copies
each of them reads the first byte. -/
theorem hgrPremComputeNode_coversOnce_iff (positive : 1 ≤ (calcDataSize amount unit).toInt)
    (cache : 0 < cSize.toInt)
    (addUp : (hgrLoadPremNode cSize amount unit granularity wcet frequency nodeID).ChunksAddUp) :
    (hgrLoadPremNode cSize amount unit granularity wcet frequency nodeID).CoversOnce ↔
      chunkCount (calcDataSize amount unit).toInt cSize.toInt % 2 ^ 32 = 1 := by
  have count : (hgrLoadPremNode cSize amount unit granularity wcet frequency
      nodeID).numCopies.toInt =
        (chunkCount (calcDataSize amount unit).toInt cSize.toInt).bmod (2 ^ 32) :=
    numCopies_hgrLoadPremNode (by omega) cache
  set node := hgrLoadPremNode cSize amount unit granularity wcet frequency nodeID with loaded
  set size := calcDataSize amount unit with size_eq
  have dataSize : node.dataSize = size := rfl
  obtain ⟨copies, holds, sum⟩ := chunks_of_addUp positive loaded addUp
  have length : (chunkList size cSize node.numCopies).length = node.numCopies.toInt.toNat :=
    chunkList_length copies
  have remainder : node.numCopies.toInt = chunkCount size.toInt cSize.toInt % 2 ^ 32 := by
    rw [count, bmod32_of_pos (count ▸ copies)]
  have few : node.numCopies.toInt ≤ chunkCount size.toInt cSize.toInt := by
    have chunks : 0 < chunkCount size.toInt cSize.toInt := (chunkCount_pos_iff cache).mpr positive
    rw [remainder]
    omega
  rw [← remainder]
  refine ⟨?_, ?_⟩
  · intro given
    rcases given with ⟨phases, run, once⟩
    have first := once 0 (by rw [dataSize]; omega)
    rw [hgrPremComputeNode_returns, toNat_toBitVec copies.le, ← length] at run
    have some_bytes : ∀ v ∈ chunkList size cSize node.numCopies, 0 < v.toInt := fun v mem =>
      chunkList_pos positive cache copies few sum mem
    rw [run, countP_reads_zero holds some_bytes, length] at first
    omega
  · intro one
    refine ⟨_, hgrPremComputeNode_returns.mpr rfl, fun offset inside => ?_⟩
    have single : chunkList size cSize node.numCopies = [size] :=
      if_pos (le_one_iff.mpr (by omega))
    have reads : (node.phase 0).reads offset = true := reads_of_single (single ▸ holds) inside
    rw [toNat_toBitVec copies.le, one]
    simp [reads]

end Load

/-- One kilobyte fits a cache of one megabyte and is read once. -/
theorem coversOnce_kilobyte : (hgrLoadPremNode 1048576 1 .KB 1 (1 / 10) 1000 0).CoversOnce := by
  apply (hgrPremComputeNode_coversOnce_iff (by decide) (by decide)
    ⟨[1024], by decide, by decide⟩).mpr
  rw [chunkCount, ceil_div_eq (by decide)]
  decide

/-- Of two chunks of a kilobyte both copies read the first byte, and none the last. -/
theorem not_coversOnce_two_chunks :
    1 ≤ (calcDataSize 2 .KB).toInt ∧ 0 < (1024 : Int32).toInt ∧
      (hgrLoadPremNode 1024 2 .KB 1 (1 / 10) 1000 0).ChunksAddUp ∧
      ¬ (hgrLoadPremNode 1024 2 .KB 1 (1 / 10) 1000 0).CoversOnce := by
  refine ⟨by decide, by decide, ⟨[1024, 1024], by decide, by decide⟩, ?_⟩
  intro given
  rcases given with ⟨phases, run, once⟩
  have first := once 0 (by decide)
  rw [hgrPremComputeNode_returns] at run
  subst run
  exact absurd first (by decide)

end Hipert.Runtime
