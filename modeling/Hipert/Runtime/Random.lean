import Hipert.Runtime.Nodes

/-!
# Random access patterns

`random_generator` puts each result of `rand` into a bucket of `RAND_MAX / (size + 1)` values. The
buckets of the largest results lie at `size` and beyond, and from `RAND_MAX` on the width of a
bucket is zero. The indices stay in range for the sequences of results that avoid both.
-/

namespace Hipert.Runtime

/-- `RAND_MAX`. -/
def randMax : Int32 := 2147483647

/-- A division of `long` integers, which traps when the divisor is zero. -/
def divLong (a b : Int64) : Option Int64 := if b = 0 then none else some (a / b)

/-- `random_generator`, where the calls of `rand` return the results `rand 0`, `rand 1`, … -/
def randomGenerator (size : Int64) (rand : ℕ → Int32) : Option (HeapArray UInt64) := do
  let divisor ← divLong randMax.toInt64 (size + 1)
  (HeapArray.alloc size.toInt.toNat).fillM size.toInt.toNat fun i => do
    let randVal ← divLong (rand i).toInt64 divisor
    some randVal.toInt32.toInt64.toUInt64

section Generator

variable {size : Int64} {rand : ℕ → Int32}

theorem size_add_one (fits : size.toInt < 2 ^ 63 - 1) :
    (size + 1).toInt = size.toInt + 1 := by
  have low := size.le_toInt
  rw [Int64.toInt_add, show (1 : Int64).toInt = 1 from rfl, bmod64_eq_self (by omega) (by omega)]

theorem ne_zero_of_toInt_pos {a : Int64} (positive : 0 < a.toInt) : a ≠ 0 := by
  intro zero
  rw [zero] at positive
  exact absurd positive (by decide)

/-- The width of a bucket, as long as `RAND_MAX` is not reached. -/
theorem divisor_eq (positive : 1 ≤ size.toInt) (fits : size.toInt + 1 ≤ randMax.toInt) :
    ∃ divisor, divLong randMax.toInt64 (size + 1) = some divisor ∧
      divisor.toInt = randMax.toInt / (size.toInt + 1) ∧ 0 < divisor.toInt := by
  have rand_max : randMax.toInt = 2 ^ 31 - 1 := by decide
  have next : (size + 1).toInt = size.toInt + 1 := size_add_one (by omega)
  have width := toInt_div (a := randMax.toInt64) (b := size + 1) (by decide) (by omega)
  rw [Int32.toInt_toInt64, next] at width
  have one : 1 ≤ randMax.toInt / (size.toInt + 1) :=
    (Int.le_ediv_iff_mul_le (by omega)).mpr (by omega)
  exact ⟨_, if_neg (ne_zero_of_toInt_pos (by omega)), width, by omega⟩

/-- The bucket of a result. -/
theorem bucket_eq {divisor : Int64} (positive : 0 < divisor.toInt) {r : Int32}
    (nonneg : 0 ≤ r.toInt) :
    ∃ randVal, divLong r.toInt64 divisor = some randVal ∧
      (randVal.toInt32.toInt64.toUInt64.toNat : ℤ) = r.toInt / divisor.toInt := by
  have quotient := toInt_div (a := r.toInt64) (by simpa using nonneg) positive
  have low := Int.ediv_nonneg nonneg positive.le
  have high := Int.ediv_le_self divisor.toInt nonneg
  have bound := r.toInt_lt
  rw [Int32.toInt_toInt64] at quotient
  have narrow : (r.toInt64 / divisor).toInt32.toInt = r.toInt / divisor.toInt := by
    rw [Int64.toInt_toInt32, quotient, bmod32_eq_self (by omega) (by omega)]
  refine ⟨_, if_neg (ne_zero_of_toInt_pos positive), ?_⟩
  rw [toNat_toInt64_toUInt64 (by rwa [narrow]), narrow]

/-- Up to the size where `RAND_MAX` is reached, entry `i` is the bucket of result `i`. -/
theorem randomGenerator_holds (positive : 1 ≤ size.toInt) (fits : size.toInt + 1 ≤ randMax.toInt)
    (results : ∀ i, 0 ≤ (rand i).toInt) :
    ∃ pointer index, randomGenerator size rand = some pointer ∧
      pointer.Holds ((List.range size.toInt.toNat).map index) ∧
      ∀ i, ((index i).toNat : ℤ) = (rand i).toInt / (randMax.toInt / (size.toInt + 1)) := by
  obtain ⟨divisor, divides, width, width_pos⟩ := divisor_eq positive fits
  choose randVal bucket value using fun i => bucket_eq width_pos (results i)
  refine ⟨_, fun i => (randVal i).toInt32.toInt64.toUInt64, ?_, HeapArray.holds_fill _ _, ?_⟩
  · rw [randomGenerator, divides]
    apply HeapArray.fillM_eq_fill
    intro i inside
    simp [bucket i]
  · intro i
    rw [value i, width]

/-- From there on the first division traps. -/
theorem randomGenerator_eq_none (positive : 1 ≤ size.toInt)
    (large : randMax.toInt < size.toInt + 1) : randomGenerator size rand = none := by
  have bound := size.toInt_lt
  have zero : randMax.toInt64 / (size + 1) = 0 := by
    apply Int64.toInt_inj.mp
    rcases lt_or_ge size.toInt (2 ^ 63 - 1) with inside | last
    · have next := size_add_one inside
      rw [toInt_div (by decide) (by omega), next, Int32.toInt_toInt64]
      exact Int.ediv_eq_zero_of_lt (by decide) large
    · have greatest : size = Int64.maxValue := by
        apply Int64.toInt_inj.mp
        rw [show Int64.maxValue.toInt = 2 ^ 63 - 1 by decide]
        omega
      rw [greatest]
      decide
  have nonempty : 0 < size.toInt.toNat := by omega
  rw [randomGenerator, divLong]
  split
  · rfl
  · rw [zero]
    apply HeapArray.fillM_eq_none nonempty
    rfl

end Generator

/-! ## Accesses in range -/

/-- The pattern of a node is in range: the generator does not trap, it gives as many indices as the
node has bytes, all below that number, and every round of `hgr_mem_ex` reads an element inside of
the node's array. -/
def SparseNode.RandomInRange (node : SparseNode) (rand : ℕ → Int32) : Prop :=
  ∃ pointer indices, randomGenerator node.dataSize rand = some pointer ∧ pointer.Holds indices ∧
    indices.length = node.dataSize.toInt.toNat ∧
    (∀ i ∈ indices, (i.toNat : ℤ) < node.dataSize.toInt) ∧
    ∃ phases, (hgrMemEx node pointer).Returns phases ∧
      ∀ p ∈ phases, ∃ index bytes, p.access = .element index bytes ∧ index.toNat < node.elements

section Load

variable {amount : Int64} {unit : DataGranularity} {granularity stride : Int32}
  {wcet frequency : ℚ} {nodeID : Int32} {rand : ℕ → Int32}

/-- A pattern whose indices are below the data size keeps the accesses inside of the array. -/
theorem hgrMemEx_inside {pointer : HeapArray UInt64} {indices : List UInt64}
    (positive : 1 ≤ (calcDataSize amount unit).toInt) (typed : granularity ∈ granularities)
    (holds : pointer.Holds indices)
    (length : indices.length = (calcDataSize amount unit).toInt.toNat)
    (below : ∀ i ∈ indices, (i.toNat : ℤ) < (calcDataSize amount unit).toInt) :
    ∃ phases, (hgrMemEx (hgrLoadSparseNode amount unit granularity stride wcet frequency nodeID)
        pointer).Returns phases ∧
      ∀ p ∈ phases, ∃ index bytes, p.access = .element index bytes ∧
        index.toNat <
          (hgrLoadSparseNode amount unit granularity stride wcet frequency nodeID).elements := by
  obtain ⟨size, granularity_pos⟩ := elementSize_eq typed
  have phi := (@phi_hgrLoadSparseNode amount unit granularity stride wcet frequency nodeID
    (by omega) granularity_pos).2
  refine ⟨_, (hgrMemEx_returns (typed_of_mem typed)).mpr rfl, fun p mem => ?_⟩
  rcases List.mem_map.mp mem with ⟨position, inside, rfl⟩
  rw [List.mem_range] at inside
  have fewer := Int.ediv_le_self granularity.toInt (a := (calcDataSize amount unit).toInt) (by omega)
  have within : position < indices.length := by omega
  refine ⟨indices[position], granularity.toInt.toNat, ?_, ?_⟩
  · rw [SparseNode.phase_access typed holds, List.getElem?_eq_getElem within]
    rfl
  · have bound := below _ (List.getElem_mem within)
    simp only [hgrLoadSparseNode, size, Option.isSome_some, if_true]
    omega

/-- The first `size` buckets end before `RAND_MAX`. -/
theorem buckets_lt_randMax {size : ℤ} (positive : 1 ≤ size) (fits : size + 1 ≤ randMax.toInt) :
    0 < randMax.toInt / (size + 1) ∧ size * (randMax.toInt / (size + 1)) < randMax.toInt := by
  have width : 1 ≤ randMax.toInt / (size + 1) :=
    (Int.le_ediv_iff_mul_le (by omega)).mpr (by omega)
  have all := Int.mul_ediv_self_le (x := randMax.toInt) (k := size + 1) (by omega)
  rw [add_mul, one_mul] at all
  omega

/-- A pattern in range comes from results in the first `data_size` buckets. -/
theorem results_of_randomInRange (positive : 1 ≤ (calcDataSize amount unit).toInt)
    (results : ∀ i, 0 ≤ (rand i).toInt)
    (inRange : (hgrLoadSparseNode amount unit granularity stride wcet frequency
      nodeID).RandomInRange rand) :
    (calcDataSize amount unit).toInt + 1 ≤ randMax.toInt ∧
      ∀ i < (calcDataSize amount unit).toInt.toNat, (rand i).toInt <
        (calcDataSize amount unit).toInt *
          (randMax.toInt / ((calcDataSize amount unit).toInt + 1)) := by
  set size := calcDataSize amount unit with size_eq
  have dataSize : (hgrLoadSparseNode amount unit granularity stride wcet frequency
    nodeID).dataSize = size := rfl
  obtain ⟨pointer, indices, generated, holds, length, below, -⟩ := inRange
  rw [dataSize] at generated length below
  have fits : size.toInt + 1 ≤ randMax.toInt := by
    by_contra large
    rw [randomGenerator_eq_none positive (not_le.mp large)] at generated
    cases generated
  obtain ⟨pointer', index, generated', holds', bucket⟩ :=
    randomGenerator_holds positive fits results
  cases Option.some.inj (generated'.symm.trans generated)
  refine ⟨fits, fun i inside => ?_⟩
  have less := below (index i) (by
    rw [holds.unique holds']
    exact List.mem_map_of_mem (List.mem_range.mpr inside))
  rw [bucket i] at less
  exact (Int.ediv_lt_iff_lt_mul (buckets_lt_randMax positive fits).1).mp less

/-- **Random access patterns.** The pattern is in range below `RAND_MAX` and where every result of
`rand` lies in one of the first `data_size` buckets. -/
theorem randomInRange_iff (positive : 1 ≤ (calcDataSize amount unit).toInt)
    (typed : granularity ∈ granularities) (results : ∀ i, 0 ≤ (rand i).toInt) :
    (hgrLoadSparseNode amount unit granularity stride wcet frequency nodeID).RandomInRange rand ↔
      (calcDataSize amount unit).toInt + 1 ≤ randMax.toInt ∧
        ∀ i < (calcDataSize amount unit).toInt.toNat, (rand i).toInt <
          (calcDataSize amount unit).toInt *
            (randMax.toInt / ((calcDataSize amount unit).toInt + 1)) := by
  set size := calcDataSize amount unit with size_eq
  refine ⟨?_, ?_⟩
  · exact results_of_randomInRange positive results
  · intro given
    rcases given with ⟨fits, first⟩
    obtain ⟨pointer, index, generated, holds, bucket⟩ :=
      randomGenerator_holds positive fits results
    have below : ∀ v ∈ (List.range size.toInt.toNat).map index, (v.toNat : ℤ) < size.toInt := by
      intro v mem
      rcases List.mem_map.mp mem with ⟨i, inside, rfl⟩
      rw [bucket i]
      exact (Int.ediv_lt_iff_lt_mul (buckets_lt_randMax positive fits).1).mpr
        (first i (List.mem_range.mp inside))
    have length : ((List.range size.toInt.toNat).map index).length = size.toInt.toNat := by simp
    exact ⟨pointer, _, generated, holds, length, below,
      hgrMemEx_inside positive typed holds length below⟩

/-- No node is in range for all sequences: the result `RAND_MAX` never is. -/
theorem not_randomInRange_of_randMax (positive : 1 ≤ (calcDataSize amount unit).toInt)
    (results : ∀ i, 0 ≤ (rand i).toInt) (largest : rand 0 = randMax) :
    ¬ (hgrLoadSparseNode amount unit granularity stride wcet frequency nodeID).RandomInRange
      rand := by
  intro inRange
  obtain ⟨fits, first⟩ := results_of_randomInRange positive results inRange
  have less := first 0 (by omega)
  have before := (buckets_lt_randMax positive fits).2
  rw [largest] at less
  omega

end Load

/-- Results of `rand` in the buckets 0, 3, 1 and 2 of four bytes. -/
def fourBuckets : ℕ → Int32
  | 1 => 1500000000
  | 2 => 500000000
  | 3 => 1000000000
  | _ => 7

theorem randomInRange_fourBuckets :
    (hgrLoadSparseNode 4 .B 1 0 1 1 0).RandomInRange fourBuckets := by
  refine (randomInRange_iff (by decide) (by decide) fun i => ?_).mpr ⟨by decide, by decide⟩
  unfold fourBuckets
  split <;> decide

/-- One byte and the largest result of `rand`, which gives the index 2. -/
theorem not_randomInRange_one_byte :
    1 ≤ (calcDataSize 1 .B).toInt ∧ (∀ _i : ℕ, 0 ≤ randMax.toInt) ∧
      ¬ (hgrLoadSparseNode 1 .B 1 0 1 1 0).RandomInRange fun _ => randMax :=
  ⟨by decide, fun _ => by decide, not_randomInRange_of_randMax (by decide) (fun _ => by decide) rfl⟩

end Hipert.Runtime
