import Hipert.Runtime.Prem
import Mathlib.Algebra.Order.Field.Basic
import Mathlib.Tactic.Linarith

/-!
# The execution time of a node

Both memory models divide the requested iterations over the phases of a run, PREM with truncation
and SPARSE with a ceiling. The total stays within one iteration per phase of the request, unless a
phase is given zero iterations, for which the loop runs through all values of its counter.
-/

namespace Hipert.Runtime

/-! ## Totals -/

/-- The iterations of a whole run, when every phase has a number of iterations. -/
def totalIterations : List (Option ℕ) → Option ℕ
  | [] => some 0
  | phase :: rest => do
      let iterations ← phase
      let others ← totalIterations rest
      some (iterations + others)

theorem totalIterations_replicate (n k : ℕ) :
    totalIterations (List.replicate n (some k)) = some (n * k) := by
  induction n with
  | zero => simp [totalIterations]
  | succ n ih =>
      rw [List.replicate_succ, totalIterations, ih]
      simp [Nat.succ_mul, Nat.add_comm]

theorem totalIterations_replicate_none {n : ℕ} (positive : 0 < n) :
    totalIterations (List.replicate n none) = none := by
  cases n with
  | zero => omega
  | succ n => rfl

/-- Phases that all run the same. -/
theorem totalIterations_range {n : ℕ} {phase : ℕ → Option ℕ} {each : Option ℕ}
    (same : ∀ i, phase i = each) :
    totalIterations ((List.range n).map phase) = totalIterations (List.replicate n each) := by
  rw [show phase = fun _ => each from funext same, List.map_const', List.length_range]

/-- The totals of a run whose phases all take their iterations from one counter. -/
theorem exists_run_iff {α : Type} {run : Fueled (List α)} {n : ℕ} {phase : ℕ → α}
    (iterations : α → Option ℕ) (counter : Option UInt64)
    (returns : ∀ phases, run.Returns phases ↔ phases = (List.range n).map phase)
    (same : ∀ i, iterations (phase i) = counter.map fun c => iterationsFrom c.toBitVec)
    (positive : 0 < n) {P : ℕ → Prop} :
    (∃ phases total, run.Returns phases ∧ totalIterations (phases.map iterations) = some total ∧
      P total) ↔ ∃ c ∈ counter, P (n * iterationsFrom c.toBitVec) := by
  have sum : totalIterations (((List.range n).map phase).map iterations) =
      totalIterations (List.replicate n (counter.map fun c => iterationsFrom c.toBitVec)) := by
    rw [List.map_map]
    exact totalIterations_range same
  refine ⟨?_, ?_⟩
  · intro given
    rcases given with ⟨phases, total, returned, count, holds⟩
    rw [(returns phases).mp returned, sum] at count
    cases each : counter with
    | none =>
        rw [each, Option.map_none, totalIterations_replicate_none positive] at count
        cases count
    | some c =>
        rw [each, Option.map_some, totalIterations_replicate] at count
        cases count
        exact ⟨c, rfl, holds⟩
  · intro given
    rcases given with ⟨c, each, holds⟩
    refine ⟨_, _, (returns _).mpr rfl, ?_, holds⟩
    rw [sum, each, Option.map_some, totalIterations_replicate]

theorem iterationsFrom_of_pos {c : UInt64} (positive : 0 < c.toNat) :
    iterationsFrom c.toBitVec = c.toNat := by
  have nonzero : c.toBitVec ≠ 0 := by
    intro zero
    have reads : c.toNat = 0 := by
      rw [← UInt64.toNat_toBitVec, zero]
      rfl
    omega
  rw [iterationsFrom, if_neg nonzero, UInt64.toNat_toBitVec]

theorem iterationsFrom_of_zero {c : UInt64} (zero : c.toNat = 0) :
    iterationsFrom c.toBitVec = 2 ^ 64 := by
  have none : c = 0 := UInt64.toNat_inj.mp zero
  rw [none]
  rfl

theorem toUnsignedLong_of_fits {x : ℤ} (nonneg : 0 ≤ x) (fits : x < 2 ^ 64) :
    ∃ c : UInt64, toUnsignedLong x = some c ∧ (c.toNat : ℤ) = x := by
  refine ⟨UInt64.ofNat x.toNat, if_pos ⟨nonneg, fits⟩, ?_⟩
  rw [UInt64.toNat_ofNat', Nat.mod_eq_of_lt (by omega)]
  omega

theorem toUnsignedLong_of_le {x : ℤ} (large : 2 ^ 64 ≤ x) : toUnsignedLong x = none :=
  if_neg fun fits => by omega

/-! ## PREM -/

/-- The iterations of a whole run differ from the requested number by less than the number of
copies. -/
def PremNode.TimeConserved (node : PremNode) (requested : ℤ) : Prop :=
  ∃ phases total, (hgrPremComputeNode node).Returns phases ∧
    totalIterations (phases.map (·.iterations)) = some total ∧
    |(total : ℤ) - requested| < node.numCopies.toInt

/-- What a run of copies does that all take their iterations from one field. -/
theorem PremNode.timeConserved_iff {node : PremNode} {requested : ℤ}
    (positive : 0 < node.numCopies.toInt) :
    node.TimeConserved requested ↔ ∃ c ∈ node.wcetPerCycle,
      |node.numCopies.toInt * (iterationsFrom c.toBitVec : ℤ) - requested| <
        node.numCopies.toInt := by
  have rounds : node.numCopies.toBitVec.toNat = node.numCopies.toInt.toNat :=
    toNat_toBitVec positive.le
  have totals := exists_run_iff (·.iterations) node.wcetPerCycle
    (fun phases => @hgrPremComputeNode_returns node phases) (fun _ => rfl) (by omega)
    (P := fun total => |(total : ℤ) - requested| < node.numCopies.toInt)
  simp only [rounds, Nat.cast_mul, Int.toNat_of_nonneg positive.le] at totals
  exact totals

/-- A budget shared out with truncation is kept when every share gets something. -/
theorem truncated_share_iff {c : UInt64} {budget shares : ℤ} (work : 0 < budget)
    (fits : budget < 2 ^ 64) (positive : 0 < shares) (share : (c.toNat : ℤ) = budget / shares) :
    |shares * (iterationsFrom c.toBitVec : ℤ) - budget| < shares ↔ shares ≤ budget := by
  rcases lt_or_ge budget shares with short | enough
  · have zero : c.toNat = 0 := by
      rw [Int.ediv_eq_zero_of_lt work.le short] at share
      omega
    have large : shares ≤ shares * 2 ^ 64 - budget := by omega
    rw [iterationsFrom_of_zero zero, Nat.cast_pow, Nat.cast_ofNat]
    refine ⟨?_, ?_⟩
    · intro near
      have above := (abs_lt.mp near).2
      omega
    · intro le
      omega
  · have one : 1 ≤ budget / shares := (Int.le_ediv_iff_mul_le positive).mpr (by omega)
    rw [iterationsFrom_of_pos (by omega), share]
    have division := Int.mul_ediv_add_emod budget shares
    have nonneg := Int.emod_nonneg budget positive.ne'
    have less := Int.emod_lt_of_pos budget positive
    refine ⟨?_, ?_⟩
    · exact fun _ => enough
    · intro _
      apply abs_lt.mpr
      omega

section Load

variable {cSize : Int32} {amount : Int64} {unit : DataGranularity} {granularity : Int32}
  {wcet frequency : ℚ} {nodeID : Int32}

/-- The field `wcet_per_cycle`, for a request that an `unsigned long` can hold. -/
theorem wcetPerCycle_of_fits (work : 0 < ⌈wcet * 1000 * 1000 * frequency⌉)
    (fits : ⌈wcet * 1000 * 1000 * frequency⌉ < 2 ^ 64)
    (copies : 0 < (hgrLoadPremNode cSize amount unit granularity wcet frequency
      nodeID).numCopies.toInt) :
    ∃ c : UInt64,
      (hgrLoadPremNode cSize amount unit granularity wcet frequency nodeID).wcetPerCycle =
        some c ∧
      (c.toNat : ℤ) = ⌈wcet * 1000 * 1000 * frequency⌉ /
        (hgrLoadPremNode cSize amount unit granularity wcet frequency nodeID).numCopies.toInt := by
  obtain ⟨w, cycles, value⟩ := toUnsignedLong_of_fits work.le fits
  simp only [hgrLoadPremNode] at copies ⊢
  split
  next few =>
    rw [le_one_iff] at few
    refine ⟨w, cycles, ?_⟩
    rw [value, show (roundUp _ _).toInt = 1 by omega, Int.ediv_one]
  next many =>
    rw [cycles, Option.map_some]
    refine ⟨_, rfl, ?_⟩
    rw [UInt64.toNat_div, Int.natCast_div, value, toNat_toInt64_toUInt64 copies.le]

/-- A request that an `unsigned long` cannot hold leaves the field without a value. -/
theorem wcetPerCycle_of_le (large : 2 ^ 64 ≤ ⌈wcet * 1000 * 1000 * frequency⌉) :
    (hgrLoadPremNode cSize amount unit granularity wcet frequency nodeID).wcetPerCycle = none := by
  simp only [hgrLoadPremNode, toUnsignedLong_of_le large, Option.map_none, ite_self]

/-- **PREM.** The time is conserved when there is a positive number of copies, and an iteration
for each of them. -/
theorem prem_timeConserved_iff (positive : 1 ≤ (calcDataSize amount unit).toInt)
    (cache : 0 < cSize.toInt) (work : 0 < ⌈wcet * 1000 * 1000 * frequency⌉) :
    (hgrLoadPremNode cSize amount unit granularity wcet frequency nodeID).TimeConserved
        ⌈wcet * 1000 * 1000 * frequency⌉ ↔
      0 < chunkCount (calcDataSize amount unit).toInt cSize.toInt % 2 ^ 32 ∧
        chunkCount (calcDataSize amount unit).toInt cSize.toInt % 2 ^ 32 < 2 ^ 31 ∧
        chunkCount (calcDataSize amount unit).toInt cSize.toInt % 2 ^ 32 ≤
          ⌈wcet * 1000 * 1000 * frequency⌉ ∧
        ⌈wcet * 1000 * 1000 * frequency⌉ < 2 ^ 64 := by
  have count : (hgrLoadPremNode cSize amount unit granularity wcet frequency
      nodeID).numCopies.toInt =
        (chunkCount (calcDataSize amount unit).toInt cSize.toInt).bmod (2 ^ 32) :=
    numCopies_hgrLoadPremNode (by omega) cache
  set node := hgrLoadPremNode cSize amount unit granularity wcet frequency nodeID with loaded
  set requested := ⌈wcet * 1000 * 1000 * frequency⌉ with requested_eq
  rw [← and_assoc, ← bmod32_pos_iff, ← count]
  have copies_of_conserved : node.TimeConserved requested → 0 < node.numCopies.toInt := by
    intro given
    rcases given with ⟨-, total, -, -, near⟩
    exact (abs_nonneg _).trans_lt near
  refine ⟨?_, ?_⟩
  · intro conserved
    have copies := copies_of_conserved conserved
    obtain ⟨c, each, near⟩ := (PremNode.timeConserved_iff copies).mp conserved
    have fits : requested < 2 ^ 64 := by
      by_contra large
      rw [wcetPerCycle_of_le (not_lt.mp large)] at each
      cases each
    obtain ⟨c', each', share⟩ := @wcetPerCycle_of_fits cSize amount unit granularity wcet
      frequency nodeID work fits copies
    cases Option.some.inj (each'.symm.trans each)
    rw [← bmod32_of_pos (count ▸ copies), ← count]
    exact ⟨copies, (truncated_share_iff work fits copies share).mp near, fits⟩
  · intro given
    rcases given with ⟨copies, enough, fits⟩
    obtain ⟨c, each, share⟩ := @wcetPerCycle_of_fits cSize amount unit granularity wcet
      frequency nodeID work fits copies
    rw [← bmod32_of_pos (count ▸ copies), ← count] at enough
    exact (PremNode.timeConserved_iff copies).mpr
      ⟨c, each, (truncated_share_iff work fits copies share).mpr enough⟩

end Load

/-! ## SPARSE -/

/-- The iterations of a whole run differ from the requested number by less than the number of
phases. -/
def SparseNode.TimeConserved (node : SparseNode) (pointer : HeapArray UInt64) (requested : ℚ) :
    Prop :=
  ∃ phases total, (hgrMemEx node pointer).Returns phases ∧
    totalIterations (phases.map (·.iterations)) = some total ∧
    |(total : ℚ) - requested| < node.phi.toNat

/-- What a run of `phi` phases does. -/
theorem SparseNode.timeConserved_iff {node : SparseNode} {pointer : HeapArray UInt64}
    {requested : ℚ} (typed : (elementSize node.granularity).isSome)
    (positive : 0 < node.phi.toNat) :
    node.TimeConserved pointer requested ↔ ∃ c ∈ node.wcetCycles,
      |(node.phi.toNat : ℚ) * (iterationsFrom c.toBitVec : ℚ) - requested| < node.phi.toNat := by
  have totals := exists_run_iff (·.iterations) node.wcetCycles
    (fun phases => @hgrMemEx_returns node pointer typed phases) (fun _ => rfl) positive
    (P := fun total => |(total : ℚ) - requested| < node.phi.toNat)
  simp only [Nat.cast_mul] at totals
  exact totals

/-- A budget shared out with a ceiling is kept when there is something to share. -/
theorem rounded_share_iff {c : UInt64} {budget : ℚ} {shares : ℕ} (nonneg : 0 ≤ budget)
    (positive : 0 < shares) (share : (c.toNat : ℤ) = ⌈budget / shares⌉) :
    |(shares : ℚ) * (iterationsFrom c.toBitVec : ℚ) - budget| < shares ↔ 0 < budget := by
  have shares_pos : (0 : ℚ) < shares := by exact_mod_cast positive
  rcases nonneg.eq_or_lt with none | work
  · subst none
    have zero : c.toNat = 0 := by
      rw [zero_div, Int.ceil_zero] at share
      omega
    rw [iterationsFrom_of_zero zero, sub_zero, Nat.cast_pow, Nat.cast_ofNat]
    refine ⟨?_, ?_⟩
    · intro near
      have above := (abs_lt.mp near).2
      linarith
    · exact fun irrefl => absurd irrefl (lt_irrefl 0)
  · have some_share : 0 < ⌈budget / shares⌉ := Int.ceil_pos.mpr (div_pos work shares_pos)
    have cast : (c.toNat : ℚ) = (⌈budget / shares⌉ : ℤ) := by exact_mod_cast share
    have above := Int.le_ceil (budget / shares)
    have below := Int.ceil_lt_add_one (budget / shares)
    rw [div_le_iff₀ shares_pos] at above
    rw [← sub_lt_iff_lt_add, lt_div_iff₀ shares_pos] at below
    rw [iterationsFrom_of_pos (by omega), cast]
    refine ⟨?_, ?_⟩
    · exact fun _ => work
    · intro _
      apply abs_lt.mpr
      constructor <;> linarith

section Load

variable {amount : Int64} {unit : DataGranularity} {granularity stride : Int32}
  {wcet frequency : ℚ} {nodeID : Int32}

/-- The field `wcet_cycles` of a node with at least one phase. -/
theorem wcetCycles_hgrLoadSparseNode
    (quotient : (calcDataSize amount unit / granularity.toInt64).toInt =
      (calcDataSize amount unit).toInt / granularity.toInt)
    (positive : 0 < (calcDataSize amount unit).toInt / granularity.toInt) :
    (hgrLoadSparseNode amount unit granularity stride wcet frequency nodeID).wcetCycles =
      toUnsignedLong ⌈(wcet * 1000 * 1000 * frequency - 4) /
        ((calcDataSize amount unit).toInt / granularity.toInt : ℤ)⌉ := by
  have nonzero : calcDataSize amount unit / granularity.toInt64 ≠ 0 := by
    intro zero
    rw [zero] at quotient
    exact absurd quotient positive.ne
  rw [hgrLoadSparseNode]
  simp only
  rw [if_neg nonzero, quotient]

/-- **SPARSE.** The time is conserved when the data has room for a phase and there is something to
run. -/
theorem sparse_timeConserved_iff {pointer : HeapArray UInt64}
    (positive : 1 ≤ (calcDataSize amount unit).toInt) (typed : granularity ∈ granularities)
    (nonneg : 0 ≤ wcet * 1000 * 1000 * frequency - 4) :
    (hgrLoadSparseNode amount unit granularity stride wcet frequency nodeID).TimeConserved pointer
        (wcet * 1000 * 1000 * frequency - 4) ↔
      granularity.toInt ≤ (calcDataSize amount unit).toInt ∧
        0 < wcet * 1000 * 1000 * frequency - 4 ∧
        ⌈(wcet * 1000 * 1000 * frequency - 4) /
          ((calcDataSize amount unit).toInt / granularity.toInt : ℤ)⌉ < 2 ^ 64 := by
  obtain ⟨size, granularity_pos⟩ := elementSize_eq typed
  obtain ⟨quotient, phi⟩ := @phi_hgrLoadSparseNode amount unit granularity stride wcet frequency
    nodeID (by omega) granularity_pos
  set node := hgrLoadSparseNode amount unit granularity stride wcet frequency nodeID with loaded
  set requested := wcet * 1000 * 1000 * frequency - 4 with requested_eq
  set phases := (calcDataSize amount unit).toInt / granularity.toInt with phases_eq
  have node_typed : (elementSize node.granularity).isSome := typed_of_mem typed
  have phi_cast : (node.phi.toNat : ℚ) = (phases : ℤ) := by exact_mod_cast phi
  have room : granularity.toInt ≤ (calcDataSize amount unit).toInt ↔ 0 < phases := by
    rw [phases_eq, Int.lt_iff_add_one_le, zero_add, Int.le_ediv_iff_mul_le granularity_pos, one_mul]
  rw [room]
  refine ⟨?_, ?_⟩
  · intro given
    rcases given with ⟨run, total, returned, count, near⟩
    have some_phase : 0 < node.phi.toNat := by
      exact_mod_cast (abs_nonneg _).trans_lt near
    have phases_pos : 0 < phases := by omega
    obtain ⟨c, each, close⟩ := (SparseNode.timeConserved_iff node_typed some_phase).mp
      ⟨run, total, returned, count, near⟩
    rw [wcetCycles_hgrLoadSparseNode quotient phases_pos] at each
    have fits : ⌈requested / (phases : ℤ)⌉ < 2 ^ 64 := by
      by_contra large
      rw [toUnsignedLong_of_le (not_lt.mp large)] at each
      cases each
    have share_nonneg : 0 ≤ ⌈requested / (phases : ℤ)⌉ :=
      Int.ceil_nonneg (div_nonneg nonneg (by exact_mod_cast phases_pos.le))
    obtain ⟨c', each', share⟩ := toUnsignedLong_of_fits share_nonneg fits
    cases Option.some.inj (each'.symm.trans each)
    rw [← phi_cast] at share
    exact ⟨phases_pos, (rounded_share_iff nonneg some_phase share).mp close, fits⟩
  · intro given
    rcases given with ⟨phases_pos, work, fits⟩
    have some_phase : 0 < node.phi.toNat := by omega
    have share_nonneg : 0 ≤ ⌈requested / (phases : ℤ)⌉ :=
      Int.ceil_nonneg (div_nonneg nonneg (by exact_mod_cast phases_pos.le))
    obtain ⟨c, each, share⟩ := toUnsignedLong_of_fits share_nonneg fits
    rw [← phi_cast] at share
    refine (SparseNode.timeConserved_iff node_typed some_phase).mpr ⟨c, ?_, ?_⟩
    · rwa [wcetCycles_hgrLoadSparseNode quotient phases_pos]
    · exact (rounded_share_iff nonneg some_phase share).mpr work

end Load

/-! ## Both models -/

/-- **Conservation of the execution time.** A PREM node keeps the requested time when the number of
copies is positive and not larger than the request, a SPARSE node when its data has room for a phase
and the request is not zero; and both only when the counter of a phase can hold its share. -/
theorem executionTime_conserved_iff {cSize : Int32} {amount : Int64} {unit : DataGranularity}
    {granularity stride : Int32} {wcet frequency : ℚ} {nodeID : Int32}
    {pointer : HeapArray UInt64} (positive : 1 ≤ (calcDataSize amount unit).toInt)
    (cache : 0 < cSize.toInt) (typed : granularity ∈ granularities) (wcet_pos : 0 < wcet)
    (frequency_pos : 0 < frequency) :
    ((hgrLoadPremNode cSize amount unit granularity wcet frequency nodeID).TimeConserved
        ⌈wcet * 1000 * 1000 * frequency⌉ ↔
      0 < chunkCount (calcDataSize amount unit).toInt cSize.toInt % 2 ^ 32 ∧
        chunkCount (calcDataSize amount unit).toInt cSize.toInt % 2 ^ 32 < 2 ^ 31 ∧
        chunkCount (calcDataSize amount unit).toInt cSize.toInt % 2 ^ 32 ≤
          ⌈wcet * 1000 * 1000 * frequency⌉ ∧
        ⌈wcet * 1000 * 1000 * frequency⌉ < 2 ^ 64) ∧
    (4 ≤ wcet * 1000 * 1000 * frequency →
      ((hgrLoadSparseNode amount unit granularity stride wcet frequency nodeID).TimeConserved
          pointer (wcet * 1000 * 1000 * frequency - 4) ↔
        granularity.toInt ≤ (calcDataSize amount unit).toInt ∧
          4 < wcet * 1000 * 1000 * frequency ∧
          ⌈(wcet * 1000 * 1000 * frequency - 4) /
            ((calcDataSize amount unit).toInt / granularity.toInt : ℤ)⌉ < 2 ^ 64)) := by
  have work : 0 < ⌈wcet * 1000 * 1000 * frequency⌉ := Int.ceil_pos.mpr (by positivity)
  refine ⟨prem_timeConserved_iff positive cache work, fun room => ?_⟩
  rw [sparse_timeConserved_iff positive typed (by linarith), sub_pos]

/-- Two kilobytes in chunks of 1024 bytes and in elements of 4, with a request of a million
iterations. -/
theorem executionTime_conserved_two_kilobytes :
    (hgrLoadPremNode 1024 2 .KB 4 1 1 0).TimeConserved ⌈(1 : ℚ) * 1000 * 1000 * 1⌉ ∧
      (hgrLoadSparseNode 2 .KB 4 1 1 1 0).TimeConserved (HeapArray.alloc 0)
        (1 * 1000 * 1000 * 1 - 4) := by
  obtain ⟨prem, sparse⟩ := @executionTime_conserved_iff 1024 2 .KB 4 1 1 1 0 (HeapArray.alloc 0)
    (by decide) (by decide) (by decide) one_pos one_pos
  have chunks : chunkCount (calcDataSize 2 .KB).toInt (1024 : Int32).toInt = 2 := by
    rw [chunkCount, ceil_div_eq (by decide)]
    decide
  have request : ⌈(1 : ℚ) * 1000 * 1000 * 1⌉ = 1000000 := by norm_num
  have phases : (calcDataSize 2 .KB).toInt / (4 : Int32).toInt = 512 := by decide
  refine ⟨?_, ?_⟩
  · rw [prem, chunks, request]
    decide
  · rw [sparse (by norm_num), phases]
    refine ⟨by decide, by norm_num, ?_⟩
    rw [Int.ceil_lt_iff]
    norm_num

/-- Four megabytes in chunks of 1024 bytes, with a request of a thousand iterations: each of the 4096
copies is given none and runs through all values of the counter. -/
theorem executionTime_not_conserved_small_request :
    1 ≤ (calcDataSize 4 .MB).toInt ∧ 0 < (1024 : Int32).toInt ∧ (4 : Int32) ∈ granularities ∧
      (0 : ℚ) < 1 / 1000 ∧ (0 : ℚ) < 1 ∧
      ¬ (hgrLoadPremNode 1024 4 .MB 4 (1 / 1000) 1 0).TimeConserved
        ⌈(1 / 1000 : ℚ) * 1000 * 1000 * 1⌉ := by
  refine ⟨by decide, by decide, by decide, by norm_num, by norm_num, fun conserved => ?_⟩
  have request : ⌈(1 / 1000 : ℚ) * 1000 * 1000 * 1⌉ = 1000 := by norm_num
  have chunks : chunkCount (calcDataSize 4 .MB).toInt (1024 : Int32).toInt = 4096 := by
    rw [chunkCount, ceil_div_eq (by decide)]
    decide
  have kept := (prem_timeConserved_iff (by decide) (by decide) (by norm_num)).mp conserved
  rw [chunks, request] at kept
  exact absurd kept (by decide)

end Hipert.Runtime
