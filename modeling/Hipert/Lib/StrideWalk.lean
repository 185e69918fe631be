import Mathlib.Data.Finset.Card
import Mathlib.Data.Nat.ModEq
import Mathlib.Data.Nat.Periodic

/-!
# Walks with a stride

The walk `0, s, 2 * s, …` modulo `n`. Up to its period, which is `n` over the greatest common
divisor of `s` and `n`, it visits the multiples of this divisor, each of them once
(`image_strideWalk`). A walk that does not move, or moves by one place, is never ahead of its steps
(`strideWalk_le`); any other leaves the lower part of its range before it has made as many steps as
this part has places (`exists_step_out`).
-/

namespace Hipert

universe u

/-! ## Periodic sequences -/

section Periodic

variable {α : Type u} [DecidableEq α] {f : ℕ → α} {p : ℕ}

/-- What a sequence visits it visits in its first period. -/
theorem image_range_of_periodic (periodic : Function.Periodic f p) (positive : 0 < p) (k : ℕ) :
    (Finset.range k).image f = (Finset.range (min k p)).image f := by
  apply Finset.Subset.antisymm
  · intro x mem
    rcases Finset.mem_image.mp mem with ⟨i, inside, rfl⟩
    have small : i % p < min k p :=
      lt_min ((Nat.mod_le i p).trans_lt (Finset.mem_range.mp inside)) (Nat.mod_lt i positive)
    rw [← periodic.map_mod_nat i]
    exact Finset.mem_image_of_mem f (Finset.mem_range.mpr small)
  · exact Finset.image_subset_image (Finset.range_mono (min_le_left k p))

/-- The number of places among the first `k` steps. -/
theorem card_image_range (periodic : Function.Periodic f p) (positive : 0 < p)
    (distinct : Set.InjOn f (Finset.range p)) (k : ℕ) :
    ((Finset.range k).image f).card = min k p := by
  have within : (Finset.range (min k p) : Set ℕ) ⊆ Finset.range p :=
    Finset.coe_subset.mpr (Finset.range_mono (min_le_right k p))
  rw [image_range_of_periodic periodic positive, Finset.card_image_of_injOn (distinct.mono within),
    Finset.card_range]

end Periodic

/-! ## The walk -/

/-- Step `i` of the walk. -/
def strideWalk (s n i : ℕ) : ℕ := i * s % n

section Walk

variable {s n : ℕ}

theorem strideWalk_lt (positive : 0 < n) (i : ℕ) : strideWalk s n i < n := Nat.mod_lt _ positive

theorem period_pos (positive : 0 < n) : 0 < n / s.gcd n :=
  Nat.div_pos (Nat.gcd_le_right s positive) (Nat.gcd_pos_of_pos_right s positive)

theorem gcd_dvd_strideWalk (i : ℕ) : s.gcd n ∣ strideWalk s n i :=
  (Nat.dvd_mod_iff (Nat.gcd_dvd_right s n)).mpr (dvd_mul_of_dvd_right (Nat.gcd_dvd_left s n) i)

/-- **Period.** Two steps are at the same place just if they differ by periods. -/
theorem strideWalk_eq_iff (positive : 0 < n) {i j : ℕ} :
    strideWalk s n i = strideWalk s n j ↔ i ≡ j [MOD n / s.gcd n] := by
  refine ⟨?_, ?_⟩
  · intro same
    rw [Nat.gcd_comm]
    exact Nat.ModEq.cancel_right_div_gcd positive same
  · intro same
    have scaled : i * s.gcd n ≡ j * s.gcd n [MOD n / s.gcd n * s.gcd n] := same.mul_right' _
    rw [Nat.div_mul_cancel (Nat.gcd_dvd_right s n)] at scaled
    have walked := scaled.mul_right (s / s.gcd n)
    rwa [mul_assoc, mul_assoc, Nat.mul_div_cancel' (Nat.gcd_dvd_left s n)] at walked

theorem periodic_strideWalk (positive : 0 < n) :
    Function.Periodic (strideWalk s n) (n / s.gcd n) := fun i =>
  (strideWalk_eq_iff positive).mpr (Nat.add_modEq_right (a := i))

theorem injOn_strideWalk (positive : 0 < n) :
    Set.InjOn (strideWalk s n) (Finset.range (n / s.gcd n)) := by
  intro i mem j mem' same
  rw [Finset.mem_coe, Finset.mem_range] at mem mem'
  exact ((strideWalk_eq_iff positive).mp same).eq_of_lt_of_lt mem mem'

/-- The multiples of a divisor. -/
theorem filter_dvd_eq_image {g : ℕ} (divides : g ∣ n) :
    (Finset.range n).filter (g ∣ ·) = (Finset.range (n / g)).image (· * g) := by
  ext v
  rw [Finset.mem_filter, Finset.mem_range, Finset.mem_image]
  refine ⟨?_, ?_⟩
  · intro given
    rcases given with ⟨less, k, rfl⟩
    refine ⟨k, Finset.mem_range.mpr ?_, mul_comm k g⟩
    exact (Nat.lt_div_iff_mul_lt' divides k).mpr less
  · intro given
    rcases given with ⟨k, mem, rfl⟩
    rw [Finset.mem_range, Nat.lt_div_iff_mul_lt' divides, mul_comm] at mem
    exact ⟨mem, Dvd.intro_left k rfl⟩

/-- **Places.** The first period visits the multiples of the greatest common divisor. -/
theorem image_strideWalk (positive : 0 < n) :
    (Finset.range (n / s.gcd n)).image (strideWalk s n) =
      (Finset.range n).filter (s.gcd n ∣ ·) := by
  apply Finset.eq_of_subset_of_card_le
  · intro v mem
    rcases Finset.mem_image.mp mem with ⟨i, -, rfl⟩
    exact Finset.mem_filter.mpr
      ⟨Finset.mem_range.mpr (strideWalk_lt positive i), gcd_dvd_strideWalk i⟩
  · rw [Finset.card_image_of_injOn (injOn_strideWalk positive),
      filter_dvd_eq_image (Nat.gcd_dvd_right s n)]
    exact Finset.card_image_le

/-- The number of places that the first `k` steps visit. -/
theorem card_image_strideWalk (positive : 0 < n) (k : ℕ) :
    ((Finset.range k).image (strideWalk s n)).card = min k (n / s.gcd n) :=
  card_image_range (periodic_strideWalk positive) (period_pos positive)
    (injOn_strideWalk positive) k

/-! ## The lower part of the range -/

variable {m : ℕ}

theorem strideWalk_of_lt {i : ℕ} (inside : i * (s % n) < n) : strideWalk s n i = i * (s % n) := by
  rw [strideWalk, ← Nat.mul_mod_mod, Nat.mod_eq_of_lt inside]

/-- A walk that moves by two places or more leaves the lower part before it has turned around. -/
theorem exists_step_out (moves : 2 ≤ s % n) (several : 2 ≤ m) (half : 2 * m ≤ n) :
    ∃ i < m, i * (s % n) < n ∧ m ≤ strideWalk s n i := by
  rcases lt_or_ge (s % n) m with short | long
  · -- the first step behind the part
    have steps := Nat.div_add_mod m (s % n)
    have last := Nat.mod_lt m (Nat.lt_of_lt_of_le Nat.two_pos moves)
    have halved : m / (s % n) ≤ m / 2 := Nat.div_le_div_left moves Nat.two_pos
    have next : (m / (s % n) + 1) * (s % n) = s % n * (m / (s % n)) + s % n := by
      rw [add_mul, one_mul, mul_comm]
    have inside : (m / (s % n) + 1) * (s % n) < n := by omega
    refine ⟨m / (s % n) + 1, by omega, inside, ?_⟩
    rw [strideWalk_of_lt inside]
    omega
  · have inside : 1 * (s % n) < n := by
      rw [one_mul]
      exact Nat.mod_lt s (by omega)
    refine ⟨1, by omega, inside, ?_⟩
    rw [strideWalk_of_lt inside]
    omega

theorem mul_mod_le (slow : s % n ≤ 1) (i : ℕ) : i * (s % n) ≤ i := by
  calc i * (s % n) ≤ i * 1 := Nat.mul_le_mul_left i slow
    _ = i := mul_one i

/-- A walk that does not move, or moves by one place, is not ahead of its steps. -/
theorem strideWalk_le {i : ℕ} (slow : s % n ≤ 1) (inside : i < n) : strideWalk s n i ≤ i := by
  have le := mul_mod_le slow i
  rw [strideWalk_of_lt (le.trans_lt inside)]
  exact le

end Walk

/-! ## The walk as a list -/

/-- The entries of a list up to the period are the multiples of the greatest common divisor below
`n`, each of them once, and they come again with this period. -/
structure VisitsMultiples (s n : ℕ) (entries : List ℕ) : Prop where
  distinct : (entries.take (n / s.gcd n)).Nodup
  multiples : ∀ v, v ∈ entries.take (n / s.gcd n) ↔ v < n ∧ s.gcd n ∣ v
  repeats : ∀ i, i + n / s.gcd n < entries.length → entries[i + n / s.gcd n]? = entries[i]?

section List

variable {s n : ℕ}

theorem take_walk (k : ℕ) : ((List.range n).map (strideWalk s n)).take k =
    (List.range (min k n)).map (strideWalk s n) := by
  rw [← List.map_take, List.take_range]

theorem visitsMultiples_walk (positive : 0 < n) :
    VisitsMultiples s n ((List.range n).map (strideWalk s n)) := by
  have first : ((List.range n).map (strideWalk s n)).take (n / s.gcd n) =
      (List.range (n / s.gcd n)).map (strideWalk s n) := by
    rw [take_walk, min_eq_left (Nat.div_le_self n _)]
  constructor
  · rw [first]
    refine List.Nodup.map_on (fun i mem j mem' same => ?_) List.nodup_range
    rw [List.mem_range] at mem mem'
    exact injOn_strideWalk positive (by simpa using mem) (by simpa using mem') same
  · intro v
    have places := Finset.ext_iff.mp (image_strideWalk (s := s) positive) v
    rw [Finset.mem_filter, Finset.mem_range] at places
    rw [first, ← places, List.mem_map, Finset.mem_image]
    simp only [List.mem_range, Finset.mem_range]
  · intro i inside
    rw [List.length_map, List.length_range] at inside
    rw [List.getElem?_map, List.getElem?_map, List.getElem?_range inside,
      List.getElem?_range (Nat.lt_of_le_of_lt (Nat.le_add_right i _) inside), Option.map_some,
      Option.map_some, periodic_strideWalk positive i]

/-- The number of different entries among the first `k`. -/
theorem card_toFinset_take_walk (positive : 0 < n) (k : ℕ) :
    (((List.range n).map (strideWalk s n)).take k).toFinset.card = min k (n / s.gcd n) := by
  have image : (((List.range n).map (strideWalk s n)).take k).toFinset =
      (Finset.range (min k n)).image (strideWalk s n) := by
    ext v
    simp [take_walk]
  rw [image, card_image_strideWalk positive, min_assoc, min_eq_right (Nat.div_le_self n _)]

end List

end Hipert
