import Hipert.Lib.DoWhile
import Mathlib.Algebra.BigOperators.Ring.List
import Mathlib.Algebra.Order.Floor.Ring
import Mathlib.Algebra.Order.BigOperators.Group.List
import Mathlib.Data.Int.Interval
import Mathlib.Data.Rat.Floor
import Mathlib.Data.Set.Finite.Lattice
import Mathlib.Order.Interval.Finset.Basic
import Mathlib.Tactic.Linarith
import Mathlib.Tactic.FieldSimp
import Mathlib.Tactic.Ring

/-!
# Request bounds of periodic loads

A load asks for at most `cost` units of work every `period`. In a half-open window of length `w` it
releases at most `⌈w / period⌉` times (`Load.request`), in a closed one at most
`⌊w / period⌋ + 1` times (`Load.requestClosed`). `interference ls w` is the request bound of a list of
loads, and the time-demand `demand ls a w = a + interference ls w` adds the work `a` that has to fit
in the window. Demands are monotone and subadditive, take finitely many values on a bounded window
set, and have a pre-fixpoint whenever the loads leave some processor time over.
-/

namespace Hipert

universe u

variable {K : Type u} [Field K] [LinearOrder K] [IsStrictOrderedRing K]

/-- A load of `cost` units of work per `period`. -/
structure Load (K : Type u) [Field K] [LinearOrder K] where
  cost : K
  period : K
  cost_nonneg : 0 ≤ cost
  period_pos : 0 < period

/-- The fraction of the processor a load takes. -/
def Load.utilization (l : Load K) : K := l.cost / l.period

theorem Load.utilization_nonneg (l : Load K) : 0 ≤ l.utilization :=
  div_nonneg l.cost_nonneg l.period_pos.le

/-- The fraction of the processor a list of loads takes. -/
def utilization (ls : List (Load K)) : K := (ls.map Load.utilization).sum

theorem utilization_nonneg (ls : List (Load K)) : 0 ≤ utilization ls :=
  List.sum_nonneg (by simpa using fun l _ => l.utilization_nonneg)

variable [FloorRing K]

/-- The work a load releases at most in a half-open window of length `w`. -/
def Load.request (l : Load K) (w : K) : K := ⌈w / l.period⌉ * l.cost

/-- The work a load releases at most in a closed window of length `w`. -/
def Load.requestClosed (l : Load K) (w : K) : K := (⌊w / l.period⌋ + 1) * l.cost

/-- The request bound of several loads. -/
def interference (ls : List (Load K)) (w : K) : K := (ls.map (·.request w)).sum

/-- The request bound of several loads on a closed window. -/
def closedInterference (ls : List (Load K)) (w : K) : K := (ls.map (·.requestClosed w)).sum

/-- The time-demand: the work `a` together with the interference of `ls`. -/
def demand (ls : List (Load K)) (a w : K) : K := a + interference ls w

namespace Load

variable (l : Load K) {v w : K}

theorem request_mono : Monotone l.request := by
  intro v w le
  have ratio : v / l.period ≤ w / l.period := div_le_div_of_nonneg_right le l.period_pos.le
  exact mul_le_mul_of_nonneg_right (by exact_mod_cast Int.ceil_mono ratio) l.cost_nonneg

@[simp] theorem request_zero : l.request 0 = 0 := by simp [request]

theorem request_nonneg (nonneg : 0 ≤ w) : 0 ≤ l.request w := by
  rw [← l.request_zero]
  exact l.request_mono nonneg

theorem request_add_le : l.request (v + w) ≤ l.request v + l.request w := by
  have split : (⌈(v + w) / l.period⌉ : K) ≤ ⌈v / l.period⌉ + ⌈w / l.period⌉ := by
    rw [add_div]
    exact_mod_cast Int.ceil_add_le _ _
  calc l.request (v + w) ≤ (⌈v / l.period⌉ + ⌈w / l.period⌉) * l.cost :=
        mul_le_mul_of_nonneg_right split l.cost_nonneg
    _ = l.request v + l.request w := add_mul _ _ _

theorem request_le : l.request w ≤ w * l.utilization + l.cost := by
  have ceil : (⌈w / l.period⌉ : K) ≤ w / l.period + 1 := (Int.ceil_lt_add_one _).le
  calc l.request w ≤ (w / l.period + 1) * l.cost :=
        mul_le_mul_of_nonneg_right ceil l.cost_nonneg
    _ = w * l.utilization + l.cost := by unfold utilization; ring

theorem le_request : w * l.utilization ≤ l.request w := by
  have ceil : w / l.period ≤ ⌈w / l.period⌉ := Int.le_ceil _
  calc w * l.utilization = w / l.period * l.cost := by unfold utilization; ring
    _ ≤ l.request w := mul_le_mul_of_nonneg_right ceil l.cost_nonneg

theorem requestClosed_mono : Monotone l.requestClosed := by
  intro v w le
  have ratio : v / l.period ≤ w / l.period := div_le_div_of_nonneg_right le l.period_pos.le
  have floors : (⌊v / l.period⌋ : K) + 1 ≤ ⌊w / l.period⌋ + 1 := by
    exact_mod_cast add_le_add_left (Int.floor_mono ratio) 1
  exact mul_le_mul_of_nonneg_right floors l.cost_nonneg

theorem requestClosed_le : l.requestClosed w ≤ w * l.utilization + l.cost := by
  have floor : (⌊w / l.period⌋ : K) + 1 ≤ w / l.period + 1 :=
    add_le_add_left (Int.floor_le _) 1
  calc l.requestClosed w ≤ (w / l.period + 1) * l.cost :=
        mul_le_mul_of_nonneg_right floor l.cost_nonneg
    _ = w * l.utilization + l.cost := by unfold utilization; ring

/-- The closed window adds the release at its end. -/
theorem request_le_requestClosed (w : K) : l.request w ≤ l.requestClosed w := by
  have releases : (⌈w / l.period⌉ : K) ≤ ⌊w / l.period⌋ + 1 := by
    exact_mod_cast Int.ceil_le_floor_add_one (w / l.period)
  exact mul_le_mul_of_nonneg_right releases l.cost_nonneg

theorem requestClosed_nonneg (nonneg : 0 ≤ w) : 0 ≤ l.requestClosed w := by
  have floor : (0 : K) ≤ ⌊w / l.period⌋ := by
    exact_mod_cast Int.floor_nonneg.mpr (div_nonneg nonneg l.period_pos.le)
  exact mul_nonneg (add_nonneg floor zero_le_one) l.cost_nonneg

end Load

/-! ## Sums over several loads -/

section Sums

variable {ls : List (Load K)} {a b v w : K}

theorem interference_mono : Monotone (interference ls) :=
  fun _ _ le => List.sum_le_sum fun l _ => l.request_mono le

@[simp] theorem interference_zero : interference ls 0 = 0 := by simp [interference]

omit [IsStrictOrderedRing K] in
@[simp] theorem interference_nil : interference ([] : List (Load K)) w = 0 := rfl

omit [IsStrictOrderedRing K] in
@[simp] theorem interference_cons {l : Load K} :
    interference (l :: ls) w = l.request w + interference ls w := rfl

theorem interference_nonneg (nonneg : 0 ≤ w) : 0 ≤ interference ls w := by
  have zero : interference ls 0 = 0 := interference_zero
  rw [← zero]
  exact interference_mono nonneg

theorem interference_add_le : interference ls (v + w) ≤ interference ls v + interference ls w := by
  induction ls with
  | nil => simp
  | cons l ls ih =>
      simp only [interference_cons]
      have head := l.request_add_le (v := v) (w := w)
      linarith

omit [FloorRing K] in
/-- Linear bounds add up. -/
theorem sum_le_linear {ι : Type u} {g : ι → K → K} {slope offset : ι → K} :
    ∀ {is : List ι}, (∀ i ∈ is, ∀ w, g i w ≤ w * slope i + offset i) → ∀ w,
      (is.map (g · w)).sum ≤ w * (is.map slope).sum + (is.map offset).sum
  | [], _, w => by simp
  | i :: is, bound, w => by
      have head := bound i List.mem_cons_self w
      have tail := sum_le_linear (fun i' mem => bound i' (List.mem_cons_of_mem i mem)) w
      simp only [List.map_cons, List.sum_cons]
      linarith

theorem interference_le :
    interference ls w ≤ w * utilization ls + (ls.map (·.cost)).sum :=
  sum_le_linear (fun l _ _ => l.request_le) w

/-- Over a window of any length the loads ask for their fraction of it. -/
theorem le_interference : w * utilization ls ≤ interference ls w := by
  unfold utilization interference
  rw [← List.sum_map_mul_left]
  apply List.sum_le_sum
  intro l _
  exact l.le_request

theorem closedInterference_nonneg (nonneg : 0 ≤ w) : 0 ≤ closedInterference ls w :=
  List.sum_nonneg (by simpa [closedInterference] using fun l _ => l.requestClosed_nonneg nonneg)

theorem request_le_interference {l : Load K} (mem : l ∈ ls) (nonneg : 0 ≤ w) :
    l.request w ≤ interference ls w := by
  refine List.single_le_sum ?_ _ (List.mem_map_of_mem mem)
  intro x hx
  rcases List.mem_map.mp hx with ⟨l', -, rfl⟩
  exact l'.request_nonneg nonneg

theorem interference_le_closedInterference : interference ls w ≤ closedInterference ls w :=
  List.sum_le_sum fun l _ => l.request_le_requestClosed w

/-- Over a closed window loads with a cost ask for more than their fraction of it. -/
theorem lt_closedInterference (some_load : 0 < utilization ls) :
    w * utilization ls < closedInterference ls w := by
  obtain ⟨l, mem, positive⟩ : ∃ l ∈ ls, 0 < l.utilization :=
    List.exists_lt_of_sum_lt (fun _ => 0) Load.utilization (by simpa [utilization] using some_load)
  unfold utilization closedInterference
  rw [← List.sum_map_mul_left]
  apply List.sum_lt_sum
  · intro l' _
    exact l'.le_request.trans (l'.request_le_requestClosed w)
  · refine ⟨l, mem, ?_⟩
    have cost : 0 < l.cost := (div_pos_iff_of_pos_right l.period_pos).mp positive
    have floor : w / l.period < ⌊w / l.period⌋ + 1 := Int.lt_floor_add_one _
    calc w * l.utilization = w / l.period * l.cost := by unfold Load.utilization; ring
      _ < l.requestClosed w := mul_lt_mul_of_pos_right floor cost

/-- A closed window that exactly takes its releases and the work `a` leaves processor time over. -/
theorem utilization_lt_one_of_closed_fixpoint (work : 0 ≤ a) (nonneg : 0 ≤ w)
    (fixed : w = a + closedInterference ls w) : utilization ls < 1 := by
  rcases (utilization_nonneg ls).lt_or_eq with some_load | none
  · have more := lt_closedInterference (w := w) some_load
    by_contra full
    have all := le_mul_of_one_le_right nonneg (not_lt.mp full)
    linarith
  · rw [← none]
    exact zero_lt_one

/-- A window shorter by one release of a member asks for less by that much. -/
theorem closedInterference_add_le {l : Load K} (mem : l ∈ ls) (le : v ≤ w) {d : K}
    (less : l.requestClosed v + d ≤ l.requestClosed w) :
    closedInterference ls v + d ≤ closedInterference ls w := by
  rcases List.append_of_mem mem with ⟨before, after, rfl⟩
  have left : closedInterference before v ≤ closedInterference before w :=
    List.sum_le_sum fun l' _ => l'.requestClosed_mono le
  have right : closedInterference after v ≤ closedInterference after w :=
    List.sum_le_sum fun l' _ => l'.requestClosed_mono le
  simp only [closedInterference, List.map_append, List.map_cons, List.sum_append,
    List.sum_cons] at left right ⊢
  linarith

theorem requestClosed_le_closedInterference {l : Load K} (mem : l ∈ ls) (nonneg : 0 ≤ w) :
    l.requestClosed w ≤ closedInterference ls w := by
  refine List.single_le_sum ?_ _ (List.mem_map_of_mem mem)
  intro x hx
  rcases List.mem_map.mp hx with ⟨l', -, rfl⟩
  exact l'.requestClosed_nonneg nonneg

/-- Between two releases, closed and open windows hold the same releases. -/
theorem Load.requestClosed_le_request_or_release (l : Load K) (s : K) :
    l.requestClosed s ≤ l.request s ∨ (⌊s / l.period⌋ : K) * l.period = s := by
  by_cases between : (⌊s / l.period⌋ : K) + 1 ≤ ⌈s / l.period⌉
  · exact Or.inl (mul_le_mul_of_nonneg_right between l.cost_nonneg)
  · apply Or.inr
    have integral : ⌈s / l.period⌉ ≤ ⌊s / l.period⌋ := by
      rw [not_le] at between
      exact Int.lt_add_one_iff.mp (by exact_mod_cast between)
    have equal : (⌊s / l.period⌋ : K) = s / l.period :=
      le_antisymm (Int.floor_le _) ((Int.le_ceil _).trans (by exact_mod_cast integral))
    rw [equal, div_mul_cancel₀ _ l.period_pos.ne']

/-- A closed window that ends before a release lacks it. -/
theorem Load.requestClosed_add_cost_le (l : Load K) {s x : K}
    (release : (⌊s / l.period⌋ : K) * l.period = s) (lt : x < s) :
    l.requestClosed x + l.cost ≤ l.requestClosed s := by
  have floors : (⌊x / l.period⌋ : K) + 1 ≤ ⌊s / l.period⌋ := by
    have below : ⌊x / l.period⌋ < ⌊s / l.period⌋ := by
      rw [Int.floor_lt, div_lt_iff₀ l.period_pos, release]
      exact lt
    exact_mod_cast below
  have scaled := mul_le_mul_of_nonneg_right floors l.cost_nonneg
  unfold Load.requestClosed
  linarith

/-- **No start on a release.** At the shortest closed window that takes its own releases and the
work `a`, every load with a cost lies strictly between two of its releases. -/
theorem requestClosed_le_request_of_isLeast {s x : K} (nonneg : 0 ≤ a)
    (least : IsLeast {w | 0 ≤ w ∧ a + closedInterference ls w ≤ w} s) {l : Load K}
    (mem : l ∈ ls) (le : s ≤ x) : l.requestClosed s ≤ l.request x := by
  refine le_trans ?_ (l.request_mono le)
  rcases l.cost_nonneg.lt_or_eq with cost | free
  · refine (l.requestClosed_le_request_or_release s).resolve_right fun release => ?_
    -- at a release, a window shorter by the cost (but not by a period) fits as well
    obtain ⟨start, fits⟩ := least.1
    have period_pos := l.period_pos
    have floor_nonneg : (0 : K) ≤ ⌊s / l.period⌋ := by
      exact_mod_cast Int.floor_nonneg.mpr (div_nonneg start period_pos.le)
    have pos : 0 < s := by
      have own := requestClosed_le_closedInterference mem start
      have once := mul_nonneg floor_nonneg cost.le
      unfold Load.requestClosed at own
      linarith
    have one : (1 : K) ≤ ⌊s / l.period⌋ := by
      have positive : (0 : K) < ⌊s / l.period⌋ :=
        pos_of_mul_pos_left (release.symm ▸ pos) period_pos.le
      exact_mod_cast positive
    have shorter : max (s - l.cost) (s - l.period) < s := max_lt (by linarith) (by linarith)
    have period_le : l.period ≤ s := by
      rw [← release]
      exact le_mul_of_one_le_left period_pos.le one
    have sums := closedInterference_add_le mem shorter.le
      (l.requestClosed_add_cost_le release shorter)
    have reach := le_max_left (s - l.cost) (s - l.period)
    refine absurd (least.2 ⟨?_, ?_⟩) (not_le.mpr shorter)
    · exact le_max_of_le_right (by linarith)
    · linarith
  · simp [Load.requestClosed, Load.request, ← free]

/-! ## Demands -/

theorem demand_mono : Monotone (demand ls a) :=
  fun _ _ le => add_le_add_right (interference_mono le) a

theorem le_demand (nonneg : 0 ≤ w) : a ≤ demand ls a w :=
  le_add_of_nonneg_right (interference_nonneg nonneg)

/-- Two pieces of work that fit in two windows fit together in the joint window. -/
theorem demand_add_le (left : demand ls a v ≤ v) (right : demand ls b w ≤ w) :
    demand ls (a + b) (v + w) ≤ v + w := by
  have joint : interference ls (v + w) ≤ interference ls v + interference ls w :=
    interference_add_le
  unfold demand at *
  linarith

/-- A window that `n` copies of a piece of work fit in. -/
theorem demand_nsmul_le (fits : demand ls a w ≤ w) (n : ℕ) :
    demand ls (n * a) (n * w) ≤ n * w := by
  induction n with
  | zero => simp [demand]
  | succ n ih =>
      have next := demand_add_le ih fits
      have work : ((n + 1 : ℕ) : K) * a = n * a + a := by push_cast; ring
      have window : ((n + 1 : ℕ) : K) * w = n * w + w := by push_cast; ring
      rw [work, window]
      exact next

omit [FloorRing K] in
/-- A bound linear in the window with slope below one is met somewhere above any start. -/
theorem exists_linear_prefixpoint {f : K → K} {slope offset : K} (below : slope < 1)
    (bound : ∀ w, f w ≤ w * slope + offset) (start : K) : ∃ w, start ≤ w ∧ f w ≤ w := by
  have room : 0 < 1 - slope := sub_pos.mpr below
  refine ⟨max start (offset / (1 - slope)), le_max_left _ _, (bound _).trans ?_⟩
  have above : offset / (1 - slope) ≤ max start (offset / (1 - slope)) := le_max_right _ _
  rw [div_le_iff₀ room] at above
  linarith

/-- Loads that leave processor time over let any work fit in some window. -/
theorem exists_demand_le (room : utilization ls < 1) (a start : K) :
    ∃ w, start ≤ w ∧ demand ls a w ≤ w := by
  have linear : ∀ w, demand ls a w ≤ w * utilization ls + (a + (ls.map (·.cost)).sum) := by
    intro w
    have bound : interference ls w ≤ w * utilization ls + (ls.map (·.cost)).sum :=
      interference_le
    unfold demand
    linarith
  exact exists_linear_prefixpoint room linear start

end Sums

/-! ## Finitely many values -/

theorem finite_image_ceil (S : Set K) {x y : K} (bounded : S ⊆ Set.Icc x y) {T : K} (pos : 0 < T) :
    ((fun w => (⌈w / T⌉ : ℤ)) '' S).Finite := by
  refine (Set.finite_Icc ⌈x / T⌉ ⌈y / T⌉).subset ?_
  rintro _ ⟨w, mem, rfl⟩
  obtain ⟨low, high⟩ := bounded mem
  exact ⟨Int.ceil_mono (div_le_div_of_nonneg_right low pos.le),
    Int.ceil_mono (div_le_div_of_nonneg_right high pos.le)⟩

theorem finite_image_floor (S : Set K) {x y : K} (bounded : S ⊆ Set.Icc x y) {T : K}
    (pos : 0 < T) : ((fun w => (⌊w / T⌋ : ℤ)) '' S).Finite := by
  refine (Set.finite_Icc ⌊x / T⌋ ⌊y / T⌋).subset ?_
  rintro _ ⟨w, mem, rfl⟩
  obtain ⟨low, high⟩ := bounded mem
  exact ⟨Int.floor_mono (div_le_div_of_nonneg_right low pos.le),
    Int.floor_mono (div_le_div_of_nonneg_right high pos.le)⟩

omit [LinearOrder K] [IsStrictOrderedRing K] [FloorRing K] in
/-- A sum of functions with finitely many values on a set has finitely many values there. -/
theorem finite_image_sum {ι : Type u} {S : Set K} {g : ι → K → K} :
    ∀ {ls : List ι}, (∀ l ∈ ls, (g l '' S).Finite) →
      ((fun w => (ls.map (g · w)).sum) '' S).Finite
  | [], _ => by
      refine (Set.finite_singleton (0 : K)).subset ?_
      rintro _ ⟨w, _, rfl⟩
      rfl
  | l :: ls, each => by
      have head := each l List.mem_cons_self
      have tail := finite_image_sum fun l' mem => each l' (List.mem_cons_of_mem l mem)
      refine (head.image2 (· + ·) tail).subset ?_
      rintro _ ⟨w, mem, rfl⟩
      exact ⟨_, ⟨w, mem, rfl⟩, _, ⟨w, mem, rfl⟩, by simp⟩

theorem Load.finite_image_request (l : Load K) (x y : K) : (l.request '' Set.Icc x y).Finite := by
  have ceils := finite_image_ceil (Set.Icc x y) le_rfl l.period_pos
  refine (ceils.image fun n : ℤ => (n : K) * l.cost).subset ?_
  rintro _ ⟨w, mem, rfl⟩
  exact ⟨_, ⟨w, mem, rfl⟩, rfl⟩

theorem Load.finite_image_requestClosed (l : Load K) (x y : K) :
    (l.requestClosed '' Set.Icc x y).Finite := by
  have floors := finite_image_floor (Set.Icc x y) le_rfl l.period_pos
  refine (floors.image fun n : ℤ => ((n : K) + 1) * l.cost).subset ?_
  rintro _ ⟨w, mem, rfl⟩
  exact ⟨_, ⟨w, mem, rfl⟩, rfl⟩

theorem finite_image_interference (ls : List (Load K)) (x y : K) :
    (interference ls '' Set.Icc x y).Finite :=
  finite_image_sum fun l _ => l.finite_image_request x y

theorem finite_image_demand (ls : List (Load K)) (a x y : K) :
    (demand ls a '' Set.Icc x y).Finite := by
  refine ((finite_image_interference ls x y).image fun v => a + v).subset ?_
  rintro _ ⟨w, mem, rfl⟩
  exact ⟨_, ⟨w, mem, rfl⟩, rfl⟩

omit [FloorRing K] in
/-- **Ending rule for interference loops.** A sum of monotone, locally finite charges with linear
bounds of total slope below one has a fixpoint that the loop finds. -/
theorem doWhile_sum_ends {ι : Type u} {g : ι → K → K} {slope offset : ι → K} {is : List ι}
    (mono : ∀ i ∈ is, Monotone (g i)) (bound : ∀ i ∈ is, ∀ w, g i w ≤ w * slope i + offset i)
    (finite : ∀ i ∈ is, ∀ x y, (g i '' Set.Icc x y).Finite) (below : (is.map slope).sum < 1)
    (init start : K) : (doWhile (fun w => init + (is.map (g · w)).sum) start).Ends := by
  have bound' : ∀ w, init + (is.map (g · w)).sum ≤
      w * (is.map slope).sum + (init + (is.map offset).sum) := by
    intro w
    have sums := sum_le_linear bound w
    linarith
  obtain ⟨w, above, pre⟩ := exists_linear_prefixpoint below bound' start
  refine doWhile_ends_of_prefixpoint ?_ above pre ?_
  · intro v w le
    exact add_le_add_right (List.sum_le_sum fun i mem => mono i mem le) init
  · refine ((finite_image_sum fun i mem => finite i mem start w).image fun v => init + v).subset ?_
    rintro _ ⟨v, mem, rfl⟩
    exact ⟨_, ⟨v, mem, rfl⟩, rfl⟩

/-! ## The least window -/

/-- `w` is the shortest window in which the work `a` and the interference of `ls` fit. -/
def LeastWindow (ls : List (Load K)) (a w : K) : Prop := IsLeast {v | 0 ≤ v ∧ demand ls a v ≤ v} w

omit [IsStrictOrderedRing K] in
theorem LeastWindow.unique {ls : List (Load K)} {a v w : K} (left : LeastWindow ls a v)
    (right : LeastWindow ls a w) : v = w :=
  IsLeast.unique left right

/-- Iterating the demand from the work itself finds the shortest window. -/
theorem leastWindow_of_returns {ls : List (Load K)} {a r : K} (nonneg : 0 ≤ a)
    (returned : (doWhile (demand ls a) a).Returns r) : LeastWindow ls a r := by
  have least := doWhile_isLeast demand_mono (le_demand nonneg) returned
  refine ⟨⟨nonneg.trans least.1.1, least.1.2⟩, fun w hw => least.2 ⟨?_, hw.2⟩⟩
  exact (le_demand hw.1).trans hw.2

/-- The iteration ends when the work fits in some window. -/
theorem doWhile_demand_ends {ls : List (Load K)} {a w : K} (nonneg : 0 ≤ w)
    (fits : demand ls a w ≤ w) : (doWhile (demand ls a) a).Ends :=
  doWhile_ends_of_prefixpoint demand_mono ((le_demand nonneg).trans fits) fits
    (finite_image_demand ls a _ _)

/-- **Ending.** The iteration ends exactly when there is no work or the loads leave processor time
over. -/
theorem doWhile_demand_ends_iff {ls : List (Load K)} {a : K} (nonneg : 0 ≤ a) :
    (doWhile (demand ls a) a).Ends ↔ a = 0 ∨ utilization ls < 1 := by
  refine ⟨?_, ?_⟩
  · intro given
    rcases given with ⟨r, returned⟩
    obtain ⟨⟨above, fits⟩, -⟩ := leastWindow_of_returns nonneg returned
    have share : r * utilization ls ≤ interference ls r := le_interference
    rcases nonneg.lt_or_eq with work | none
    · -- the window takes its share of the loads and some work on top
      apply Or.inr
      by_contra full
      have all := le_mul_of_one_le_right above (not_lt.mp full)
      unfold demand at fits
      linarith
    · exact Or.inl none.symm
  · rintro (rfl | room)
    · apply doWhile_demand_ends le_rfl
      simp [demand]
    · obtain ⟨w, start, fits⟩ := exists_demand_le room a 0
      exact doWhile_demand_ends start fits

/-- The shortest window is the least fixpoint of the demand. -/
theorem LeastWindow.isLeast_fixpoint {ls : List (Load K)} {a w : K} (nonneg : 0 ≤ a)
    (least : LeastWindow ls a w) : IsLeast {v | 0 ≤ v ∧ a ≤ v ∧ v = demand ls a v} w := by
  obtain ⟨above, fits⟩ := least.1
  have reaches : a ≤ demand ls a w := le_demand above
  have fixed : w = demand ls a w := by
    apply le_antisymm _ fits
    apply least.2
    exact ⟨nonneg.trans reaches, demand_mono fits⟩
  refine ⟨?_, ?_⟩
  · exact ⟨above, reaches.trans fits, fixed⟩
  · intro v hv
    exact least.2 ⟨hv.1, hv.2.2.symm.le⟩

theorem exists_leastWindow {ls : List (Load K)} (room : utilization ls < 1) {a : K}
    (nonneg : 0 ≤ a) : ∃ w, LeastWindow ls a w := by
  obtain ⟨w, hw, fits⟩ := exists_demand_le room a 0
  obtain ⟨r, returned⟩ := doWhile_demand_ends hw fits
  exact ⟨r, leastWindow_of_returns nonneg returned⟩

theorem exists_leastWindow_of_fits {ls : List (Load K)} {a w : K} (work : 0 ≤ a) (nonneg : 0 ≤ w)
    (fits : demand ls a w ≤ w) : ∃ f, LeastWindow ls a f := by
  obtain ⟨r, returned⟩ := doWhile_demand_ends nonneg fits
  exact ⟨r, leastWindow_of_returns work returned⟩

/-- `n` pieces of work that each fit in a window `T` delay what comes after them by `n * T` at
most. -/
theorem LeastWindow.exists_repeat_le {ls : List (Load K)} {a b f r T : K}
    (after : LeastWindow ls a f) (each : LeastWindow ls b r) (within : r ≤ T) (work : 0 ≤ a)
    (work' : 0 ≤ b) (n : ℕ) : ∃ g, LeastWindow ls (n * b + a) g ∧ g ≤ n * T + f := by
  have joint := demand_add_le (demand_nsmul_le each.1.2 n) after.1.2
  have nonneg : 0 ≤ n * r + f := add_nonneg (mul_nonneg n.cast_nonneg each.1.1) after.1.1
  obtain ⟨g, least⟩ :=
    exists_leastWindow_of_fits (add_nonneg (mul_nonneg n.cast_nonneg work') work) nonneg joint
  have scaled := mul_le_mul_of_nonneg_left within (n.cast_nonneg : (0 : K) ≤ n)
  exact ⟨g, least, (least.2 ⟨nonneg, joint⟩).trans (by linarith)⟩

@[simp] theorem leastWindow_zero {ls : List (Load K)} {f : K} : LeastWindow ls 0 f ↔ f = 0 := by
  have zero : LeastWindow ls 0 0 := ⟨⟨le_rfl, by simp [demand]⟩, fun _ hw => hw.1⟩
  exact ⟨fun least => least.unique zero, fun eq => eq ▸ zero⟩

omit [IsStrictOrderedRing K] in
/-- A shorter piece of work under smaller requests has the shorter least window. -/
theorem LeastWindow.le_of_demand_le {ls ls' : List (Load K)} {a a' w w' : K}
    (left : LeastWindow ls a w) (right : LeastWindow ls' a' w')
    (less : ∀ v, 0 ≤ v → demand ls a v ≤ demand ls' a' v) : w ≤ w' :=
  left.2 ⟨right.1.1, (less w' right.1.1).trans right.1.2⟩

/-! ## Rational periods -/

/-- Rational periods have a common multiple. -/
theorem exists_hyperperiod (ls : List (Load ℚ)) :
    ∃ H : ℚ, 0 < H ∧ ∀ l ∈ ls, ∃ m : ℤ, H = m * l.period := by
  induction ls with
  | nil => exact ⟨1, one_pos, fun l mem => absurd mem List.not_mem_nil⟩
  | cons l ls ih =>
      obtain ⟨H, positive, multiple⟩ := ih
      have den_pos : (0 : ℚ) < (H / l.period).den := by exact_mod_cast (H / l.period).den_pos
      refine ⟨H * (H / l.period).den, mul_pos positive den_pos, fun l' mem => ?_⟩
      rcases List.mem_cons.mp mem with rfl | earlier
      · refine ⟨(H / l'.period).num, ?_⟩
        have ratio := Rat.mul_den_eq_num (H / l'.period)
        have whole : H / l'.period * l'.period = H := div_mul_cancel₀ H l'.period_pos.ne'
        calc H * (H / l'.period).den =
              H / l'.period * (H / l'.period).den * l'.period := by
              rw [mul_right_comm, whole]
          _ = (H / l'.period).num * l'.period := by rw [ratio]
      · obtain ⟨m, equal⟩ := multiple l' earlier
        refine ⟨m * (H / l.period).den, ?_⟩
        push_cast
        rw [mul_right_comm, ← equal]

/-- Over a long common multiple of their periods loads ask for exactly their fraction. -/
theorem exists_interference_eq (ls : List (Load ℚ)) (start : ℚ) :
    ∃ w, start ≤ w ∧ interference ls w = w * utilization ls := by
  obtain ⟨H, positive, multiple⟩ := exists_hyperperiod ls
  have enough : start ≤ ⌈start / H⌉ * H := (div_le_iff₀ positive).mp (Int.le_ceil _)
  generalize ⌈start / H⌉ = n at enough
  refine ⟨n * H, enough, ?_⟩
  unfold interference utilization
  rw [← List.sum_map_mul_left]
  congr 1
  apply List.map_congr_left
  intro l mem
  obtain ⟨m, equal⟩ := multiple l mem
  have ratio : n * H / l.period = ((n * m : ℤ) : ℚ) := by
    rw [equal, div_eq_iff l.period_pos.ne']
    push_cast
    ring
  unfold Load.request Load.utilization
  rw [ratio, Int.ceil_intCast, ← ratio]
  ring

end Hipert
