import Mathlib.Algebra.Order.Ring.Nat
import Hipert.Lib.Fueled
import Mathlib.Logic.Function.Iterate

/-!
# Loops on a wrapping counter

Two loops that count a machine word down: `while (n--) body`, which reads the counter before it is
decremented, and the pair of instructions `dec`, `jnz`, which read it after. Both end from every
start. The first runs its body as often as the counter reads as an unsigned number. So does the
second, except from zero: there the counter wraps around and the loop runs through all its values.
-/

namespace Hipert

universe u

variable {σ : Type u} {w : ℕ}

/-! ## Counters -/

theorem toNat_one (width : 0 < w) : (1 : BitVec w).toNat = 1 := by
  rw [show (1 : BitVec w) = BitVec.ofNat w 1 from rfl, BitVec.toNat_ofNat]
  exact Nat.mod_eq_of_lt (Nat.one_lt_two_pow width.ne')

theorem toNat_pos {n : BitVec w} (nonzero : n ≠ 0) : 0 < n.toNat := by
  apply Nat.pos_of_ne_zero
  exact fun zero => nonzero (BitVec.eq_of_toNat_eq (by simpa using zero))

theorem ne_zero_of_toNat {n : BitVec w} {k : ℕ} (reads : n.toNat = k + 1) : n ≠ 0 := by
  intro zero
  simp [zero] at reads

theorem toNat_sub_one {n : BitVec w} (nonzero : n ≠ 0) : (n - 1).toNat = n.toNat - 1 := by
  have pos := toNat_pos nonzero
  have bound : n.toNat < 2 ^ w := n.isLt
  have width : 0 < w := by
    apply Nat.pos_of_ne_zero
    intro none
    subst none
    omega
  rw [BitVec.toNat_sub, toNat_one width,
    show 2 ^ w - 1 + n.toNat = 2 ^ w + (n.toNat - 1) by omega, Nat.add_mod_left,
    Nat.mod_eq_of_lt (by omega)]

/-- Below zero the counter wraps to its largest value. -/
theorem toNat_zero_sub_one (width : 0 < w) : ((0 : BitVec w) - 1).toNat = 2 ^ w - 1 := by
  rw [BitVec.toNat_sub, toNat_one width]
  simp only [BitVec.ofNat_eq_ofNat, BitVec.toNat_ofNat, Nat.zero_mod, Nat.add_zero]
  exact Nat.mod_eq_of_lt (Nat.sub_lt (Nat.two_pow_pos w) one_pos)

/-! ## `while (n--)` -/

/-- `while (n--) body`. -/
def countdown (body : σ → Fueled σ) (n : BitVec w) (s : σ) : Fueled σ :=
  Fueled.loop (fun p : BitVec w × σ =>
    if p.1 = 0 then pure (.inr p.2) else do
      let s ← body p.2
      pure (.inl (p.1 - 1, s))) (n, s)

theorem countdown_iterates {body : σ → Fueled σ} {f : σ → σ} (round : ∀ s, (body s).Returns (f s))
    {k : ℕ} {n : BitVec w} {s : σ} (reads : n.toNat = k) :
    (countdown body n s).Returns (f^[k] s) := by
  apply Fueled.loop_returns.mpr
  induction k generalizing n s with
  | zero =>
      have zero : n = 0 := BitVec.eq_of_toNat_eq (by simpa using reads)
      simp [zero]
  | succ k ih =>
      have nonzero := ne_zero_of_toNat reads
      refine Or.inl ⟨(n - 1, f s), ?_, Fueled.loop_returns.mpr (ih ?_)⟩
      · rw [if_neg nonzero]
        exact Fueled.returns_bind.mpr ⟨f s, round s, Fueled.returns_pure.mpr rfl⟩
      · rw [toNat_sub_one nonzero, reads, Nat.add_sub_cancel]

/-- A body that gives a function of the state is iterated as often as the counter reads, and there
the loop ends. -/
theorem countdown_returns {body : σ → Fueled σ} {f : σ → σ} (round : ∀ s, (body s).Returns (f s))
    {n : BitVec w} {s r : σ} : (countdown body n s).Returns r ↔ f^[n.toNat] s = r := by
  have ends := countdown_iterates (n := n) (s := s) round rfl
  exact ⟨fun returned => ends.unique returned, fun same => same ▸ ends⟩

/-- Going from position to position and appending what is found there lists what stands at all
positions. -/
theorem iterate_collect {α : Type u} (visit : ℕ → α) (k : ℕ) :
    (fun s : ℕ × List α => (s.1 + 1, s.2 ++ [visit s.1]))^[k] (0, []) =
      (k, (List.range k).map visit) := by
  induction k with
  | zero => rfl
  | succ k ih =>
      rw [Function.iterate_succ_apply', ih, List.range_succ, List.map_append]
      rfl

/-! ## `dec`, `jnz` -/

/-- One iteration of `loop: dec c; jnz loop`, with the number of iterations before it. -/
def decJnzRound (p : BitVec w × ℕ) : Fueled ((BitVec w × ℕ) ⊕ ℕ) :=
  pure (if p.1 - 1 = 0 then .inr (p.2 + 1) else .inl (p.1 - 1, p.2 + 1))

/-- The number of iterations of `loop: dec c; jnz loop`. -/
def decJnz (c : BitVec w) : Fueled ℕ := Fueled.loop decJnzRound (c, 0)

/-- Where the loop on the counter `c` stops: after `c` iterations, or after all values of the
counter when it starts at zero. -/
def iterationsFrom (c : BitVec w) : ℕ := if c = 0 then 2 ^ w else c.toNat

theorem loop_decJnzRound_next {c : BitVec w} {count k : ℕ} (more : c - 1 ≠ 0)
    (rest : (Fueled.loop decJnzRound (c - 1, count + 1)).Returns k) :
    (Fueled.loop decJnzRound (c, count)).Returns k := by
  apply Fueled.loop_returns.mpr
  refine Or.inl ⟨(c - 1, count + 1), ?_, rest⟩
  rw [decJnzRound, if_neg more]
  exact Fueled.returns_pure.mpr rfl

theorem loop_decJnzRound (width : 0 < w) {c : BitVec w} {count k : ℕ} (reads : c.toNat = k + 1) :
    (Fueled.loop decJnzRound (c, count)).Returns (k + 1 + count) := by
  induction k generalizing c count with
  | zero =>
      have last : c = 1 := BitVec.eq_of_toNat_eq (by rw [reads, toNat_one width])
      apply Fueled.loop_returns.mpr
      simp [decJnzRound, last, Nat.add_comm]
  | succ k ih =>
      have next : (c - 1).toNat = k + 1 := by
        rw [toNat_sub_one (ne_zero_of_toNat reads), reads, Nat.add_sub_cancel]
      apply loop_decJnzRound_next (ne_zero_of_toNat next)
      have rest : (Fueled.loop decJnzRound (c - 1, count + 1)).Returns (k + 1 + (count + 1)) :=
        ih next
      rwa [show k + 1 + (count + 1) = k + 1 + 1 + count by omega] at rest

/-- The loop ends from every counter, and from zero only after `2 ^ w` iterations. -/
theorem decJnz_returns (width : 0 < w) {c : BitVec w} {k : ℕ} :
    (decJnz c).Returns k ↔ iterationsFrom c = k := by
  have ends : (decJnz c).Returns (iterationsFrom c) := by
    unfold decJnz iterationsFrom
    split
    next zero =>
      subst zero
      have large : 1 < 2 ^ w := Nat.one_lt_two_pow width.ne'
      have top : ((0 : BitVec w) - 1).toNat = 2 ^ w - 2 + 1 := by
        rw [toNat_zero_sub_one width]
        omega
      apply loop_decJnzRound_next (ne_zero_of_toNat top)
      have rest : (Fueled.loop decJnzRound ((0 : BitVec w) - 1, 0 + 1)).Returns
          (2 ^ w - 2 + 1 + (0 + 1)) := loop_decJnzRound width top
      rwa [show 2 ^ w - 2 + 1 + (0 + 1) = 2 ^ w by omega] at rest
    next nonzero =>
      have pos := toNat_pos nonzero
      have rest : (Fueled.loop decJnzRound (c, 0)).Returns (c.toNat - 1 + 1 + 0) :=
        loop_decJnzRound width (by omega)
      rwa [show c.toNat - 1 + 1 + 0 = c.toNat by omega] at rest
  exact ⟨fun returned => ends.unique returned, fun same => same ▸ ends⟩

end Hipert
