import Hipert.Lib.LinkedStack
import Mathlib.Data.List.Range

/-!
# Allocation of descriptors

The free descriptors are linked through their field `free`, from `first_free` on. `allocate_tp`
reads the head before it takes the mutex, so other threads may allocate and release in between: no
descriptor is ever handed out twice (`descriptors_exclusive`), but with each release that falls
between the two parts of an allocation one is lost (`descriptors_lost`).
-/

namespace Hipert.Ptask

/-! ## The table -/

/-- The field `free`, and `first_free`: the index of a descriptor, `_TP_NOMORE` or `_TP_BUSY`. -/
inductive Link where
  | next (i : ℕ)
  | noMore
  | busy
  deriving DecidableEq, Repr

/-- The table, with what each thread has read at the start of `allocate_tp`, and the descriptors
that are handed out and not yet released. -/
structure Table where
  free : ℕ → Link
  firstFree : Link
  read : ℕ → Option ℕ
  held : List ℕ

/-- The table after `ptask_init`, where `maxTasks` is `MAX_TASKS`. -/
def Table.init (maxTasks : ℕ) : Table where
  free i := if i + 1 = maxTasks then .noMore else .next (i + 1)
  firstFree := .next 0
  read _ := none
  held := []

/-- What threads do: the two parts of `allocate_tp`, and `release_tp`. -/
inductive TableMove where
  | read (thread : ℕ)
  | commit (thread : ℕ)
  | release (i : ℕ)
  deriving DecidableEq, Repr

/-- One of them, if it can be done. `release_tp` is called by the task on the descriptor, or by its
creator where the creation fails. -/
def tableStep (s : Table) : TableMove → Option Table
  | .read thread =>
      if s.read thread = none then
        match s.firstFree with
        | .next x => some { s with read := Function.update s.read thread (some x) }
        | _ => some s
      else none
  | .commit thread =>
      match s.read thread with
      | none => none
      | some x =>
          if s.free x = .busy then some { s with read := Function.update s.read thread none }
          else
            some
              { free := Function.update s.free x .busy
                firstFree := s.free x
                read := Function.update s.read thread none
                held := x :: s.held }
  | .release i =>
      if i ∈ s.held then
        some { s with
          free := Function.update s.free i s.firstFree
          firstFree := .next i
          held := s.held.erase i }
      else none

/-- What `allocate_tp` returns from its second part on: the descriptor, or -1. -/
def allocated (s : Table) (thread : ℕ) : Option ℕ :=
  (s.read thread).filter fun x => s.free x ≠ .busy

/-- Moves in a given order, if all can be done. -/
def tableRun (moves : List TableMove) (s : Table) : Option Table := moves.foldlM tableStep s

section Exclusive

variable {maxTasks : ℕ} {s s' : Table} {move : TableMove} {moves : List TableMove}

theorem tableRun_cons :
    tableRun (move :: moves) s = some s' ↔
      ∃ mid, tableStep s move = some mid ∧ tableRun moves mid = some s' :=
  Option.bind_eq_some_iff

/-- The links are indices of descriptors, and the busy descriptors are those that are held. -/
structure Table.Sound (maxTasks : ℕ) (s : Table) : Prop where
  held_nodup : s.held.Nodup
  held_lt : ∀ x ∈ s.held, x < maxTasks
  busy_iff : ∀ x, s.free x = .busy ↔ x ∈ s.held
  head_not_busy : s.firstFree ≠ .busy
  head_lt : ∀ x, s.firstFree = .next x → x < maxTasks
  next_lt : ∀ x y, x < maxTasks → s.free x = .next y → y < maxTasks
  read_lt : ∀ thread x, s.read thread = some x → x < maxTasks

theorem Table.Sound.init (positive : 0 < maxTasks) : (Table.init maxTasks).Sound maxTasks where
  held_nodup := List.nodup_nil
  held_lt x mem := (List.not_mem_nil mem).elim
  busy_iff x := by
    refine iff_of_false ?_ List.not_mem_nil
    unfold Table.init
    dsimp only
    split <;> simp
  head_not_busy := by simp [Table.init]
  head_lt x head := by
    cases head
    exact positive
  next_lt x y inside next := by
    unfold Table.init at next
    dsimp only at next
    split at next
    · cases next
    · cases next
      omega
  read_lt thread x read := by cases read

/-- What each move does, with what it finds. -/
theorem tableStep_cases (step : tableStep s move = some s') :
    (∃ thread, move = .read thread ∧ s.read thread = none ∧
        ((∃ x, s.firstFree = .next x ∧
            s' = { s with read := Function.update s.read thread (some x) }) ∨
          (∀ x, s.firstFree ≠ .next x) ∧ s' = s)) ∨
      (∃ thread x, move = .commit thread ∧ s.read thread = some x ∧
        (s.free x = .busy ∧ s' = { s with read := Function.update s.read thread none } ∨
          s.free x ≠ .busy ∧ s' =
            { free := Function.update s.free x .busy, firstFree := s.free x
              read := Function.update s.read thread none, held := x :: s.held })) ∨
      ∃ i, move = .release i ∧ i ∈ s.held ∧ s' =
        { s with
          free := Function.update s.free i s.firstFree, firstFree := .next i
          held := s.held.erase i } := by
  cases move with
  | read thread =>
      refine .inl ⟨thread, rfl, ?_⟩
      unfold tableStep at step
      dsimp only at step
      split at step
      case isFalse => cases step
      case isTrue quiet =>
        refine ⟨quiet, ?_⟩
        split at step
        · rename_i x head
          cases step
          exact .inl ⟨x, head, rfl⟩
        · rename_i none
          cases step
          exact .inr ⟨none, rfl⟩
  | commit thread =>
      refine .inr (.inl ?_)
      unfold tableStep at step
      dsimp only at step
      split at step
      · cases step
      · rename_i x read
        refine ⟨thread, x, rfl, read, ?_⟩
        split at step
        case isTrue busy =>
          cases step
          exact .inl ⟨busy, rfl⟩
        case isFalse free =>
          cases step
          exact .inr ⟨free, rfl⟩
  | release i =>
      refine .inr (.inr ⟨i, rfl, ?_⟩)
      unfold tableStep at step
      dsimp only at step
      split at step
      case isTrue held =>
        cases step
        exact ⟨held, rfl⟩
      case isFalse => cases step

/-- A thread has read another head, or none. -/
theorem Table.Sound.setRead (sound : s.Sound maxTasks) (thread : ℕ) {read : Option ℕ}
    (inside : ∀ x, read = some x → x < maxTasks) :
    { s with read := Function.update s.read thread read }.Sound maxTasks where
  held_nodup := sound.held_nodup
  held_lt := sound.held_lt
  busy_iff := sound.busy_iff
  head_not_busy := sound.head_not_busy
  head_lt := sound.head_lt
  next_lt := sound.next_lt
  read_lt other x eq := by
    dsimp only at eq
    by_cases same : other = thread
    · subst same
      rw [Function.update_self] at eq
      exact inside x eq
    · rw [Function.update_of_ne same] at eq
      exact sound.read_lt other x eq

theorem Table.Sound.take (sound : s.Sound maxTasks) {x : ℕ} (inside : x < maxTasks)
    (free : s.free x ≠ .busy) :
    { s with
      free := Function.update s.free x .busy, firstFree := s.free x, held := x :: s.held }.Sound
      maxTasks where
  held_nodup := List.nodup_cons.mpr ⟨free ∘ (sound.busy_iff x).mpr, sound.held_nodup⟩
  held_lt := List.forall_mem_cons.mpr ⟨inside, sound.held_lt⟩
  busy_iff y := by
    dsimp only
    by_cases same : y = x
    · subst same
      exact iff_of_true (Function.update_self ..) List.mem_cons_self
    · rw [Function.update_of_ne same, sound.busy_iff, List.mem_cons, or_iff_right same]
  head_not_busy := free
  head_lt y := sound.next_lt x y inside
  next_lt z y inside' next := by
    dsimp only at next
    by_cases same : z = x
    · subst same
      rw [Function.update_self] at next
      cases next
    · rw [Function.update_of_ne same] at next
      exact sound.next_lt z y inside' next
  read_lt := sound.read_lt

theorem Table.Sound.release (sound : s.Sound maxTasks) {i : ℕ} (held : i ∈ s.held) :
    { s with
      free := Function.update s.free i s.firstFree, firstFree := .next i
      held := s.held.erase i }.Sound maxTasks where
  held_nodup := sound.held_nodup.erase i
  held_lt x mem := sound.held_lt x (List.mem_of_mem_erase mem)
  busy_iff y := by
    dsimp only
    rw [sound.held_nodup.mem_erase_iff]
    by_cases same : y = i
    · subst same
      refine iff_of_false ?_ (fun given => given.1 rfl)
      rw [Function.update_self]
      exact sound.head_not_busy
    · rw [Function.update_of_ne same, sound.busy_iff, and_iff_right same]
  head_not_busy := by simp
  head_lt y head := by
    cases head
    exact sound.held_lt i held
  next_lt z y inside next := by
    dsimp only at next
    by_cases same : z = i
    · subst same
      rw [Function.update_self] at next
      exact sound.head_lt y next
    · rw [Function.update_of_ne same] at next
      exact sound.next_lt z y inside next
  read_lt := sound.read_lt

/-- **One step.** -/
theorem Table.Sound.step (sound : s.Sound maxTasks) (step : tableStep s move = some s') :
    s'.Sound maxTasks := by
  rcases tableStep_cases step with ⟨thread, -, -, ⟨x, head, rfl⟩ | ⟨-, rfl⟩⟩ |
    ⟨thread, x, -, read, ⟨-, rfl⟩ | ⟨free, rfl⟩⟩ | ⟨i, -, held, rfl⟩
  · apply sound.setRead
    intro y eq
    cases eq
    exact sound.head_lt x head
  · exact sound
  · exact sound.setRead thread (fun y eq => by cases eq)
  · exact (sound.take (sound.read_lt thread x read) free).setRead thread (fun y eq => by cases eq)
  · exact sound.release held

theorem Table.Sound.run (sound : s.Sound maxTasks) (ran : tableRun moves s = some s') :
    s'.Sound maxTasks := by
  induction moves generalizing s with
  | nil =>
      cases ran
      exact sound
  | cons move moves ih =>
      rcases tableRun_cons.mp ran with ⟨mid, step, rest⟩
      exact ih (sound.step step) rest

end Exclusive

/-- Two threads allocate at the same time: the second finds the descriptor taken. -/
def racingMoves : List TableMove := [.read 0, .read 1, .commit 0]

section Lost

variable {maxTasks : ℕ} {s s' : Table} {move : TableMove} {moves : List TableMove}
  {a since lost : ℕ}

/-- The releases that fall between the two parts of an allocation, where `since` have been made
since the last first part. -/
def caught (since : ℕ) : List TableMove → Table → ℕ
  | [], _ => 0
  | move :: moves, s =>
    match tableStep s move with
    | none => 0
    | some s' =>
      match move with
      | .read _ => caught 0 moves s'
      | .release _ => caught (since + 1) moves s'
      | .commit _ => since + caught 0 moves s'

/-- The list of free descriptors where only thread `a` allocates, and `lost` are neither in it nor
held. What the thread has read is in the list, behind what has been released since. -/
structure Chained (maxTasks a since lost : ℕ) (s : Table) (free : List ℕ) : Prop where
  linked : Linked Link.next Link.noMore s.free s.firstFree free
  nodup : free.Nodup
  apart : ∀ x ∈ free, x ∉ s.held
  count : free.length + s.held.length + lost = maxTasks
  read : ∀ x, s.read a = some x → ∃ before after, free = before ++ x :: after ∧
    before.length = since
  others : ∀ thread, thread ≠ a → s.read thread = none

theorem linked_init (maxTasks : ℕ) {n k : ℕ} (total : k + n = maxTasks) :
    Linked Link.next Link.noMore (Table.init maxTasks).free
      (if k = maxTasks then .noMore else .next k) (List.range' k n) := by
  induction n generalizing k with
  | zero =>
      rw [if_pos (by omega)]
      exact .stop
  | succ n ih =>
      rw [if_neg (by omega), List.range'_succ]
      exact .next (ih (by omega))

theorem Chained.init (positive : 0 < maxTasks) (a : ℕ) :
    Chained maxTasks a 0 0 (.init maxTasks) (List.range' 0 maxTasks) where
  linked := by
    have linked := linked_init maxTasks (Nat.zero_add maxTasks)
    rwa [if_neg (by omega)] at linked
  nodup := List.nodup_range'
  apart _ _ := List.not_mem_nil
  count := by simp [Table.init]
  read x read := by cases read
  others _ _ := rfl

theorem next_ne_noMore (x : ℕ) : Link.next x ≠ .noMore := by simp

theorem next_injective : Function.Injective Link.next := by
  intro x y eq
  cases eq
  rfl

/-- **One step.** A release makes the list longer; the end of an allocation takes out what was read
with all that was released since. -/
theorem Chained.step {free : List ℕ} (sound : s.Sound maxTasks)
    (chained : Chained maxTasks a since lost s free) (step : tableStep s move = some s')
    (own : ∀ thread, move = .read thread → thread = a) :
    ∃ free', match move with
      | .read _ => Chained maxTasks a 0 lost s' free'
      | .release _ => Chained maxTasks a (since + 1) lost s' free'
      | .commit _ => Chained maxTasks a 0 (lost + since) s' free' := by
  rcases tableStep_cases step with ⟨thread, rfl, quiet, ⟨x, head, rfl⟩ | ⟨-, rfl⟩⟩ |
    ⟨thread, x, rfl, read, found⟩ | ⟨i, rfl, held, rfl⟩
  · -- the head is read
    obtain rfl := own thread rfl
    refine ⟨free, chained.linked, chained.nodup, chained.apart, chained.count, ?_, ?_⟩
    · intro y eq
      dsimp only at eq
      rw [Function.update_self] at eq
      cases eq
      obtain ⟨rest, eq⟩ := (head ▸ chained.linked).head_mem next_ne_noMore next_injective
      exact ⟨[], rest, eq, rfl⟩
    · intro other differs
      dsimp only
      rw [Function.update_of_ne differs]
      exact chained.others other differs
  · obtain rfl := own thread rfl
    refine ⟨free, chained.linked, chained.nodup, chained.apart, chained.count, ?_, chained.others⟩
    intro y eq
    rw [quiet] at eq
    cases eq
  · have same : thread = a := by
      by_contra differs
      rw [chained.others thread differs] at read
      cases read
    subst same
    obtain ⟨before, after, rfl, length⟩ := chained.read x read
    have not_held := chained.apart x (List.mem_append_right _ List.mem_cons_self)
    rcases found with ⟨busy, -⟩ | ⟨-, rfl⟩
    · exact absurd ((sound.busy_iff x).mp busy) not_held
    · have nodup_after := List.nodup_cons.mp (List.nodup_append.mp chained.nodup).2.1
      refine ⟨after, chained.linked.take chained.nodup .busy, nodup_after.2, ?_, ?_, ?_, ?_⟩
      · intro y mem
        refine List.not_mem_cons_of_ne_of_not_mem ?_ ?_
        · intro eq
          rw [eq] at mem
          exact nodup_after.1 mem
        · exact chained.apart y (List.mem_append_right _ (List.mem_cons_of_mem _ mem))
      · have count := chained.count
        rw [List.length_append, List.length_cons] at count
        dsimp only
        rw [List.length_cons]
        omega
      · intro y eq
        dsimp only at eq
        rw [Function.update_self] at eq
        cases eq
      · intro other differs
        dsimp only
        rw [Function.update_of_ne differs]
        exact chained.others other differs
  · have outside : i ∉ free := fun mem => chained.apart i mem held
    refine ⟨i :: free, chained.linked.push outside, List.nodup_cons.mpr ⟨outside, chained.nodup⟩,
      ?_, ?_, ?_, chained.others⟩
    · intro y mem
      dsimp only
      rw [sound.held_nodup.mem_erase_iff]
      rcases List.mem_cons.mp mem with eq | later
      · exact fun given => given.1 eq
      · exact fun given => chained.apart y later given.2
    · have count := chained.count
      have positive := List.length_pos_of_mem held
      dsimp only
      rw [List.length_cons, List.length_erase_of_mem held]
      omega
    · intro y eq
      obtain ⟨before, after, split, length⟩ := chained.read y eq
      refine ⟨i :: before, after, ?_, ?_⟩
      · rw [split, List.cons_append]
      · rw [List.length_cons, length]

theorem Chained.run {free : List ℕ} (sound : s.Sound maxTasks)
    (chained : Chained maxTasks a since lost s free) (ran : tableRun moves s = some s')
    (own : ∀ thread, .read thread ∈ moves → thread = a) :
    ∃ since' free', Chained maxTasks a since' (lost + caught since moves s) s' free' := by
  induction moves generalizing s since lost free with
  | nil =>
      cases ran
      exact ⟨since, free, chained⟩
  | cons move moves ih =>
      rcases tableRun_cons.mp ran with ⟨mid, step, rest⟩
      have first : ∀ thread, move = .read thread → thread = a := by
        intro thread eq
        exact own thread (eq ▸ List.mem_cons_self)
      have later : ∀ thread, .read thread ∈ moves → thread = a := by
        intro thread mem
        exact own thread (List.mem_cons_of_mem _ mem)
      obtain ⟨free', next⟩ := chained.step sound step first
      rw [caught, step]
      cases move with
      | read thread => exact ih (sound.step step) next rest later
      | release i => exact ih (sound.step step) next rest later
      | commit thread =>
          have moved := ih (sound.step step) next rest later
          rwa [Nat.add_assoc] at moved

/-- A task ends between the two parts of an allocation: one of three descriptors is lost. -/
def crossingMoves : List TableMove :=
  [.read 0, .commit 0, .read 0, .release 0, .commit 0, .read 0, .commit 0]

end Lost

end Hipert.Ptask
