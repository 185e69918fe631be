import Hipert.Amalthea.Load
import Hipert.Lib.MachineInt
import Mathlib.Algebra.BigOperators.Group.List.Basic
import Mathlib.Algebra.Order.Ring.Int

/-!
# Private and shared labels

The label loop of `private_and_shared_labels` of `main.java`. For each label it lists the cores of
the tasks whose runnables access it, one entry for each accessing runnable and task, and counts the
label for its cores. A private label is counted once, a shared one once for each entry, so the counts
of the shared labels are right when no core stands twice in the list of a shared label. The counters
are Java's `int`, so the sums of the sizes have to fit as well.
-/

namespace Hipert.Amalthea

/-! ## The label loop -/

/-- `nLabels` -/
def nLabels : ℕ := 10000

/-- `"Label_"+z` -/
def labelName (z : ℕ) : Text := "Label_".toList ++ intText z

/-- The core names of the list `cores`. -/
def coreNames : List Text := ["CORE0".toList, "CORE1".toList, "CORE2".toList, "CORE3".toList]

/-- A label with its size and the list `coreLabel` of the cores that access it. -/
structure LabelUse where
  name : Text
  size : ℤ
  cores : List Text
  deriving DecidableEq, Repr

namespace LabelUse

/-- The loop that sets `isShared`: an entry other than the first one. -/
def isShared (u : LabelUse) : Bool :=
  match u.cores with
  | [] => false
  | first :: rest => rest.any (· ≠ first)

/-- What a shared label does to the cores for the entry `name` of `coreLabel`. -/
def share (u : LabelUse) (cores : List ModelCore) (name : Text) : List ModelCore :=
  cores.map fun c =>
    if c.name = name then
      { c with
        nSharedLabels := c.nSharedLabels + 1
        sizeSharedLabels := c.sizeSharedLabels + Int32.ofInt u.size
        labels := c.labels ++ [u.name] }
    else c

/-- What a private label does to the cores. -/
def keep (u : LabelUse) (cores : List ModelCore) : List ModelCore :=
  cores.map fun c =>
    if some c.name = u.cores.head? then
      { c with
        nPrivateLabels := c.nPrivateLabels + 1
        sizePrivateLabels := c.sizePrivateLabels + Int32.ofInt u.size
        labels := c.labels ++ [u.name] }
    else c

end LabelUse

/-- The branches on `coreLabel`, on the cores and `nShared`. -/
def countLabel (s : List ModelCore × Int32) (u : LabelUse) : List ModelCore × Int32 :=
  if 1 < u.cores.length then
    if u.isShared then (u.cores.foldl u.share s.1, s.2 + 1) else (u.keep s.1, s.2)
  else if u.cores.length = 1 then (u.keep s.1, s.2)
  else s

section Loop

variable (J : JavaLang ℚ) (d : Document)

/-- The list `coreLabel` of a label. -/
def coreLabelOf (label : Text) : Option (List Text) :=
  (d.runnablesOn (label ++ "?type=sw.Label".toList)).foldlM (fun coreLabel runnable => do
    let runnableName := (← nodeValue runnable) ++ "?type=sw.Runnable".toList
    (d.tasksCalling runnableName).foldlM (fun coreLabel task => do
      let taskName ← nodeValue task
      let core ← coreOfTask d taskName
      some (coreLabel ++ [replaceText "?type=hw.Core".toList [] core])) coreLabel) []

/-- The label loop of `private_and_shared_labels`, from the value of the static `nShared`. -/
def privateAndSharedLabels (nShared : Int32) : Option (List ModelCore × Int32) :=
  (List.range nLabels).foldlM (fun s z => do
    let coreLabel ← coreLabelOf d (labelName z)
    let labelSize ← sizeOfLabel J d (labelName z)
    some (countLabel s ⟨labelName z, labelSize, coreLabel⟩)) (coreNames.map ModelCore.new, nShared)

/-! ## What the loop should count -/

/-- The accesses to a label: a runnable with an item on it, and a task that calls the runnable. -/
def Document.accessors (label : Text) : List (Text × Text) :=
  (d.runnablesOn (label ++ "?type=sw.Label".toList)).flatMap fun runnable =>
    (d.tasksCalling (runnable ++ "?type=sw.Runnable".toList)).map fun task => (runnable, task)

/-- The name of the core of a task. -/
def coreNameOf (task : Text) : Text :=
  replaceText "?type=hw.Core".toList [] ((coreOfTask d task).getD [])

/-- A label with its size and the cores of the accesses to it. -/
def useOf (label : Text) : LabelUse where
  name := label
  size := (sizeOfLabel J d label).getD 0
  cores := (d.accessors label).map fun access => coreNameOf d access.2

/-- All labels. -/
def uses : List LabelUse := (List.range nLabels).map fun z => useOf J d (labelName z)

end Loop

namespace LabelUse

/-- The label is accessed from the core `name` only. -/
def PrivateTo (u : LabelUse) (name : Text) : Prop := name ∈ u.cores ∧ ∀ c ∈ u.cores, c = name

/-- The label is accessed from the core `name` and from another one. -/
def SharedBy (u : LabelUse) (name : Text) : Prop := name ∈ u.cores ∧ ∃ c ∈ u.cores, c ≠ name

/-- The label is accessed from at least two cores. -/
def Shared (u : LabelUse) : Prop := ∃ a ∈ u.cores, ∃ b ∈ u.cores, a ≠ b

instance (u : LabelUse) (name : Text) : Decidable (u.PrivateTo name) :=
  inferInstanceAs (Decidable (_ ∧ _))

instance (u : LabelUse) (name : Text) : Decidable (u.SharedBy name) :=
  inferInstanceAs (Decidable (_ ∧ _))

instance (u : LabelUse) : Decidable u.Shared := inferInstanceAs (Decidable (∃ _ ∈ _, _))

end LabelUse

/-- The sum of the sizes of some labels. -/
def totalSize (us : List LabelUse) : ℤ := (us.map (·.size)).sum

/-- A core has each of its labels once, and counts and sizes of its private and shared ones. -/
structure ModelCore.Partitioned (c : ModelCore) (us : List LabelUse) : Prop where
  nPrivate : c.nPrivateLabels.toInt = us.countP (·.PrivateTo c.name)
  nShared : c.nSharedLabels.toInt = us.countP (·.SharedBy c.name)
  sizePrivate : c.sizePrivateLabels.toInt = totalSize (us.filter (·.PrivateTo c.name))
  sizeShared : c.sizeSharedLabels.toInt = totalSize (us.filter (·.SharedBy c.name))
  labels : c.labels.Perm ((us.filter (c.name ∈ ·.cores)).map (·.name))

/-! ## What the loop counts -/

namespace LabelUse

variable {u : LabelUse} {name : Text}

theorem isShared_iff : u.isShared = true ↔ u.Shared := by
  unfold isShared Shared
  cases u.cores with
  | nil => simp
  | cons first rest =>
      simp only [List.any_eq_true, decide_eq_true_eq]
      refine ⟨?_, ?_⟩
      · intro given
        rcases given with ⟨other, mem, ne⟩
        exact ⟨other, List.mem_cons_of_mem _ mem, first, List.mem_cons_self, ne⟩
      · intro given
        rcases given with ⟨a, mem_a, b, mem_b, ne⟩
        by_cases same : a = first
        · rcases List.mem_cons.mp mem_b with eq | later
          · exact absurd (same.trans eq.symm) ne
          · exact ⟨b, later, fun eq => ne (same.trans eq.symm)⟩
        · rcases List.mem_cons.mp mem_a with eq | later
          · exact absurd eq same
          · exact ⟨a, later, same⟩

/-- A label that is not shared is private to the core of its first entry. -/
theorem head?_eq_iff (single : ¬ u.Shared) : u.cores.head? = some name ↔ u.PrivateTo name := by
  unfold PrivateTo
  refine ⟨?_, ?_⟩
  · intro head
    have mem := List.mem_of_mem_head? head
    exact ⟨mem, fun c here => by_contra fun ne => single ⟨c, here, name, mem, ne⟩⟩
  · intro given
    rcases given with ⟨mem, only⟩
    obtain ⟨first, rest, eq⟩ := List.exists_cons_of_ne_nil (List.ne_nil_of_mem mem)
    rw [eq] at only ⊢
    rw [only first List.mem_cons_self]
    rfl

theorem not_shared_of_privateTo (alone : u.PrivateTo name) : ¬ u.Shared := by
  intro given
  rcases given with ⟨a, mem_a, b, mem_b, ne⟩
  exact ne ((alone.2 a mem_a).trans (alone.2 b mem_b).symm)

theorem shared_iff_of_mem (mem : name ∈ u.cores) : u.Shared ↔ u.SharedBy name := by
  refine ⟨?_, ?_⟩
  · intro given
    rcases given with ⟨a, mem_a, b, mem_b, ne⟩
    by_cases same : a = name
    · exact ⟨mem, b, mem_b, fun eq => ne (same.trans eq.symm)⟩
    · exact ⟨mem, a, mem_a, same⟩
  · intro given
    rcases given with ⟨-, c, here, ne⟩
    exact ⟨c, here, name, mem, ne⟩

/-- How often the label is counted as private for a core. -/
def privateEntries (u : LabelUse) (name : Text) : ℕ := if u.PrivateTo name then 1 else 0

/-- How often the label is counted as shared for a core. -/
def sharedEntries (u : LabelUse) (name : Text) : ℕ := if u.Shared then u.cores.count name else 0

end LabelUse

namespace ModelCore

/-- The core after `k` private entries of the label. -/
def addPrivate (c : ModelCore) (u : LabelUse) (k : ℕ) : ModelCore :=
  { c with
    nPrivateLabels := c.nPrivateLabels + Int32.ofInt k
    sizePrivateLabels := c.sizePrivateLabels + Int32.ofInt (k * u.size)
    labels := c.labels ++ List.replicate k u.name }

/-- The core after `k` shared entries of the label. -/
def addShared (c : ModelCore) (u : LabelUse) (k : ℕ) : ModelCore :=
  { c with
    nSharedLabels := c.nSharedLabels + Int32.ofInt k
    sizeSharedLabels := c.sizeSharedLabels + Int32.ofInt (k * u.size)
    labels := c.labels ++ List.replicate k u.name }

variable (c : ModelCore) (u : LabelUse)

@[simp] theorem addPrivate_zero : c.addPrivate u 0 = c := by
  simp [addPrivate]

@[simp] theorem addShared_zero : c.addShared u 0 = c := by
  simp [addShared]

@[simp] theorem addShared_name (k : ℕ) : (c.addShared u k).name = c.name := rfl

theorem addShared_addShared (j k : ℕ) :
    (c.addShared u j).addShared u k = c.addShared u (j + k) := by
  simp only [addShared, add_ofInt_add_ofInt, List.append_assoc, List.replicate_append_replicate,
    Nat.cast_add, add_mul]

/-- The core after the label has been counted for it. -/
def countUse : ModelCore :=
  (c.addPrivate u (u.privateEntries c.name)).addShared u (u.sharedEntries c.name)

@[simp] theorem countUse_name : (c.countUse u).name = c.name := rfl

end ModelCore

theorem share_eq (u : LabelUse) (cores : List ModelCore) (name : Text) :
    u.share cores name = cores.map fun c => c.addShared u (if c.name = name then 1 else 0) := by
  apply List.map_congr_left
  intro c _
  split
  · simp [ModelCore.addShared]
  · rw [ModelCore.addShared_zero]

theorem keep_eq (u : LabelUse) (cores : List ModelCore) :
    u.keep cores = cores.map fun c =>
      c.addPrivate u (if some c.name = u.cores.head? then 1 else 0) := by
  apply List.map_congr_left
  intro c _
  split
  · simp [ModelCore.addPrivate]
  · rw [ModelCore.addPrivate_zero]

/-- The loop over the entries of a shared label. -/
theorem foldl_share (u : LabelUse) (names : List Text) (cores : List ModelCore) :
    names.foldl u.share cores = cores.map fun c => c.addShared u (names.count c.name) := by
  induction names generalizing cores with
  | nil => simp
  | cons name names ih =>
      rw [List.foldl_cons, ih, share_eq, List.map_map]
      apply List.map_congr_left
      intro c _
      rw [Function.comp_apply, ModelCore.addShared_name, ModelCore.addShared_addShared]
      by_cases here : c.name = name
      · rw [if_pos here, here, List.count_cons_self, add_comm]
      · rw [if_neg here, List.count_cons_of_ne (Ne.symm here), zero_add]

/-- **Step lemma.** One round counts the label for each core. -/
theorem countLabel_eq (s : List ModelCore × Int32) (u : LabelUse) :
    countLabel s u =
      (s.1.map (·.countUse u), s.2 + Int32.ofInt (if u.Shared then 1 else 0 : ℕ)) := by
  by_cases shared : u.Shared
  · have several : 1 < u.cores.length := by
      obtain ⟨a, mem_a, b, mem_b, ne⟩ := shared
      rcases eq : u.cores with - | ⟨first, - | ⟨second, rest⟩⟩
      · simp [eq] at mem_a
      · simp only [eq, List.mem_singleton] at mem_a mem_b
        exact absurd (mem_a.trans mem_b.symm) ne
      · simp
    rw [countLabel, if_pos several, if_pos (LabelUse.isShared_iff.mpr shared), foldl_share,
      if_pos shared]
    have alone : ∀ name, u.privateEntries name = 0 := fun name =>
      if_neg fun alone => LabelUse.not_shared_of_privateTo alone shared
    simp [ModelCore.countUse, LabelUse.sharedEntries, shared, alone]
  · have none : ∀ name, u.sharedEntries name = 0 := fun name => if_neg shared
    have kept : u.keep s.1 = s.1.map (·.countUse u) := by
      rw [keep_eq]
      apply List.map_congr_left
      intro c _
      simp only [ModelCore.countUse, none, ModelCore.addShared_zero, LabelUse.privateEntries,
        eq_comm (a := some c.name), LabelUse.head?_eq_iff shared]
    have same : s.2 + Int32.ofInt (0 : ℕ) = s.2 := by simp
    rw [countLabel, if_neg shared, same, if_neg (mt LabelUse.isShared_iff.mp shared), ← kept]
    split
    · rfl
    · split
      · rfl
      · have empty : u.cores = [] := List.eq_nil_of_length_eq_zero (by omega)
        simp [LabelUse.keep, empty]

/-- **Run lemma.** The loop counts every label for each core. -/
theorem foldl_countLabel (us : List LabelUse) (cores : List ModelCore) (n : Int32) :
    us.foldl countLabel (cores, n) =
      (cores.map fun c => us.foldl ModelCore.countUse c,
        n + Int32.ofInt (us.countP (·.Shared) : ℕ)) := by
  induction us generalizing cores n with
  | nil => simp
  | cons u us ih =>
      rw [List.foldl_cons, countLabel_eq, ih, List.map_map, add_ofInt_add_ofInt, List.countP_cons,
        ← Nat.cast_add, Nat.add_comm (us.countP _)]
      simp only [decide_eq_true_eq]
      rfl

theorem foldl_countUse (us : List LabelUse) (c : ModelCore) :
    us.foldl ModelCore.countUse c =
      { c with
        nPrivateLabels :=
          c.nPrivateLabels + Int32.ofInt (us.map fun u => (u.privateEntries c.name : ℤ)).sum
        sizePrivateLabels :=
          c.sizePrivateLabels +
            Int32.ofInt (us.map fun u => (u.privateEntries c.name : ℤ) * u.size).sum
        nSharedLabels :=
          c.nSharedLabels + Int32.ofInt (us.map fun u => (u.sharedEntries c.name : ℤ)).sum
        sizeSharedLabels :=
          c.sizeSharedLabels +
            Int32.ofInt (us.map fun u => (u.sharedEntries c.name : ℤ) * u.size).sum
        labels := c.labels ++ us.flatMap fun u =>
          List.replicate (u.privateEntries c.name + u.sharedEntries c.name) u.name } := by
  induction us generalizing c with
  | nil => simp
  | cons u us ih =>
      rw [List.foldl_cons, ih, ModelCore.countUse_name]
      simp only [ModelCore.countUse, ModelCore.addPrivate, ModelCore.addShared, List.map_cons,
        List.sum_cons, add_ofInt_add_ofInt, List.flatMap_cons, List.append_assoc]
      rw [← List.append_assoc (List.replicate _ u.name), List.replicate_append_replicate]

theorem name_foldl_countUse (us : List LabelUse) (c : ModelCore) :
    (us.foldl ModelCore.countUse c).name = c.name := by
  rw [foldl_countUse]

/-! ## When the counts are right -/

/-- The number is in the range of an `int`. -/
def FitsInt (x : ℤ) : Prop := -2 ^ 31 ≤ x ∧ x < 2 ^ 31

theorem fitsInt_toInt (x : Int32) : FitsInt x.toInt := ⟨x.le_toInt, x.toInt_lt⟩

/-- A sum over the labels with a property. -/
theorem sum_entries (p : LabelUse → Prop) [DecidablePred p] (us : List LabelUse) :
    (us.map fun u => ((if p u then 1 else 0 : ℕ) : ℤ) * u.size).sum =
      totalSize (us.filter p) := by
  induction us with
  | nil => rfl
  | cons u us ih =>
      rw [List.map_cons, List.sum_cons, ih, List.filter_cons]
      by_cases here : p u
      · simp [here, totalSize]
      · simp [here]

theorem count_entries (p : LabelUse → Prop) [DecidablePred p] (us : List LabelUse) :
    (us.map fun u => ((if p u then 1 else 0 : ℕ) : ℤ)).sum = us.countP p := by
  induction us with
  | nil => rfl
  | cons u us ih =>
      rw [List.map_cons, List.sum_cons, ih, List.countP_cons]
      by_cases here : p u
      · simp [here, add_comm]
      · simp [here]

section Partition

variable {us : List LabelUse} {name : Text}

/-- Where the core stands once in the list of each shared label, a shared label has one entry. -/
theorem sharedEntries_eq {u : LabelUse} (once : u.Shared → u.cores.count name ≤ 1) :
    u.sharedEntries name = if u.SharedBy name then 1 else 0 := by
  by_cases mem : name ∈ u.cores
  · rw [LabelUse.sharedEntries]
    simp only [← LabelUse.shared_iff_of_mem mem]
    split
    next shared => exact le_antisymm (once shared) (List.count_pos_iff.mpr mem)
    next => rfl
  · have other : ¬ u.SharedBy name := fun by_name => mem by_name.1
    rw [if_neg other, LabelUse.sharedEntries, List.count_eq_zero_of_not_mem mem, ite_self]

theorem entries_eq {u : LabelUse} (once : u.Shared → u.cores.count name ≤ 1) :
    u.privateEntries name + u.sharedEntries name = if name ∈ u.cores then 1 else 0 := by
  rw [sharedEntries_eq once, LabelUse.privateEntries]
  by_cases mem : name ∈ u.cores
  · by_cases shared : u.Shared
    · have alone : ¬ u.PrivateTo name := fun alone => LabelUse.not_shared_of_privateTo alone shared
      rw [if_neg alone, if_pos ((LabelUse.shared_iff_of_mem mem).mp shared), if_pos mem]
    · have alone : u.PrivateTo name :=
        ⟨mem, fun c here => by_contra fun ne => shared ⟨c, here, name, mem, ne⟩⟩
      rw [if_pos alone, if_neg (mt (LabelUse.shared_iff_of_mem mem).mpr shared), if_pos mem]
  · have alone : ¬ u.PrivateTo name := fun alone => mem alone.1
    have other : ¬ u.SharedBy name := fun by_name => mem by_name.1
    rw [if_neg alone, if_neg other, if_neg mem]

/-- The labels of a core, where it stands once in the list of each shared label. -/
theorem flatMap_entries (once : ∀ u ∈ us, u.Shared → u.cores.count name ≤ 1) :
    (us.flatMap fun u => List.replicate (u.privateEntries name + u.sharedEntries name) u.name) =
      (us.filter (name ∈ ·.cores)).map (·.name) := by
  induction us with
  | nil => rfl
  | cons u us ih =>
      rw [List.flatMap_cons, ih fun v mem => once v (List.mem_cons_of_mem _ mem),
        entries_eq (once u List.mem_cons_self), List.filter_cons]
      by_cases mem : name ∈ u.cores
      · simp [mem]
      · simp [mem]

/-- **Partition of one core.** -/
theorem partitioned_iff (distinct : (us.map (·.name)).Nodup) (few : us.length < 2 ^ 31) :
    (us.foldl ModelCore.countUse (ModelCore.new name)).Partitioned us ↔
      (∀ u ∈ us, u.Shared → u.cores.count name ≤ 1) ∧
        FitsInt (totalSize (us.filter (·.PrivateTo name))) ∧
        FitsInt (totalSize (us.filter (·.SharedBy name))) := by
  rw [foldl_countUse]
  refine ⟨?_, ?_⟩
  · intro part
    refine ⟨?_, ?_, ?_⟩
    · have sub : ((us.filter (name ∈ ·.cores)).map (·.name)).Sublist (us.map (·.name)) :=
        List.filter_sublist.map _
      have nodup := part.labels.nodup_iff.mpr (distinct.sublist sub)
      rw [ModelCore.new, List.nil_append, List.nodup_flatMap] at nodup
      intro u mem shared
      have single : u.privateEntries name + u.sharedEntries name ≤ 1 :=
        List.nodup_replicate.mp (nodup.1 u mem)
      rw [LabelUse.sharedEntries, if_pos shared] at single
      omega
    · exact part.sizePrivate ▸ fitsInt_toInt _
    · exact part.sizeShared ▸ fitsInt_toInt _
  · intro given
    rcases given with ⟨once, fits_private, fits_shared⟩
    have alone : ∀ u ∈ us, u.privateEntries name = if u.PrivateTo name then 1 else 0 :=
      fun u _ => rfl
    have shared : ∀ u ∈ us, u.sharedEntries name = if u.SharedBy name then 1 else 0 :=
      fun u mem => sharedEntries_eq (once u mem)
    have counts : ∀ p : LabelUse → Bool, FitsInt (us.countP p) := by
      intro p
      have le := List.countP_le_length (p := p) (l := us)
      constructor <;> omega
    constructor
    · simp only [ModelCore.new, Int32.zero_add]
      rw [List.map_congr_left fun u mem => congrArg Nat.cast (alone u mem), count_entries]
      exact toInt_ofInt_eq_iff.mpr (counts _)
    · simp only [ModelCore.new, Int32.zero_add]
      rw [List.map_congr_left fun u mem => congrArg Nat.cast (shared u mem), count_entries]
      exact toInt_ofInt_eq_iff.mpr (counts _)
    · simp only [ModelCore.new, Int32.zero_add]
      rw [List.map_congr_left fun u mem => congrArg (fun n : ℕ => (n : ℤ) * u.size) (alone u mem),
        sum_entries]
      exact toInt_ofInt_eq_iff.mpr fits_private
    · simp only [ModelCore.new, Int32.zero_add]
      rw [List.map_congr_left fun u mem => congrArg (fun n : ℕ => (n : ℤ) * u.size) (shared u mem),
        sum_entries]
      exact toInt_ofInt_eq_iff.mpr fits_shared
    · simp only [ModelCore.new, List.nil_append, flatMap_entries once]
      exact List.Perm.refl _

end Partition

/-! ## The whole loop -/

section Run

variable {J : JavaLang ℚ} {d : Document}

theorem coreLabelOf_eq {label : Text} {coreLabel : List Text}
    (ends : coreLabelOf d label = some coreLabel) : coreLabel = (useOf J d label).cores := by
  have appended := foldlM_append
    (g := fun runnable => (d.tasksCalling (runnable ++ "?type=sw.Runnable".toList)).map
      (coreNameOf d)) ?_ ends
  · rw [appended, useOf, Document.accessors, List.map_flatMap, List.nil_append]
    simp only [List.map_map, Function.comp_def]
  · intro s runnable s' _ round
    obtain ⟨name, value, inner⟩ := Option.bind_eq_some_iff.mp round
    rw [nodeValue_eq value] at inner
    have tasks := foldlM_append (g := fun task => [coreNameOf d task]) ?_ inner
    · rw [tasks, ← List.map_eq_flatMap]
    · intro s task s' _ round
      obtain ⟨name, value, rest⟩ := Option.bind_eq_some_iff.mp round
      obtain ⟨core, found, last⟩ := Option.bind_eq_some_iff.mp rest
      rw [← Option.some.inj last, coreNameOf, ← nodeValue_eq value, found]
      rfl

/-- The loop, where it ends, has counted all labels. -/
theorem privateAndSharedLabels_eq {nShared : Int32} {r : List ModelCore × Int32}
    (returned : privateAndSharedLabels J d nShared = some r) :
    r = (coreNames.map fun name => (uses J d).foldl ModelCore.countUse (ModelCore.new name),
      nShared + Int32.ofInt ((uses J d).countP (·.Shared) : ℕ)) := by
  have run := foldlM_eq_foldl (g := fun s z => countLabel s (useOf J d (labelName z))) ?_ returned
  · rw [run, uses]
    generalize List.range nLabels = labels
    have counted := foldl_countLabel (labels.map fun z => useOf J d (labelName z))
      (coreNames.map ModelCore.new) nShared
    rw [List.foldl_map, List.map_map] at counted
    exact counted
  · intro s z s' _ round
    obtain ⟨coreLabel, found, rest⟩ := Option.bind_eq_some_iff.mp round
    obtain ⟨size, value, last⟩ := Option.bind_eq_some_iff.mp rest
    rw [← Option.some.inj last, coreLabelOf_eq (J := J) found, useOf, value]
    rfl

theorem labelName_injective : Function.Injective labelName :=
  fun _ _ same => Int.ofNat_inj.mp (intText_injective (List.append_cancel_left same))

theorem nodup_uses (J : JavaLang ℚ) (d : Document) : ((uses J d).map (·.name)).Nodup := by
  rw [uses, List.map_map]
  exact List.nodup_range.map labelName_injective

theorem length_uses (J : JavaLang ℚ) (d : Document) : (uses J d).length < 2 ^ 31 := by
  rw [uses, List.length_map, List.length_range]
  decide

/-- **Private and shared labels.** The loop has counted each label once, for each of its cores,
exactly when no core accesses a shared label twice and the sizes fit. -/
theorem privateAndSharedLabels_iff {nShared nShared' : Int32} {cores : List ModelCore}
    (returned : privateAndSharedLabels J d nShared = some (cores, nShared'))
    (mapped : ∀ u ∈ uses J d, ∀ c ∈ u.cores, c ∈ coreNames) :
    cores.map (·.name) = coreNames ∧
      (((∀ c ∈ cores, c.Partitioned (uses J d)) ∧
          nShared' = nShared + Int32.ofInt ((uses J d).countP (·.Shared) : ℕ)) ↔
        (∀ u ∈ uses J d, u.Shared → u.cores.Nodup) ∧
          ∀ name ∈ coreNames, FitsInt (totalSize ((uses J d).filter (·.PrivateTo name))) ∧
            FitsInt (totalSize ((uses J d).filter (·.SharedBy name)))) := by
  rcases Prod.mk.inj (privateAndSharedLabels_eq returned) with ⟨rfl, rfl⟩
  have partitioned := fun name : Text =>
    @partitioned_iff _ name (nodup_uses J d) (length_uses J d)
  refine ⟨?_, ?_⟩
  · rw [List.map_map]
    apply List.map_id''
    exact fun name => name_foldl_countUse (uses J d) (ModelCore.new name)
  · simp only [List.forall_mem_map, partitioned, and_true]
    refine ⟨?_, ?_⟩
    · intro right
      refine ⟨fun u mem shared => List.nodup_iff_count_le_one.mpr fun name => ?_,
        fun name mem => (right name mem).2⟩
      by_cases core : name ∈ u.cores
      · exact (right name (mapped u mem name core)).1 u mem shared
      · rw [List.count_eq_zero_of_not_mem core]
        exact Nat.zero_le 1
    · intro given name mem
      rcases given with ⟨once, fits⟩
      exact ⟨fun u here shared => List.nodup_iff_count_le_one.mp (once u here shared) name,
        fits name mem⟩

end Run

/-! ## Two tasks of one core on a shared label -/

/-- A runnable on the first label that the given tasks call, each on its core. -/
def oneLabel (labels : List LabelElement) (tasks : List (Text × Text)) : Document where
  runnables :=
    [⟨some "R".toList, [⟨some (labelName 0 ++ "?type=sw.Label".toList), some "read".toList, []⟩]⟩]
  tasks := tasks.map fun t => ⟨some t.1, none, none, none, ["R?type=sw.Runnable".toList]⟩
  labels := labels
  processAllocations := tasks.map fun t => ⟨some (t.1 ++ "?type=sw.Task".toList), some t.2⟩
  coreAllocations := coreNames.map fun core => ⟨some core, some (core ++ "?type=hw.Core".toList)⟩

/-- The label `z`, of one byte. -/
def byteLabel (z : ℕ) : LabelElement := ⟨some (labelName z), ["8".toList]⟩

section OneLabel

variable {labels : List LabelElement} {tasks : List (Text × Text)} {z : ℕ}

theorem runnablesOn_oneLabel (other : z ≠ 0) :
    (oneLabel labels tasks).runnablesOn (labelName z ++ "?type=sw.Label".toList) = [] := by
  have differs : labelName 0 ≠ labelName z := fun same => other (labelName_injective same).symm
  simp [Document.runnablesOn, oneLabel, differs]

theorem cores_oneLabel (other : z ≠ 0) :
    (useOf rationalLang (oneLabel labels tasks) (labelName z)).cores = [] := by
  rw [useOf, Document.accessors, runnablesOn_oneLabel other]
  rfl

theorem coreLabelOf_oneLabel (other : z ≠ 0) :
    coreLabelOf (oneLabel labels tasks) (labelName z) = some [] := by
  rw [coreLabelOf, runnablesOn_oneLabel other]
  rfl

theorem sizeOfLabel_oneLabel (mem : byteLabel z ∈ labels)
    (bytes : ∀ l ∈ labels, ∃ z, l = byteLabel z) :
    sizeOfLabel rationalLang (oneLabel labels tasks) (labelName z) = some 8 := by
  have found : firstValue ((oneLabel labels tasks).sizes (labelName z)) = some "8".toList := by
    have here : byteLabel z ∈ labels.filter (·.name = some (labelName z)) :=
      List.mem_filter.mpr ⟨mem, by simp [byteLabel]⟩
    obtain ⟨first, rest, eq⟩ := List.exists_cons_of_ne_nil (List.ne_nil_of_mem here)
    have within : first ∈ labels := (List.mem_filter.mp (eq ▸ List.mem_cons_self)).1
    rcases bytes first within with ⟨_, rfl⟩
    rw [Document.sizes, oneLabel, eq]
    rfl
  rw [sizeOfLabel, found]
  decide +kernel

theorem privateAndSharedLabels_oneLabel {coreLabel : List Text} {nShared : Int32}
    (first : coreLabelOf (oneLabel labels tasks) (labelName 0) = some coreLabel)
    (mem : ∀ z < nLabels, byteLabel z ∈ labels) (bytes : ∀ l ∈ labels, ∃ z, l = byteLabel z) :
    ∃ r, privateAndSharedLabels rationalLang (oneLabel labels tasks) nShared = some r := by
  have ends : ∀ z, ∃ c, coreLabelOf (oneLabel labels tasks) (labelName z) = some c := by
    intro z
    by_cases zero : z = 0
    · exact ⟨coreLabel, zero ▸ first⟩
    · exact ⟨[], coreLabelOf_oneLabel zero⟩
  choose cores found using ends
  refine ⟨_, foldlM_eq_some (g := fun s z => countLabel s ⟨labelName z, 8, cores z⟩) ?_⟩
  intro s z here
  rw [found z, sizeOfLabel_oneLabel (mem z (List.mem_range.mp here)) bytes]
  rfl

theorem size_oneLabel (mem : ∀ z < nLabels, byteLabel z ∈ labels)
    (bytes : ∀ l ∈ labels, ∃ z, l = byteLabel z) {u : LabelUse}
    (here : u ∈ uses rationalLang (oneLabel labels tasks)) : u.size = 8 := by
  rcases List.mem_map.mp here with ⟨z, small, rfl⟩
  rw [useOf, sizeOfLabel_oneLabel (mem z (List.mem_range.mp small)) bytes]
  rfl

/-- The sizes of labels of one byte fit. -/
theorem fitsInt_totalSize {us : List LabelUse} (byte : ∀ u ∈ us, u.size = 8)
    (few : us.length ≤ nLabels) (p : LabelUse → Bool) : FitsInt (totalSize (us.filter p)) := by
  have sizes : (us.filter p).map (·.size) = List.replicate (us.filter p).length 8 :=
    List.map_eq_replicate_iff.mpr fun u mem => byte u (List.mem_of_mem_filter mem)
  have short := (List.length_filter_le p us).trans few
  rw [totalSize, sizes, List.sum_replicate, nLabels] at *
  constructor <;> simp <;> omega

/-- A condition on the cores of all labels is one on those of the first label. -/
theorem forall_uses_oneLabel {P : List Text → Prop} (none : P [])
    (first : P (useOf rationalLang (oneLabel labels tasks) (labelName 0)).cores) {u : LabelUse}
    (here : u ∈ uses rationalLang (oneLabel labels tasks)) : P u.cores := by
  rcases List.mem_map.mp here with ⟨z, -, rfl⟩
  by_cases zero : z = 0
  · exact zero ▸ first
  · rwa [cores_oneLabel zero]

end OneLabel

/-- All labels, of one byte each. -/
def byteLabels : List LabelElement := (List.range nLabels).map byteLabel

theorem mem_byteLabels (z : ℕ) (small : z < nLabels) : byteLabel z ∈ byteLabels :=
  List.mem_map.mpr ⟨z, List.mem_range.mpr small, rfl⟩

theorem exists_of_mem_byteLabels (l : LabelElement) (mem : l ∈ byteLabels) :
    ∃ z, l = byteLabel z := by
  obtain ⟨z, -, eq⟩ := List.mem_map.mp mem
  exact ⟨z, eq.symm⟩

/-- A label of two tasks on two cores. -/
def twoCores : Document :=
  oneLabel byteLabels [("TA".toList, "CORE0".toList), ("TB".toList, "CORE1".toList)]

/-- The same label, with a second task on the first core. -/
def threeTasks : Document :=
  oneLabel byteLabels [("TA".toList, "CORE0".toList), ("TB".toList, "CORE0".toList),
    ("TC".toList, "CORE1".toList)]

/-- One task on each of two cores: the counts are right. -/
theorem privateAndSharedLabels_iff_twoCores :
    ∃ cores nShared, privateAndSharedLabels rationalLang twoCores 0 = some (cores, nShared) ∧
      cores.map (·.name) = coreNames ∧ (∀ c ∈ cores, c.Partitioned (uses rationalLang twoCores)) ∧
      nShared = 0 + Int32.ofInt ((uses rationalLang twoCores).countP (·.Shared) : ℕ) := by
  have first : coreLabelOf twoCores (labelName 0) = some ["CORE0".toList, "CORE1".toList] := by
    decide +kernel
  obtain ⟨⟨cores, nShared⟩, returned⟩ :=
    privateAndSharedLabels_oneLabel first mem_byteLabels exists_of_mem_byteLabels
  have mapped : ∀ u ∈ uses rationalLang twoCores, ∀ c ∈ u.cores, c ∈ coreNames := fun u here =>
    forall_uses_oneLabel (P := fun cs => ∀ c ∈ cs, c ∈ coreNames) (by simp) (by decide +kernel) here
  obtain ⟨names, exact_iff⟩ := privateAndSharedLabels_iff returned mapped
  refine ⟨cores, nShared, returned, names, exact_iff.mpr ⟨?_, ?_⟩⟩
  · exact fun u here _ =>
      forall_uses_oneLabel (P := List.Nodup) List.nodup_nil (by decide +kernel) here
  · intro name _
    have few : (uses rationalLang twoCores).length ≤ nLabels := by
      rw [uses, List.length_map, List.length_range]
    have byte : ∀ u ∈ uses rationalLang twoCores, u.size = 8 := fun u here =>
      size_oneLabel mem_byteLabels exists_of_mem_byteLabels here
    exact ⟨fitsInt_totalSize byte few _, fitsInt_totalSize byte few _⟩

/-- Two tasks of one core: the label is counted twice for it. -/
theorem privateAndSharedLabels_counts_twice :
    ∃ cores nShared, privateAndSharedLabels rationalLang threeTasks 0 = some (cores, nShared) ∧
      (∀ u ∈ uses rationalLang threeTasks, ∀ c ∈ u.cores, c ∈ coreNames) ∧
      ¬ ∀ c ∈ cores, c.Partitioned (uses rationalLang threeTasks) := by
  have first : coreLabelOf threeTasks (labelName 0) =
      some ["CORE0".toList, "CORE0".toList, "CORE1".toList] := by
    decide +kernel
  obtain ⟨⟨cores, nShared⟩, returned⟩ :=
    privateAndSharedLabels_oneLabel first mem_byteLabels exists_of_mem_byteLabels
  refine ⟨cores, nShared, returned, ?_, ?_⟩
  · exact fun u here => forall_uses_oneLabel (P := fun cs => ∀ c ∈ cs, c ∈ coreNames)
      (by simp) (by decide +kernel) here
  · intro right
    have shared : (useOf rationalLang threeTasks (labelName 0)) ∈ uses rationalLang threeTasks :=
      List.mem_map.mpr ⟨0, List.mem_range.mpr (by decide), rfl⟩
    have core := right ((uses rationalLang threeTasks).foldl ModelCore.countUse
      (ModelCore.new "CORE0".toList)) ?_
    · have once := ((partitioned_iff (nodup_uses _ _) (length_uses _ _)).mp core).1 _ shared
      exact absurd once (by decide +kernel)
    · rw [(Prod.mk.inj (privateAndSharedLabels_eq returned)).1]
      exact List.mem_map.mpr ⟨_, List.mem_cons_self, rfl⟩

end Hipert.Amalthea
