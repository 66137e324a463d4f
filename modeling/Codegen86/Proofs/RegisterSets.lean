import Codegen86.Target.RegisterSet
import Mathlib.Order.Interval.Finset.Nat
/-!
# Register sets as finite sets

A register set is a mask of 128 bits, and stands for the finite set of the numbers whose bits are set.  Every
operation on masks does to that set what its name says (`Stands.apply`), whatever numbers it is given: those above
127 are never members.  So after any operations a mask answers as the finite set that they make (`operations_refine`):
the lowest bit that is set is its least member, and counting bits counts members.
-/

set_option autoImplicit false

namespace Codegen86.Target.RegisterSet

/-- What can be done to a set. -/
inductive Operation where
  | new
  | range (first last : Nat)
  | insert (i : Nat)
  | remove (i : Nat)
  | clear
  deriving DecidableEq, Repr

namespace Operation

/-- The register set after an operation. -/
def apply (s : RegisterSet) : Operation → RegisterSet
  | new => empty
  | range first last => .range first last
  | insert i => s.insert i
  | remove i => s.remove i
  | clear => s.clear

/-- The same operation on finite sets of numbers up to 127. -/
def onFinset (M : Finset Nat) : Operation → Finset Nat
  | new => ∅
  | range first last => .Icc first (min last 127)
  | insert i => if i ≤ 127 then Insert.insert i M else M
  | remove i => if i ≤ 127 then M.erase i else M
  | clear => ∅

end Operation

/-- The members of `s` are those of `M`. -/
def Stands (s : RegisterSet) (M : Finset Nat) : Prop := ∀ i, s.contains i = true ↔ i ∈ M

/-- `s` answers as the finite set `M` of numbers up to 127. -/
structure Represents (s : RegisterSet) (M : Finset Nat) : Prop where
  bounded : ∀ i ∈ M, i ≤ 127
  contains : ∀ i, s.contains i = true ↔ i ∈ M
  members : ∀ i, i ∈ s.toList ↔ i ∈ M
  ascending : s.toList.Pairwise (· < ·)
  first : ∀ i, s.first? = some i ↔ IsLeast (M : Set Nat) i
  none : s.first? = none ↔ M = ∅
  size : s.size = M.card
  isEmpty : s.isEmpty = true ↔ M = ∅

variable {s : RegisterSet} {M : Finset Nat}

/-! ## Operations -/

theorem stands_empty : Stands empty ∅ := by
  intro i
  simp

theorem Stands.apply (h : Stands s M) (op : Operation) : Stands (op.apply s) (op.onFinset M) := by
  intro i
  cases op with
  | new => simp [Operation.apply, Operation.onFinset]
  | range first last =>
    simp only [Operation.apply, Operation.onFinset, contains_range, Finset.mem_Icc, largest]
    omega
  | insert j =>
    have bounded : i ∈ M → i ≤ 127 := fun mem => contains_le ((h i).mpr mem)
    simp only [Operation.apply, Operation.onFinset, contains_insert, Bool.or_eq_true, Bool.and_eq_true,
      beq_iff_eq, h i, largest]
    split
    · rw [Finset.mem_insert]
      grind
    · grind
  | remove j =>
    have bounded : i ∈ M → i ≤ 127 := fun mem => contains_le ((h i).mpr mem)
    simp only [Operation.apply, Operation.onFinset, contains_remove, Bool.and_eq_true, bne_iff_ne, h i]
    split
    · rw [Finset.mem_erase, and_comm]
    · grind
  | clear => simp [Operation.apply, Operation.onFinset]

theorem Stands.operations (h : Stands s M) (ops : List Operation) :
    Stands (ops.foldl Operation.apply s) (ops.foldl Operation.onFinset M) := by
  induction ops generalizing s M with
  | nil => exact h
  | cons op rest ih => exact ih (h.apply op)

/-! ## Answers -/

theorem toList_ascending (s : RegisterSet) : s.toList.Pairwise (· < ·) :=
  List.pairwise_lt_range.filter _

theorem Stands.isEmpty (h : Stands s M) : s.isEmpty = true ↔ M = ∅ := by
  constructor
  · intro empty
    refine Finset.eq_empty_of_forall_notMem fun i mem => ?_
    have there := (h i).mpr mem
    rw [contains_of_isEmpty empty] at there
    cases there
  · intro none
    cases empty : s.isEmpty with
    | true => rfl
    | false =>
      obtain ⟨i, there⟩ := exists_of_not_isEmpty empty
      rw [h, none] at there
      exact absurd there (Finset.notMem_empty i)

theorem Stands.first (h : Stands s M) (i : Nat) : s.first? = some i ↔ IsLeast (M : Set Nat) i := by
  constructor
  · intro first
    exact ⟨(h i).mp (first?_eq_some first), fun j mem => le_of_first? first ((h j).mpr mem)⟩
  · intro least
    obtain ⟨j, first⟩ := Option.isSome_iff_exists.mp (first?_isSome ((h i).mpr least.1))
    have below : i ≤ j := least.2 ((h j).mp (first?_eq_some first))
    have above : j ≤ i := le_of_first? first ((h i).mpr least.1)
    rw [first, Nat.le_antisymm above below]

theorem Stands.none (h : Stands s M) : s.first? = none ↔ M = ∅ := by
  rw [← h.isEmpty]
  simp [first?, RegisterSet.isEmpty]

theorem Stands.size (h : Stands s M) : s.size = M.card := by
  have members : M = s.toList.toFinset := by
    ext i
    rw [List.mem_toFinset, mem_toList, h]
  have distinct : s.toList.Nodup := (toList_ascending s).imp Nat.ne_of_lt
  rw [members, List.toFinset_card_of_nodup distinct, size_eq_countP, List.countP_eq_length_filter]
  rfl

theorem Stands.represents (h : Stands s M) : Represents s M where
  bounded i mem := contains_le ((h i).mpr mem)
  contains := h
  members i := mem_toList.trans (h i)
  ascending := toList_ascending s
  first := h.first
  none := h.none
  size := h.size
  isEmpty := h.isEmpty

/-- After any operations, a register set answers as the finite set that they make. -/
theorem operations_refine (ops : List Operation) :
    Represents (ops.foldl Operation.apply empty) (ops.foldl Operation.onFinset ∅) :=
  (stands_empty.operations ops).represents

example : ([.range 1 4, .remove 1, .remove 3, .insert 64, .insert 200].foldl Operation.apply empty).toList =
    [2, 4, 64] := by decide

end Codegen86.Target.RegisterSet
