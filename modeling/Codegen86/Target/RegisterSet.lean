/-!
# Sets of register numbers

A set of numbers from 0 to 127, one bit each.  Larger numbers are never members: adding or removing one
changes nothing.  The view of a set is `contains`; every operation has its equation with it.
-/

set_option autoImplicit false

namespace Codegen86.Target

structure RegisterSet where
  bits : BitVec 128 := 0
  deriving DecidableEq, Repr, Inhabited

namespace RegisterSet

/-- The largest number a set can hold. -/
def largest : Nat := 127

def empty : RegisterSet := {}

def contains (s : RegisterSet) (i : Nat) : Bool :=
  decide (i ≤ largest) && s.bits &&& BitVec.twoPow 128 i != 0

def insert (s : RegisterSet) (i : Nat) : RegisterSet :=
  if i ≤ largest then { bits := s.bits ||| BitVec.twoPow 128 i } else s

def remove (s : RegisterSet) (i : Nat) : RegisterSet :=
  if i ≤ largest then { bits := s.bits &&& ~~~ BitVec.twoPow 128 i } else s

/-- The numbers from `first` to `last`, as far as a set can hold them. -/
def range (first last : Nat) : RegisterSet :=
  (List.range' first (min last largest + 1 - first)).foldl insert empty

/-- Take out all members. -/
def clear (s : RegisterSet) : RegisterSet := { s with bits := 0 }

/-- The members in ascending order. -/
def toList (s : RegisterSet) : List Nat := (List.range (largest + 1)).filter s.contains

/-- The least member: the number of zeros below the lowest bit that is set. -/
def first? (s : RegisterSet) : Option Nat := if s.bits = 0 then none else some s.bits.ctz.toNat

/-- The number of bits that are set. -/
def size (s : RegisterSet) : Nat := s.bits.cpop.toNat

def isEmpty (s : RegisterSet) : Bool := s.bits == 0

/-- Membership is one bit. -/
theorem contains_eq_getLsbD (s : RegisterSet) (i : Nat) : s.contains i = s.bits.getLsbD i := by
  rw [contains, BitVec.and_twoPow]
  by_cases h : i ≤ largest
  · have some : BitVec.twoPow 128 i ≠ 0#128 := by
      intro zero
      have bit := congrArg (BitVec.getLsbD · i) zero
      simp only [BitVec.getLsbD_twoPow, largest] at bit h
      simp [show i < 128 by omega] at bit
    cases bit : s.bits.getLsbD i <;> simp [h, some]
  · have above : 128 ≤ i := Nat.lt_of_not_le h
    simp [h, BitVec.getLsbD_of_ge _ _ above]

@[simp] theorem contains_empty (i : Nat) : empty.contains i = false := by
  simp [contains_eq_getLsbD, empty]

theorem contains_le {s : RegisterSet} {i : Nat} (h : s.contains i = true) : i ≤ largest := by
  simp only [contains, Bool.and_eq_true, decide_eq_true_eq] at h
  exact h.1

theorem contains_insert (s : RegisterSet) (i j : Nat) :
    (s.insert i).contains j = (s.contains j || (j == i && decide (j ≤ largest))) := by
  unfold insert
  split
  · rename_i h
    simp only [contains_eq_getLsbD, BitVec.getLsbD_or, BitVec.getLsbD_twoPow, largest] at *
    by_cases e : j = i
    · subst e; simp [h, show j < 128 by omega]
    · simp [e, Ne.symm e]
  · rename_i h
    by_cases e : j = i
    · subst e; simp [h]
    · simp [e]

theorem contains_remove (s : RegisterSet) (i j : Nat) :
    (s.remove i).contains j = (s.contains j && j != i) := by
  unfold remove
  split
  · rename_i h
    simp only [contains_eq_getLsbD, BitVec.getLsbD_and, BitVec.getLsbD_not, BitVec.getLsbD_twoPow, largest] at *
    by_cases e : j = i
    · subst e; simp [show j < 128 by omega]
    · by_cases hj : j < 128
      · simp [e, Ne.symm e, hj]
      · simp [BitVec.getLsbD_of_ge s.bits j (by omega)]
  · rename_i h
    by_cases e : j = i
    · subst e
      have : s.contains j = false := by
        cases c : s.contains j with
        | false => rfl
        | true => exact absurd (contains_le c) h
      simp [this]
    · simp [e]

theorem contains_range (first last i : Nat) :
    (range first last).contains i = true ↔ first ≤ i ∧ i ≤ last ∧ i ≤ largest := by
  have ranged : ∀ (regs : List Nat) (s : RegisterSet),
      ((regs.foldl insert s).contains i = true ↔ s.contains i = true ∨ i ∈ regs ∧ i ≤ largest) := by
    intro regs
    induction regs with
    | nil => simp
    | cons reg rest ih =>
      intro s
      rw [List.foldl_cons, ih, contains_insert]
      simp only [Bool.or_eq_true, Bool.and_eq_true, beq_iff_eq, decide_eq_true_eq, List.mem_cons]
      by_cases e : i = reg
      · subst e
        simp only [true_and, true_or]
        grind
      · simp [e]
  rw [range, ranged, List.mem_range'_1, contains_empty]
  simp only [Bool.false_eq_true, false_or]
  omega

@[simp] theorem contains_clear (s : RegisterSet) (i : Nat) : s.clear.contains i = false := by
  simp [contains_eq_getLsbD, clear]

theorem mem_toList {s : RegisterSet} {i : Nat} : i ∈ s.toList ↔ s.contains i = true := by
  simp only [toList, List.mem_filter, List.mem_range, and_iff_right_iff_imp]
  exact fun h => Nat.lt_succ_of_le (contains_le h)

theorem contains_of_isEmpty {s : RegisterSet} (h : s.isEmpty = true) (i : Nat) :
    s.contains i = false := by
  have : s.bits = 0 := by simpa [isEmpty] using h
  simp [contains_eq_getLsbD, this]

theorem exists_of_not_isEmpty {s : RegisterSet} (h : s.isEmpty = false) :
    ∃ i, s.contains i = true := by
  refine Classical.byContradiction fun none => ?_
  have : s.bits = 0 := by
    apply BitVec.eq_of_getLsbD_eq
    intro i _
    have : s.contains i ≠ true := fun there => none ⟨i, there⟩
    simpa [contains_eq_getLsbD] using this
  simp [isEmpty, this] at h

theorem first?_eq_some {s : RegisterSet} {i : Nat} (h : s.first? = some i) :
    s.contains i = true := by
  unfold first? at h
  split at h
  · cases h
  · rename_i some
    cases h
    exact (s.contains_eq_getLsbD _).trans (BitVec.getLsbD_true_ctz_of_ne_zero some)

/-- Nothing below the first member is a member. -/
theorem le_of_first? {s : RegisterSet} {i j : Nat} (h : s.first? = some i)
    (there : s.contains j = true) : i ≤ j := by
  unfold first? at h
  split at h
  · cases h
  · cases h
    refine Nat.le_of_not_lt fun below => ?_
    rw [contains_eq_getLsbD, BitVec.getLsbD_false_of_lt_ctz below] at there
    cases there

theorem first?_isSome {s : RegisterSet} {i : Nat} (h : s.contains i = true) :
    s.first?.isSome = true := by
  have some : s.bits ≠ 0 := by
    intro zero
    simp [contains_eq_getLsbD, zero] at h
  rw [first?, if_neg some]
  rfl

/-- Counting bits is counting members. -/
theorem size_eq_countP (s : RegisterSet) : s.size = (List.range (largest + 1)).countP s.contains := by
  have counted : ∀ n, s.bits.cpopNatRec n 0 = (List.range n).countP s.contains := by
    intro n
    induction n with
    | zero => rfl
    | succ n ih =>
      rw [BitVec.cpopNatRec_succ, BitVec.cpopNatRec_eq, ih, List.range_succ, List.countP_append,
        List.countP_singleton]
      cases there : s.bits.getLsbD n <;> simp [contains_eq_getLsbD, there]
  rw [size, BitVec.toNat_cpop, counted, largest]

end RegisterSet

end Codegen86.Target
