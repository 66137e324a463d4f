import Codegen86.Frame
import Mathlib.Algebra.Group.Int.Defs
import Mathlib.Algebra.Group.Nat.Defs
/-!
# Words as integers

Sums and differences of words that stay in range, and the places of a frame: the words at offsets from a
base pointer are different for different offsets, and the words of the stack below the frame are none of
them.
-/

set_option autoImplicit false

namespace Codegen86.Word

theorem toInt_add_of_bounds {a b : Word} (least : -2 ^ 63 ≤ a.toInt + b.toInt)
    (most : a.toInt + b.toInt < 2 ^ 63) : (a + b).toInt = a.toInt + b.toInt := by
  rw [Int64.toInt_add, Int.bmod_eq_of_le] <;> omega

theorem toInt_sub_of_bounds {a b : Word} (least : -2 ^ 63 ≤ a.toInt - b.toInt)
    (most : a.toInt - b.toInt < 2 ^ 63) : (a - b).toInt = a.toInt - b.toInt := by
  rw [Int64.toInt_sub, Int.bmod_eq_of_le] <;> omega

/-- The word that is `n` further up. -/
theorem add_ofNat {a b : Word} {n : Nat} (h : a.toInt + n = b.toInt) : a + ofNat n = b := by
  rw [← Int64.ofInt_toInt b, ← h, Int64.ofInt_add, Int64.ofInt_toInt, Int64.ofInt_eq_ofNat, ofNat]

theorem toInt_add_ofNat {a : Word} {n : Nat} (most : a.toInt + n < 2 ^ 63) : (a + ofNat n).toInt = a.toInt + n := by
  have least := a.le_toInt
  have place : (Int64.ofInt (a.toInt + n)).toInt = a.toInt + n := Int64.toInt_ofInt_of_le (by omega) most
  rw [add_ofNat place.symm, place]

theorem toInt_ofNat {n : Nat} (small : n < 2 ^ 63) : (ofNat n).toInt = n :=
  Int64.toInt_ofNat_of_lt small

theorem toInt_neg_ofNat {n : Nat} (small : n < 2 ^ 63) : (-ofNat n).toInt = -(n : Int) := by
  rw [Int64.toInt_neg, toInt_ofNat small, Int.bmod_eq_of_le] <;> omega

/-- Different offsets lead to different words. -/
theorem add_left_cancel {b x y : Word} (h : b + x = b + y) : x = y := (Int64.add_right_inj b).mp h

theorem neg_ofNat_inj {j k : Nat} (hj : j < 2 ^ 63) (hk : k < 2 ^ 63)
    (h : -ofNat j = -ofNat k) : j = k := by
  have := congrArg Int64.toInt h
  rw [toInt_neg_ofNat hj, toInt_neg_ofNat hk] at this
  omega

/-- A word at an offset not below `-m` is none of the words further down. -/
theorem ne_below {b off : Word} {j m : Nat} (small : j < 2 ^ 63) (above : -(m : Int) ≤ off.toInt)
    (below : m < j) : b + off ≠ b + -ofNat j := by
  intro h
  have := congrArg Int64.toInt (add_left_cancel h)
  rw [toInt_neg_ofNat small] at this
  omega

/-- The word right below the stack pointer is outside the frame above it. -/
theorem ne_top {sp bp off : Word} {m : Nat} (positive : 0 < sp)
    (apart : sp.toInt + m ≤ bp.toInt) (above : -(m : Int) ≤ off.toInt) : sp - 1 ≠ bp + off := by
  intro h
  have off_eq : off = sp - 1 - bp := by rw [h]; grind
  have positive : 0 < sp.toInt := by simpa [Int64.lt_iff_toInt_lt] using positive
  have top := bp.toInt_lt
  have one : (1 : Word).toInt = 1 := rfl
  have below : (sp - 1).toInt = sp.toInt - 1 := by
    rw [toInt_sub_of_bounds, one] <;> omega
  have : (sp - 1 - bp).toInt = sp.toInt - 1 - bp.toInt := by
    rw [toInt_sub_of_bounds, below] <;> omega
  rw [off_eq, this] at above
  omega

/-! ## Addresses -/

theorem index?_eq_some {words i : Nat} {a : Word} :
    a.index? words = some i ↔ a.toInt = i ∧ i < words := by
  have zero : (0 : Word) ≤ a ↔ 0 ≤ a.toInt := by rw [Int64.le_iff_toInt_le]; rfl
  have clamp : a.toNatClampNeg = a.toInt.toNat := rfl
  simp only [index?, Option.ite_none_right_eq_some, Option.some.injEq, zero, clamp]
  omega

theorem index?_isSome {words : Nat} {a : Word} :
    (a.index? words).isSome = true ↔ 0 ≤ a.toInt ∧ a.toInt < words := by
  have zero : (0 : Word) ≤ a ↔ 0 ≤ a.toInt := by rw [Int64.le_iff_toInt_le]; rfl
  have clamp : a.toNatClampNeg = a.toInt.toNat := rfl
  simp only [index?, Option.isSome_ite, zero, clamp]
  omega

/-- An offset that leads upwards to an address does not wrap. -/
theorem toInt_add_of_nonneg {b off : Word} (least : -2 ^ 63 ≤ b.toInt + off.toInt)
    (address : 0 ≤ (b + off).toInt) : (b + off).toInt = b.toInt + off.toInt := by
  have := b.toInt_lt
  have := off.toInt_lt
  by_cases most : b.toInt + off.toInt < 2 ^ 63
  · exact toInt_add_of_bounds least most
  · rw [Int64.toInt_add, Int.bmod_def] at address
    omega

/-- A slot below the base pointer. -/
theorem toInt_slot {bp : Word} {j : Nat} (small : j < 2 ^ 63) (room : -2 ^ 63 ≤ bp.toInt - j) :
    (bp + -ofNat j).toInt = bp.toInt - j := by
  have := bp.toInt_lt
  have place := toInt_neg_ofNat small
  rw [toInt_add_of_bounds, place] <;> omega

end Codegen86.Word
