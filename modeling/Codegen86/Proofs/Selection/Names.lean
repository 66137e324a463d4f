import Codegen86.Proofs.Selection.Building
import Mathlib.Data.List.Basic
/-!
# Generated names

A generated label is a base and a counter with nothing between them, so labels with different counters
are the same where one base continues the other by digits, and only there (`label_eq_iff`).  Labels whose
bases do not end in a digit are told apart by their counters (`label_inj`).

The labels of a function's blocks are made one after another (`Fresh`), from its name, `$` and a part
(`parts`).
-/

set_option autoImplicit false

namespace Codegen86.Selection

open Target

/-! ## Text and numbers -/

/-- Text whose last character is a digit. -/
def EndsInDigit (text : String) : Prop := text.toList.getLast?.any Char.isDigit = true

instance (text : String) : Decidable (EndsInDigit text) :=
  inferInstanceAs (Decidable (_ = true))

theorem isDigit_of_mem_toString {n : Nat} {d : Char} (mem : d ∈ (toString n).toList) :
    d.isDigit = true := by
  rw [Nat.toString_eq_ofList_toDigits, String.toList_ofList] at mem
  exact Nat.isDigit_of_mem_toDigits (by decide : 0 < 10) (by decide) mem

theorem toString_inj {n m : Nat} (same : toString n = toString m) : n = m := by
  have digits := congrArg (fun text => Nat.ofDigitChars 10 text.toList 0) same
  simpa [Nat.toString_eq_ofList_toDigits] using digits

/-- When two labels are the same. -/
theorem label_eq_iff {base base' : String} {n m : Nat} :
    base ++ toString n = base' ++ toString m ↔
      (∃ digits, base' = base ++ digits ∧ toString n = digits ++ toString m) ∨
        ∃ digits, base = base' ++ digits ∧ toString m = digits ++ toString n := by
  constructor
  · intro same
    have same := congrArg String.toList same
    rw [String.toList_append, String.toList_append] at same
    rcases List.append_eq_append_iff.mp same with ⟨digits, left, right⟩ | ⟨digits, left, right⟩
    · exact .inl ⟨String.ofList digits, String.toList_injective (by rw [left, String.toList_append, String.toList_ofList]),
        String.toList_injective (by rw [right, String.toList_append, String.toList_ofList])⟩
    · exact .inr ⟨String.ofList digits, String.toList_injective (by rw [left, String.toList_append, String.toList_ofList]),
        String.toList_injective (by rw [right, String.toList_append, String.toList_ofList])⟩
  · rintro (⟨digits, rfl, same⟩ | ⟨digits, rfl, same⟩)
    · rw [same, String.append_assoc]
    · rw [same, String.append_assoc]

/-- Digits behind text that does not end in one are not part of it. -/
theorem digits_empty {base base' digits : String} {n m : Nat} (plain : ¬ EndsInDigit base')
    (base_eq : base' = base ++ digits) (number : toString n = digits ++ toString m) : digits = "" := by
  subst base_eq
  by_contra full
  have full : digits.toList ≠ [] := fun none => full (String.toList_injective none)
  have last : digits.toList.getLast full ∈ (toString n).toList := by
    rw [number, String.toList_append]
    exact List.mem_append_left _ (List.getLast_mem full)
  apply plain
  rw [EndsInDigit, String.toList_append, List.getLast?_append_of_ne_nil _ full,
    List.getLast?_eq_some_getLast full]
  exact isDigit_of_mem_toString last

/-- Labels are told apart by their counters where no base ends in a digit. -/
theorem label_inj {base base' : String} {n m : Nat} (plain : ¬ EndsInDigit base)
    (plain' : ¬ EndsInDigit base') (same : base ++ toString n = base' ++ toString m) :
    base = base' ∧ n = m := by
  rcases label_eq_iff.mp same with ⟨digits, base_eq, number⟩ | ⟨digits, base_eq, number⟩
  · obtain rfl := digits_empty plain' base_eq number
    exact ⟨by simpa using base_eq.symm, toString_inj (by simpa using number)⟩
  · obtain rfl := digits_empty plain base_eq number
    exact ⟨by simpa using base_eq, toString_inj (by simpa using number.symm)⟩

theorem endsInDigit_labelBase {function part : String} :
    EndsInDigit (labelBase function part) ↔ EndsInDigit part := by
  unfold EndsInDigit labelBase
  by_cases empty : part = ""
  · subst empty
    have last : (function ++ "$" ++ "").toList.getLast? = some '$' := by simp
    rw [last]
    decide
  · have full : part.toList ≠ [] := fun none => empty (String.toList_injective none)
    rw [String.toList_append, List.getLast?_append_of_ne_nil _ full]

/-! ## The names of a function's blocks -/

/-- The parts that the names of a function's blocks are made of. -/
def parts (f : IR.Function) : List String :=
  ["epilogue", "prologue", "cmp_false", "cmp_join"] ++ f.blocks.map (·.name)

/-- Labels made one after another, with counters from `n` up to `m`. -/
inductive Fresh (f : IR.Function) : (n m : Nat) → List String → Prop
  | nil {n m : Nat} (le : n ≤ m) : Fresh f n m []
  | cons {n k m : Nat} {part : String} {rest : List String} (known : part ∈ parts f) (le : n ≤ k)
      (tail : Fresh f (k + 1) m rest) :
      Fresh f n m ((labelBase f.name part ++ toString k) :: rest)

namespace Fresh

variable {f : IR.Function} {n m k : Nat} {labels more : List String} {name : String}

theorem le (h : Fresh f n m labels) : n ≤ m := by
  induction h with
  | nil le => exact le
  | cons _ le _ ih => omega

theorem weaken (h : Fresh f n m labels) {n' : Nat} (le : n' ≤ n) : Fresh f n' m labels := by
  cases h with
  | nil less => exact .nil (by omega)
  | cons known less tail => exact .cons known (by omega) tail

theorem append (h : Fresh f n m labels) (h' : Fresh f m k more) : Fresh f n k (labels ++ more) := by
  induction h with
  | nil le => exact h'.weaken le
  | cons known le _ ih => exact .cons known le (ih h')

theorem single {part : String} (known : part ∈ parts f) (n : Nat) :
    Fresh f n (n + 1) [labelBase f.name part ++ toString n] :=
  .cons known (Nat.le_refl n) (.nil (Nat.le_refl _))

theorem of_mem (h : Fresh f n m labels) (mem : name ∈ labels) :
    ∃ part ∈ parts f, ∃ k, n ≤ k ∧ k < m ∧ name = labelBase f.name part ++ toString k := by
  induction h with
  | nil => cases mem
  | @cons n k m part rest known le tail ih =>
    rcases List.mem_cons.mp mem with rfl | mem
    · exact ⟨part, known, k, le, tail.le, rfl⟩
    · obtain ⟨part', known', j, least, most, eq⟩ := ih mem
      exact ⟨part', known', j, by omega, most, eq⟩

/-- Labels made from parts that do not end in digits are distinct. -/
theorem nodup (h : Fresh f n m labels) (plain : ∀ part ∈ parts f, ¬ EndsInDigit part) :
    labels.Nodup := by
  induction h with
  | nil => exact List.nodup_nil
  | cons known le tail ih =>
    refine List.nodup_cons.mpr ⟨fun mem => ?_, ih⟩
    obtain ⟨part', known', j, least, -, eq⟩ := tail.of_mem mem
    have := (label_inj (mt endsInDigit_labelBase.mp (plain _ known))
      (mt endsInDigit_labelBase.mp (plain _ known')) eq).2
    omega

end Fresh

end Codegen86.Selection
