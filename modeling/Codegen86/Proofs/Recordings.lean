import Codegen86.Journal
/-!
# Recordings

A journal is written by recordings only, so everything that the stages of a compilation make of a journal is a
later one (`Journal.Later`).  What a recording keeps, every later journal keeps: the removals are broken down by the
rules that removed (`Journal.Balanced`).
-/

set_option autoImplicit false

namespace Codegen86.Journal

/-- What a stage can write into a journal. -/
inductive Recording
  | enter (name : String)
  | function (name : String) (size : Nat)
  | block
  | instruction (mnemonic : String)
  | spill
  | reload
  | eliminated
  | removal (rule : String)

/-- The journal after a recording. -/
def write (j : Journal) : Recording → Journal
  | .enter name => j.enter name
  | .function name size => j.recordFunction name size
  | .block => j.recordBlock
  | .instruction mnemonic => j.recordInstruction mnemonic
  | .spill => j.recordSpill
  | .reload => j.recordReload
  | .eliminated => j.recordEliminated
  | .removal rule => j.recordRemoval rule

/-- Nothing but recordings lead from one journal to another. -/
inductive Later (j : Journal) : Journal → Prop
  | refl : Later j j
  | write {j' : Journal} (r : Recording) (h : Later j j') : Later j (j'.write r)

variable {j j' j'' : Journal}

theorem Later.trans (h : j.Later j') (h' : j'.Later j'') : j.Later j'' := by
  induction h' with
  | refl => exact h
  | write r _ ih => exact ih.write r

/-- Going through a list and writing for each of its items. -/
theorem Later.foldl {α : Type} {f : Journal → α → Journal} (h : j.Later j') (writes : ∀ j a, Later j (f j a))
    (as : List α) : j.Later (as.foldl f j') := by
  induction as generalizing j' with
  | nil => exact h
  | cons a rest ih => exact ih (h.trans (writes j' a))

/-! ## Removals -/

/-- The removals are broken down by the rules. -/
def Balanced (j : Journal) : Prop := j.removals = j.rules.total

theorem recordFunction_eq (j : Journal) (name : String) (size : Nat) :
    j.recordFunction name size = { j with
      functions := j.functions + 1
      largestName := if j.largestSize < size then name else j.largestName
      largestSize := if j.largestSize < size then size else j.largestSize } := by
  by_cases larger : j.largestSize < size <;> simp [recordFunction, larger]

theorem Balanced.write (h : j.Balanced) (r : Recording) : (j.write r).Balanced := by
  cases r with
  | function name size =>
    rw [Journal.write, recordFunction_eq]
    exact h
  | removal rule => exact (congrArg (· + 1) h).trans (Tally.total_bump rule j.rules).symm
  | enter _ | block | instruction _ | spill | reload | eliminated => exact h

theorem Balanced.later (h : j.Balanced) (later : j.Later j') : j'.Balanced := by
  induction later with
  | refl => exact h
  | write r _ ih => exact ih.write r

end Codegen86.Journal
