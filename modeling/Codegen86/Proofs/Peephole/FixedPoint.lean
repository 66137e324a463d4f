import Codegen86.Proofs.Peephole.Compaction
import Codegen86.Proofs.Peephole.Exhausted
/-!
# The optimizer as a fixed point

The optimizer repeats passes as long as they change something (`afterPasses`).  A pass that changes something
makes the program smaller, so there are no more of them than blocks and instructions (`optimize_passes`); the
program that they lead to is at rest.  Every rule that applied took out one instruction and is counted in the
journal (`size_optimize`).
-/

set_option autoImplicit false

namespace Codegen86.Peephole

open Target

variable {rules : List Rule} {pool : Pool}

/-! ## Counting instructions -/

/-- A pass over blocks takes out one instruction for every rule that applied. -/
theorem code_passBlocks (rules : List Rule) (pool : Pool) (blocks : List Block) :
    ((passBlocks rules pool blocks).1.flatMap (·.code)).length + (passBlocks rules pool blocks).2.length =
      (blocks.flatMap (·.code)).length := by
  induction blocks with
  | nil => rfl
  | cons b rest ih =>
    have here := length_passCode rules pool (fallsInto rest) b.code
    simp only [passBlocks, List.flatMap_cons, List.length_append]
    omega

theorem code_passFunctions (rules : List Rule) (pool : Pool) (functions : List Function) :
    ((passFunctions rules pool functions).result.flatMap (·.code)).length +
      (passFunctions rules pool functions).applied.length = (functions.flatMap (·.code)).length := by
  induction functions generalizing pool with
  | nil => rfl
  | cons f rest ih =>
    have here := code_passBlocks rules pool f.blocks
    have others := ih (passFunction rules pool f).pool
    have compacted : (passFunction rules pool f).result.blocks.flatMap (·.code) =
        (passBlocks rules pool f.blocks).1.flatMap (·.code) := compact_code _
    have applied : (passFunction rules pool f).applied = (passBlocks rules pool f.blocks).2 := rfl
    simp only [passFunctions, List.flatMap_cons, List.length_append, Function.code, compacted, applied] at others ⊢
    omega

theorem size_passProgram (rules : List Rule) (p : Program) :
    (passProgram rules p).result.size + (passProgram rules p).applied.length = p.size :=
  code_passFunctions rules p.pool p.functions

/-- The journal counts every rule that applied. -/
theorem removals_record (journal : Journal) (applied : List Rule) :
    (record journal applied).removals = journal.removals + applied.length := by
  induction applied generalizing journal with
  | nil => rfl
  | cons rule rest ih =>
    have here : (journal.recordRemoval rule.name).removals = journal.removals + 1 := rfl
    rw [record, List.foldl_cons, ← record, ih, here, List.length_cons]
    omega

/-- The optimizer takes out as many instructions as it records. -/
theorem size_optimize (rules : List Rule) (p : Program) (journal : Journal) :
    (optimize rules p journal).1.size + (optimize rules p journal).2.1.removals = p.size + journal.removals := by
  fun_induction optimize rules p journal with
  | case1 p journal pass journal' _ _ q journal'' _ eq ih =>
    have here := size_passProgram rules p
    have counted := removals_record journal pass.applied
    simp only [eq] at ih
    simp only [pass, journal'] at ih counted ⊢
    omega
  | case2 p journal pass journal' _ =>
    have here := size_passProgram rules p
    have counted := removals_record journal pass.applied
    simp only [pass, journal'] at counted ⊢
    omega

/-- The optimizer makes no program larger. -/
theorem size_optimize_le (rules : List Rule) (p : Program) (journal : Journal) :
    (optimize rules p journal).1.size ≤ p.size := by
  fun_induction optimize rules p journal with
  | case1 p journal pass _ _ _ q _ _ eq ih =>
    have here := size_passProgram rules p
    simp only [eq] at ih
    simp only [pass] at ih ⊢
    omega
  | case2 p journal pass _ _ =>
    have here := size_passProgram rules p
    simp only [pass]
    omega

/-! ## Passes -/

/-- The program after `n` passes. -/
def afterPasses (rules : List Rule) : Nat → Program → Program
  | 0, p => p
  | n + 1, p => afterPasses rules n (passProgram rules p).result

/-- Passes are repeated as long as they change something, and there are no more of them than blocks and
instructions. -/
theorem optimize_passes (rules : List Rule) (p : Program) (journal : Journal) :
    ∃ n, n ≤ totalWeight p.functions ∧ (optimize rules p journal).1 = afterPasses rules n p ∧
      (∀ k < n, (passProgram rules (afterPasses rules k p)).changed = true) ∧
      (passProgram rules (afterPasses rules n p)).changed = false ∧
      (optimize rules p journal).2.2 = decide (0 < n) := by
  fun_induction optimize rules p journal with
  | case1 p journal pass _ changed smaller q _ _ eq ih =>
    obtain ⟨n, bound, result, earlier, last, -⟩ := ih
    rw [eq] at result
    refine ⟨n + 1, Nat.lt_of_le_of_lt bound smaller, result, ?_, last, by simp⟩
    intro k less
    cases k with
    | zero => exact changed
    | succ k => exact earlier k (by omega)
  | case2 p journal pass _ unchanged =>
    have unchanged : (passProgram rules p).changed = false := by simpa using unchanged
    refine ⟨0, Nat.zero_le _, (passProgram_unchanged unchanged).1, ?_, unchanged, by simp⟩
    intro k less
    omega

/-- Passes that change something make the program smaller. -/
theorem weight_afterPasses {n : Nat} {p : Program}
    (earlier : ∀ k < n, (passProgram rules (afterPasses rules k p)).changed = true) :
    totalWeight (afterPasses rules n p).functions + n ≤ totalWeight p.functions := by
  induction n generalizing p with
  | zero => exact Nat.le_refl _
  | succ n ih =>
    have smaller := weight_lt_of_changed (earlier 0 (Nat.succ_pos n))
    have others := ih (p := (passProgram rules p).result) fun k less => earlier (k + 1) (by omega)
    simp only [afterPasses] at smaller ⊢
    omega

/-- A program that a pass leaves as it is, the optimizer leaves as it is. -/
theorem optimize_of_unchanged {p : Program} (unchanged : (passProgram rules p).changed = false)
    (journal : Journal) : optimize rules p journal = (p, journal, false) := by
  obtain ⟨same, none, -⟩ := passProgram_unchanged unchanged
  rw [optimize]
  simp [unchanged, same, none, record]

/-- The optimizer ends after finitely many passes, with a program that is at rest.  It tells whether the program
has changed, records the instructions it has taken out, and finds nothing to do in the result. -/
theorem optimize_fixed_point (rules : List Rule) (p : Program) (journal : Journal) :
    ∃ q journal' changed, optimize rules p journal = (q, journal', changed) ∧
      (∃ n, n ≤ totalWeight p.functions ∧ q = afterPasses rules n p ∧
        (∀ k < n, (passProgram rules (afterPasses rules k p)).changed = true) ∧
        (passProgram rules q).changed = false) ∧
      (changed = true ↔ q ≠ p) ∧
      (∀ f ∈ q.functions, ∀ above b below, f.blocks = above ++ b :: below →
        (∀ ahead behind, b.code = ahead ++ behind →
          ∀ rule ∈ rules, rule.shrink? q.pool (fallsInto below) behind = none) ∧
        (below ≠ [] → b.code ≠ [])) ∧
      q.size + journal'.removals = p.size + journal.removals ∧
      ∀ journal, optimize rules q journal = (q, journal, false) := by
  obtain ⟨n, bound, result, earlier, last, told⟩ := optimize_passes rules p journal
  have smaller := weight_afterPasses earlier
  rw [← result] at last smaller
  refine ⟨_, _, _, rfl, ⟨n, bound, result, earlier, last⟩, ?_, ?_, size_optimize rules p journal,
    optimize_of_unchanged last⟩
  · rw [told, decide_eq_true_iff]
    constructor
    · intro some same
      rw [same] at smaller
      omega
    · intro other
      refine Nat.pos_of_ne_zero fun none => other ?_
      rw [result, none, afterPasses]
  · intro f mem above b below split
    obtain ⟨exhausted, full⟩ := optimize_atRest rules p journal f mem above b below split
    refine ⟨fun ahead behind code rule listed => ?_, full⟩
    have none := List.findSome?_eq_none_iff.mp (exhausted ahead behind code) rule listed
    exact Option.map_eq_none_iff.mp none

end Codegen86.Peephole
