import Codegen86.Peephole.Optimize
/-!
# Where the optimizer ends

The passes end with one that changes nothing.  Such a pass finds no rule that applies and no empty block to
remove (`passProgram_unchanged`), so that the optimized program is at rest (`optimize_atRest`).  No instruction
of it adds or subtracts zero.
-/

set_option autoImplicit false

namespace Codegen86.Peephole

open Target

variable {rules : List Rule} {pool : Pool} {next : Option String}

/-- No rule applies at any point of the code of a block. -/
def Exhausted (rules : List Rule) (pool : Pool) (next : Option String) (code : List Instruction) : Prop :=
  ∀ ahead behind, code = ahead ++ behind → Rule.first? rules pool next behind = none

/-- A pass in which no rule applied leaves the code as it was. -/
theorem passCode_exhausted {code : List Instruction} (none : (passCode rules pool next code).2 = []) :
    (passCode rules pool next code).1 = code ∧ Exhausted rules pool next code := by
  fun_induction passCode rules pool next code with
  | case1 code rule rest => cases none
  | case2 here =>
    refine ⟨rfl, fun ahead behind split => ?_⟩
    obtain ⟨-, rfl⟩ := List.append_eq_nil_iff.mp split.symm
    exact here
  | case3 i rest here out applied eq ih =>
    simp only [eq] at ih
    obtain ⟨same, exhausted⟩ := ih none
    refine ⟨congrArg (i :: ·) same, fun ahead behind split => ?_⟩
    cases ahead with
    | nil =>
      have split : behind = i :: rest := split.symm
      rw [split]
      exact here
    | cons j ahead =>
      obtain ⟨-, split⟩ := List.cons.inj split
      exact exhausted ahead behind split

/-- Blocks in which nothing is left to do: no rule applies at any point of a block, where control falls into
the next one at its end, and no block but the last is empty. -/
def AtRest (rules : List Rule) (pool : Pool) (blocks : List Block) : Prop :=
  ∀ above b below, blocks = above ++ b :: below →
    Exhausted rules pool (fallsInto below) b.code ∧ (below ≠ [] → b.code ≠ [])

theorem AtRest.exhausted {blocks : List Block} (h : AtRest rules pool blocks) {b : Block} (mem : b ∈ blocks) :
    ∃ next, Exhausted rules pool next b.code := by
  obtain ⟨above, below, split⟩ := List.append_of_mem mem
  exact ⟨_, (h above b below split).1⟩

theorem passBlocks_exhausted {blocks : List Block} (none : (passBlocks rules pool blocks).2 = []) :
    (passBlocks rules pool blocks).1 = blocks ∧
      ∀ above b below, blocks = above ++ b :: below → Exhausted rules pool (fallsInto below) b.code := by
  induction blocks with
  | nil => exact ⟨rfl, by simp⟩
  | cons b rest ih =>
    simp only [passBlocks, List.append_eq_nil_iff] at none
    obtain ⟨same, exhausted⟩ := passCode_exhausted none.1
    obtain ⟨sames, others⟩ := ih none.2
    refine ⟨by simp only [passBlocks, same, sames], fun above c below split => ?_⟩
    cases above with
    | nil =>
      obtain ⟨rfl, rfl⟩ := List.cons.inj split
      exact exhausted
    | cons a above =>
      obtain ⟨-, split⟩ := List.cons.inj split
      exact others above c below split

/-- Where no block stands in for another, all blocks are kept, and all but the last have instructions. -/
theorem compact_eq {blocks : List Block} (none : (compact blocks).2 = []) :
    (compact blocks).1 = blocks ∧
      ∀ above b below, blocks = above ++ b :: below → below ≠ [] → b.code ≠ [] := by
  induction blocks with
  | nil => exact ⟨rfl, by simp⟩
  | cons b rest ih =>
    rw [compact] at none ⊢
    split at none
    · rename_i renamed eq
      rw [eq] at ih
      obtain ⟨kept, -⟩ := ih none
      obtain rfl : rest = [] := kept.symm
      refine ⟨rfl, fun above c below split some => ?_⟩
      cases above with
      | nil => exact absurd (List.cons.inj split).2.symm some
      | cons a above => simp at split
    · rename_i following kept renamed eq
      rw [eq] at ih
      split at none
      · cases none
      · rename_i full
        rw [if_neg full]
        obtain ⟨same, others⟩ := ih none
        refine ⟨congrArg (b :: ·) same, fun above c below split some => ?_⟩
        cases above with
        | nil =>
          obtain ⟨rfl, -⟩ := List.cons.inj split
          exact fun empty => full (List.isEmpty_iff.mpr empty)
        | cons a above =>
          obtain ⟨-, split⟩ := List.cons.inj split
          exact others above c below split some

theorem renameLabels_nil (pool : Pool) (blocks : List Block) : renameLabels [] pool blocks = pool := by
  unfold renameLabels
  induction (blocks.flatMap (·.code)).filterMap Instruction.destination? with
  | nil => rfl
  | cons x rest ih =>
    have one : renameRef [] pool x = pool := by
      unfold renameRef
      split <;> rfl
    rw [List.foldl_cons, one, ih]

theorem passFunction_unchanged {f : Function} (none : (passFunction rules pool f).applied = [])
    (kept : (passFunction rules pool f).blocks = 0) :
    (passFunction rules pool f).result = f ∧ (passFunction rules pool f).pool = pool ∧
      AtRest rules pool f.blocks := by
  obtain ⟨same, exhausted⟩ := passBlocks_exhausted (none : (passBlocks rules pool f.blocks).2 = [])
  have kept : (compact f.blocks).2 = [] := by
    simp only [passFunction, same] at kept
    exact List.eq_nil_of_length_eq_zero kept
  obtain ⟨all, full⟩ := compact_eq kept
  refine ⟨?_, ?_, fun above b below split => ⟨exhausted above b below split, full above b below split⟩⟩
  · simp only [passFunction, same, all]
  · simp only [passFunction, same, kept]
    exact renameLabels_nil _ _

theorem passFunctions_unchanged {functions : List Function}
    (none : (passFunctions rules pool functions).applied = [])
    (kept : (passFunctions rules pool functions).blocks = 0) :
    (passFunctions rules pool functions).result = functions ∧ (passFunctions rules pool functions).pool = pool ∧
      ∀ f ∈ functions, AtRest rules pool f.blocks := by
  induction functions with
  | nil => exact ⟨rfl, rfl, by simp⟩
  | cons f rest ih =>
    simp only [passFunctions, List.append_eq_nil_iff, Nat.add_eq_zero_iff] at none kept ⊢
    obtain ⟨same, samePool, atRest⟩ := passFunction_unchanged none.1 kept.1
    rw [samePool] at none kept ⊢
    obtain ⟨sames, lastPool, others⟩ := ih none.2 kept.2
    refine ⟨by rw [same, sames], lastPool, fun g mem => ?_⟩
    rcases List.mem_cons.mp mem with rfl | mem
    · exact atRest
    · exact others g mem

/-- A pass that changes nothing leaves the program as it was, and the program is at rest. -/
theorem passProgram_unchanged {p : Program} (unchanged : (passProgram rules p).changed = false) :
    (passProgram rules p).result = p ∧ (passProgram rules p).applied = [] ∧
      ∀ f ∈ p.functions, AtRest rules p.pool f.blocks := by
  simp only [Pass.changed, Bool.or_eq_false_iff, Bool.not_eq_false', bne_eq_false_iff_eq, List.isEmpty_iff]
    at unchanged
  obtain ⟨none, kept⟩ := unchanged
  obtain ⟨same, samePool, atRest⟩ := passFunctions_unchanged none kept
  refine ⟨?_, none, atRest⟩
  simp only [passProgram, same, samePool]

/-- The optimized program is at rest. -/
theorem optimize_atRest (rules : List Rule) (p : Program) (journal : Journal) :
    ∀ f ∈ (optimize rules p journal).1.functions,
      AtRest rules (optimize rules p journal).1.pool f.blocks := by
  fun_induction optimize rules p journal with
  | case1 p journal _ _ changed smaller out _ last eq ih =>
    rw [eq] at ih
    exact ih
  | case2 p journal pass _ unchanged =>
    obtain ⟨same, -, atRest⟩ := passProgram_unchanged (Bool.not_eq_true _ ▸ unchanged)
    show ∀ f ∈ (passProgram rules p).result.functions, AtRest rules (passProgram rules p).result.pool f.blocks
    rw [same]
    exact atRest

/-- Where no rule applies, nothing adds or subtracts zero. -/
theorem Exhausted.nonzero {ahead behind : List Instruction} {op : Arith} {x y : OperandRef}
    (h : Exhausted Rule.all pool next (ahead ++ .arith op x y :: behind)) (linear : op = .add ∨ op = .sub) :
    pool.get y ≠ .imm 0 := by
  intro zero
  have none := List.findSome?_eq_none_iff.mp (h ahead _ rfl) .zeroArithmetic (by decide)
  rcases linear with rfl | rfl <;> simp [Rule.shrink?, zero] at none

end Codegen86.Peephole
