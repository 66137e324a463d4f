import Codegen86.Proofs.Allocation.Recorded
import Codegen86.Proofs.Peephole.FixedPoint
import Codegen86.Proofs.Selection.Recorded
/-!
# Statistics

The journal of a selected program tells its counts and the first of its largest functions (`Journal.Reports`).
Selection, allocation and the optimizer only record (`select_later`, `Program.allocate_later`, `optimize_later`), so
that the removals stay broken down by the rules that removed; and the optimizer records as many removals as it takes
instructions from a program (`Peephole.optimize_accounts`).
-/

set_option autoImplicit false

namespace Codegen86

open Target

/-! ## Counting -/

namespace Tally

/-- Count names one after another. -/
def bumpAll (names : List String) (t : Tally) : Tally := names.foldl (fun t name => t.bump name) t

theorem bumpAll_append (names more : List String) (t : Tally) :
    bumpAll (names ++ more) t = bumpAll more (bumpAll names t) := List.foldl_append

theorem count_bumpAll (names : List String) (t : Tally) (name : String) :
    count (bumpAll names t) name = count t name + names.count name := by
  induction names generalizing t with
  | nil => rfl
  | cons first rest ih =>
    have here := count_bump first name t
    rw [bumpAll, List.foldl_cons, ← bumpAll, ih, here, List.count_cons]
    by_cases same : first = name
    · simp only [same, if_true, beq_self_eq_true]
      omega
    · simp [same, Ne.symm same]

end Tally

namespace Journal

theorem selectCode_eq (j : Journal) (code : List Instruction) :
    j.selectCode code = { j with
      instructions := j.instructions + code.length
      mnemonics := j.mnemonics.bumpAll (code.map (·.mnemonic)) } := by
  induction code generalizing j with
  | nil => rfl
  | cons i rest ih =>
    rw [selectCode, List.foldl_cons, ← selectCode, ih]
    simp only [recordInstruction, List.length_cons, List.map_cons, Tally.bumpAll, List.foldl_cons, mk.injEq,
      true_and, and_true]
    omega

theorem selectBlocks_eq (j : Journal) (blocks : List Block) :
    blocks.foldl selectBlock j = { j with
      blocks := j.blocks + blocks.length
      instructions := j.instructions + (blocks.flatMap (·.code)).length
      mnemonics := j.mnemonics.bumpAll ((blocks.flatMap (·.code)).map (·.mnemonic)) } := by
  induction blocks generalizing j with
  | nil => rfl
  | cons b rest ih =>
    rw [List.foldl_cons, ih, selectBlock, selectCode_eq]
    simp only [recordBlock, List.length_cons, List.flatMap_cons, List.length_append, List.map_append,
      Tally.bumpAll_append, mk.injEq, true_and, and_true]
    omega

theorem selectFunction_eq (j : Journal) (f : Function) :
    j.selectFunction f = { j with
      current := some f.name
      functions := j.functions + 1
      blocks := j.blocks + f.blocks.length
      instructions := j.instructions + f.size
      mnemonics := j.mnemonics.bumpAll (f.code.map (·.mnemonic))
      largestName := if j.largestSize < f.size then f.name else j.largestName
      largestSize := if j.largestSize < f.size then f.size else j.largestSize } := by
  rw [selectFunction, selectBlocks_eq, recordFunction_eq]
  rfl

/-- `f` is the first of the largest functions. -/
def FirstLargest (functions : List Function) (f : Function) : Prop :=
  ∃ above below, functions = above ++ f :: below ∧ (∀ g ∈ above, g.size < f.size) ∧ ∀ g ∈ below, g.size ≤ f.size

/-- Every count of a journal but those of the optimizer and the allocator, after functions are selected. -/
theorem selectFunctions_counts (j : Journal) (functions : List Function) :
    let read := functions.foldl selectFunction j
    let code := functions.flatMap (·.code)
    read.instructions = j.instructions + code.length ∧
      read.mnemonics = j.mnemonics.bumpAll (code.map (·.mnemonic)) ∧
      read.blocks = j.blocks + (functions.flatMap (·.blocks)).length ∧
      read.functions = j.functions + functions.length := by
  induction functions generalizing j with
  | nil => exact ⟨rfl, rfl, rfl, rfl⟩
  | cons f rest ih =>
    obtain ⟨instructions, mnemonics, blocks, functions⟩ := ih (j.selectFunction f)
    rw [selectFunction_eq] at instructions mnemonics blocks functions
    simp only [List.foldl_cons, List.flatMap_cons, List.length_append, List.length_cons, List.map_append,
      Tally.bumpAll_append]
    rw [selectFunction_eq]
    refine ⟨?_, mnemonics, ?_, ?_⟩ <;> simp only [Function.size] at * <;> omega

/-- What the journal keeps as the largest function: what it kept before, or the first of the largest of the functions
that are selected. -/
theorem selectFunctions_largest (j : Journal) (functions : List Function) :
    let read := functions.foldl selectFunction j
    (read.largestName = j.largestName ∧ read.largestSize = j.largestSize ∧
        ∀ f ∈ functions, f.size ≤ j.largestSize) ∨
      ∃ f, FirstLargest functions f ∧ j.largestSize < f.size ∧ read.largestName = f.name ∧
        read.largestSize = f.size := by
  induction functions generalizing j with
  | nil => exact .inl ⟨rfl, rfl, nofun⟩
  | cons f rest ih =>
    have next := ih (j.selectFunction f)
    rw [← List.foldl_cons, selectFunction_eq] at next
    by_cases larger : j.largestSize < f.size
    · simp only [if_pos larger] at next
      obtain ⟨name, size, smaller⟩ | ⟨g, ⟨above, below, rfl, before, after⟩, beyond, name, size⟩ := next
      · exact .inr ⟨f, ⟨[], rest, rfl, nofun, smaller⟩, larger, name, size⟩
      · exact .inr ⟨g, ⟨f :: above, below, rfl, List.forall_mem_cons.mpr ⟨beyond, before⟩, after⟩,
          Nat.lt_trans larger beyond, name, size⟩
    · simp only [if_neg larger] at next
      have small : f.size ≤ j.largestSize := Nat.le_of_not_lt larger
      obtain ⟨name, size, smaller⟩ | ⟨g, ⟨above, below, rfl, before, after⟩, beyond, name, size⟩ := next
      · exact .inl ⟨name, size, List.forall_mem_cons.mpr ⟨small, smaller⟩⟩
      · exact .inr ⟨g, ⟨f :: above, below, rfl,
          List.forall_mem_cons.mpr ⟨Nat.lt_of_le_of_lt small beyond, before⟩, after⟩, beyond, name, size⟩

/-- A journal tells the counts of a program and the first of its largest functions. -/
structure Reports (j : Journal) (p : Program) : Prop where
  instructions : j.instructions = p.size
  mnemonics : ∀ name, j.mnemonics.count name = (p.code.map (·.mnemonic)).count name
  blocks : j.blocks = (p.functions.flatMap (·.blocks)).length
  functions : j.functions = p.functions.length
  largest : ∃ f, FirstLargest p.functions f ∧ j.largestName = f.name ∧ j.largestSize = f.size

/-- Reading a program that has instructions into an empty journal. -/
theorem reports_of_read {p : Program} {f : Function} (mem : f ∈ p.functions) (some : 0 < f.size) :
    (p.functions.foldl selectFunction {}).Reports p := by
  obtain ⟨instructions, mnemonics, blocks, functions⟩ := selectFunctions_counts {} p.functions
  refine ⟨?_, fun name => ?_, ?_, ?_, ?_⟩
  · rw [instructions, Nat.zero_add]
    rfl
  · rw [mnemonics, Tally.count_bumpAll]
    exact Nat.zero_add _
  · rw [blocks, Nat.zero_add]
  · rw [functions, Nat.zero_add]
  · obtain ⟨-, -, empty⟩ | ⟨g, first, -, name, size⟩ := selectFunctions_largest {} p.functions
    · exact absurd some (Nat.not_lt.mpr (empty f mem))
    · exact ⟨g, first, name, size⟩

/-! ## Later journals -/

theorem selectCode_later (j : Journal) (code : List Instruction) : j.Later (j.selectCode code) :=
  Later.refl.foldl (fun _ i => .write (.instruction i.mnemonic) .refl) code

theorem selectBlock_later (j : Journal) (b : Block) : j.Later (j.selectBlock b) :=
  (Later.refl.write .block).trans (selectCode_later _ b.code)

theorem selectFunction_later (j : Journal) (f : Function) : j.Later (j.selectFunction f) :=
  ((Later.refl.write (.enter f.name)).foldl selectBlock_later f.blocks).write (.function f.name f.size)

end Journal

/-- Selection only records. -/
theorem Selection.select_later {source : IR.Program} {entry : String} {journal journal' : Journal} {p : Program}
    (ok : select source entry journal = .ok (p, journal')) : journal.Later journal' := by
  obtain ⟨rfl, -⟩ := select_journal ok
  exact Journal.Later.refl.foldl Journal.selectFunction_later p.functions

namespace Peephole

/-- The optimizer only records. -/
theorem optimize_later (rules : List Rule) (p : Program) (j : Journal) : j.Later (optimize rules p j).2.1 := by
  have recorded (j : Journal) (applied : List Rule) : j.Later (record j applied) :=
    Journal.Later.refl.foldl (fun _ rule => .write (.removal rule.name) .refl) applied
  fun_induction optimize rules p j with
  | case1 p j pass j' _ _ q last _ eq ih =>
    rw [eq] at ih
    exact (recorded j pass.applied).trans ih
  | case2 p j pass _ _ => exact recorded j pass.applied

/-- The optimizer adds to the removals what it takes from the program, and they stay broken down by the rules. -/
theorem optimize_accounts {j : Journal} (h : j.Balanced) (rules : List Rule) (p : Program) :
    (optimize rules p j).1.size ≤ p.size ∧
      (optimize rules p j).2.1.removals = j.removals + (p.size - (optimize rules p j).1.size) ∧
      (optimize rules p j).2.1.Balanced := by
  have smaller := size_optimize_le rules p j
  have counted := size_optimize rules p j
  exact ⟨smaller, by omega, h.later (optimize_later rules p j)⟩

end Peephole

namespace Selection

variable {source : IR.Program} {entry : String} {journal : Journal} {p : Program}

/-- **The statistics agree with the program.**  A fresh journal that selection has written tells the numbers of
instructions, of each mnemonic, of blocks and of functions of the selected program, and its first largest function.
Whatever is recorded later, by selection, allocation or the optimizer, optimizing any program adds to the removals
what it takes from the program, and the removals stay the sum of what the rules have removed. -/
theorem select_reports (ok : select source entry {} = .ok (p, journal)) :
    journal.Reports p ∧ ∀ later, journal.Later later →
      later.removals = later.rules.total ∧ ∀ rules q,
        let optimized := Peephole.optimize rules q later
        optimized.1.size ≤ q.size ∧
          optimized.2.1.removals = later.removals + (q.size - optimized.1.size) ∧
          optimized.2.1.removals = optimized.2.1.rules.total := by
  have fresh : Journal.Balanced {} := rfl
  have balanced := fresh.later (select_later ok)
  obtain ⟨rfl, sizes⟩ := select_journal ok
  obtain ⟨_, -, selected⟩ := select_spec ok
  obtain ⟨f, mem, -⟩ := List.mem_map.mp selected.starts
  refine ⟨Journal.reports_of_read mem (sizes f mem), fun later written => ?_⟩
  exact ⟨balanced.later written, Peephole.optimize_accounts (balanced.later written)⟩

/-- Three functions of 47 instructions, of which the entry has the most; and what is recorded after a spill. -/
theorem circle_reported :
    ∃ p journal, select circle "main" {} = .ok (p, journal) ∧ journal.Reports p ∧
      p.size = 47 ∧ (p.functions.map (·.size)) = [26, 12, 9] ∧ journal.largestName = "main" ∧
      let (q, last, _) := Peephole.optimize Peephole.Rule.all p journal.recordSpill
      last.removals = 47 - q.size ∧ last.rules.total = last.removals := by
  have made : (select circle "main" {}).toOption.map (fun r =>
      (r.1.size, r.1.functions.map (·.size), r.2.largestName, r.2.removals)) =
        some (47, [26, 12, 9], "main", 0) := by decide +kernel
  cases selected : select circle "main" {} with
  | error e =>
    rw [selected] at made
    cases made
  | ok result =>
    rw [selected] at made
    obtain ⟨p, journal⟩ := result
    obtain ⟨reports, later⟩ := select_reports selected
    have made : (p.size, p.functions.map (·.size), journal.largestName, journal.removals) =
        (47, [26, 12, 9], "main", 0) := Option.some.inj made
    simp only [Prod.mk.injEq] at made
    obtain ⟨size, sizes, name, none⟩ := made
    obtain ⟨-, counted, balanced⟩ := (later journal.recordSpill (.write .spill .refl)).2 Peephole.Rule.all p
    refine ⟨p, journal, rfl, reports, size, sizes, name, ?_, balanced.symm⟩
    rw [← size, ← Nat.zero_add (p.size - _), ← none]
    exact counted

end Selection

end Codegen86
