import Codegen86.Allocation.Liveness
import Codegen86.Proofs.Symbolic.Code
import Mathlib.Data.Nat.Find
/-!
# What is live before code

`Live pool code o` is what the backward pass computes: some instruction of `code` reads `o`, and none
before it defines `o`.  The allocator asks the tables of a whole block; here its questions are about the
code from some point on.

By their indices the tables say the same of the whole code (`Liveness.tables_exact`): what is live behind an
instruction is read behind it with no definition in between, and the next read is the first one.
-/

set_option autoImplicit false

namespace Codegen86.Allocation

open Target

/-- Whether `o` is read by the code before it is defined. -/
def Live (pool : Pool) (code : List Instruction) (o : Operand) : Prop :=
  o ∈ (Liveness.backward (code.map (Effects.of pool))).1

variable {pool : Pool} {o : Operand}

theorem not_live_nil : ¬ Live pool [] o := by simp [Live, Liveness.backward]

theorem live_cons {i : Instruction} {rest : List Instruction} :
    Live pool (i :: rest) o ↔
      o ∈ (Effects.of pool i).reads ∨ Live pool rest o ∧ (Effects.of pool i).defines ≠ some o := by
  simp only [Live, List.map_cons, Liveness.backward, Effects.mem_before]

theorem live_iff_exists {code : List Instruction} :
    Live pool code o ↔
      ∃ before i after, code = before ++ i :: after ∧ o ∈ (Effects.of pool i).reads ∧
        ∀ j ∈ before, (Effects.of pool j).defines ≠ some o := by
  induction code with
  | nil => simp [not_live_nil]
  | cons i rest ih =>
    rw [live_cons, ih]
    constructor
    · rintro (read | ⟨⟨before, j, after, rfl, read, kept⟩, keeps⟩)
      · exact ⟨[], i, rest, rfl, read, by simp⟩
      · exact ⟨i :: before, j, after, rfl, read, by simpa using ⟨keeps, kept⟩⟩
    · rintro ⟨before, j, after, split, read, kept⟩
      cases before with
      | nil =>
        obtain ⟨rfl, rfl⟩ := List.cons.inj split
        exact .inl read
      | cons first before =>
        obtain ⟨rfl, rfl⟩ := List.cons.inj split
        have keeps := kept i List.mem_cons_self
        exact .inr ⟨⟨before, j, after, rfl, read, fun x mem => kept x (List.mem_cons_of_mem _ mem)⟩, keeps⟩

namespace Liveness

theorem backward_liveAfter (effects : List Effects) (n : Nat) :
    (backward effects).2[n]? = if n < effects.length then
      some (backward (effects.drop (n + 1))).1 else none := by
  induction effects generalizing n with
  | nil => simp [backward]
  | cons e rest ih =>
    cases n with
    | zero => simp [backward]
    | succ n => simp [backward, ih]

/-- What the tables say of an instruction is what is live before the code behind it. -/
theorem isLiveAfter_iff {before rest : List Instruction} {i : Instruction} :
    (compute pool (before ++ i :: rest)).isLiveAfter before.length o = true ↔ Live pool rest o := by
  have drop : (List.map (Effects.of pool) (before ++ i :: rest)).drop (before.length + 1) =
      rest.map (Effects.of pool) := by
    rw [← List.map_drop]
    simp [List.drop_append]
  simp only [isLiveAfter, live, compute, backward_liveAfter, drop, Live, List.contains_iff_mem]
  simp

theorem nextRead_isSome_iff {before rest : List Instruction} :
    ((compute pool (before ++ rest)).nextRead o before.length).isSome = true ↔
      ∃ i ∈ rest, o ∈ (Effects.of pool i).reads := by
  simp [nextRead, compute, Option.isSome_map, List.findIdx?_isSome]

theorem nextRead_isSome {before rest : List Instruction} (live : Live pool rest o) :
    ((compute pool (before ++ rest)).nextRead o before.length).isSome = true := by
  obtain ⟨kept, i, after, rfl, read, -⟩ := live_iff_exists.mp live
  exact nextRead_isSome_iff.mpr ⟨i, by simp, read⟩

end Liveness

/-! ## By indices -/

/-- The instruction at `index` reads `o`. -/
def ReadAt (pool : Pool) (code : List Instruction) (index : Nat) (o : Operand) : Prop :=
  ∃ i, code[index]? = some i ∧ o ∈ (Effects.of pool i).reads

/-- The instruction at `index` gives `o` a new value: it is a `MOV` to `o`, or a `POP` of it. -/
def DefinedAt (pool : Pool) (code : List Instruction) (index : Nat) (o : Operand) : Prop :=
  ∃ i x, code[index]? = some i ∧ ((∃ y, i = .mov x y) ∨ i = .pop x) ∧ pool.get x = o

variable {code : List Instruction} {index j : Nat}

theorem mem_operandReads {p : Operand} : o ∈ operandReads p ↔
    isTracked o = true ∧ (p = o ∨ ∃ base offset, p = .mem base offset ∧ o = .reg base) := by
  rw [operandReads, List.mem_append, List.mem_filter, List.mem_singleton]
  cases p with
  | mem base offset =>
    simp only [baseReads, List.mem_filter, List.mem_singleton, Operand.mem.injEq]
    constructor
    · rintro (⟨rfl, tracked⟩ | ⟨rfl, tracked⟩)
      · exact ⟨tracked, .inr ⟨base, offset, ⟨rfl, rfl⟩, rfl⟩⟩
      · exact ⟨tracked, .inl rfl⟩
    · rintro ⟨tracked, rfl | ⟨base', offset', ⟨rfl, rfl⟩, rfl⟩⟩
      · exact .inr ⟨rfl, tracked⟩
      · exact .inl ⟨rfl, tracked⟩
  | reg | imm | label =>
    constructor
    · rintro (none | ⟨rfl, tracked⟩)
      · cases none
      · exact ⟨tracked, .inl rfl⟩
    · rintro ⟨tracked, rfl | ⟨base, offset, is, -⟩⟩
      · exact .inr ⟨rfl, tracked⟩
      · cases is

theorem mem_baseReads {p : Operand} : o ∈ baseReads p ↔
    isTracked o = true ∧ ∃ base offset, p = .mem base offset ∧ o = .reg base := by
  cases p with
  | mem base offset =>
    simp only [baseReads, List.mem_filter, List.mem_singleton, Operand.mem.injEq]
    constructor
    · rintro ⟨rfl, tracked⟩
      exact ⟨tracked, base, offset, ⟨rfl, rfl⟩, rfl⟩
    · rintro ⟨tracked, base', offset', ⟨rfl, rfl⟩, rfl⟩
      exact ⟨rfl, tracked⟩
  | reg | imm | label => simp [baseReads]

/-- What an instruction reads, as far as it is tracked: its sources, and the registers that its words of memory are
based on, but for the operand of a `POP`. -/
theorem mem_reads_iff {i : Instruction} : o ∈ (Effects.of pool i).reads ↔ isTracked o = true ∧
    ((∃ x ∈ i.sources, pool.get x = o) ∨ (∀ x, i ≠ .pop x) ∧ i.destination? = none ∧
      ∃ x ∈ i.operands, ∃ base offset, pool.get x = .mem base offset ∧ o = .reg base) := by
  cases i with
  | push x => simp [Effects.of, mem_operandReads, Instruction.sources, Instruction.operands, Instruction.destination?]
  | mov x y =>
    simp only [Effects.of, List.mem_append, mem_operandReads, mem_baseReads, Instruction.sources,
      Instruction.operands, Instruction.destination?, List.mem_cons, List.not_mem_nil, or_false,
      exists_eq_or_imp, exists_eq_left, reduceCtorEq, not_false_eq_true, implies_true, ne_eq, true_and]
    rw [← and_or_left, or_assoc, or_comm (b := ∃ base offset, pool.get x = _ ∧ _)]
  | arith op x y | cmp x y =>
    simp only [Effects.of, List.mem_append, mem_operandReads, Instruction.sources,
      Instruction.operands, Instruction.destination?, List.mem_cons, List.not_mem_nil, or_false,
      exists_eq_or_imp, exists_eq_left, reduceCtorEq, not_false_eq_true, implies_true, ne_eq, true_and]
    rw [← and_or_left, or_or_or_comm]
  | pop x => simp [Effects.of, Instruction.sources]
  | ret | halt | nop | jump | jumpIf | call =>
    simp [Effects.of, Instruction.sources, Instruction.operands, Instruction.destination?]

theorem ReadAt.tracked (read : ReadAt pool code index o) : isTracked o = true := by
  obtain ⟨i, -, read⟩ := read
  exact (mem_reads_iff.mp read).1

/-- Of what is tracked, the backward pass knows all definitions. -/
theorem definedAt_iff (tracked : isTracked o = true) :
    DefinedAt pool code index o ↔ ∃ i, code[index]? = some i ∧ (Effects.of pool i).defines = some o := by
  have kept : ∀ x, (some (pool.get x)).filter isTracked = some o ↔ pool.get x = o := by
    intro x
    rw [Option.filter_eq_some_iff, Option.some_inj]
    constructor
    · exact And.left
    · rintro rfl
      exact ⟨rfl, tracked⟩
  constructor
  · rintro ⟨i, x, here, ⟨y, rfl⟩ | rfl, is⟩
    · exact ⟨_, here, (kept x).mpr is⟩
    · exact ⟨_, here, (kept x).mpr is⟩
  · rintro ⟨i, here, defines⟩
    cases i with
    | mov x y => exact ⟨_, x, here, .inl ⟨y, rfl⟩, (kept x).mp defines⟩
    | pop x => exact ⟨_, x, here, .inr rfl, (kept x).mp defines⟩
    | ret | halt | nop | push | arith | cmp | jump | jumpIf | call => cases defines

/-- What is live before the code from `start` on is read there, and not defined before that. -/
theorem live_drop_iff {start : Nat} : Live pool (code.drop start) o ↔
    ∃ j, start ≤ j ∧ ReadAt pool code j o ∧ ∀ k, start ≤ k → k < j → ¬ DefinedAt pool code k o := by
  rw [live_iff_exists]
  constructor
  · rintro ⟨before, i, after, split, read, kept⟩
    have get : ∀ m, code[start + m]? = (before ++ i :: after)[m]? := by
      intro m
      rw [← split, List.getElem?_drop]
    have here : ReadAt pool code (start + before.length) o := ⟨i, by rw [get]; simp, read⟩
    refine ⟨start + before.length, by omega, here, fun k least less defined => ?_⟩
    obtain ⟨j, there, defines⟩ := (definedAt_iff here.tracked).mp defined
    obtain ⟨m, rfl⟩ := Nat.exists_eq_add_of_le least
    rw [get, List.getElem?_append_left (by omega)] at there
    exact kept j (List.mem_of_getElem? there) defines
  · rintro ⟨j, least, read, kept⟩
    obtain ⟨i, here, reads⟩ := read
    obtain ⟨m, rfl⟩ := Nat.exists_eq_add_of_le least
    rw [← List.getElem?_drop] at here
    obtain ⟨inside, is⟩ := List.getElem?_eq_some_iff.mp here
    refine ⟨(code.drop start).take m, i, (code.drop start).drop (m + 1), ?_, reads, ?_⟩
    · rw [← is, ← List.drop_eq_getElem_cons, List.take_append_drop]
    · intro instruction mem defines
      obtain ⟨k, there⟩ := List.mem_iff_getElem?.mp mem
      have less : k < m := by
        have := (List.getElem?_eq_some_iff.mp there).1
        rw [List.length_take] at this
        omega
      rw [List.getElem?_take_of_lt less, List.getElem?_drop] at there
      refine kept (start + k) (by omega) (by omega) ((definedAt_iff ?_).mpr ⟨_, there, defines⟩)
      have read : ReadAt pool code (start + m) o := ⟨i, by rwa [← List.getElem?_drop], reads⟩
      exact read.tracked

namespace Liveness

theorem mem_live_iff : o ∈ (compute pool code).live index ↔ Live pool (code.drop (index + 1)) o := by
  rw [live, compute, backward_liveAfter, Live, List.map_drop, List.length_map]
  split
  · rfl
  · rename_i outside
    rw [← List.map_drop, List.drop_eq_nil_of_le (by omega)]
    simp [backward]

/-- The next read is the first one. -/
theorem nextRead_eq_some_iff {start : Nat} : (compute pool code).nextRead o start = some j ↔
    start ≤ j ∧ ReadAt pool code j o ∧ ∀ k, start ≤ k → k < j → ¬ ReadAt pool code k o := by
  have reads : ∀ m (inside : m < (((compute pool code).effects).drop start).length),
      ((((compute pool code).effects).drop start)[m]).reads.contains o = true ↔
        ReadAt pool code (start + m) o := by
    intro m inside
    have inside' : start + m < code.length := by
      simp only [compute, List.length_drop, List.length_map] at inside
      omega
    simp [ReadAt, compute, inside']
  have length : (((compute pool code).effects).drop start).length = code.length - start := by
    simp [compute]
  rw [nextRead, Option.map_eq_some_iff]
  constructor
  · rintro ⟨m, found, rfl⟩
    obtain ⟨inside, here, first⟩ := List.findIdx?_eq_some_iff_getElem.mp found
    rw [Nat.add_comm]
    refine ⟨by omega, (reads m inside).mp here, fun k least less read => ?_⟩
    obtain ⟨m', rfl⟩ := Nat.exists_eq_add_of_le least
    exact first m' (by omega) ((reads m' (by omega)).mpr read)
  · rintro ⟨least, read, first⟩
    obtain ⟨m, rfl⟩ := Nat.exists_eq_add_of_le least
    obtain ⟨i, there, -⟩ := id read
    have inside : m < (((compute pool code).effects).drop start).length := by
      have := (List.getElem?_eq_some_iff.mp there).1
      omega
    refine ⟨m, List.findIdx?_eq_some_iff_getElem.mpr ⟨inside, (reads m inside).mpr read, ?_⟩, Nat.add_comm ..⟩
    intro m' less here
    exact first (start + m') (by omega) (by omega) ((reads m' (by omega)).mp here)

/-- The tables are exact.  The reads listed are the tracked sources of an instruction and the abstract registers that
its words of memory are based on.  An operand is live behind an instruction if and only if an instruction further
on reads it and none in between defines it; the next read from an instruction on is the first one; and so an
operand is live behind an instruction if and only if it is read again and not defined before that. -/
theorem tables_exact (pool : Pool) (code : List Instruction) :
    (∀ i o, o ∈ (Effects.of pool i).reads ↔ isTracked o = true ∧
      ((∃ x ∈ i.sources, pool.get x = o) ∨ (∀ x, i ≠ .pop x) ∧ i.destination? = none ∧
        ∃ x ∈ i.operands, ∃ base offset, pool.get x = .mem base offset ∧ o = .reg base)) ∧
    (∀ index o, o ∈ (compute pool code).live index ↔
      ∃ j, index < j ∧ ReadAt pool code j o ∧ ∀ k, index < k → k < j → ¬ DefinedAt pool code k o) ∧
    (∀ o start j, (compute pool code).nextRead o start = some j ↔
      start ≤ j ∧ ReadAt pool code j o ∧ ∀ k, start ≤ k → k < j → ¬ ReadAt pool code k o) ∧
    ∀ index o, o ∈ (compute pool code).live index ↔
      ∃ j, (compute pool code).nextRead o (index + 1) = some j ∧
        ∀ k, index < k → k < j → ¬ DefinedAt pool code k o := by
  have exact_live : ∀ index o, o ∈ (compute pool code).live index ↔
      ∃ j, index < j ∧ ReadAt pool code j o ∧ ∀ k, index < k → k < j → ¬ DefinedAt pool code k o := by
    intro index o
    rw [mem_live_iff, live_drop_iff]
    rfl
  refine ⟨fun i o => mem_reads_iff, exact_live, fun o start j => nextRead_eq_some_iff, fun index o => ?_⟩
  rw [exact_live]
  constructor
  · rintro ⟨j, least, read, kept⟩
    -- the first read is not behind the read `j`, so nothing is defined before it either
    have there : ∃ k, index < k ∧ ReadAt pool code k o := ⟨j, least, read⟩
    classical
    obtain ⟨least', read'⟩ := Nat.find_spec there
    have first : Nat.find there ≤ j := Nat.find_min' there ⟨least, read⟩
    refine ⟨Nat.find there, nextRead_eq_some_iff.mpr ⟨least', read', ?_⟩, ?_⟩
    · intro k more less read
      exact Nat.find_min there less ⟨more, read⟩
    · intro k more less
      exact kept k more (by omega)
  · rintro ⟨j, next, kept⟩
    obtain ⟨least, read, -⟩ := nextRead_eq_some_iff.mp next
    exact ⟨j, least, read, kept⟩

end Liveness

end Codegen86.Allocation
