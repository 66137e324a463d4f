import Codegen86.Proofs.Allocation.Blocks
import Codegen86.Proofs.Allocation.Bookkeeping
import Codegen86.Proofs.Allocation.Rendered
import Codegen86.Proofs.Symbolic.Execution
/-!
# Allocation of a block is correct

A block that has what allocation asks of it (`Allocatable`) is allocated, with any number of registers
from 2 to 64, and the result executes as the block does with an unbounded file of abstract registers
(`allocate_preserves_execution`): it is left in the same way, with the same result, flags, stack and
pushed words, and memory differs at most in spill slots and where calls left it different.
-/

set_option autoImplicit false

namespace Codegen86

open Target Symbolic Allocation

namespace Target.Block

/-- The closing group is a comparison at most, and transfers of control. -/
theorem closing_group (b : Block) {i : Instruction} (mem : i ∈ b.code.drop b.closingStart) :
    i.isTerminator = true ∨ i.isCompare = true := by
  let n := (b.code.reverse.takeWhile Instruction.isTerminator).length
  have few : n ≤ b.code.length := by
    have := (List.takeWhile_sublist Instruction.isTerminator (l := b.code.reverse)).length_le
    simpa [n] using this
  -- the last `n` instructions are the ones that the scan from the end took
  have last : b.code.drop (b.code.length - n) =
      (b.code.reverse.takeWhile Instruction.isTerminator).reverse := by
    have split := List.takeWhile_append_dropWhile (p := Instruction.isTerminator) (l := b.code.reverse)
    have whole : b.code = (b.code.reverse.dropWhile Instruction.isTerminator).reverse ++
        (b.code.reverse.takeWhile Instruction.isTerminator).reverse := by
      rw [← List.reverse_append, split, List.reverse_reverse]
    have size := congrArg List.length whole
    simp only [List.length_append, List.length_reverse] at size
    conv => lhs; arg 2; rw [whole]
    rw [List.drop_append_of_le_length (by simp only [List.length_reverse, n]; omega),
      List.drop_of_length_le (by simp only [List.length_reverse, n]; omega), List.nil_append]
  have transfers : ∀ j ∈ b.code.drop (b.code.length - n), j.isTerminator = true := by
    intro j mem
    rw [last, List.mem_reverse] at mem
    exact List.all_eq_true.mp List.all_takeWhile j mem
  unfold closingStart at mem
  dsimp only at mem
  split at mem
  · rename_i compared
    simp only [Bool.and_eq_true, decide_eq_true_eq] at compared
    obtain ⟨-, compared⟩ := compared
    cases found : (b.code.take (b.code.length - n)).getLast? with
    | none =>
      rw [found] at compared
      cases compared
    | some c =>
      rw [found] at compared
      have there := List.getLast?_eq_some_iff.mp found
      obtain ⟨before, eq⟩ := there
      have size := congrArg List.length eq
      simp only [List.length_take, List.length_append, List.length_singleton] at size
      have whole : b.code = before ++ c :: b.code.drop (b.code.length - n) := by
        conv => lhs; rw [← List.take_append_drop (b.code.length - n) b.code, eq]
        simp
      rw [show b.code.length - n - 1 = before.length by omega, whole, List.drop_left] at mem
      rcases List.mem_cons.mp mem with rfl | mem
      · exact .inr compared
      · exact .inl (transfers i mem)
  · exact .inl (transfers i mem)

theorem closingStart_le (b : Block) : b.closingStart ≤ b.code.length := by
  unfold closingStart
  dsimp only
  split <;> omega

end Target.Block

namespace Allocation

/-- A block's allocation starts from nothing held. -/
theorem Shape.start {E : Setting} {frame : Frame} (base : frame.words.toNat = E.base % 2 ^ 32)
    (journal : Journal) : Shape E (.start E.context E.pool frame journal) where
  residents := .start E.few_largest
  isKey held := by cases held
  dirty mem := by cases mem
  slots := trivial
  frame := by
    show frame.words.toNat = (E.base + 0) % 2 ^ 32
    rw [base, Nat.add_zero]
  poolSize := Nat.le_refl _
  keyed found := by cases found
  unkeyed _ _ := rfl
  original _ found := by cases found
  retarget found := by cases found

/-- States that agree hold the same before anything is in a register. -/
theorem Agree.start {E : Setting} {L : Operand → Prop} {u t : View} (h : Agree E u t)
    {frame : Frame} (journal : Journal) (defined : ∀ o, o.isAbstract = true → ¬ L o) :
    Holds E L (.start E.context E.pool frame journal) u t where
  result := h.result
  stackPointer := h.stackPointer
  basePointer := h.basePointer
  flags := h.flags
  pushed := h.pushed
  held found := by cases found
  saved abstract wanted _ := absurd wanted (defined _ abstract)
  memory tracked outside _ := h.memory tracked outside
  dirtyValid mem := by cases mem

/-- Allocating a block succeeds: code that needs no registers is given out as it is, and the rest is
realized. -/
theorem allocate_rest {E : Setting} {b : Block} {frame : Frame} (journal : Journal)
    {W : View → Prop} {C C' : CallSpec} (calling : Calling E W C C')
    (context : E.context.block = b.name ∧ E.context.liveness = .compute E.pool b.code)
    (base : frame.words.toNat = E.base % 2 ^ 32) {bare rest : List Instruction}
    (split : b.code = bare ++ rest) (needless : ∀ i ∈ bare, Bare E.pool i)
    (ok : ∀ i ∈ rest, Admissible E.pool E.base i)
    (closing : ∀ i ∈ b.code.take b.closingStart, i.isTerminator = false)
    (defined : ∀ o, o.isAbstract = true → ¬ Live E.pool rest o) :
    ∃ t s, t.out.toList = bare ∧ t = { State.start E.context E.pool frame journal with out := t.out } ∧
      b.allocate E.context.registers E.pool frame journal = .ok ({ b with code := s.out.toList }, s) ∧
      Finishes E W C C' rest t s := by
  have shape := Shape.start base journal
  have idle : Idle (.start E.context E.pool frame journal) := ⟨rfl, rfl, rfl, rfl, rfl⟩
  obtain ⟨t, -, eq, out, given⟩ :=
    @Idle.instructions _ E.context 0 idle b.closingStart bare
      (fun i mem => (needless i mem).plain) rest
  have shape' : Shape E t := by
    rw [eq]
    exact ⟨shape.residents, shape.isKey, shape.dirty, shape.slots, shape.frame, shape.poolSize, shape.keyed,
      shape.unkeyed, shape.original, shape.retarget⟩
  have empty : ∀ {key reg}, t.register? key ≠ some reg := by
    intro key reg
    rw [eq]
    exact fun held => by cases held
  have clean : t.dirty = [] := by rw [eq]; rfl
  have size : b.code.length = bare.length + rest.length := by rw [split, List.length_append]
  obtain ⟨s, done, finishes⟩ := instructions_spec bare b.closingStart calling rest
    (split ▸ context.2) ok shape' (fun abstract wanted _ => absurd wanted (defined _ abstract))
    (fun held => absurd held empty) (fun _ => clean) (size ▸ b.closingStart_le)
    (fun p i there transfers => by
      refine Decidable.byContradiction fun early => ?_
      have mem : i ∈ b.code.take b.closingStart := by
        refine List.mem_of_getElem? (i := bare.length + p) ?_
        rw [List.getElem?_take_of_lt (by omega), split, List.getElem?_append_right (Nat.le_add_right _ _),
          Nat.add_sub_cancel_left, there]
      rw [closing i mem] at transfers
      cases transfers)
    (fun p i there late => by
      have mem : i ∈ b.code.drop b.closingStart := by
        refine List.mem_of_getElem? (i := bare.length + p - b.closingStart) ?_
        rw [List.getElem?_drop, Nat.add_sub_cancel' late, split,
          List.getElem?_append_right (Nat.le_add_right _ _), Nat.add_sub_cancel_left, there]
      rcases b.closing_group mem with transfers | compares
      · cases i <;> first | rfl | cases transfers
      · cases i <;> first | rfl | cases compares)
  refine ⟨t, s, by rw [out]; rfl, eq, ?_, finishes⟩
  obtain ⟨name, tables⟩ := context
  have same : E.context = ⟨b.name, .compute E.pool b.code, E.context.registers⟩ := by
    rw [← name, ← tables]
  have finished := finish_ok E.few_largest finishes.shape.residents finishes.empty finishes.clean
  have all : (State.start E.context E.pool frame journal).instructions E.context b.closingStart 0 b.code =
      .ok s := by
    rw [split, given, Nat.zero_add]
    exact done
  rw [same] at all finished
  unfold Block.allocate
  rw [same]
  simp [all, finished, bind, Except.bind, pure, Except.pure]

/-- Allocating a block succeeds and realizes its code. -/
theorem allocate_spec {E : Setting} {b : Block} {frame : Frame} (journal : Journal)
    {W : View → Prop} {C C' : CallSpec} (calling : Calling E W C C')
    (context : E.context.block = b.name ∧ E.context.liveness = .compute E.pool b.code)
    (base : E.base = frame.words.toNat) (ok : ∀ i ∈ b.code, Admissible E.pool E.base i)
    (closing : ∀ i ∈ b.code.take b.closingStart, i.isTerminator = false)
    (defined : ∀ o, o.isAbstract = true → ¬ Live E.pool b.code o) :
    ∃ s, b.allocate E.context.registers E.pool frame journal = .ok ({ b with code := s.out.toList }, s) ∧
      Finishes E W C C' b.code (.start E.context E.pool frame journal) s := by
  obtain ⟨t, s, none, eq, done, finishes⟩ := allocate_rest journal calling context
    (by rw [base, Nat.mod_eq_of_lt frame.words.toNat_lt]) (show b.code = [] ++ b.code from rfl) (by simp) ok closing
    defined
  have none : t.out = #[] := Array.toList_inj.mp none
  obtain rfl : t = State.start E.context E.pool frame journal := eq.trans (by rw [none]; rfl)
  exact ⟨s, done, finishes⟩

/-! ## Blocks that are allocated, and what their allocation preserves -/

end Allocation

namespace Target

/-- What allocation asks of a block in a function with a frame of `frame` words: memory operands are words
of the frame or above it, the base pointer is not written, of the general registers only `R0` occurs,
nothing is popped, jumps and calls have labels, control is transferred only at the end, and abstract
registers are defined by moves before they are read. -/
structure Block.Allocatable (pool : Pool) (frame : Nat) (b : Block) : Prop where
  inPool : ∀ i ∈ b.code, ∀ x ∈ i.operands, x < pool.operands.size
  inFrame : ∀ i ∈ b.code, ∀ x ∈ i.operands, ∀ base off, pool.get x = .mem base off →
    base = .basePointer ∧ -(frame : Int) ≤ off.toInt
  onlyResult : ∀ i ∈ b.code, ∀ x ∈ i.operands, ∀ r, pool.get x = .reg (.physical r) → r = 0
  keepsBase : ∀ i ∈ b.code, i.writesTarget = true → ∀ x, i.operands.head? = some x →
    pool.get x ≠ .reg .basePointer
  noPop : ∀ i ∈ b.code, ∀ x, i ≠ .pop x
  labels : ∀ i ∈ b.code, ∀ x, i.destination? = some x → ∃ l, pool.get x = .label l
  closing : ∀ i ∈ b.code.take b.closingStart, i.isTerminator = false
  defined : ∀ before i after, b.code = before ++ i :: after → ∀ x ∈ i.sources,
    (pool.get x).isAbstract = true → ∃ y z, .mov y z ∈ before ∧ pool.get y = pool.get x

namespace Block.Allocatable

variable {pool : Pool} {frame : Nat} {b : Block}

theorem admissible (h : b.Allocatable pool frame) {i : Instruction} (mem : i ∈ b.code) :
    Admissible pool frame i where
  inside use := h.inPool i mem _ use
  allowed {x} use := by
    cases found : pool.get x with
    | reg r =>
      cases r with
      | physical n => exact h.onlyResult i mem x use n found
      | _ => trivial
    | mem base off => exact h.inFrame i mem x use base off found
    | _ => trivial
  keepsBase writes target := h.keepsBase i mem writes _ target
  noPop := h.noPop i mem
  label destination := h.labels i mem _ destination

/-- What the tables say is read is among the sources. -/
theorem mem_sources (h : b.Allocatable pool frame) {i : Instruction} (mem : i ∈ b.code) {o : Operand}
    (read : o ∈ (Effects.of pool i).reads) :
    ∃ x ∈ i.sources, pool.get x = o := by
  have noBase : ∀ x ∈ i.operands, o ∉ baseReads (pool.get x) := by
    intro x use isBase
    cases found : pool.get x with
    | mem base off =>
      obtain ⟨rfl, -⟩ := h.inFrame i mem x use base off found
      rw [found] at isBase
      simp [baseReads, isTracked, Operand.isMemory, Operand.isAbstract, Register.isAbstract] at isBase
    | _ =>
      rw [found] at isBase
      simp [baseReads] at isBase
  have direct : ∀ x ∈ i.operands, o ∈ operandReads (pool.get x) → pool.get x = o := by
    intro x use read
    rcases List.mem_append.mp read with isBase | same
    · exact absurd isBase (noBase x use)
    · exact (List.mem_singleton.mp (List.mem_filter.mp same).1).symm
  cases i with
  | push x => exact ⟨x, List.mem_cons_self, direct x List.mem_cons_self read⟩
  | mov x y =>
    rcases List.mem_append.mp read with read | isBase
    · exact ⟨y, List.mem_cons_self, direct y (by simp [Instruction.operands]) read⟩
    · exact absurd isBase (noBase x (by simp [Instruction.operands]))
  | arith op x y =>
    rcases List.mem_append.mp read with read | read
    · exact ⟨x, by simp [Instruction.sources], direct x (by simp [Instruction.operands]) read⟩
    · exact ⟨y, by simp [Instruction.sources], direct y (by simp [Instruction.operands]) read⟩
  | cmp x y =>
    rcases List.mem_append.mp read with read | read
    · exact ⟨x, by simp [Instruction.sources], direct x (by simp [Instruction.operands]) read⟩
    · exact ⟨y, by simp [Instruction.sources], direct y (by simp [Instruction.operands]) read⟩
  | _ => cases read

/-- No abstract register is live where the block begins. -/
theorem not_live (h : b.Allocatable pool frame) {o : Operand} (abstract : o.isAbstract = true) :
    ¬ Live pool b.code o := by
  intro live
  obtain ⟨before, i, after, split, read, kept⟩ := live_iff_exists.mp live
  have mem : i ∈ b.code := by simp [split]
  obtain ⟨x, source, rfl⟩ := h.mem_sources mem read
  obtain ⟨y, z, moved, same⟩ := h.defined before i after split x source abstract
  refine kept _ moved ?_
  simp [Effects.of, same, isTracked, abstract]

end Block.Allocatable

end Target

namespace Symbolic

/-- Two start states that differ in registers only. -/
structure SameStart (u t : View) : Prop where
  result : t.general 0 = u.general 0
  stackPointer : t.stackPointer = u.stackPointer
  basePointer : t.basePointer = u.basePointer
  flags : t.flags = u.flags
  memory : t.memory = u.memory
  pushed : t.pushed = u.pushed

/-- The words that both executions have to agree on: those from the bottom of the original frame upwards,
and those below the final frame that calls leave the same. -/
def Compared (calls calls' : Nat → Label → Returned) (base final : Nat) (bp a : Word) : Prop :=
  bp.toInt - base ≤ a.toInt ∨
    a.toInt < bp.toInt - final ∧ ∀ k l, (calls k l).below a = (calls' k l).below a

/-- Two executions that end alike. -/
structure SameEnd (calls calls' : Nat → Label → Returned) (base final : Nat) (e e' : Execution) :
    Prop where
  exit : e'.exit = e.exit
  result : e'.final.general 0 = e.final.general 0
  stackPointer : e'.final.stackPointer = e.final.stackPointer
  basePointer : e'.final.basePointer = e.final.basePointer
  flags : e'.final.flags = e.final.flags
  pushed : e'.final.pushed = e.final.pushed
  memory : ∀ a, Compared calls calls' base final e.final.basePointer a →
    e'.final.memory a = e.final.memory a

/-- The base pointer stays through an admissible block. -/
theorem visited_basePointer {M : Model} {pool : Pool} {base : Nat} {calls : Nat → Label → Returned}
    {k : Nat} {v : View} {code : List Instruction} {e : Execution}
    (ok : ∀ i ∈ code, Admissible pool base i) (done : execute M pool calls k v code = some e) :
    (∀ w ∈ e.visited, w.basePointer = v.basePointer) ∧ e.final.basePointer = v.basePointer :=
  execute_invariant done rfl (fun i mem _ _ same ran => (execute_basePointer (ok i mem) ran).trans same)
    fun _ same => same

end Symbolic

namespace Target

open Symbolic

variable {n : Nat} {b : Block} {pool : Pool} {frame : Frame} {s : State}

/-- What allocation with `n` registers works in, for a run that starts with base pointer `bp`. -/
def Block.setting (n : Nat) (b : Block) (pool : Pool) (frame : Frame) (cap : Nat)
    (valid : Word → Bool) (tracked : Word → Prop) (enough : 2 ≤ n) (few : n ≤ 64)
    (small : cap < 2 ^ 32) : Setting where
  context := ⟨b.name, .compute pool b.code, n⟩
  pool := pool
  base := frame.words.toNat
  cap := cap
  valid := valid
  tracked := tracked
  enough := enough
  few := few
  small := small

/-- The calls of two runs that are given outcomes with the same result and flags. -/
theorem calling_callsTo {E : Setting} {calls calls' : Nat → Label → Returned} (bp : Word)
    (alike : ∀ k l, (calls' k l).result = (calls k l).result ∧ (calls' k l).flags = (calls k l).flags)
    (tracked : ∀ a, E.tracked a → bp.toInt - E.base ≤ a.toInt ∨
      ∀ k l, (calls k l).below a = (calls' k l).below a) (within : E.base ≤ E.cap) :
    Calling E (fun v => v.basePointer = bp ∧ 0 ≤ v.stackPointer.toInt ∧
      v.stackPointer.toInt + E.cap ≤ bp.toInt) (callsTo calls) (callsTo calls') where
  apart := by
    rintro v ⟨rfl, -, apart⟩
    exact apart
  same := by
    rintro k l u t post ⟨rfl, positive, apart⟩ agree spec
    obtain rfl := Option.some.inj spec
    refine ⟨_, rfl, ?_⟩
    rintro r' rfl
    have below : ∀ {a : Word}, a < t.stackPointer ↔ a.toInt < u.stackPointer.toInt := by
      intro a
      rw [agree.stackPointer, Int64.lt_iff_toInt_lt]
    refine ⟨u.afterCall (calls k l), rfl, ⟨(alike k l).1, agree.stackPointer, agree.basePointer,
      (alike k l).2, agree.pushed, ?_⟩, rfl, rfl, ?_⟩
    · intro a watched outside
      have low : a < u.stackPointer ↔ a.toInt < u.stackPointer.toInt := Int64.lt_iff_toInt_lt
      show (if _ then _ else _) = (if _ then _ else _)
      by_cases under : a.toInt < u.stackPointer.toInt
      · rw [if_pos (below.mpr under), if_pos (low.mpr under)]
        rcases tracked a watched with above | same
        · omega
        · exact (same k l).symm
      · rw [if_neg (mt below.mp under), if_neg (mt low.mp under)]
        exact agree.memory watched outside
    · rintro a ⟨j, -, upper, rfl⟩
      have small := E.small
      refine if_neg (mt below.mp ?_)
      rw [Word.toInt_slot (by omega) (by omega)]
      omega

/-- **Block allocation preserves execution.**  A block that has what allocation asks of it is allocated,
and if the block executes from a state, with the stack below the final frame and the base pointer in
memory, then the allocated block executes from a state with the same stack and memory, for all outcomes
of calls that give both the same results and flags, and it ends alike.  The size of a frame has 32 bits, so
that execution is only spoken of where the final frame has less than `2 ^ 32` words. -/
theorem allocate_preserves_execution (enough : 2 ≤ n) (few : n ≤ 64) (journal : Journal)
    (ok : b.Allocatable pool frame.words.toNat) :
    ∃ b' s, b.allocate n pool frame journal = .ok (b', s) ∧
      (frame.words.toNat + s.slots.length < 2 ^ 32 →
        ∀ (words : Nat) (calls calls' : Nat → Label → Returned) (u t : View) (e : Execution),
          (∀ k l, (calls' k l).result = (calls k l).result ∧
            (calls' k l).flags = (calls k l).flags) →
          SameStart u t →
          execute (.machine words true) pool calls 0 u b.code = some e →
          (∀ v ∈ e.visited, 0 ≤ v.stackPointer.toInt ∧
            v.stackPointer.toInt + s.frame.words.toNat ≤ v.basePointer.toInt) →
          u.basePointer.toInt < words →
          ∃ e', execute (.machine words false) s.pool calls' 0 t b'.code = some e' ∧
            SameEnd calls calls' frame.words.toNat s.frame.words.toNat e e') := by
  have defined : ∀ o, o.isAbstract = true → ¬ Live pool b.code o := fun _ => ok.not_live
  have nowhere : ∀ E : Setting, Calling E (fun _ => False) (fun _ _ _ => none) (fun _ _ _ => none) :=
    fun E => ⟨False.elim, fun inside => inside.elim⟩
  obtain ⟨s, done, -⟩ := allocate_spec (E := b.setting n pool frame 0 (fun _ => true) (fun _ => True)
    enough few (by decide)) journal (nowhere _) ⟨rfl, rfl⟩ rfl (fun _ => ok.admissible) ok.closing defined
  refine ⟨_, s, done, fun fits words calls calls' u t e alike start ran stack inside => ?_⟩
  let tracked : Word → Prop := fun a => u.basePointer.toInt - frame.words.toNat ≤ a.toInt ∨
    ∀ k l, (calls k l).below a = (calls' k l).below a
  let E := b.setting n pool frame (frame.words.toNat + s.slots.length)
    (fun a => (a.index? words).isSome) tracked enough few fits
  obtain ⟨s', done', finishes⟩ := allocate_spec (E := E) journal
    (calling_callsTo u.basePointer alike (fun _ watched => watched) (Nat.le_add_right _ _))
    ⟨rfl, rfl⟩ rfl (fun _ => ok.admissible) ok.closing defined
  obtain rfl : s = s' := (Prod.mk.inj (Except.ok.inj (done.symm.trans done'))).2
  have size : s.frame.words.toNat = frame.words.toNat + s.slots.length :=
    finishes.shape.frame.trans (Nat.mod_eq_of_lt fits)
  obtain ⟨same, final⟩ := visited_basePointer (fun _ => ok.admissible) ran
  have visited : ∀ v ∈ e.visited, v.basePointer = u.basePointer ∧ 0 ≤ v.stackPointer.toInt ∧
      v.stackPointer.toInt + E.cap ≤ u.basePointer.toInt := by
    intro v mem
    have := stack v mem
    rw [same v mem, size] at this
    exact ⟨same v mem, this⟩
  have runs := runs_of_execute ran visited
  have first := runs.within
  have room : Room E u.basePointer := by
    refine ⟨fun {j} above below => ?_, fun {off} inFrame valid => .inl ?_⟩
    · have below : j ≤ frame.words.toNat + s.slots.length := below
      have apart : u.stackPointer.toInt + (frame.words.toNat + s.slots.length : Nat) ≤
        u.basePointer.toInt := first.2.2
      have positive := first.2.1
      refine Word.index?_isSome.mpr ?_
      rw [Word.toInt_slot (by omega) (by omega)]
      omega
    · have low : -(frame.words.toNat : Int) ≤ off.toInt := inFrame
      have positive := first.2.1
      have apart : u.stackPointer.toInt + (frame.words.toNat + s.slots.length : Nat) ≤
        u.basePointer.toInt := first.2.2
      rw [Word.toInt_add_of_nonneg (by omega) (Word.index?_isSome.mp valid).1]
      omega
  have holds : Holds E (Live E.pool b.code) (.start E.context E.pool frame journal) u t :=
    Agree.start ⟨start.result, start.stackPointer, start.basePointer, start.flags, start.pushed,
      fun {a} _ _ => congrFun start.memory a⟩ journal defined
  obtain ⟨given, out, runs'⟩ := finishes.realizes (Nat.le_refl _) room
    (fun c v q => absurd rfl (q.2.2 c)) holds runs
  obtain ⟨e', ran', v, ⟨exit, rfl, safe⟩, agree⟩ := execute_of_runs runs'
    fun c w ⟨v, q, _⟩ => q.2.2 c rfl
  have agree := agree.resolve_left fun ⟨c, trapped⟩ => safe c trapped
  refine ⟨e', ?_, exit, agree.result, agree.stackPointer, agree.basePointer, agree.flags, agree.pushed,
    fun a compared => agree.memory ?_ ?_⟩
  · rw [out]
    exact ran'
  · rw [final] at compared
    exact compared.imp_right fun low => low.2
  · rintro ⟨j, above, below, rfl⟩
    rw [final] at compared
    have above : frame.words.toNat < j := above
    have below : j ≤ frame.words.toNat + s.slots.length := below
    have positive := first.2.1
    have apart : u.stackPointer.toInt + (frame.words.toNat + s.slots.length : Nat) ≤
      u.basePointer.toInt := first.2.2
    unfold Compared at compared
    rw [Word.toInt_slot (by omega) (by omega), size] at compared
    omega

/-! ### A value that is kept over a call -/

/-- Define an abstract register, call, return the register's value, and go on. -/
def savedOverCall : Block where
  name := "block"
  code := [.mov 0 1, .call 2, .mov 3 0, .jump 4]

def savedOverCallPool : Pool :=
  ⟨#[.reg (.abstract 0), .imm 5, .symbol "callee", .reg .result, .symbol "next"]⟩

theorem savedOverCall_allocatable : savedOverCall.Allocatable savedOverCallPool 0 where
  inPool := by decide
  inFrame := by
    simp [savedOverCall, savedOverCallPool, Instruction.operands, Pool.get]
    simp [Operand.symbol]
  onlyResult := by
    simp [savedOverCall, savedOverCallPool, Instruction.operands, Pool.get]
    simp [Operand.symbol, Register.result]
  keepsBase := by decide
  noPop := by simp [savedOverCall]
  labels := by
    simp [savedOverCall, savedOverCallPool, Instruction.destination?, Pool.get, Operand.symbol]
  closing := by decide
  defined := by
    intro before i after split x source abstract
    have split : [.mov 0 1, .call 2, .mov 3 0, .jump 4] = before ++ i :: after := split
    rcases before with _ | ⟨a, _ | ⟨b, _ | ⟨c, _ | ⟨d, rest⟩⟩⟩⟩
    · obtain ⟨rfl, -⟩ := List.cons.inj split
      obtain rfl := List.mem_singleton.mp source
      cases abstract
    · obtain ⟨-, split⟩ := List.cons.inj split
      obtain ⟨rfl, -⟩ := List.cons.inj split
      cases source
    · obtain ⟨first, split⟩ := List.cons.inj split
      obtain ⟨-, split⟩ := List.cons.inj split
      obtain ⟨rfl, -⟩ := List.cons.inj split
      obtain rfl := List.mem_singleton.mp source
      subst first
      exact ⟨0, 1, List.mem_cons_self, rfl⟩
    · simp at split
      obtain ⟨-, -, -, rfl, -⟩ := split
      cases source
    · simp at split

/-- The call leaves other registers and other words below the stack pointer in the two runs. -/
theorem savedOverCall_executes :
    let start : View :=
      { general := fun _ => 0, locals := fun _ => 0, stackPointer := 10, basePointer := 20,
        memory := fun _ => 0, flags := .eq }
    let calls (rest : Word) (_ : Nat) (_ : Label) : Returned :=
      { result := 3, flags := .lt, general := fun _ => rest, below := fun _ => rest }
    ∃ b' s e', savedOverCall.allocate 2 savedOverCallPool {} {} = .ok (b', s) ∧
      execute (.machine 32 false) s.pool (calls 2) 0 start b'.code = some e' ∧
      e'.exit = .jump { name := "next" } ∧ e'.final.general 0 = 5 := by
  intro start calls
  have ok : savedOverCall.Allocatable savedOverCallPool ({} : Frame).words.toNat :=
    savedOverCall_allocatable
  obtain ⟨b', s, done, preserves⟩ := allocate_preserves_execution (n := 2) (by decide) (by decide) {} ok
  have size : s.slots.length = 1 ∧ s.frame.words.toNat = 1 := by
    have sizes : (savedOverCall.allocate 2 savedOverCallPool {} {}).toOption.map
        (fun r => (r.2.slots.length, r.2.frame.words.toNat)) = some (1, 1) := by decide +kernel
    rw [done] at sizes
    simpa [Except.toOption] using sizes
  let defined : View := { start with locals := put start.locals 0 5 }
  let called := defined.afterCall (calls 1 0 { name := "callee" })
  let final : View := { called with general := put called.general 0 5 }
  have ran : execute (.machine 32 true) savedOverCallPool (calls 1) 0 start savedOverCall.code =
      some ⟨[start, defined, called, final], .jump { name := "next" }, final⟩ := rfl
  obtain ⟨e', ran', same⟩ := preserves (by rw [size.1]; decide) 32 (calls 1) (calls 2) start start _
    (fun _ _ => ⟨rfl, rfl⟩) ⟨rfl, rfl, rfl, rfl, rfl, rfl⟩ ran (by
      rw [size.2]
      have stays : ∀ v ∈ [start, defined, called, final], v.stackPointer = 10 ∧ v.basePointer = 20 := by
        simp [start, defined, called, final, View.afterCall]
      intro v mem
      obtain ⟨stack, base⟩ := stays v mem
      rw [stack, base]
      decide) (by decide)
  exact ⟨b', s, e', done, ran', same.exit, same.result⟩

end Target

end Codegen86
