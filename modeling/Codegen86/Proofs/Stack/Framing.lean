import Codegen86.Proofs.Stack.Contained
/-!
# Functions around their frames

The first block of a function saves the base pointer, makes it point there and reserves the frame; the last one
releases the frame, restores the base pointer and returns.  Everything between keeps to the frame and the
arguments.  `Framing` says so of a function; that the frame is reserved, or released, is left open where the
frame has no words, for there the instruction may be dropped.
-/

set_option autoImplicit false

namespace Codegen86.Stack

open Target

variable {get get' : OperandRef → Operand} {params : Nat → Prop} {words : Nat} {frame : OperandRef}
  {entry exit_ kept : Bool} {op : Arith} {code : List Instruction} {t : Function} {o o' : Operand}

/-- The instruction that adds the immediate at `frame` to the stack pointer, or subtracts it; or nothing. -/
inductive Adjusts (get : OperandRef → Operand) (op : Arith) (frame : OperandRef) :
    Bool → List Instruction → Prop
  | kept {stack : OperandRef} (is : get stack = .reg .stackPointer) :
      Adjusts get op frame true [.arith op stack frame]
  | dropped : Adjusts get op frame false []

/-- A first block: it saves the base pointer, makes it point there and subtracts the operand at `frame` from the
stack pointer, if that instruction is `kept`.  Then it runs `body`. -/
structure Enters (get : OperandRef → Operand) (frame : OperandRef) (kept : Bool)
    (body code : List Instruction) : Prop where
  split : ∃ saved base top reserve, code = [.push saved, .mov base top] ++ reserve ++ body ∧
    get saved = .reg .basePointer ∧ get base = .reg .basePointer ∧ get top = .reg .stackPointer ∧
    Adjusts get .sub frame kept reserve

/-- A last block: it adds the operand at `frame` to the stack pointer, if that instruction is `kept`, restores the
base pointer and returns. -/
structure Leaves (get : OperandRef → Operand) (frame : OperandRef) (kept : Bool) (code : List Instruction) :
    Prop where
  split : ∃ release saved, code = release ++ [.pop saved, .ret] ∧ Adjusts get .add frame kept release ∧
    get saved = .reg .basePointer

/-- A function with a frame of `words` words, the size of which is at `frame`. -/
structure Framing (get : OperandRef → Operand) (params : Nat → Prop) (words : Nat) (frame : OperandRef)
    (entry exit_ : Bool) (t : Function) : Prop where
  framed : t.frame = some frame
  size : t.frameSize.toNat = words % 2 ^ 32
  amount : get frame = .imm (Word.ofNat t.frameSize.toNat)
  blocks : ∃ first body middle last, t.blocks = first :: middle ++ [last] ∧
    Enters get frame entry body first.code ∧ (∀ i ∈ body, Contained get params words i) ∧
    (∀ b ∈ middle, ∀ i ∈ b.code, Contained get params words i) ∧ Leaves get frame exit_ last.code
  empty : (entry && exit_) = false → t.frameSize = 0

/-! ## Other operands -/

/-- The operand is the same, or another label. -/
inductive Relabels : Operand → Operand → Prop
  | same {o : Operand} : Relabels o o
  | label {l l' : Label} : Relabels (.label l) (.label l')

theorem Relabels.trans {o'' : Operand} (h : Relabels o o') (h' : Relabels o' o'') : Relabels o o'' := by
  cases h with
  | same => exact h'
  | label =>
    cases h' with
    | same => exact .label
    | label => exact .label

/-- A label is changed, to another one. -/
theorem relabels_set {pool : Pool} {x : OperandRef} {l : Label} (is : pool.get x = .label l) (l' : Label)
    (y : OperandRef) : Relabels (pool.get y) ((pool.set x (.label l')).get y) := by
  have inside : x < pool.operands.size := by
    refine Nat.lt_of_not_le fun outside => ?_
    rw [Pool.get, Array.getD_eq_getD_getElem?, Array.getElem?_eq_none outside] at is
    cases is
  rw [Pool.get_set _ _ _ inside]
  split
  · rename_i same
    rw [same, is]
    exact .label
  · exact .same

theorem Relabels.eq (h : Relabels o o') (plain : ∀ l, o ≠ .label l) : o' = o := by
  cases h with
  | same => rfl
  | label => exact absurd rfl (plain _)

theorem Relabels.visible (h : Relabels o o') (visible : Visible params words o) : Visible params words o' := by
  cases h with
  | same => exact visible
  | label => trivial

theorem Relabels.owned (h : Relabels o o') (owned : Owned words o) : Owned words o' := by
  cases h with
  | same => exact owned
  | label => trivial

section

variable (same : ∀ x, (x = frame ∨ ∃ i ∈ code, x ∈ i.operands) → Relabels (get x) (get' x))
include same

theorem Contained.relabel {i : Instruction} (mem : i ∈ code) (h : Contained get params words i) :
    Contained get' params words i :=
  ⟨fun x use => (same x (.inr ⟨i, mem, use⟩)).visible (h.reads x use), fun x written =>
    (same x (.inr ⟨i, mem, Instruction.mem_of_written written⟩)).owned (h.writes x written)⟩

theorem Adjusts.relabel {part : List Instruction} (mem : ∀ i ∈ part, i ∈ code)
    (h : Adjusts get op frame kept part) : Adjusts get' op frame kept part := by
  cases h with
  | kept is =>
    refine .kept (((same _ (.inr ⟨_, mem _ List.mem_cons_self, List.mem_cons_self⟩)).eq ?_).trans is)
    rw [is]
    exact nofun
  | dropped => exact .dropped

theorem get_of_relabels {i : Instruction} {x : OperandRef} {r : Register} (mem : i ∈ code)
    (use : x ∈ i.operands) (is : get x = .reg r) : get' x = .reg r := by
  refine ((same _ (.inr ⟨i, mem, use⟩)).eq ?_).trans is
  rw [is]
  exact nofun

theorem Enters.relabel {body : List Instruction} (h : Enters get frame kept body code) :
    Enters get' frame kept body code := by
  obtain ⟨saved, base, top, reserve, rfl, isSaved, isBase, isTop, adjusts⟩ := h.split
  have push : get' saved = .reg .basePointer := get_of_relabels same (i := .push saved) (by simp) (by
    simp [Instruction.operands]) isSaved
  have mov : ∀ {x r}, x ∈ [base, top] → get x = .reg r → get' x = .reg r := fun use is =>
    get_of_relabels same (i := .mov base top) (by simp) use is
  exact ⟨saved, base, top, reserve, rfl, push, mov (by simp) isBase, mov (by simp) isTop,
    adjusts.relabel same (by simp +contextual)⟩

theorem Leaves.relabel (h : Leaves get frame kept code) : Leaves get' frame kept code := by
  obtain ⟨release, saved, rfl, adjusts, isSaved⟩ := h.split
  exact ⟨release, saved, rfl, adjusts.relabel same (by simp +contextual),
    get_of_relabels same (i := .pop saved) (by simp) (by simp [Instruction.operands]) isSaved⟩

end

/-- The size of the frame is an operand of the prologue. -/
theorem Framing.used (h : Framing get params words frame true exit_ t) : ∃ i ∈ t.code, frame ∈ i.operands := by
  obtain ⟨first, body, middle, last, blocks, enters, -⟩ := h.blocks
  obtain ⟨saved, base, top, reserve, code, -, -, -, adjusts⟩ := enters.split
  cases adjusts with
  | @kept stack is =>
    refine ⟨.arith .sub stack frame, List.mem_flatMap.mpr ⟨first, by simp [blocks], by simp [code]⟩, ?_⟩
    simp [Instruction.operands]

/-- Only operands that the function refers to count, and labels do not. -/
theorem Framing.relabel (h : Framing get params words frame entry exit_ t)
    (same : ∀ x, (x = frame ∨ ∃ i ∈ t.code, x ∈ i.operands) → Relabels (get x) (get' x)) :
    Framing get' params words frame entry exit_ t := by
  obtain ⟨first, body, middle, last, blocks, enters, opened, contained, leaves⟩ := h.blocks
  obtain ⟨saved, base, top, reserve, code, -⟩ := enters.split
  have same : ∀ b ∈ t.blocks, ∀ x, (x = frame ∨ ∃ i ∈ b.code, x ∈ i.operands) → Relabels (get x) (get' x) := by
    rintro b block x (rfl | ⟨i, mem, use⟩)
    · exact same x (.inl rfl)
    · exact same x (.inr ⟨i, List.mem_flatMap.mpr ⟨b, block, mem⟩, use⟩)
  rw [blocks] at same
  refine ⟨h.framed, h.size, ?_, ⟨first, body, middle, last, blocks, enters.relabel (same first (by simp)),
    fun i mem => (opened i mem).relabel (same first (by simp)) (by rw [code]; exact List.mem_append_right _ mem),
    fun b mem i code => (contained b mem i code).relabel (same b (by simp [mem])) code,
    leaves.relabel (same last (by simp))⟩, h.empty⟩
  refine ((same first (by simp) frame (.inl rfl)).eq ?_).trans h.amount
  rw [h.amount]
  exact nofun

end Codegen86.Stack
