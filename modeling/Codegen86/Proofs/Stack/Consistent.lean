import Codegen86.Proofs.IR.Built
import Codegen86.Proofs.Peephole.Exhausted
import Codegen86.Proofs.Stack.Compiles
import Codegen86.Proofs.Stack.Trimmed
import Mathlib
/-!
# Frames of compiled programs

The size of a function's frame is settled when its last block is allocated, and it is one operand of the pool
that prologue and epilogue share.  `FrameConsistent` puts together what the frame of a compiled function is
like: the prologue reserves it and the epilogue releases it; every word of memory that the code names is in it
or is an argument; and whatever has a slot in it has a word of its own (`compiled_frames_consistent`).
-/

set_option autoImplicit false

namespace Codegen86.Stack

open Target Selection Peephole

/-- Whether the instructions that reserve and release the frame are kept: all but those of a frame without words,
which the optimizer takes out. -/
def keeps (optimized : Bool) (t : Function) : Bool := !(optimized && t.frameSize == 0)

/-- The frame of a compiled function with `arity` parameters.  The operand that prologue and epilogue
share is its size; of the words of memory that the code names, those below the base pointer are in it and those
above are arguments, which are not written; and its slots are different words of it. -/
structure FrameConsistent (pool : Pool) (optimized : Bool) (arity : Nat) (slots : Slots) (t : Function) :
    Prop where
  size : t.frameSize.toNat = slots.length
  around : ∃ frame first body middle last, t.frame = some frame ∧
    pool.get frame = .imm (Word.ofNat t.frameSize.toNat) ∧ t.blocks = first :: middle ++ [last] ∧
    Enters pool.get frame (keeps optimized t) body first.code ∧
    Leaves pool.get frame (keeps optimized t) last.code
  reads : ∀ i ∈ t.code, ∀ x ∈ i.operands, ∀ base offset, pool.get x = .mem base offset →
    base = .basePointer ∧ (-(t.frameSize.toNat : Int) ≤ offset.toInt ∧ offset.toInt ≤ -1 ∨
      2 ≤ offset.toInt ∧ offset.toInt ≤ 1 + (arity : Int))
  writes : ∀ i ∈ t.code, ∀ x, i.written? = some x → ∀ base offset, pool.get x = .mem base offset →
    offset.toInt ≤ -1
  owners : (slots.map (·.1)).Nodup
  apart : (slots.map (·.2)).Nodup
  inside : ∀ slot ∈ slots, -(t.frameSize.toNat : Int) ≤ slot.2.toInt ∧ slot.2.toInt ≤ -1

/-! ## What is named of memory -/

variable {get : OperandRef → Operand} {params : Nat → Prop} {words : Nat} {frame x : OperandRef}
  {entry exit_ kept : Bool} {t : Function} {i : Instruction} {offset : Word}

theorem InFrame.bounds (small : words < 2 ^ 32) (h : InFrame words offset) :
    -(words : Int) ≤ offset.toInt ∧ offset.toInt ≤ -1 := by
  obtain ⟨j, least, most, rfl⟩ := h
  rw [Nat.mod_eq_of_lt (by omega), Word.toInt_neg_ofNat (by omega)]
  omega

theorem IsArgument.bounds {arity : Nat} (few : arity ≤ 2 ^ 32) (known : ∀ i, params i → i < arity)
    (h : IsArgument params offset) : 2 ≤ offset.toInt ∧ offset.toInt ≤ 1 + (arity : Int) := by
  obtain ⟨i, param, rfl⟩ := h
  have less := known i param
  rw [Calling.argBase, Word.toInt_ofNat (by omega)]
  omega

/-- An instruction that names of memory only words of the frame and arguments, and writes only the former. -/
structure Local (get : OperandRef → Operand) (params : Nat → Prop) (words : Nat) (i : Instruction) : Prop where
  reads : ∀ x ∈ i.operands, Visible params words (get x)
  writes : ∀ x, i.written? = some x → ∀ base offset, get x = .mem base offset → InFrame words offset

theorem Contained.local (h : Contained get params words i) : Local get params words i :=
  ⟨h.reads, fun x written base offset is => by
    have owned := h.writes x written
    rw [is] at owned
    exact owned.2⟩

/-- An instruction that names nothing of memory. -/
theorem local_of_bare (bare : ∀ x ∈ i.operands, (get x).isMemory = false) : Local get params words i := by
  refine ⟨fun x use => ?_, fun x written base offset is => ?_⟩
  · have := bare x use
    cases found : get x with
    | mem base offset =>
      rw [found] at this
      cases this
    | _ => trivial
  · have := bare x (Instruction.mem_of_written written)
    rw [is] at this
    cases this

theorem Adjusts.local {op : Arith} {code : List Instruction} (h : Adjusts get op frame kept code) {w : Word}
    (amount : get frame = .imm w) (mem : i ∈ code) : Local get params words i := by
  cases h with
  | kept is =>
    obtain rfl := List.mem_singleton.mp mem
    refine local_of_bare fun x use => ?_
    rcases List.mem_pair.mp use with rfl | rfl
    · rw [is]
      rfl
    · rw [amount]
      rfl
  | dropped => cases mem

theorem Framing.local (h : Framing get params words frame entry exit_ t) (mem : i ∈ t.code) :
    Local get params words i := by
  have bare : ∀ {j : Instruction}, (∀ x ∈ j.operands, ∃ r, get x = .reg r) →
      Local get params words j := fun regs => local_of_bare fun x use => by
    obtain ⟨r, is⟩ := regs x use
    rw [is]
    rfl
  obtain ⟨first, body, middle, last, blocks, enters, opened, contained, leaves⟩ := h.blocks
  obtain ⟨saved, base, top, reserve, enter, isSaved, isBase, isTop, adjusts⟩ := enters.split
  obtain ⟨release, saved', leave, adjusts', isSaved'⟩ := leaves.split
  obtain ⟨b, block, mem⟩ := List.mem_flatMap.mp mem
  rw [blocks] at block
  simp only [List.cons_append, List.mem_cons, List.mem_append, List.not_mem_nil, or_false] at block
  rcases block with rfl | block | rfl
  · rw [enter] at mem
    simp only [List.mem_append, List.mem_cons, List.not_mem_nil, or_false] at mem
    rcases mem with ((rfl | rfl) | mem) | mem
    · exact bare (by simp [Instruction.operands, isSaved])
    · exact bare (by simp [Instruction.operands, isBase, isTop])
    · exact adjusts.local h.amount mem
    · exact (opened i mem).local
  · exact (contained b block i mem).local
  · rw [leave] at mem
    simp only [List.mem_append, List.mem_cons, List.not_mem_nil, or_false] at mem
    rcases mem with mem | rfl | rfl
    · exact adjusts'.local h.amount mem
    · exact bare (by simp [Instruction.operands, isSaved'])
    · exact bare (by simp [Instruction.operands])

/-! ## The last stages -/

/-- Where no rule applies, a frame without words is neither reserved nor released. -/
theorem Framing.exhausted {pool : Pool} (h : Framing pool.get params words frame entry exit_ t)
    (exhausted : ∀ b ∈ t.blocks, ∃ next, Exhausted Rule.all pool next b.code) :
    Framing pool.get params words frame (keeps true t) (keeps true t) t := by
  obtain ⟨first, body, middle, last, blocks, enters, opened, contained, leaves⟩ := h.blocks
  obtain ⟨saved, base, top, reserve, enter, -, -, -, adjusts⟩ := enters.split
  obtain ⟨release, saved', leave, adjusts', -⟩ := leaves.split
  have amount := h.amount
  by_cases empty : t.frameSize = 0
  · have none : keeps true t = false := by simp [keeps, empty]
    rw [empty] at amount
    have entry : entry = false := by
      cases adjusts with
      | dropped => rfl
      | kept is =>
        obtain ⟨next, exhausted⟩ := exhausted first (by simp [blocks])
        rw [enter, List.append_assoc] at exhausted
        exact absurd amount (exhausted.nonzero (.inr rfl))
    have exit_ : exit_ = false := by
      cases adjusts' with
      | dropped => rfl
      | kept is =>
        obtain ⟨next, exhausted⟩ := exhausted last (by simp [blocks])
        rw [leave] at exhausted
        exact absurd amount (@Exhausted.nonzero pool next [] _ _ _ _ exhausted (.inl rfl))
    subst entry exit_
    rwa [none]
  · have some : keeps true t = true := by simp [keeps, empty]
    have both : (entry && exit_) = true := by
      cases same : entry && exit_ with
      | true => rfl
      | false => exact absurd (h.empty same) empty
    rw [Bool.and_eq_true] at both
    obtain ⟨rfl, rfl⟩ := both
    rwa [some]

/-- What is known of the frame of the function of a name: it is that of a function of the source, and its slots
follow each other. -/
def Houses (source : IR.Program) (all : List (String × Slots)) (name : String) (params : Nat → Prop)
    (words : Nat) : Prop :=
  ∃ f slots, source.function? name = some f ∧ all.lookup name = some slots ∧ (∃ pl, Placed f pl) ∧
    SlotsAfter 0 slots ∧ (slots.map (·.1)).Nodup ∧ params = f.Reads ∧ words = slots.length

/-- The functions of a compiled program are around their frames. -/
theorem compile_framed {config : Config} {source : IR.Program} {a : Assembled}
    (ok : compile config source = .ok a) : ∃ all, frameSlots config source = .ok all ∧
      ∀ t ∈ a.program.functions, ∃ params words frame, Houses source all t.name params words ∧
        Framing a.program.pool.get params words frame (keeps config.optimize t) (keeps config.optimize t) t := by
  obtain ⟨p, log, p', log', valid, selects, allocated, assembled⟩ := compile_stages ok
  obtain ⟨-, few, -⟩ := config.validate_eq_ok_iff.mp valid
  obtain ⟨reserved, listed, selected⟩ := select_spec selects
  obtain ⟨all, listed', housed⟩ := allocated_housed selected few allocated
  have framed : ∀ t ∈ p'.functions, ∃ params words frame, Houses source all t.name params words ∧
      Framing p'.pool.get params words frame true true t := by
    intro t mem
    obtain ⟨f, slots, origin, found, placed, housed⟩ := housed t mem
    obtain ⟨frame, framing⟩ := housed.framing
    exact ⟨_, _, frame, ⟨f, slots, origin, found, placed, housed.placed, housed.owners, rfl, rfl⟩, framing⟩
  have optimized : ∀ t ∈ (optimizeIf config.optimize p' log').1.functions, ∃ params words frame,
      Houses source all t.name params words ∧
      Framing (optimizeIf config.optimize p' log').1.pool.get params words frame (keeps config.optimize t)
        (keeps config.optimize t) t := by
    cases config.optimize with
    | false => exact framed
    | true =>
      have start : AllFramed (Houses source all) p' := fun t mem =>
        Exists.elim (framed t mem) fun params more => Exists.elim more fun words more =>
          Exists.elim more fun frame both => ⟨params, words, frame, true, true, both⟩
      intro t mem
      obtain ⟨params, words, frame, entry, exit_, house, framing⟩ :=
        start.optimize Rule.all log' t mem
      exact ⟨params, words, frame, house, framing.exhausted fun b block =>
        (optimize_atRest Rule.all p' log' t mem).exhausted block⟩
  obtain ⟨q, placed, functions, relabelled⟩ := assemble_relabelled assembled
  refine ⟨all, bind_ok.mpr ⟨_, listed, bind_ok.mpr ⟨_, selects, listed'⟩⟩, fun t mem => ?_⟩
  rw [functions] at mem
  obtain ⟨params, words, frame, house, framing⟩ :=
    optimized t ((Program.placeEntryFirst_perm placed).mem_iff.mp mem)
  exact ⟨params, words, frame, house, framing.relabel fun x _ => relabelled.get x⟩

/-! ## Frames -/

/-- Of a function that was built, the arguments that its code may read are its own. -/
theorem lt_arity_of_reads {f : IR.Function} (built : f.Built) {pl : Placement} (placed : Placed f pl) {k : Nat}
    (reads : f.Reads k) : k < f.arity := by
  rcases reads with less | ⟨v, arg⟩
  · exact less
  · refine (built.args arg).resolve_right fun mem => ?_
    obtain ⟨b, block, inside⟩ := List.mem_flatMap.mp mem
    obtain ⟨before, after, split⟩ := List.append_of_mem inside
    obtain ⟨op, listed⟩ := placed.listed b block before v after split
    rw [listed.found] at arg
    exact listed.noArg k (Option.some.inj arg)

/-- **Frames of compiled programs are consistent.**  Of every function of the result, the size of its frame is the
number of its slots, which are words of their own in it; the prologue reserves it and the epilogue releases it;
and its code names no words of memory but those of the frame and its arguments, and writes none of these.  Sizes
of frames have 32 bits, so there must be fewer slots. -/
theorem compiled_frames_consistent {config : Config} {source : IR.Program} {a : Assembled}
    (built : ∀ f ∈ source.functions, f.Built) (ok : compile config source = .ok a) :
    ∃ all, frameSlots config source = .ok all ∧ ∀ t ∈ a.program.functions, ∃ f slots,
      source.function? t.name = some f ∧ all.lookup t.name = some slots ∧
      (slots.length < 2 ^ 32 → FrameConsistent a.program.pool config.optimize f.arity slots t) := by
  obtain ⟨all, listed, framed⟩ := compile_framed ok
  refine ⟨all, listed, fun t mem => ?_⟩
  obtain ⟨_, _, frame, ⟨f, slots, origin, found, ⟨pl, placed⟩, after, owners, rfl, rfl⟩, framing⟩ := framed t mem
  refine ⟨f, slots, origin, found, fun small => ?_⟩
  have built := built f (IR.Program.mem_of_function? origin)
  have size : t.frameSize.toNat = slots.length := framing.size.trans (Nat.mod_eq_of_lt small)
  have within : 0 + slots.length < 2 ^ 32 := by rwa [Nat.zero_add]
  obtain ⟨first, body, middle, last, blocks, enters, -, -, leaves⟩ := framing.blocks
  refine ⟨size, ⟨frame, first, body, middle, last, framing.framed, framing.amount, blocks, enters, leaves⟩,
    fun i mem x use base offset is => ?_, fun i mem x written base offset is => ?_, owners, after.nodup within,
    fun slot mem => ?_⟩
  · have visible := (framing.local mem).reads x use
    rw [is] at visible
    rw [size]
    refine ⟨visible.1, visible.2.imp (·.bounds small) fun arg => ?_⟩
    exact arg.bounds built.arity_le fun k reads => lt_arity_of_reads built placed reads
  · exact (((framing.local mem).writes x written base offset is).bounds small).2
  · have bounds := after.bounds within mem
    rwa [Nat.zero_add, ← size] at bounds

/-- A function with a value that is used in another block, a local variable, and more values at a time than two
registers hold. -/
def sums : IR.Program where
  functions := [{
    name := "main"
    arity := 2
    blocks := [{ name := "entry", body := [2, 3, 4, 5, 6] }, { name := "next", body := [7, 8, 9] }]
    values := #[{ op := .arg 0 }, { op := .arg 1 }, { op := .alloca 8 }, { op := .binary (.arith .mul) 0 1 },
      { op := .store 2 0 }, { op := .binary (.arith .add) 3 0 }, { op := .jump 1 }, { op := .load 2 },
      { op := .binary (.arith .add) 7 5 }, { op := .retValue 8 }] }]

theorem sums_built : ∀ f ∈ sums.functions, f.Built := by
  have start : (((IR.Builder.start "main" 2).block "entry").2.block "next").2.Filling 2 0 :=
    ⟨((IR.Builder.Made.start (by decide)).block _).block _, rfl, rfl⟩
  have entry := ((((start.push (by decide) (.alloca 8)).push (by decide) (.binary (.arith .mul) 0 1)).push (by decide)
    (.store 2 0)).push (by decide) (.binary (.arith .add) 3 0)).push (by decide) (.jump 1)
  have next := (((entry.switchTo 1).push (by decide) (.load 2)).push (by decide) (.binary (.arith .add) 7 5)).push
    (by decide) (.retValue 8)
  intro f mem
  obtain rfl := List.mem_singleton.mp mem
  exact ⟨_, next.made, by decide +kernel⟩

/-- Its frame has a word for each of them. -/
def sumsSlots : Slots :=
  [(.home 5, -1), (.alloca 2, -2), (.spilled "main$entry2" (.reg (.abstract 3)), -3)]

theorem sums_slots : frameSlots { registers := 2 } sums = .ok [("main", sumsSlots)] := by
  -- evaluating the run takes the equations of library functions, for which Mathlib is imported whole
  cbv

theorem sums_frame_consistent : ∃ a, compile { registers := 2 } sums = .ok a ∧
    frameSlots { registers := 2 } sums = .ok [("main", sumsSlots)] ∧
    ∀ t ∈ a.program.functions, FrameConsistent a.program.pool true 2 sumsSlots t := by
  obtain ⟨listing, -, rest⟩ := bind_ok.mp sums_slots
  obtain ⟨⟨p, journal⟩, selected, -⟩ := bind_ok.mp rest
  have plain : ∀ f ∈ sums.functions, '$' ∉ f.name.toList := by
    intro f mem
    obtain rfl := List.mem_singleton.mp mem
    simp
  obtain ⟨a, compiled⟩ := compiles_of_selected plain (by decide) selected
  obtain ⟨all, same, consistent⟩ := compiled_frames_consistent sums_built compiled
  obtain rfl : [("main", sumsSlots)] = all := Except.ok.inj (sums_slots.symm.trans same)
  refine ⟨a, compiled, sums_slots, fun t mem => ?_⟩
  obtain ⟨f, slots, origin, found, consistent⟩ := consistent t mem
  obtain ⟨named, rfl⟩ : t.name = "main" ∧ slots = sumsSlots := by
    simpa using mem_of_lookup found
  have function : sums.function? "main" = sums.functions.head? := rfl
  rw [named, function] at origin
  cases origin
  exact consistent (by decide)

end Codegen86.Stack
