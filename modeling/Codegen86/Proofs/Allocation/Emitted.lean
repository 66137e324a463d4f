import Codegen86.Proofs.Allocation.Bookkeeping
import Codegen86.Proofs.Allocation.Idle
import Codegen86.Proofs.Frames
/-!
# What the allocation of a block gives out

Every operand that is given out for a block is a register that is allocated, a slot that was reserved for a
spilled value, or an operand of the block that is no abstract register (`Emitted`, `Supplied`); labels of
jumps and calls aside.  Operands in the pool only come to name registers (`Named`).  A block without
abstract registers is given out as it is (`Block.allocate_plain`).
-/

set_option autoImplicit false

namespace Codegen86

open Target

namespace Allocation

/-! ## Step by step -/

/-- All that is given out fits, and slots are handed out one after another behind the `words` of the frame. -/
structure Work.Emitted (W : Work) (words : Nat) (s : State) : Prop where
  fits : ∀ i ∈ s.out.toList, ∀ x ∈ i.operands, W.Fits s i.destination?.isSome x
  slots : SlotsAfter words s.slots.reverse
  frame : s.frame.words.toNat = (words + s.slots.length) % 2 ^ 32

namespace Work

variable {W : Work} {s s' : State} {words : Nat}

/-- Nothing is given out, and no slot is reserved. -/
theorem Emitted.grow (h : W.Emitted words s) (grown : Grown s s') (out : s'.out = s.out)
    (slots : s'.slots = s.slots) (frame : s'.frame = s.frame) : W.Emitted words s' :=
  ⟨fun i mem x use => grown.fits (h.fits i (out ▸ mem) x use), slots ▸ h.slots, by rw [slots, frame, h.frame]⟩

theorem Step.emitted (regular : W.Regular s) (step : W.Step s s') (h : W.Emitted words s) :
    W.Emitted words s' := by
  have grown := step.grown regular
  cases step with
  | bind | unbind | move | soil | store | operand | name | split | note => exact h.grow grown rfl rfl rfl
  | @emit i fits =>
    refine ⟨fun j mem x use => ?_, h.slots, h.frame⟩
    rcases List.mem_append.mp (by simpa [State.emit] using mem : j ∈ s.out.toList ++ [i]) with mem | mem
    · exact grown.fits (h.fits j mem x use)
    · cases List.mem_singleton.mp mem
      exact grown.fits (fits x use)
  | @reserve key known new =>
    obtain ⟨offset, more⟩ := Frame.reserve_spec h.frame
    refine ⟨fun i mem x use => grown.fits (h.fits i mem x use), ?_, ?_⟩
    · rw [List.reverse_cons]
      exact h.slots.snoc key (by rw [List.length_reverse, offset])
    · rw [List.length_cons, ← Nat.add_assoc]
      exact more

theorem Steps.emitted (steps : W.Steps s s') (regular : W.Regular s) (h : W.Emitted words s) :
    W.Emitted words s' := by
  induction steps with
  | refl => exact h
  | tail before step ih => exact step.emitted (Steps.regular before regular) ih

theorem Emitted.start (pool : Pool) (frame : Frame) (journal : Journal) :
    W.Emitted frame.words.toNat (.start W.context pool frame journal) where
  fits i mem := by simp [State.start] at mem
  slots := trivial
  frame := by
    show frame.words.toNat = (frame.words.toNat + 0) % 2 ^ 32
    have := frame.words.toNat_lt
    omega

end Work

/-! ## Operands before and after -/

/-- An operand stays, but for an abstract register, which may come to be one of `R1` to `Rn`. -/
def Named (n : Nat) (o o' : Operand) : Prop :=
  o' = o ∨ o.isAbstract = true ∧ ∃ r, (1 ≤ r ∧ r ≤ n) ∧ o' = .reg (.physical r)

/-- What is given out for code with operands `given`: its own operands, registers, slots behind `words` words of
the frame, and immediates. -/
inductive Supplied (given : Operand → Prop) (n words count : Nat) : Operand → Prop
  | own {o : Operand} (there : given o) (concrete : o.isAbstract = false) : Supplied given n words count o
  | register {r : Nat} (bounds : 1 ≤ r ∧ r ≤ n) : Supplied given n words count (.reg (.physical r))
  | slot {j : Nat} (least : words < j) (most : j ≤ words + count) :
      Supplied given n words count (.frameSlot (-Word.ofNat (j % 2 ^ 32)))
  | immediate {w : Word} : Supplied given n words count (.imm w)

theorem Supplied.concrete {given : Operand → Prop} {n words count : Nat} {o : Operand}
    (h : Supplied given n words count o) : o.isAbstract = false := by
  cases h with
  | own there concrete => exact concrete
  | _ => rfl

theorem Supplied.mono {given : Operand → Prop} {n words count words' count' : Nat} {o : Operand}
    (h : Supplied given n words' count' o) (least : words ≤ words') (most : words' + count' ≤ words + count) :
    Supplied given n words count o := by
  cases h with
  | own there concrete => exact .own there concrete
  | register bounds => exact .register bounds
  | slot least' most' => exact .slot (by omega) (by omega)
  | immediate => exact .immediate

/-- Registers that code was supplied with. -/
theorem Supplied.of_reg {given : Operand → Prop} {n words count : Nat} {register : Register}
    (h : Supplied given n words count (.reg register)) :
    register = .stackPointer ∨ register = .basePointer ∨
      ∃ m, register = .physical m ∧ (1 ≤ m ∧ m ≤ n ∨ given (.reg register)) := by
  cases h with
  | register bounds => exact .inr (.inr ⟨_, rfl, .inl bounds⟩)
  | own there concrete =>
    cases register with
    | stackPointer => exact .inl rfl
    | basePointer => exact .inr (.inl rfl)
    | abstract k => cases concrete
    | physical m => exact .inr (.inr ⟨m, rfl, .inr there⟩)

/-- Words of memory that code was supplied with, as long as the frame has not wrapped around. -/
theorem Supplied.of_mem {given : Operand → Prop} {n words count : Nat} {base : Register} {offset : Word}
    (small : words + count < 2 ^ 32) (h : Supplied given n words count (.mem base offset)) :
    given (.mem base offset) ∨ base = .basePointer ∧
      ∃ j, words < j ∧ j ≤ words + count ∧ offset = -Word.ofNat j := by
  generalize eq : Operand.mem base offset = o at h
  cases h with
  | own there => exact .inl (eq ▸ there)
  | @slot j least most =>
    cases eq
    rw [Nat.mod_eq_of_lt (by omega)]
    exact .inr ⟨rfl, j, least, most, rfl⟩
  | register | immediate => cases eq

/-- Operands of `q` from those of `p`: abstract registers may have come to be registers, and what `frames` points
to may have been made an immediate. -/
structure Settles (n : Nat) (frames : OperandRef → Prop) (p q : Pool) : Prop where
  size : p.operands.size ≤ q.operands.size
  get : ∀ {x}, x < p.operands.size → Named n (p.get x) (q.get x) ∨ frames x ∧ ∃ w, q.get x = .imm w

namespace Settles

variable {n : Nat} {frames frames' : OperandRef → Prop} {p q r : Pool} {x : OperandRef}

theorem refl (p : Pool) : Settles n frames p p := ⟨Nat.le_refl _, fun _ => .inl (.inl rfl)⟩

theorem mono (h : Settles n frames p q) (more : ∀ x, frames x → frames' x) : Settles n frames' p q :=
  ⟨h.size, fun inside => (h.get inside).imp_right fun ⟨frame, is⟩ => ⟨more _ frame, is⟩⟩

/-- An operand that is no abstract register stays, or is made an immediate. -/
theorem concrete (h : Settles n frames p q) (inside : x < p.operands.size)
    (concrete : (p.get x).isAbstract = false) : q.get x = p.get x ∨ frames x ∧ ∃ w, q.get x = .imm w := by
  refine (h.get inside).imp_left fun named => named.resolve_right fun ⟨abstract, _⟩ => ?_
  rw [concrete] at abstract
  cases abstract

theorem trans (h : Settles n frames p q) (h' : Settles n frames q r) : Settles n frames p r where
  size := Nat.le_trans h.size h'.size
  get {x} inside := by
    have inside' := Nat.lt_of_lt_of_le inside h.size
    rcases h'.get inside' with named | made
    · rcases h.get inside with (same | ⟨abstract, m, bounds, is⟩) | ⟨frame, w, is⟩
      · exact .inl (same ▸ named)
      · have concrete : (q.get x).isAbstract = false := by rw [is]; rfl
        rcases h'.concrete inside' concrete with same | made
        · exact .inl (.inr ⟨abstract, m, bounds, same.trans is⟩)
        · exact .inr made
      · have concrete : (q.get x).isAbstract = false := by rw [is]; rfl
        rcases h'.concrete inside' concrete with same | made
        · exact .inr ⟨frame, w, same.trans is⟩
        · exact .inr made
    · exact .inr made

/-- What was supplied goes on being so. -/
theorem supplied (h : Settles n frames p q) {given : Operand → Prop} {words count : Nat}
    (inside : x < p.operands.size) (there : Supplied given n words count (p.get x)) :
    Supplied given n words count (q.get x) := by
  rcases h.concrete inside there.concrete with same | ⟨-, w, is⟩
  · rw [same]
    exact there
  · rw [is]
    exact .immediate

end Settles

end Allocation

/-! ## Blocks -/

namespace Target.Block

open Allocation

variable {b b' : Block} {n : Nat} {pool : Pool} {frame : Frame} {journal : Journal} {s : State}

theorem few_of_finish {c : Context} {s s' : State} (free : ∀ {r}, s.residents.free.contains r = true → 1 ≤ r)
    (ok : s.finish c = .ok s') : s' = s ∧ c.registers ≤ RegisterSet.largest := by
  have zero : s.residents.free.contains 0 ≠ true := fun there => absurd (free there) (by omega)
  have size : s.residents.free.size ≤ RegisterSet.largest := by
    rw [RegisterSet.size_eq_countP, List.range_succ_eq_map, List.countP_cons_of_neg zero]
    exact Nat.le_trans List.countP_le_length (by simp)
  unfold State.finish at ok
  dsimp only at ok
  split at ok
  · rename_i all
    cases ok
    exact ⟨rfl, all.2.2 ▸ size⟩
  · cases ok

/-- A block that was allocated. -/
theorem steps_of_allocate (ok : b.allocate n pool frame journal = .ok (b', s)) :
    b' = { b with code := s.out.toList } ∧ n ≤ RegisterSet.largest ∧
      (Work.ofBlock (b.context n pool) b.code).Steps (.start (b.context n pool) pool frame journal) s := by
  rw [allocate_eq] at ok
  obtain ⟨t, ran, ok⟩ := bind_ok.mp ok
  obtain ⟨u, finished, ok⟩ := bind_ok.mp ok
  cases ok
  obtain ⟨t', passes, ends⟩ := passes_instructions ran
  have start := Work.Regular.start (W := .ofBlock (b.context n pool) b.code) pool frame journal
  have steps := passes.steps
  have steps : (Work.ofBlock (b.context n pool) b.code).Steps
      (.start (b.context n pool) pool frame journal) t := by
    rw [ends]
    split
    · exact steps.trans (Work.steps_writeBackAll (steps.regular start))
    · exact steps
  obtain ⟨rfl, few⟩ := few_of_finish (fun free => ((steps.regular start).free free).1) finished
  exact ⟨rfl, few, steps⟩

/-- The operands of a block that was allocated. -/
theorem allocate_supplies (ok : b.allocate n pool frame journal = .ok (b', s)) {given : Operand → Prop}
    {frames : OperandRef → Prop} {p : Pool} {words : Nat} (settles : Settles n frames p pool)
    (own : ∀ i ∈ b.code, ∀ x ∈ i.operands, x < p.operands.size ∧ given (p.get x))
    (size : frame.words.toNat = words % 2 ^ 32) :
    Settles n (fun _ => False) pool s.pool ∧ s.frame.words.toNat = (words + s.slots.length) % 2 ^ 32 ∧
      ∀ i ∈ b'.code, ∀ x ∈ i.operands, x < s.pool.operands.size ∧
        (i.destination? = none → Supplied given n words s.slots.length (s.pool.get x)) := by
  obtain ⟨rfl, few, steps⟩ := steps_of_allocate ok
  have start := Work.Regular.start (W := .ofBlock (b.context n pool) b.code) pool frame journal
  have regular := steps.regular start
  have grown := steps.grown start
  have emitted := steps.emitted start (.start pool frame journal)
  have here : Settles n (fun _ => False) pool s.pool := by
    refine ⟨grown.size, fun {x} inside => .inl ?_⟩
    rcases grown.unkeyed inside rfl with ⟨-, same⟩ | found
    · exact .inl same
    · obtain ⟨abstract, -, r, range, is⟩ := regular.keyed found
      exact .inr ⟨abstract, r, range, is⟩
  have settles : Settles n frames p s.pool := settles.trans (here.mono fun _ => False.elim)
  have same : frame.words.toNat % 2 ^ 32 = words % 2 ^ 32 := by omega
  have slots := emitted.slots.wrap same
  have concrete : ∀ {x}, (∃ i ∈ b.code, x ∈ i.operands) → (s.pool.get x).isAbstract = false →
      Supplied given n words s.slots.length (s.pool.get x) := by
    rintro x ⟨i, mem, use⟩ concrete
    obtain ⟨inside, there⟩ := own i mem x use
    rcases settles.get inside with (same | ⟨-, r, bounds, is⟩) | ⟨-, w, is⟩
    · rw [same] at concrete ⊢
      exact .own there concrete
    · rw [is]
      exact .register bounds
    · rw [is]
      exact .immediate
  -- what the allocator put into the pool is told by its kind, the block's own operands by what became of them
  refine ⟨here, by rw [emitted.frame]; omega, fun i mem x use => ?_⟩
  cases emitted.fits i mem x use with
  | place inside is =>
    refine ⟨inside, fun _ => ?_⟩
    cases is with
    | register range is =>
      rw [is]
      exact .register range
    | @slot key offset has is =>
      obtain ⟨j, least, most, place⟩ := slots.offset (List.mem_reverse.mpr (mem_of_lookup has))
      have place : offset = -Word.ofNat (j % 2 ^ 32) := place
      rw [is, place]
      exact .slot least (by simpa using most)
    | word refers memory is =>
      rw [← is]
      exact concrete refers (is ▸ Work.not_abstract_of_memory memory)
  | same refers plain =>
    obtain ⟨j, mem', use'⟩ := refers
    refine ⟨Nat.lt_of_lt_of_le (own j mem' x use').1 settles.size, fun none => ?_⟩
    exact concrete ⟨j, mem', use'⟩ (plain.resolve_left fun leads => by simp [none] at leads)

/-- A block without abstract registers is given out as it is. -/
theorem allocate_plain (few : n ≤ RegisterSet.largest) (plain : ∀ i ∈ b.code, Plain pool i) (frame : Frame)
    (journal : Journal) : ∃ s, b.allocate n pool frame journal = .ok (b, s) ∧ s.pool = pool ∧
      s.frame = frame ∧ s.journal = journal := by
  have idle : Idle (.start (b.context n pool) pool frame journal) := ⟨rfl, rfl, rfl, rfl, rfl⟩
  obtain ⟨t, idle', eq, out, ran⟩ :=
    @Idle.instructions _ (b.context n pool) 0 idle b.closingStart b.code plain []
  have ran : (State.start (b.context n pool) pool frame journal).instructions (b.context n pool)
      b.closingStart 0 b.code = .ok t := by
    rw [List.append_nil] at ran
    rw [ran, State.instructions, idle'.writeBackAll, ite_self]
  have code : t.out.toList = b.code := by simpa [State.start] using out
  refine ⟨t, ?_, by rw [eq]; rfl, by rw [eq]; rfl, by rw [eq]; rfl⟩
  rw [allocate_ok few ran, code]

end Target.Block

end Codegen86
