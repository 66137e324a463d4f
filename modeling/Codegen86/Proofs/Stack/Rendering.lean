import Codegen86.Proofs.Allocation.Rendered
import Codegen86.Proofs.Stack.Stages
import Mathlib.Data.List.Basic
/-!
# Allocation keeps the stack balanced

Code that renders other code shifts stages as that does: a counterpart shifts the stage as its original, and
moves between registers and words of the frame shift none.  Of the original, abstract registers count as
general ones (`mask`).
-/

set_option autoImplicit false

namespace Codegen86.Stack

open Target Allocation

/-- The operand, with a general register for an abstract one. -/
def mask : Operand → Operand
  | .reg (.abstract _) => .reg .result
  | o => o

/-- The operands of a block before it is allocated. -/
def masked (p : Pool) (x : OperandRef) : Operand := mask (p.get x)

theorem mask_of_concrete {o : Operand} (concrete : o.isAbstract = false) : mask o = o := by
  cases o with
  | reg r => cases r <;> first | rfl | cases concrete
  | _ => rfl

variable {J : Job} {q : Pool} {n : Nat} {x x' : OperandRef} {o : Operand}

/-- What the moves of the allocator are between can be written: a register, a word of the frame. -/
structure Sheltered (J : Job) (n : Nat) : Prop where
  stored : ∀ {o}, J.Stored o → Writable o
  fits : J.words + n < 2 ^ 32

theorem writable_of_isRegister (h : J.IsRegister o) : Writable o := by
  obtain ⟨r, -, most, rfl⟩ := h
  have few := J.few
  show r < 65
  omega

/-- A word some words below the base pointer. -/
theorem writable_slot {w : Nat} (small : w < 2 ^ 32) (positive : 0 < w) :
    Writable (.frameSlot (-Word.ofNat w)) := by
  refine ⟨rfl, ?_⟩
  rw [Int64.lt_iff_toInt_lt, Word.toInt_neg_ofNat (by omega)]
  show -(w : Int) < 0
  omega

theorem Sheltered.place (h : Sheltered J n) (place : J.Place n o) : Writable o := by
  cases place with
  | register is => exact writable_of_isRegister is
  | stored is => exact h.stored is
  | slot is slot =>
    obtain ⟨w, least, most, rfl⟩ := slot
    have fits := h.fits
    rw [is, Nat.mod_eq_of_lt (by omega)]
    exact writable_slot (by omega) (by omega)

/-! ## Operands -/

theorem readable_of_replaces (h : J.Replaces q x x') (readable : Readable (masked J.pool x)) :
    Readable (q.get x') := by
  cases h with
  | same eq concrete get =>
    rw [eq, get]
    rwa [masked, mask_of_concrete concrete] at readable
  | register resident inside is => exact (writable_of_isRegister is).readable

theorem writable_of_replaces (h : J.Replaces q x x') (writable : Writable (masked J.pool x)) :
    Writable (q.get x') := by
  cases h with
  | same eq concrete get =>
    rw [eq, get]
    rwa [masked, mask_of_concrete concrete] at writable
  | register resident inside is => exact writable_of_isRegister is

/-- An operand that is in no register is taken over as it is. -/
theorem get_of_replaces (h : J.Replaces q x x') (get : masked J.pool x = o) (other : o ≠ .reg .result)
    (word : o.isMemory = false) : q.get x' = o := by
  cases h with
  | same eq concrete get' => rw [eq, get', ← get, masked, mask_of_concrete concrete]
  | register resident inside is =>
    rcases resident with abstract | memory
    · refine absurd get.symm ?_
      unfold masked
      cases found : J.pool.get x with
      | reg r =>
        rw [found] at abstract
        cases r <;> first | exact other | cases abstract
      | _ =>
        rw [found] at abstract
        cases abstract
    · rw [masked, mask_of_concrete (Job.concrete_of_memory memory)] at get
      rw [get, word] at memory
      cases memory

/-! ## Instructions -/

/-- A counterpart shifts the stage as its original does, where there is a frame. -/
theorem shifts_of_image {i i' : Instruction} {u : Word} {k : Stage} (h : J.Image q i i')
    (shifts : Shifts (masked J.pool) (.framed u) i k) (noPop : ∀ x, i ≠ .pop x) :
    ∃ u', k = .framed u' ∧ Shifts q.get (.framed u) i' (.framed u') ∧ (i'.isJump = true → i.isJump = true) := by
  cases shifts with
  | reserve target amount least =>
    cases h with
    | arith target' source' =>
      exact ⟨_, rfl, .reserve (get_of_replaces target' target nofun rfl)
        (get_of_replaces source' amount nofun rfl) least, nofun⟩
  | drop target amount sum least =>
    cases h with
    | arith target' source' =>
      exact ⟨_, rfl, .drop (get_of_replaces target' target nofun rfl)
        (get_of_replaces source' amount nofun rfl) sum least, nofun⟩
  | push source =>
    cases h with
    | push h => exact ⟨_, rfl, .push (readable_of_replaces h source), nofun⟩
  | neutral neutral =>
    refine ⟨u, rfl, ?_⟩
    cases neutral with
    | nop =>
      cases h
      exact ⟨.neutral .nop, nofun⟩
    | mov target source =>
      cases h with
      | dropped => exact ⟨.neutral .nop, nofun⟩
      | mov target' source' =>
        exact ⟨.neutral (.mov (writable_of_replaces target' target) (readable_of_replaces source' source)),
          nofun⟩
    | arith target source =>
      cases h with
      | arith target' source' =>
        exact ⟨.neutral (.arith (writable_of_replaces target' target) (readable_of_replaces source' source)),
          nofun⟩
    | cmp left right =>
      cases h with
      | cmp left' right' =>
        exact ⟨.neutral (.cmp (readable_of_replaces left' left) (readable_of_replaces right' right)), nofun⟩
  | call =>
    cases h
    exact ⟨u, rfl, .call, nofun⟩
  | jump =>
    cases h
    exact ⟨u, rfl, .jump, id⟩
  | jumpIf =>
    cases h
    exact ⟨u, rfl, .jumpIf, id⟩
  | restore base => exact absurd rfl (noPop _)

/-- Code that renders code at a frame leads from stage to stage as that does. -/
theorem flow_of_renders {code out : List Instruction} {home : Stage} {u u' : Word} (h : J.Renders q n code out)
    (sheltered : Sheltered J n) (noPop : ∀ x, .pop x ∉ code)
    (flow : Flow (masked J.pool) home (.framed u) code (.framed u')) :
    Flow q.get home (.framed u) out (.framed u') := by
  induction h generalizing u with
  | nil =>
    cases flow
    exact .nil
  | spare move _ ih =>
    obtain ⟨x, y, rfl, -, -, target, source⟩ := move
    refine .cons (.neutral (.mov (sheltered.place target) (sheltered.place source).readable)) nofun ?_
    exact ih noPop flow
  | image head _ ih =>
    cases flow with
    | cons shifts jumps tail =>
      obtain ⟨v, rfl, shifts', jump⟩ := shifts_of_image head shifts fun x same =>
        noPop x (same ▸ List.mem_cons_self)
      exact .cons shifts' (fun is => jumps (jump is))
        (ih (fun x mem => noPop x (List.mem_cons_of_mem _ mem)) tail)

/-! ## Operands of what is given out -/

/-- What stays as it is when blocks behind are allocated: an operand that is known and no abstract register.
Immediates among them are operands of the original. -/
structure Lasting (q : Pool) (original : OperandRef → Prop) (x : OperandRef) : Prop where
  inside : x < q.operands.size
  concrete : (q.get x).isAbstract = false
  known : original x ∨ ∀ w, q.get x ≠ .imm w

theorem lasting_of_isRegister {original : OperandRef → Prop} (inside : x < q.operands.size)
    (is : J.IsRegister (q.get x)) : Lasting q original x := by
  refine ⟨inside, is.concrete.1, .inr fun w imm => ?_⟩
  obtain ⟨r, -, -, eq⟩ := is
  rw [imm] at eq
  cases eq

theorem lasting_of_place {original : OperandRef → Prop} (inside : x < q.operands.size)
    (place : J.Place n (q.get x)) : Lasting q original x := by
  cases place with
  | register is => exact lasting_of_isRegister inside is
  | slot is => exact ⟨inside, by rw [is]; rfl, .inr fun w imm => by rw [is] at imm; cases imm⟩
  | stored is =>
    exact ⟨inside, Job.concrete_of_memory is.1, .inr fun w imm => by rw [imm] at is; cases is.1⟩

theorem lasting_of_replaces {original : OperandRef → Prop} (inside : x < q.operands.size) (here : original x)
    (h : J.Replaces q x x') : Lasting q original x' := by
  cases h with
  | same eq concrete get =>
    subst eq
    exact ⟨inside, get ▸ concrete, .inl here⟩
  | register resident inside is => exact lasting_of_isRegister inside is

/-- The operands of what is given out last. -/
theorem lasting_of_renders {code out : List Instruction} {original : OperandRef → Prop}
    (h : J.Renders q n code out)
    (inside : ∀ i ∈ code, ∀ x ∈ i.operands, x < q.operands.size ∧ original x) {i : Instruction}
    (mem : i ∈ out) (use : x ∈ i.operands) : Lasting q original x := by
  induction h with
  | nil => cases mem
  | spare move _ ih =>
    rcases List.mem_cons.mp mem with rfl | mem
    · obtain ⟨y, z, rfl, insideY, insideZ, target, source⟩ := move
      rcases List.mem_pair.mp use with rfl | rfl
      · exact lasting_of_place insideY target
      · exact lasting_of_place insideZ source
    · exact ih inside mem
  | @image j j' code out head _ ih =>
    rcases List.mem_cons.mp mem with rfl | mem
    · have last : ∀ {y}, y ∈ j.operands → J.Replaces q y x → Lasting q original x := fun used replaces =>
        let ⟨within, here⟩ := inside j List.mem_cons_self _ used
        lasting_of_replaces within here replaces
      cases head with
      | push h | pop h | jump h | jumpIf h | call h =>
        obtain rfl := List.mem_singleton.mp use
        exact last (List.mem_singleton_self _) h
      | mov h h' | arith h h' | cmp h h' =>
        rcases List.mem_pair.mp use with rfl | rfl
        · exact last List.mem_cons_self h
        · exact last (List.mem_cons_of_mem _ List.mem_cons_self) h'
      | ret | halt | nop | dropped => cases use
    · exact ih (fun i mem => inside i (List.mem_cons_of_mem _ mem)) mem

/-- An operand that is no label, and no word of memory but one at an offset from the base pointer. -/
def Ordinary : Operand → Prop
  | .label _ => False
  | .mem base _ => base = .basePointer
  | .reg _ | .imm _ => True

theorem ordinary_of_isRegister (is : J.IsRegister o) : Ordinary o := by
  obtain ⟨r, -, -, rfl⟩ := is
  trivial

theorem ordinary_of_replaces (h : J.Replaces q x x') (ordinary : Ordinary (J.pool.get x)) :
    Ordinary (q.get x') := by
  cases h with
  | same eq concrete get =>
    rw [eq, get]
    exact ordinary
  | register resident inside is => exact ordinary_of_isRegister is

/-- Operands are ordinary where those of the original are, but for labels of jumps and calls. -/
theorem ordinary_of_renders {code out : List Instruction} (h : J.Renders q n code out)
    (stored : ∀ {o}, J.Stored o → Ordinary o)
    (original : ∀ i ∈ code, i.destination? = none → ∀ x ∈ i.operands, Ordinary (J.pool.get x))
    {i : Instruction} (mem : i ∈ out) (none : i.destination? = none) (use : x ∈ i.operands) :
    Ordinary (q.get x) := by
  have place : ∀ {o}, J.Place n o → Ordinary o := by
    rintro o (is | ⟨is, -⟩ | is)
    · exact ordinary_of_isRegister is
    · rw [is]
      exact rfl
    · exact stored is
  induction h with
  | nil => cases mem
  | spare move _ ih =>
    rcases List.mem_cons.mp mem with rfl | mem
    · obtain ⟨y, z, rfl, -, -, target, source⟩ := move
      rcases List.mem_pair.mp use with rfl | rfl
      · exact place target
      · exact place source
    · exact ih original mem
  | @image j j' code out head _ ih =>
    rcases List.mem_cons.mp mem with rfl | mem
    · have old := original j List.mem_cons_self
      cases head with
      | push h | pop h =>
        obtain rfl := List.mem_singleton.mp use
        exact ordinary_of_replaces h (old rfl _ List.mem_cons_self)
      | mov h h' | arith h h' | cmp h h' =>
        rcases List.mem_pair.mp use with rfl | rfl
        · exact ordinary_of_replaces h (old rfl _ List.mem_cons_self)
        · exact ordinary_of_replaces h' (old rfl _ (List.mem_cons_of_mem _ List.mem_cons_self))
      | jump h | jumpIf h | call h => cases none
      | ret | halt | nop | dropped => cases use
    · exact ih (fun i mem => original i (List.mem_cons_of_mem _ mem)) mem

/-- A label is taken over. -/
theorem destination_of_renders {code out : List Instruction} (h : J.Renders q n code out) {i : Instruction}
    (labels : ∀ i ∈ code, ∀ x, i.destination? = some x → ∃ l, J.pool.get x = .label l)
    (mem : i ∈ out) (dest : i.destination? = some x) :
    ∃ j ∈ code, j.destination? = some x ∧ j.isJump = i.isJump ∧ q.get x = J.pool.get x := by
  induction h with
  | nil => cases mem
  | spare move _ ih =>
    rcases List.mem_cons.mp mem with rfl | mem
    · obtain ⟨y, z, rfl, -⟩ := move
      cases dest
    · exact ih labels mem
  | @image j j' code out head _ ih =>
    rcases List.mem_cons.mp mem with rfl | mem
    · have same : ∀ {z z'}, j.destination? = some z → J.Replaces q z z' → z' = x →
          j.destination? = some x ∧ q.get x = J.pool.get x := by
        intro z z' dest' replaces eq
        obtain ⟨l, label⟩ := labels j List.mem_cons_self z dest'
        cases replaces with
        | same eq' concrete get =>
          subst eq' eq
          exact ⟨dest', get⟩
        | register resident inside is =>
          rw [label] at resident
          rcases resident with resident | resident <;> cases resident
      refine ⟨j, List.mem_cons_self, ?_⟩
      cases head with
      | jump h =>
        obtain ⟨there, get⟩ := same rfl h (Option.some.inj dest)
        exact ⟨there, rfl, get⟩
      | jumpIf h =>
        obtain ⟨there, get⟩ := same rfl h (Option.some.inj dest)
        exact ⟨there, rfl, get⟩
      | call h =>
        obtain ⟨there, get⟩ := same rfl h (Option.some.inj dest)
        exact ⟨there, rfl, get⟩
      | _ => cases dest
    · obtain ⟨i', there, rest⟩ := ih (fun i mem => labels i (List.mem_cons_of_mem _ mem)) mem
      exact ⟨i', List.mem_cons_of_mem _ there, rest⟩

end Codegen86.Stack
