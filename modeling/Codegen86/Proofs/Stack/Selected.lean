import Codegen86.Proofs.Selection.Contract
import Codegen86.Proofs.Stack.Rendering
/-!
# Selected code and its allocation

Selected code shifts stages as it should, with general registers for its abstract ones (`flow_of_code`).  A
block is allocated in a pool in which operands of blocks before it may have been changed, but none of its own
(`Untouched`); what comes out leads from stage to stage, and its operands stay (`Settled`).
-/

set_option autoImplicit false

namespace Codegen86.Stack

open Target Selection Allocation

variable {E : Site} {first next pushed next' pushed' : Nat} {x : OperandRef} {code : List Instruction}
  {home : Stage} {w : Word}

/-! ## Selected code -/

theorem masked_of_is {o : Operand} (is : E.Is x o) : masked E.pool x = mask o := congrArg mask is.2

theorem masked_of_held (held : E.Held first next x) : masked E.pool x = .reg .result := by
  obtain ⟨k, -, -, is⟩ := held
  exact masked_of_is is

theorem writable_result : Writable (.reg .result) := by
  show 0 < Machine.generalRegisters
  decide

/-- A word of the frame that was reserved is below the base pointer, if the frame has not grown too large. -/
theorem writable_of_local {offset : Word} (small : E.words < 2 ^ 32) (reserved : E.Local offset) :
    Writable (.frameSlot offset) := by
  obtain ⟨j, least, most, rfl⟩ := reserved
  rw [Nat.mod_eq_of_lt (by omega)]
  exact writable_slot (by omega) (by omega)

theorem readable_of_storable (h : E.Storable first next x) : Readable (masked E.pool x) := by
  cases h with
  | held is =>
    rw [masked_of_held is]
    exact writable_result.readable
  | imm is =>
    rw [masked_of_is is]
    trivial

theorem readable_of_loadable (h : E.Loadable first next x) : Readable (masked E.pool x) := by
  cases h with
  | held is =>
    rw [masked_of_held is]
    exact writable_result.readable
  | imm is =>
    rw [masked_of_is is]
    trivial
  | result is =>
    rw [masked_of_is is]
    exact writable_result.readable
  | slot reserved is =>
    rw [masked_of_is is]
    exact rfl
  | arg _ is =>
    rw [masked_of_is is]
    exact rfl

/-- What is pushed for a call is on the stack until it is dropped. -/
theorem shifts_of_emission {i : Instruction} (small : E.words < 2 ^ 32) (least : 0 ≤ w)
    (h : E.Emission first next pushed i next' pushed') :
    Shifts (masked E.pool) (.framed (w + Word.ofNat pushed)) i (.framed (w + Word.ofNat pushed')) := by
  cases h with
  | load target source =>
    refine .neutral (.mov ?_ (readable_of_loadable source))
    rw [masked_of_is target]
    exact writable_result
  | store reserved target source =>
    refine .neutral (.mov ?_ (readable_of_storable source))
    rw [masked_of_is target]
    exact writable_of_local small reserved
  | result target source =>
    refine .neutral (.mov ?_ ?_)
    · rw [masked_of_is target]
      exact writable_result
    · rw [masked_of_held source]
      exact writable_result.readable
  | arith target source =>
    refine .neutral (.arith ?_ ?_)
    · rw [masked_of_held target]
      exact writable_result
    · rw [masked_of_held source]
      exact writable_result.readable
  | push source =>
    have next : w + Word.ofNat (pushed + 1) = w + Word.ofNat pushed + 1 := by
      rw [Word.ofNat, Int64.ofNat_add, ← Int64.add_assoc]
      rfl
    rw [next]
    refine .push ?_
    rw [masked_of_held source]
    exact writable_result.readable
  | call target known => exact .call
  | drop stack words =>
    refine .drop (masked_of_is stack) (masked_of_is words) ?_ ?_ <;> simp [Word.ofNat, least]

/-- Selected code keeps the frame, but for what is pushed and not dropped yet. -/
theorem flow_of_code (small : E.words < 2 ^ 32) (least : 0 ≤ w)
    (h : E.Code first next pushed code next' pushed') :
    Flow (masked E.pool) home (.framed (w + Word.ofNat pushed)) code (.framed (w + Word.ofNat pushed')) := by
  induction h with
  | nil => exact .nil
  | cons head _ ih =>
    refine .cons (shifts_of_emission small least head) (fun jump => ?_) ih
    cases head <;> cases jump

theorem flow_of_closes {targets : List String} (h : E.Closes targets first next code) :
    Flow (masked E.pool) (.framed w) (.framed w) code (.framed w) := by
  cases h with
  | jump target known => exact .cons .jump (fun _ => rfl) .nil
  | test left right target known target' known' =>
    refine .cons (.neutral (.cmp ?_ (readable_of_storable right))) nofun ?_
    · rw [masked_of_held left]
      exact writable_result.readable
    · exact .cons .jumpIf (fun _ => rfl) (.cons .jump (fun _ => rfl) .nil)

/-! ## What needs registers in a block -/

theorem inside_of_held (held : E.Held first next x) : E.Inside x := by
  obtain ⟨k, -, -, is⟩ := held
  exact is.1

theorem inside_of_storable (h : E.Storable first next x) : E.Inside x := by
  cases h with
  | held is => exact inside_of_held is
  | imm is => exact is.1

theorem inside_of_loadable (h : E.Loadable first next x) : E.Inside x := by
  cases h with
  | held is => exact inside_of_held is
  | imm is | result is | slot _ is | arg _ is => exact is.1

/-- What is in a block behind code that needs no registers: code with the end of a block, or nothing. -/
inductive Remains (E : Site) (targets : List String) (first : Nat) : Nat → List Instruction → Prop
  | nothing : Remains E targets first first []
  | code {next : Nat} {body closing : List Instruction} (made : E.Code first first 0 body next 0)
      (closes : E.Closes targets first next closing) : Remains E targets first next (body ++ closing)

namespace Remains

variable {targets : List String}

theorem flow (h : Remains E targets first next code) (small : E.words < 2 ^ 32) (least : 0 ≤ w) :
    Flow (masked E.pool) (.framed w) (.framed w) code (.framed w) := by
  cases h with
  | nothing => exact .nil
  | @code _ body closing made closes =>
    have flows : Flow (masked E.pool) (.framed w) (.framed (w + Word.ofNat 0)) body
        (.framed (w + Word.ofNat 0)) := flow_of_code small least made
    have none : w + Word.ofNat 0 = w := Int64.add_zero w
    rw [none] at flows
    exact flows.append (flow_of_closes closes)

theorem next_le (h : Remains E targets first next code) : first ≤ next := by
  cases h with
  | nothing => exact Nat.le_refl _
  | code made => exact made.next_le

theorem orderly (h : Remains E targets first next code) {i : Instruction} (mem : i ∈ code) :
    Orderly E.pool first next i := by
  cases h with
  | nothing => cases mem
  | code made closes =>
    rcases List.mem_append.mp mem with mem | mem
    · exact made.orderly (Nat.le_refl _) mem
    · exact (closes.orderly mem).1

theorem noPop (h : Remains E targets first next code) (x : OperandRef) : .pop x ∉ code := by
  intro mem
  cases h with
  | nothing => cases mem
  | code made closes =>
    rcases List.mem_append.mp mem with mem | mem
    · obtain ⟨n, p, n', p', -, -, emission⟩ := made.emission mem
      cases emission
    · cases closes <;> simp at mem

/-- Labels stand in jumps and calls, and words of memory are at offsets from the base pointer. -/
theorem ordinary (h : Remains E targets first next code) {i : Instruction} (mem : i ∈ code)
    (none : i.destination? = none) (use : x ∈ i.operands) : Ordinary (E.pool.get x) := by
  have orderly := h.orderly mem
  cases found : E.pool.get x with
  | label l =>
    have := orderly.labels x use (by rw [found]; rfl)
    rw [none] at this
    cases this
  | mem base offset => exact orderly.based x use base offset found
  | reg r => trivial
  | imm w => trivial

/-- The operands are operands of the function. -/
theorem inside (h : Remains E targets first next code) {i : Instruction} (mem : i ∈ code)
    (use : x ∈ i.operands) : E.Inside x := by
  have pair : ∀ {y z : OperandRef}, E.Inside y → E.Inside z → x ∈ [y, z] → E.Inside x := by
    intro y z first second use
    rcases List.mem_pair.mp use with rfl | rfl
    · exact first
    · exact second
  have single : ∀ {y : OperandRef}, E.Inside y → x ∈ [y] → E.Inside x := by
    intro y only use
    obtain rfl := List.mem_singleton.mp use
    exact only
  cases h with
  | nothing => cases mem
  | code made closes =>
    rcases List.mem_append.mp mem with mem | mem
    · obtain ⟨n, p, n', p', -, -, emission⟩ := made.emission mem
      cases emission with
      | load target source => exact pair target.1 (inside_of_loadable source) use
      | store reserved target source => exact pair target.1 (inside_of_storable source) use
      | result target source => exact pair target.1 (inside_of_held source) use
      | arith target source => exact pair (inside_of_held target) (inside_of_held source) use
      | push source => exact single (inside_of_held source) use
      | call target known => exact single target.1 use
      | drop stack words => exact pair stack.1 words.1 use
    · cases closes with
      | jump target known =>
        obtain rfl := List.mem_singleton.mp mem
        exact single target.1 use
      | test left right target known target' known' =>
        simp only [List.mem_cons, List.not_mem_nil, or_false] at mem
        rcases mem with rfl | rfl | rfl
        · exact pair (inside_of_held left) (inside_of_storable right) use
        · exact single target.1 use
        · exact single target'.1 use

/-- Jumps lead to blocks of the function, calls to functions that were found. -/
theorem destination (h : Remains E targets first next code) {i : Instruction} (mem : i ∈ code)
    (dest : i.destination? = some x) :
    ∃ name, E.Is x (.symbol name) ∧ name ∈ if i.isJump then targets else E.found := by
  cases h with
  | nothing => cases mem
  | code made closes =>
    rcases List.mem_append.mp mem with mem | mem
    · obtain ⟨n, p, n', p', -, -, emission⟩ := made.emission mem
      cases emission with
      | call target known =>
        cases dest
        exact ⟨_, target, known⟩
      | _ => cases dest
    · cases closes with
      | jump target known =>
        obtain rfl := List.mem_singleton.mp mem
        cases dest
        exact ⟨_, target, known⟩
      | test left right target known target' known' =>
        simp only [List.mem_cons, List.not_mem_nil, or_false] at mem
        rcases mem with rfl | rfl | rfl
        · cases dest
        · cases dest
          exact ⟨_, target, known⟩
        · cases dest
          exact ⟨_, target', known'⟩

end Remains

/-! ## The pool between blocks -/

/-- Of the selected program's operands from `low` on, blocks before have changed at most some that named
abstract registers below `first`. -/
structure Untouched (p q : Pool) (low : OperandRef) (first : Nat) : Prop where
  size : p.operands.size ≤ q.operands.size
  same : ∀ {x}, low ≤ x → x < p.operands.size →
    q.get x = p.get x ∨ ∃ k < first, p.get x = .reg (.abstract k)

namespace Untouched

variable {p q q' : Pool} {low : OperandRef} {first' : Nat}

theorem concrete (h : Untouched p q low first) (above : low ≤ x) (inside : x < p.operands.size)
    (concrete : (p.get x).isAbstract = false) : q.get x = p.get x := by
  refine (h.same above inside).resolve_right ?_
  rintro ⟨k, -, abstract⟩
  rw [abstract] at concrete
  cases concrete

/-- An operand that the function being allocated uses from register `first` on is as it was selected. -/
theorem get (h : Untouched p q low first) (grows : E.pool.Grows p) (above : low ≤ E.least)
    (inside : E.Inside x) (own : ∀ k, E.pool.get x = .reg (.abstract k) → first ≤ k) :
    q.get x = E.pool.get x := by
  have same := grows.get inside.2
  rcases h.same (Nat.le_trans above inside.1) (Nat.lt_of_lt_of_le inside.2 grows.size) with eq | ⟨k, less, eq⟩
  · exact eq.trans same
  · have := own k (same.symm.trans eq)
    omega

end Untouched

end Codegen86.Stack
