import Codegen86.Proofs.Allocation.Emitted
import Codegen86.Proofs.Allocation.Invocations
import Codegen86.Proofs.Allocation.Residency
import Mathlib
/-!
# Blocks with few live values

Between instructions only live values are in registers.  While there are fewer of them than registers, a register
is free for the value that the next instruction defines, and for every value that shares the register which an
arithmetic instruction is about to overwrite.  So nothing is evicted, nothing is spilled, and since there are no
slots nothing is loaded again (`Calm`).
-/

set_option autoImplicit false

namespace Codegen86

open Target

namespace Allocation

variable {c : Context} {s s' s'' t : State} {x y : OperandRef} {key : Operand} {r index : Nat} {op op' : Operation}

/-! ## Nothing is spilled -/

/-- From one state to another nothing is spilled and nothing is loaded again. -/
structure Calm (s s' : State) : Prop where
  slots : s'.slots = s.slots
  frame : s'.frame = s.frame
  spills : s'.journal.spills = s.journal.spills
  reloads : s'.journal.reloads = s.journal.reloads

namespace Calm

theorem refl (s : State) : Calm s s := ⟨rfl, rfl, rfl, rfl⟩

theorem trans (h : Calm s s') (h' : Calm s' s'') : Calm s s'' :=
  ⟨h'.slots.trans h.slots, h'.frame.trans h.frame, h'.spills.trans h.spills, h'.reloads.trans h.reloads⟩

theorem attach (s : State) (x : OperandRef) (key : Operand) (r : Nat) : Calm s (s.attach x key r).2 := by
  unfold State.attach
  dsimp only
  split
  · exact ⟨rfl, rfl, rfl, rfl⟩
  · split <;> exact ⟨rfl, rfl, rfl, rfl⟩

theorem clean (s : State) (key : Operand) (r : Nat) : Calm s (s.clean key r) := by
  unfold State.clean
  split <;> exact ⟨rfl, rfl, rfl, rfl⟩

theorem defineByAlias (s : State) (x : OperandRef) (key : Operand) (r : Nat) : Calm s (s.defineByAlias x key r) :=
  have bound : Calm s (s.bind key r) := ⟨rfl, rfl, rfl, rfl⟩
  have out : ∀ t : State, Calm t t.eliminate := fun _ => ⟨rfl, rfl, rfl, rfl⟩
  (bound.trans (attach _ x key r)).trans (out _)

/-- One change after another. -/
theorem foldl {α : Type} {f : State → α → State} (each : ∀ s a, Calm s (f s a)) (as : List α) (s : State) :
    Calm s (as.foldl f s) := by
  induction as generalizing s with
  | nil => exact refl s
  | cons a rest ih => exact (each s a).trans (ih _)

theorem writeBackAll (s : State) : Calm s s.writeBackAll := by
  have first : Calm s { s with dirty := [] } := ⟨rfl, rfl, rfl, rfl⟩
  refine first.trans (foldl (fun t key => ?_) _ _)
  split <;> exact ⟨rfl, rfl, rfl, rfl⟩

theorem releaseDead (c : Context) (s : State) (index : Nat) : Calm s (s.releaseDead c index) := by
  refine foldl (fun t key => ?_) _ _
  unfold State.releaseOne
  split
  · exact refl t
  · dsimp only
    split
    · exact (clean t key _).trans ⟨rfl, rfl, rfl, rfl⟩
    · exact ⟨rfl, rfl, rfl, rfl⟩

end Calm

/-! ## Registers for few values -/

/-- The residents are in order, and are values of `K` only. -/
structure Slack (n : Nat) (K : Finset Operand) (s : State) : Prop where
  consistent : s.residents.Consistent n
  only : ∀ {key r}, s.register? key = some r → key ∈ K

namespace Slack

variable {n : Nat} {K : Finset Operand}

theorem of_eq (h : Slack n K s) (same : s'.residents = s.residents) : Slack n K s' where
  consistent := same ▸ h.consistent
  only held := h.only ((register?_of_eq same _).symm.trans held)

theorem unbind (small : n ≤ RegisterSet.largest) (h : Slack n K s) (key : Operand) : Slack n K (s.unbind key) where
  consistent := h.consistent.unbind small key
  only held := by
    rw [register?_unbind] at held
    split at held
    · cases held
    · exact h.only held

theorem bind (small : n ≤ RegisterSet.largest) (h : Slack n K s) (mem : key ∈ K) (bounds : 1 ≤ r ∧ r ≤ n) :
    Slack n K (s.bind key r) where
  consistent := h.consistent.bind small key bounds
  only held := by
    rw [register?_bind] at held
    split at held
    · rename_i same
      exact same ▸ mem
    · exact h.only held

/-- There is a free register if there are more registers than values. -/
theorem exists_free (few : K.card < n) (h : Slack n K s) : s.residents.free.isEmpty = false := by
  refine Bool.eq_false_iff.mpr fun full => ?_
  have onto : Set.SurjOn (fun key => (s.register? key).getD 0) K (Finset.Icc 1 n) := fun r mem => by
    refine Classical.byContradiction fun none => ?_
    obtain ⟨least, most⟩ := Finset.mem_Icc.mp mem
    have free := h.consistent.free_iff.mpr ⟨least, most, fun key held => none ⟨key, h.only held, by
      show (s.residents.register? key).getD 0 = r
      rw [held]
      rfl⟩⟩
    rw [RegisterSet.contains_of_isEmpty full] at free
    cases free
  have le := Finset.card_le_card_of_surjOn _ onto
  rw [Nat.card_Icc] at le
  omega

end Slack

/-- A register that is free is found at once. -/
theorem acquire_of_free (c : Context) (index : Nat) (free : s.residents.free.isEmpty = false) :
    ∃ r, s.acquire c index = .ok (r, s) := by
  obtain ⟨reg, there⟩ := RegisterSet.exists_of_not_isEmpty free
  obtain ⟨r, first⟩ := Option.isSome_iff_exists.mp (RegisterSet.first?_isSome there)
  refine ⟨r, ?_⟩
  rw [Work.acquire_eq, if_neg (by simp [free])]
  exact bind_ok.mpr ⟨s, rfl, by rw [first]⟩

theorem acquire_free (free : s.residents.free.isEmpty = false) (ok : s.acquire c index = .ok (r, s')) : s' = s := by
  obtain ⟨r', found⟩ := acquire_of_free c index free
  cases found.symm.trans ok
  rfl

/-! ## Reading -/

/-- Without slots, a value that is asked for is in its register. -/
theorem load_resident (none : s.slots = []) (ok : s.load c index key = .ok (r, s')) : s' = s := by
  unfold State.load at ok
  split at ok
  · cases ok
    rfl
  · rw [none] at ok
    cases ok

theorem calm_resolve (none : s.slots = []) (ok : s.resolve c index x key = .ok (r, y, s')) :
    Calm s s' ∧ s'.residents = s.residents := by
  obtain ⟨⟨reg, t⟩, loaded, same⟩ := bind_ok.mp ok
  cases same
  cases load_resident none loaded
  have pinned : Calm s (s.pin r) := ⟨rfl, rfl, rfl, rfl⟩
  exact ⟨pinned.trans (.attach _ x key r), residents_attach _ x key r⟩

theorem calm_use (none : s.slots = []) (ok : s.use c index x = .ok (y, s')) :
    Calm s s' ∧ s'.residents = s.residents := by
  unfold State.use at ok
  split at ok
  · obtain ⟨⟨reg, z, t⟩, resolved, same⟩ := bind_ok.mp ok
    cases same
    exact calm_resolve none resolved
  · split at ok
    · cases ok
      exact ⟨⟨rfl, rfl, rfl, rfl⟩, rfl⟩
    · cases ok
      exact ⟨.refl s, rfl⟩
  · cases ok
    exact ⟨.refl s, rfl⟩

/-! ## Separating -/

variable {n : Nat} {K : Finset Operand}

/-- A value that shares a register finds a free one. -/
theorem calm_separateOne (c : Context) (index r : Nat) (owner : Operand) (small : n ≤ RegisterSet.largest)
    (few : K.card < n) (h : Slack n K s) (mem : key ∈ K) :
    Calm s (s.separateOne c index r owner key) ∧ Slack n K (s.separateOne c index r owner key) := by
  unfold State.separateOne
  split
  · exact ⟨.refl s, h⟩
  · split
    · have cleaned := h.of_eq (clean_residents s key r).1
      exact ⟨(Calm.clean s key r).trans ⟨rfl, rfl, rfl, rfl⟩, cleaned.unbind small key⟩
    · split
      · split
        · rename_i copy found
          obtain ⟨least, most, -⟩ := h.consistent.free_iff.mp (RegisterSet.first?_eq_some found)
          have moved : Slack n K (s.emitMove (.reg (.physical copy)) (.reg (.physical r))) := h.of_eq rfl
          exact ⟨⟨rfl, rfl, rfl, rfl⟩, (moved.unbind small key).bind small mem ⟨least, most⟩⟩
        · rename_i none
          obtain ⟨free, there⟩ := RegisterSet.exists_of_not_isEmpty (h.exists_free few)
          have found := RegisterSet.first?_isSome there
          rw [none] at found
          cases found
      · exact ⟨⟨rfl, rfl, rfl, rfl⟩, h.unbind small key⟩

theorem calm_separate {owner : Operand} (small : n ≤ RegisterSet.largest) (few : K.card < n) (h : Slack n K s) :
    Calm s (s.separate c index r owner) := by
  unfold State.separate
  have among : ∀ key ∈ s.residents.of r, key ∈ K := fun key mem => h.only (h.consistent.mem_of_iff.mp mem)
  generalize s.residents.of r = keys at among
  induction keys generalizing s with
  | nil => exact .refl s
  | cons key rest ih =>
    obtain ⟨here, others⟩ := List.forall_mem_cons.mp among
    obtain ⟨calm, slack⟩ := calm_separateOne c index r owner small few h here
    exact calm.trans (ih slack others)

/-! ## Instructions -/

theorem calm_defineByMove (few : K.card < n) (h : Slack n K s)
    (ok : s.defineByMove c index x key y = .ok (r, s')) : Calm s s' := by
  obtain ⟨⟨reg, t⟩, acquired, same⟩ := bind_ok.mp ok
  cases same
  cases acquire_free (h.exists_free few) acquired
  have bound : Calm s ((s.pin r).bind key r) := ⟨rfl, rfl, rfl, rfl⟩
  exact (bound.trans (.attach _ x key r)).trans ⟨rfl, rfl, rfl, rfl⟩

theorem calm_moveToRegister (none : s.slots = []) (few : K.card < n) (h : Slack n K s)
    (ok : s.moveToRegister c index x key y = .ok s') : Calm s s' := by
  unfold State.moveToRegister at ok
  split at ok
  · cases ok
    exact ⟨rfl, rfl, rfl, rfl⟩
  · split at ok
    · obtain ⟨⟨reg, z, t⟩, resolved, same⟩ := bind_ok.mp ok
      cases same
      exact (calm_resolve none resolved).1.trans (.defineByAlias ..)
    · split at ok
      · cases ok
        exact .defineByAlias ..
      · obtain ⟨⟨reg, t⟩, defined, same⟩ := bind_ok.mp ok
        cases same
        refine (calm_defineByMove few h defined).trans ?_
        split <;> exact ⟨rfl, rfl, rfl, rfl⟩
    · obtain ⟨⟨reg, t⟩, defined, same⟩ := bind_ok.mp ok
      cases same
      exact calm_defineByMove few h defined

theorem calm_moveToMemory {word : Operand} (none : s.slots = []) (ok : s.moveToMemory c index x word y = .ok s') :
    Calm s s' := by
  unfold State.moveToMemory at ok
  split at ok
  · obtain ⟨⟨reg, z, t⟩, resolved, same⟩ := bind_ok.mp ok
    cases same
    refine (calm_resolve none resolved).1.trans ?_
    split <;> exact ⟨rfl, rfl, rfl, rfl⟩
  all_goals
    obtain ⟨⟨z, t⟩, used, same⟩ := bind_ok.mp ok
    cases same
    exact (calm_use none used).1.trans ⟨rfl, rfl, rfl, rfl⟩

theorem calm_arith {kind : Arith} (none : s.slots = []) (small : n ≤ RegisterSet.largest) (few : K.card < n)
    (h : Slack n K s) (ok : s.arith c index kind x y = .ok s') : Calm s s' := by
  obtain ⟨⟨z, t⟩, used, ok⟩ := bind_ok.mp ok
  obtain ⟨calm, same⟩ := calm_use none used
  refine calm.trans ?_
  dsimp only at ok
  split at ok
  · obtain ⟨⟨reg, w, u⟩, resolved, eq⟩ := bind_ok.mp ok
    cases eq
    obtain ⟨calm', same'⟩ := calm_resolve (calm.slots.trans none) resolved
    have slack := (h.of_eq same).of_eq same'
    exact (calm'.trans (calm_separate small few slack)).trans ⟨rfl, rfl, rfl, rfl⟩
  · cases ok
    split
    · exact (Calm.clean t _ _).trans ⟨rfl, rfl, rfl, rfl⟩
    · exact ⟨rfl, rfl, rfl, rfl⟩
  · cases ok
    exact ⟨rfl, rfl, rfl, rfl⟩

theorem calm_pop (few : K.card < n) (h : Slack n K s) (ok : s.pop c index x = .ok s') : Calm s s' := by
  unfold State.pop at ok
  split at ok
  · rename_i key role
    obtain ⟨⟨reg, t⟩, acquired, same⟩ := bind_ok.mp ok
    cases same
    cases acquire_free (h.exists_free few) acquired
    have bound : Calm s (s.bind key reg) := ⟨rfl, rfl, rfl, rfl⟩
    exact (bound.trans (.attach _ x key reg)).trans ⟨rfl, rfl, rfl, rfl⟩
  all_goals
    cases ok
    exact ⟨rfl, rfl, rfl, rfl⟩

/-- With few values, an instruction other than a call spills nothing. -/
theorem calm_instruction {i : Instruction} (none : s.slots = []) (small : n ≤ RegisterSet.largest)
    (few : K.card < n) (h : Slack n K s) (noCall : i.isCall = false) (ok : s.instruction c index i = .ok s') :
    Calm s s' := by
  have first : Calm s s.unpinned := ⟨rfl, rfl, rfl, rfl⟩
  have slack : Slack n K s.unpinned := h.of_eq rfl
  refine first.trans ?_
  cases i with
  | push x =>
    obtain ⟨⟨z, t⟩, used, same⟩ := bind_ok.mp ok
    cases same
    exact (calm_use (s := s.unpinned) none used).1.trans ⟨rfl, rfl, rfl, rfl⟩
  | pop x => exact calm_pop few slack ok
  | mov x y =>
    have ok : s.unpinned.move c index (s.unpinned.current x) (s.unpinned.current y) = .ok s' := ok
    unfold State.move at ok
    split at ok
    · exact calm_moveToRegister none few slack ok
    · exact calm_moveToMemory none ok
    · obtain ⟨⟨z, t⟩, used, same⟩ := bind_ok.mp ok
      cases same
      exact (calm_use (s := s.unpinned) none used).1.trans ⟨rfl, rfl, rfl, rfl⟩
  | arith kind x y => exact calm_arith none small few slack ok
  | cmp x y =>
    obtain ⟨⟨z, t⟩, used, ok⟩ := bind_ok.mp ok
    obtain ⟨⟨w, u⟩, used', same⟩ := bind_ok.mp ok
    cases same
    have left := (calm_use (s := s.unpinned) none used).1
    exact (left.trans (calm_use (left.slots.trans none) used').1).trans ⟨rfl, rfl, rfl, rfl⟩
  | call x => cases noCall
  | ret | halt | nop | jump | jumpIf =>
    cases ok
    exact ⟨rfl, rfl, rfl, rfl⟩

/-! ## Between instructions -/

theorem Slack.start (small : n ≤ RegisterSet.largest) (pool : Pool) (frame : Frame) (journal : Journal)
    (registers : c.registers = n) : Slack n ∅ (.start c pool frame journal) where
  consistent := by
    rw [State.start, registers]
    exact .start small
  only held := by cases held

/-- Before an instruction, the values in registers are those that are live behind the one before it. -/
theorem Passes.slack {closing : Nat} {code : List Instruction} {pool : Pool} {frame : Frame} {journal : Journal}
    (two : 2 ≤ c.registers) (small : c.registers ≤ RegisterSet.largest)
    (pressure : ∀ index < code.length, (c.liveness.live index).toFinset.card ≤ c.registers - 1)
    (consistent : s.residents.Consistent c.registers)
    (here : Passes c closing code (.start c pool frame journal) (.before index) s) :
    ∃ K : Finset Operand, K.card < c.registers ∧ Slack c.registers K s := by
  cases here with
  | start => exact ⟨∅, by rw [Finset.card_empty]; omega, .start small pool frame journal rfl⟩
  | @next s index here =>
    have inside : index < code.length := by
      cases here with
      | release here =>
        cases here with
        | instruction _ next _ => exact (List.getElem?_eq_some_iff.mp next).1
    refine ⟨(c.liveness.live index).toFinset, ?_, consistent, fun {key r} held => ?_⟩
    · have := pressure index inside
      omega
    · have live := here.live held
      rw [Liveness.isLiveAfter, List.contains_iff_mem] at live
      exact List.mem_toFinset.mpr live

/-! ## Where registers are asked for -/

/-- The operations that may still look for a register. -/
def Operation.Asks : Operation → Prop
  | .attach _ _ _ | .defineByAlias _ _ _ => False
  | _ => True

theorem asks_of_invokes (asks : op'.Asks) (invokes : Invokes c index (op, s) (op', t)) : op.Asks := by
  cases invokes with
  | aliasAttach => cases asks
  | _ => trivial

/-- Without slots, nothing is bound before a register is asked for. -/
theorem invokes_residents (none : s.slots = []) (asks : op'.Asks) (invokes : Invokes c index (op, s) (op', t)) :
    t.residents = s.residents ∧ t.slots = [] := by
  cases invokes with
  | copied | cached | popAttach | defineAttach | aliasAttach | resolveAttach => cases asks
  | cmpRight left =>
    obtain ⟨calm, same⟩ := calm_use (s := s.unpinned) none left
    exact ⟨same, calm.slots.trans none⟩
  | arithTarget role source =>
    obtain ⟨calm, same⟩ := calm_use none source
    exact ⟨same, calm.slots.trans none⟩
  | _ => exact ⟨rfl, none⟩

theorem within_residents (none : s.slots = []) (asks : op'.Asks) (within : Within c index (op, s) (op', t)) :
    t.residents = s.residents ∧ t.slots = [] := by
  generalize last : (op', t) = there at within
  induction within generalizing op' t with
  | refl =>
    cases last
    exact ⟨rfl, none⟩
  | @tail mid there before invokes ih =>
    subst last
    obtain ⟨same, none⟩ := ih (asks_of_invokes asks invokes) rfl
    obtain ⟨same', none'⟩ := invokes_residents none asks invokes
    exact ⟨same'.trans same, none'⟩

end Allocation

/-! ## Blocks -/

namespace Target.Block

open Allocation

variable {b b' : Block} {n index : Nat} {pool : Pool} {frame : Frame} {journal : Journal} {i : Instruction}
  {s t u : State} {moment : Moment}

section

variable (two : 2 ≤ n) (few : n ≤ RegisterSet.largest)
  (pressure : ∀ index < b.code.length, ((b.context n pool).liveness.live index).toFinset.card ≤ n - 1)
include two few pressure

theorem slack_of_passes
    (passes : b.Passes n pool frame journal (if b.closingStart = index then .stored index else .before index) s) :
    ∃ K : Finset Operand, K.card < n ∧ Slack n K s := by
  split at passes
  · rename_i same
    cases passes with
    | @store s here =>
      obtain ⟨K, less, slack⟩ := Allocation.Passes.slack (c := b.context n pool) two few pressure
        (Passes.sound few here).2.residents here
      exact ⟨K, less, slack.of_eq (congrArg Books.residents (writeBackAll_books s))⟩
  · have sound := (Passes.sound few passes).2
    exact Allocation.Passes.slack (c := b.context n pool) two few pressure sound.residents passes

/-- With few values and no calls, nothing is spilled anywhere in a block. -/
theorem calm_of_passes (noCall : ∀ i ∈ b.code, i.isCall = false) (passes : b.Passes n pool frame journal moment s) :
    Calm (b.begin n pool frame journal) s := by
  induction passes with
  | start => exact .refl _
  | store here ih => exact ih.trans (.writeBackAll _)
  | instruction here next ok ih =>
    obtain ⟨K, less, slack⟩ := slack_of_passes two few pressure here
    exact ih.trans (calm_instruction ih.slots few less slack (noCall _ (List.mem_of_getElem? next)) ok)
  | release here ih => exact ih.trans (.releaseDead ..)
  | next here ih => exact ih

/-- Wherever a register is asked for, one is free. -/
theorem free_of_comes (noCall : ∀ i ∈ b.code, i.isCall = false)
    (comes : b.Comes n pool frame journal index i s .acquire t) : t.residents.free.isEmpty = false := by
  obtain ⟨K, less, slack⟩ := slack_of_passes two few pressure comes.passes
  have calm := calm_of_passes two few pressure noCall comes.passes
  have asks : Operation.acquire.Asks := trivial
  exact (slack.of_eq (within_residents calm.slots asks comes.within).1).exists_free less

/-- A block without calls in which fewer values are live behind every instruction than there are registers is
allocated without spilling or evicting anything: no value is stored to a slot or loaded from one, the frame
stays, what is given out refers to no word of memory but those of the block, and wherever a register is asked
for, one is free. -/
theorem few_live_spill_nothing (noCall : ∀ i ∈ b.code, i.isCall = false)
    (ok : b.allocate n pool frame journal = .ok (b', u)) :
    u.journal.spills = journal.spills ∧ u.journal.reloads = journal.reloads ∧ u.slots = [] ∧ u.frame = frame ∧
      (∀ i ∈ b'.code, ∀ x ∈ i.operands, (u.pool.get x).isMemory = true →
        ∃ j ∈ b.code, ∃ y ∈ j.operands, u.pool.get y = u.pool.get x) ∧
      ∀ index i s t, b.Comes n pool frame journal index i s .acquire t →
        t.residents.free.isEmpty = false ∧ ∃ r, t.acquire (b.context n pool) index = .ok (r, t) := by
  have calm : Calm (b.begin n pool frame journal) u := by
    obtain ⟨t, passes, ends⟩ := passes_instructions (instructions_of_allocate ok)
    have before := calm_of_passes two few pressure noCall passes
    rw [ends]
    split
    · exact before.trans (.writeBackAll t)
    · exact before
  obtain ⟨rfl, -, steps⟩ := steps_of_allocate ok
  refine ⟨calm.spills, calm.reloads, calm.slots, calm.frame, fun i mem x use memory => ?_,
    fun index i s t comes => ?_⟩
  · have emitted := steps.emitted (.start pool frame journal) (.start pool frame journal)
    cases emitted.fits i mem x use with
    | place inside is =>
      cases is with
      | register range is =>
        rw [is] at memory
        cases memory
      | slot has is =>
        rw [calm.slots] at has
        cases has
      | word refers memory is =>
        obtain ⟨j, mem, use⟩ := refers
        exact ⟨j, mem, _, use, is⟩
    | same refers =>
      obtain ⟨j, mem, use⟩ := refers
      exact ⟨j, mem, x, use, rfl⟩
  · have free := free_of_comes two few pressure noCall comes
    exact ⟨free, acquire_of_free _ index free⟩

end

/-- A value that two abstract registers share until one of them changes. -/
def sharedValue : Block where
  name := "b"
  code := [.mov 0 1, .mov 2 0, .arith .add 0 1, .push 2, .push 0]

def sharedValuePool : Pool where
  operands := #[.reg (.abstract 0), .imm 7, .reg (.abstract 1)]

/-- Two values in three registers: the one that stays is copied before the other changes. -/
theorem sharedValue_spills_nothing : ∃ b' u, sharedValue.allocate 3 sharedValuePool {} {} = .ok (b', u) ∧
    b'.code.map (·.text u.pool) = ["MOV R1, 7", "NOP", "MOV R2, R1", "ADD R1, 7", "PUSH R2", "PUSH R1"] ∧
    u.journal.spills = 0 ∧ u.journal.reloads = 0 ∧ u.slots = [] ∧ u.frame = {} := by
  -- evaluating the run takes the equations of library functions, for which Mathlib is imported whole
  have ran : (sharedValue.allocate 3 sharedValuePool {} {}).toOption.map
      (fun r => r.1.code.map (·.text r.2.pool)) =
        some ["MOV R1, 7", "NOP", "MOV R2, R1", "ADD R1, 7", "PUSH R2", "PUSH R1"] := by cbv
  obtain ⟨⟨b', u⟩, ok, texts⟩ := Option.map_eq_some_iff.mp ran
  have ok : sharedValue.allocate 3 sharedValuePool {} {} = .ok (b', u) := by
    cases allocated : sharedValue.allocate 3 sharedValuePool {} {} with
    | error e =>
      rw [allocated] at ok
      cases ok
    | ok r =>
      rw [allocated] at ok
      cases ok
      rfl
  obtain ⟨spills, reloads, slots, frame, -⟩ := few_live_spill_nothing (n := 3) (by decide) (by decide)
    (by decide +kernel) (by decide) ok
  exact ⟨b', u, ok, texts, spills, reloads, slots, frame⟩

end Target.Block

end Codegen86
