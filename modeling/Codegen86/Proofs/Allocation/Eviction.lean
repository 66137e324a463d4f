import Codegen86.Proofs.Allocation.Emitted
import Codegen86.Proofs.Allocation.Invocations
import Codegen86.Proofs.Allocation.Saved
import Codegen86.Proofs.FrameSlots
import Mathlib
/-!
# Eviction

When no register is free, the allocator empties one that the current instruction does not use: one whose values
are read furthest ahead, and of several the lowest (`Furthest`).  There is such a register, since an instruction
has one register in use at most when it asks for another (`Operation.Room`).  What the register held is saved
before the instruction is given out; the slots that values are stored to are below the frame that the function
began with, and each belongs to one value of the function alone (`OwnSlot`).
-/

set_option autoImplicit false

namespace Codegen86

open Target

/-! ## Slots of a function -/

/-- A slot below the first `words` words of a frame that belongs to one of its values alone. -/
structure OwnSlot (words : Nat) (slots : Slots) (owner : Owner) (offset : Word) : Prop where
  below : offset.toInt < -(words : Int)
  alone : ∃ front back, slots = front ++ (owner, offset) :: back ∧ ∀ entry ∈ front ++ back, entry.2 ≠ offset

theorem SlotsAfter.own {words : Nat} {slots : Slots} {owner : Owner} {offset : Word}
    (h : SlotsAfter words slots) (small : words + slots.length < 2 ^ 32) (mem : (owner, offset) ∈ slots) :
    OwnSlot words slots owner offset := by
  refine ⟨?_, ?_⟩
  · obtain ⟨j, least, most, is⟩ := h.offset mem
    have is : offset = -Word.ofNat (j % 2 ^ 32) := is
    rw [is, Nat.mod_eq_of_lt (by omega), Word.toInt_neg_ofNat (by omega)]
    omega
  · obtain ⟨front, back, split⟩ := List.append_of_mem mem
    refine ⟨front, back, split, fun entry there same => ?_⟩
    have distinct := h.nodup small
    rw [split, List.map_append, List.map_cons] at distinct
    have apart := (List.nodup_middle.mp distinct)
    rw [← List.map_append] at apart
    exact (List.nodup_cons.mp apart).1 (same ▸ List.mem_map_of_mem (f := (·.2)) there)

namespace Target

open Allocation

variable {n words : Nat} {pool pool' : Pool} {frame frame' : Frame} {journal journal' : Journal} {b : Block}
  {blocks blocks' more : List Block} {s : State} {slots : Slots}

/-- The slots of a block are behind the words that its frame has already. -/
theorem Block.slotsAfter_spilled (size : frame.words.toNat = words % 2 ^ 32)
    (steps : (b.work n pool).Steps (b.begin n pool frame journal) s) :
    SlotsAfter words (b.spilled s) ∧ s.frame.words.toNat = (words + (b.spilled s).length) % 2 ^ 32 := by
  have emitted := steps.emitted (.start pool frame journal) (.start pool frame journal)
  have length : (b.spilled s).length = s.slots.length := by simp [Block.spilled]
  refine ⟨(emitted.slots.wrap (by omega)).congr (by simp [Block.spilled, Function.comp_def]), ?_⟩
  rw [emitted.frame, length]
  omega

/-- The slots of several blocks are behind the words that their frame has already. -/
theorem Function.slotsAfter_spilledSlots (size : frame.words.toNat = words % 2 ^ 32)
    (listed : Function.spilledSlots n pool frame journal blocks = .ok slots) : SlotsAfter words slots := by
  induction blocks generalizing pool frame journal words slots with
  | nil =>
    cases listed
    trivial
  | cons b rest ih =>
    obtain ⟨⟨b', s⟩, allocated, listed⟩ := bind_ok.mp listed
    obtain ⟨others, behind, same⟩ := bind_ok.mp listed
    cases same
    obtain ⟨-, -, steps⟩ := Block.steps_of_allocate allocated
    obtain ⟨here, grown⟩ := Block.slotsAfter_spilled size steps
    exact here.append (ih grown behind)

/-- Blocks that are allocated first have the first slots. -/
theorem Function.spilledSlots_split (size : frame.words.toNat = words % 2 ^ 32)
    (first : Function.allocateBlocks n pool frame journal blocks = .ok (blocks', pool', frame', journal')) :
    ∃ slots, Function.spilledSlots n pool frame journal blocks = .ok slots ∧
      frame'.words.toNat = (words + slots.length) % 2 ^ 32 ∧
      ∀ {more all}, Function.spilledSlots n pool frame journal (blocks ++ more) = .ok all →
        ∃ rest, Function.spilledSlots n pool' frame' journal' more = .ok rest ∧ all = slots ++ rest := by
  induction blocks generalizing pool frame journal words blocks' with
  | nil =>
    cases first
    exact ⟨[], rfl, size, fun {more all} listed => ⟨all, listed, rfl⟩⟩
  | cons b rest ih =>
    obtain ⟨⟨b', s⟩, allocated, first⟩ := bind_ok.mp first
    obtain ⟨⟨rest', q, frame'', journal''⟩, others, same⟩ := bind_ok.mp first
    cases same
    obtain ⟨-, -, steps⟩ := Block.steps_of_allocate allocated
    obtain ⟨-, grown⟩ := Block.slotsAfter_spilled size steps
    obtain ⟨behind, listed, size', split⟩ := ih grown others
    refine ⟨b.spilled s ++ behind, bind_ok.mpr ⟨_, allocated, bind_ok.mpr ⟨_, listed, rfl⟩⟩, ?_, ?_⟩
    · rw [size', List.length_append, Nat.add_assoc]
    · intro more all listed
      obtain ⟨⟨b'', s'⟩, allocated', listed⟩ := bind_ok.mp listed
      cases allocated.symm.trans allocated'
      obtain ⟨last, tail, same⟩ := bind_ok.mp listed
      cases same
      obtain ⟨rest, last, rfl⟩ := split tail
      exact ⟨rest, last, (List.append_assoc ..).symm⟩

end Target

namespace Allocation

variable {c : Context} {s s' t : State} {key other : Operand} {r index : Nat} {op op' : Operation}

/-! ## The choice -/

/-- How far ahead a value is read; one that is not read any more, past everything. -/
def Liveness.distance (l : Liveness) (index : Nat) (key : Operand) : WithTop Nat :=
  match l.nextRead key index with
  | some j => WithTop.some j
  | none => ⊤

/-- A register that holds something and is not in use by the current instruction. -/
def Evictable (s : State) (r : Nat) : Prop :=
  (∃ key, s.register? key = some r) ∧ s.pinned.contains r = false

/-- Of the registers that can be evicted, one whose values are read furthest ahead, and the lowest one. -/
structure Furthest (c : Context) (s : State) (index victim : Nat) : Prop where
  evictable : Evictable s victim
  furthest : ∀ r, Evictable s r → ∃ key, s.register? key = some r ∧ ∀ other, s.register? other = some victim →
    c.liveness.distance index key ≤ c.liveness.distance index other
  lowest : ∀ r, r < victim → Evictable s r → ∃ key, s.register? key = some r ∧
    ∀ other, s.register? other = some victim → c.liveness.distance index key < c.liveness.distance index other

theorem nextRead_lt {l : Liveness} {j : Nat} (next : l.nextRead key index = some j) : j < l.size := by
  obtain ⟨m, found, rfl⟩ := Option.map_eq_some_iff.mp next
  have inside := (List.findIdx?_eq_some_iff_getElem.mp found).1
  rw [List.length_drop] at inside
  rw [Liveness.size]
  omega

/-- Distances are told apart by the next read, with the length of the block for those without one. -/
theorem distance_le_iff {l : Liveness} : l.distance index key ≤ l.distance index other ↔
    (l.nextRead key index).getD l.size ≤ (l.nextRead other index).getD l.size := by
  unfold Liveness.distance
  cases next : l.nextRead key index with
  | none =>
    cases next' : l.nextRead other index with
    | none => simp
    | some j =>
      have := nextRead_lt next'
      simp
      omega
  | some j =>
    have := nextRead_lt next
    cases next' : l.nextRead other index with
    | none =>
      simp
      omega
    | some j' => simp

theorem foldl_min {α : Type} (f : α → Nat) (keys : List α) (least : Nat) :
    (∀ key ∈ keys, keys.foldl (fun least key => min least (f key)) least ≤ f key) ∧
      keys.foldl (fun least key => min least (f key)) least ≤ least ∧
      (keys.foldl (fun least key => min least (f key)) least = least ∨
        ∃ key ∈ keys, f key = keys.foldl (fun least key => min least (f key)) least) := by
  induction keys generalizing least with
  | nil => exact ⟨nofun, Nat.le_refl _, .inl rfl⟩
  | cons key rest ih =>
    obtain ⟨below, start, attained⟩ := ih (min least (f key))
    rw [List.foldl_cons]
    refine ⟨List.forall_mem_cons.mpr ⟨by omega, below⟩, by omega, ?_⟩
    rcases attained with same | ⟨found, mem, same⟩
    · rw [same]
      rcases Nat.le_total least (f key) with le | le
      · exact .inl (Nat.min_eq_left le)
      · exact .inr ⟨key, List.mem_cons_self, (Nat.min_eq_right le).symm⟩
    · exact .inr ⟨found, List.mem_cons_of_mem _ mem, same⟩

/-- The first read of a register is that of one of its values, and no other value is read before. -/
theorem firstRead_spec {n : Nat} (c : Context) (index : Nat) (h : s.residents.Consistent n)
    (held : s.register? key = some r) :
    (∀ other, s.register? other = some r →
      s.firstRead c r index ≤ (c.liveness.nextRead other index).getD c.liveness.size) ∧
    ∃ other, s.register? other = some r ∧
      (c.liveness.nextRead other index).getD c.liveness.size = s.firstRead c r index := by
  obtain ⟨below, start, attained⟩ := foldl_min
    (fun key => (c.liveness.nextRead key index).getD c.liveness.size) (s.residents.of r) c.liveness.size
  refine ⟨fun other there => below other (h.mem_of_iff.mpr there), ?_⟩
  rcases attained with same | ⟨other, mem, same⟩
  · refine ⟨key, held, Nat.le_antisymm ?_ (below key (h.mem_of_iff.mpr held))⟩
    rw [State.firstRead, same]
    cases next : c.liveness.nextRead key index with
    | none => exact Nat.le_refl _
    | some j => exact Nat.le_of_lt (nextRead_lt next)
  · exact ⟨other, h.mem_of_iff.mp mem, same⟩

theorem mem_evictable_iff (h : s.residents.Consistent c.registers) : r ∈ s.evictable c ↔ Evictable s r := by
  rw [mem_evictable, Evictable]
  constructor
  · rintro ⟨-, unused, occupied⟩
    refine ⟨Classical.byContradiction fun none => occupied (h.occupants_eq_zero_iff.mpr fun key held => ?_), unused⟩
    exact none ⟨key, held⟩
  · rintro ⟨⟨key, held⟩, unused⟩
    exact ⟨h.bounds held, unused, fun zero => h.occupants_eq_zero_iff.mp zero key held⟩

/-- The register that is chosen. -/
theorem furthest_of_victim (h : s.residents.Consistent c.registers) {victim : Nat}
    (chosen : s.victim? c index = some victim) : Furthest c s index victim := by
  have some_there : s.evictable c ≠ [] := fun none => by
    rw [State.victim?, none] at chosen
    cases chosen
  obtain ⟨reg, mem, same, most⟩ := victim?_spec index some_there
  cases same.symm.trans chosen
  have evictable := (mem_evictable_iff h).mp mem
  obtain ⟨⟨key, held⟩, -⟩ := id evictable
  obtain ⟨least, -⟩ := firstRead_spec c index h held
  refine ⟨evictable, fun r there => ?_, fun r less there => ?_⟩
  · obtain ⟨⟨key, held⟩, -⟩ := id there
    obtain ⟨-, first, held, is⟩ := firstRead_spec c index h held
    refine ⟨first, held, fun other held' => distance_le_iff.mpr ?_⟩
    have := (most r ((mem_evictable_iff h).mpr there)).1
    have := least other held'
    omega
  · obtain ⟨⟨key, held⟩, -⟩ := id there
    obtain ⟨-, first, held, is⟩ := firstRead_spec c index h held
    refine ⟨first, held, fun other held' => lt_of_not_ge fun le => ?_⟩
    have := (most r ((mem_evictable_iff h).mpr there)).2 less
    have := least other held'
    have := distance_le_iff.mp le
    omega

/-! ## Registers in use -/

/-- What an operation asks of the registers in use: those that may look for a register leave one for it. -/
def Operation.Room (c : Context) (s : State) : Operation → Prop
  | .instruction _ | .defineByAlias _ _ _ | .attach _ _ _ => True
  | .move _ _ | .moveToRegister _ _ _ | .moveToMemory _ _ _ | .arith _ _ _ | .pop _ => s.pinned = .empty
  | .defineByMove _ _ _ | .use _ | .resolve _ _ | .load _ | .acquire => Spare c s

theorem invokes_room (two : 2 ≤ c.registers) (room : op.Room c s) (invokes : Invokes c index (op, s) (op', t)) :
    op'.Room c t := by
  have none : ∀ {s : State}, s.pinned = .empty → Spare c s := fun none => OneMore.spare two none (.inl rfl)
  cases invokes with
  | push | cmpLeft => exact none rfl
  | pop | mov | arith => exact rfl
  | cmpRight left => exact OneMore.spare two rfl (oneMore_use left)
  | moveRegister | moveMemory => exact room
  | moveOther | copy | fetch | store | storeOther | arithSource | popAcquire => exact none room
  | arithTarget role source => exact OneMore.spare two room (oneMore_use source)
  | copied | cached | popAttach | defineAttach | aliasAttach | resolveAttach => exact trivial
  | defineAcquire | use | resolveLoad | load => exact room

theorem within_room (two : 2 ≤ c.registers) (room : op.Room c s) (within : Within c index (op, s) (op', t)) :
    op'.Room c t := by
  generalize last : (op', t) = there at within
  induction within generalizing op' t with
  | refl =>
    cases last
    exact room
  | tail before invokes ih =>
    subst last
    exact invokes_room two (ih rfl) invokes

/-! ## The instruction -/

/-- The last instruction that is given out is a `NOP`, or is of a kind. -/
def State.EndsWith (s : State) (mnemonic : String) : Prop :=
  ∃ (out : Array Instruction) (i : Instruction), s.out = out.push i ∧ (i = .nop ∨ i.mnemonic = mnemonic)

theorem endsWith_emit (s : State) (i : Instruction) : (s.emit i).EndsWith i.mnemonic := ⟨s.out, i, rfl, .inr rfl⟩

theorem endsWith_eliminate (s : State) (mnemonic : String) : s.eliminate.EndsWith mnemonic :=
  ⟨s.out, .nop, rfl, .inl rfl⟩

theorem endsWith_defineByAlias (s : State) (x : OperandRef) (key : Operand) (r : Nat) (mnemonic : String) :
    (s.defineByAlias x key r).EndsWith mnemonic :=
  ⟨s.out, .nop, Work.out_defineByAlias s x key r, .inl rfl⟩

theorem endsWith_defineByMove {x y : OperandRef} (ok : s.defineByMove c index x key y = .ok (r, s')) :
    s'.EndsWith "MOV" := by
  obtain ⟨⟨reg, t⟩, acquired, same⟩ := bind_ok.mp ok
  cases same
  exact endsWith_emit _ (.mov _ _)

theorem endsWith_moveToRegister {x y : OperandRef} (ok : s.moveToRegister c index x key y = .ok s') :
    s'.EndsWith "MOV" := by
  unfold State.moveToRegister at ok
  split at ok
  · cases ok
    exact endsWith_eliminate _ _
  · split at ok
    · obtain ⟨⟨reg, z, t⟩, resolved, same⟩ := bind_ok.mp ok
      cases same
      exact endsWith_defineByAlias ..
    · split at ok
      · cases ok
        exact endsWith_defineByAlias ..
      · obtain ⟨⟨reg, t⟩, defined, same⟩ := bind_ok.mp ok
        cases same
        obtain ⟨out, i, is, kind⟩ := endsWith_defineByMove defined
        split
        · exact ⟨out, i, is, kind⟩
        · exact ⟨out, i, is, kind⟩
    · obtain ⟨⟨reg, t⟩, defined, same⟩ := bind_ok.mp ok
      cases same
      exact endsWith_defineByMove defined

theorem endsWith_move {x y : OperandRef} (ok : s.move c index x y = .ok s') : s'.EndsWith "MOV" := by
  unfold State.move at ok
  split at ok
  · exact endsWith_moveToRegister ok
  · unfold State.moveToMemory at ok
    split at ok
    · obtain ⟨⟨reg, z, t⟩, resolved, same⟩ := bind_ok.mp ok
      cases same
      split
      · exact endsWith_eliminate _ _
      · exact endsWith_emit _ (.mov _ _)
    all_goals
      obtain ⟨⟨z, t⟩, used, same⟩ := bind_ok.mp ok
      cases same
      exact endsWith_emit _ (.mov _ _)
  · obtain ⟨⟨z, t⟩, used, same⟩ := bind_ok.mp ok
    cases same
    exact endsWith_emit _ (.mov _ _)

theorem endsWith_arith {kind : Arith} {x y : OperandRef} (ok : s.arith c index kind x y = .ok s') :
    s'.EndsWith (Instruction.arithMnemonic kind) := by
  obtain ⟨⟨z, t⟩, used, ok⟩ := bind_ok.mp ok
  dsimp only at ok
  split at ok
  · obtain ⟨⟨reg, w, u⟩, resolved, same⟩ := bind_ok.mp ok
    cases same
    exact endsWith_emit _ (.arith kind _ _)
  all_goals
    cases ok
    exact endsWith_emit _ (.arith kind _ _)

theorem endsWith_pop {x : OperandRef} (ok : s.pop c index x = .ok s') : s'.EndsWith "POP" := by
  unfold State.pop at ok
  split at ok
  · obtain ⟨⟨reg, t⟩, acquired, same⟩ := bind_ok.mp ok
    cases same
    exact endsWith_emit _ (.pop _)
  all_goals
    cases ok
    exact endsWith_emit _ (.pop _)

/-- An instruction is given out last, if it is not left out. -/
theorem endsWith_instruction {i : Instruction} (ok : s.instruction c index i = .ok s') : s'.EndsWith i.mnemonic := by
  cases i with
  | push x =>
    obtain ⟨⟨z, t⟩, used, same⟩ := bind_ok.mp ok
    cases same
    exact endsWith_emit _ (.push _)
  | pop x => exact endsWith_pop ok
  | mov x y => exact endsWith_move ok
  | arith kind x y => exact endsWith_arith ok
  | cmp x y =>
    obtain ⟨⟨z, t⟩, used, ok⟩ := bind_ok.mp ok
    obtain ⟨⟨w, u⟩, used', same⟩ := bind_ok.mp ok
    cases same
    exact endsWith_emit _ (.cmp _ _)
  | jumpIf condition x =>
    cases ok
    exact endsWith_emit _ (.jumpIf condition _)
  | ret | halt | nop | jump | call =>
    cases ok
    exact endsWith_emit _ _

/-! ## Emptying a register -/

/-- The victim gives up its values, and no other register does. -/
theorem register?_vacate_eq (h : s.residents.Consistent c.registers) (victim : Nat) (key : Operand) :
    (s.vacate c victim index).register? key =
      if s.register? key = some victim then none else s.register? key := by
  rw [State.vacate, register?_foldl (register?_vacateOne c index victim)]
  simp only [and_true, h.mem_of_iff]
  rfl

end Allocation

namespace Target.Block

open Allocation

variable {b : Block} {n index : Nat} {pool p : Pool} {frame : Frame} {journal journal' : Journal} {i : Instruction}
  {s t : State} {op : Operation}

/-- Wherever the allocation of a block comes to, registers and values are in order. -/
theorem Comes.orderly (few : n ≤ RegisterSet.largest) (h : b.Comes n pool frame journal index i s op t) :
    (b.work n pool).Orderly t :=
  have start : (b.begin n pool frame journal).books.Sound n := .start few
  ⟨regular_of_steps h.reached, start.entries few (h.reached.entries few start)⟩

/-- An eviction empties the register that was chosen, and the instruction is given out behind it. -/
theorem Comes.evicts (two : 2 ≤ n) (few : n ≤ RegisterSet.largest)
    (h : b.Comes n pool frame journal index i s .acquire t) (full : t.residents.free.isEmpty = true) :
    ∃ victim, (b.work n pool).InRange victim ∧ t.victim? (b.context n pool) index = some victim ∧
      Operation.acquire.run (b.context n pool) index t = .ok (t.vacate (b.context n pool) victim index) ∧
      (t.vacate (b.context n pool) victim index).residents.free.contains victim = true := by
  have order := h.orderly few
  have room : (Operation.instruction i).Room (b.context n pool) s := trivial
  have spare : Spare (b.context n pool) t := within_room two room h.within
  obtain ⟨victim, range, -, chosen⟩ := victim?_of_spare index order.books.residents full spare
  have after := order.steps few (Work.steps_vacate (Work.reads_ofBlock index) order.regular range)
  have free : (t.vacate (b.context n pool) victim index).residents.free.contains victim = true :=
    after.books.residents.free_iff.mpr ⟨range.1, range.2, register?_vacate index order.books.residents⟩
  obtain ⟨r, first⟩ := Option.isSome_iff_exists.mp (RegisterSet.first?_isSome free)
  refine ⟨victim, range, chosen, ?_, free⟩
  refine bind_ok.mpr ⟨(r, _), ?_, rfl⟩
  have evicted : t.evict (b.context n pool) index = .ok (t.vacate (b.context n pool) victim index) := by
    unfold State.evict
    rw [show t.victim? (b.context n pool) index = some victim from chosen]
  rw [Work.acquire_eq, if_pos full]
  exact bind_ok.mpr ⟨_, evicted, by rw [first]; rfl⟩

/-- When no register is free, the register whose values are read furthest ahead is emptied, of several the lowest:
its dirty words are stored back before the instruction, and its abstract registers that are read again to slots.
Such a slot belongs to its register alone as long as the frame stays below `2 ^ 32` words, the size of a frame having
32 bits. -/
theorem eviction_furthest (two : 2 ≤ n) (few : n ≤ RegisterSet.largest) {f : Function}
    {before before' after : List Block} (blocks : f.blocks = before ++ b :: after)
    (first : Function.allocateBlocks n p { words := f.frameSize } journal before = .ok (before', pool, frame, journal'))
    (h : b.Comes n pool frame journal' index i s .acquire t) (full : t.residents.free.isEmpty = true) :
    ∃ victim t' moves, t.evict (b.context n pool) index = .ok t' ∧
      Furthest (b.context n pool) t index victim ∧
      t'.residents.free.contains victim = true ∧
      (∀ key, t'.register? key = if t.register? key = some victim then none else t.register? key) ∧
      t'.out.toList = t.out.toList ++ moves ∧
      (∀ s', s.instruction (b.context n pool) index i = .ok s' → ∃ rest j,
        s'.out.toList = t'.out.toList ++ rest ++ [j] ∧ (j = .nop ∨ j.mnemonic = i.mnemonic)) ∧
      (∀ word ∈ t.dirty, t.register? word = some victim →
        word ∉ t'.dirty ∧ ∃ j ∈ moves, t'.Stores victim word j) ∧
      ∀ key, key.isAbstract = true → t.register? key = some victim →
        ((b.context n pool).liveness.nextRead key index).isSome = true →
        ∃ offset, t'.slots.lookup key = some offset ∧ (∃ j ∈ moves, t'.Stores victim (.frameSlot offset) j) ∧
          ∃ earlier, Function.spilledSlots n p { words := f.frameSize } journal before = .ok earlier ∧
            (∀ u, (b.work n pool).Steps t' u → f.frameSize.toNat + (earlier ++ b.spilled u).length < 2 ^ 32 →
              OwnSlot f.frameSize.toNat (earlier ++ b.spilled u) (.spilled b.name key) offset) ∧
            ∀ slots, Function.spilledSlots n p { words := f.frameSize } journal f.blocks = .ok slots →
              f.frameSize.toNat + slots.length < 2 ^ 32 →
              OwnSlot f.frameSize.toNat slots (.spilled b.name key) offset := by
  have order := h.orderly few
  obtain ⟨victim, range, chosen, ran, free⟩ := h.evicts two few full
  have steps := h.run ran
  have regular := steps.regular order.regular
  obtain ⟨moves, saves⟩ := saves_vacate (Work.reads_ofBlock index) order.regular
    (order.books.residents.nodup_of victim) range
  have of : ∀ {key}, t.register? key = some victim → key ∈ t.residents.of victim :=
    order.books.residents.mem_of_iff.mpr
  refine ⟨victim, _, moves, by rw [State.evict, chosen], furthest_of_victim order.books.residents chosen, free,
    register?_vacate_eq order.books.residents victim, saves.out, fun s' ok => ?_, fun word dirty held => ?_,
    fun key abstract held read => ?_⟩
  · have resumes := h.resumes ran ok
    obtain ⟨out, j, last, kind⟩ := endsWith_instruction ok
    have before := (resumes.steps.grown regular).out
    rw [last, Array.toList_push] at before
    rcases List.prefix_concat_iff.mp before with all | ⟨rest, split⟩
    · have less := resumes.behind rfl rfl
      rw [last, ← Array.length_toList, ← Array.length_toList, Array.toList_push, ← all] at less
      exact absurd less (Nat.lt_irrefl _)
    · exact ⟨rest, j, by rw [last, Array.toList_push, ← split], kind⟩
  · exact ⟨fun still => (saves.dirty.mp still).2 (of held), saves.words word (of held) dirty⟩
  · have value : key.isMemory = false := Bool.eq_false_iff.mpr fun memory => by
      rw [Work.not_abstract_of_memory memory] at abstract
      cases abstract
    obtain ⟨offset, found, stored⟩ := saves.values key (of held) value read
    have start : ({ words := f.frameSize } : Frame).words.toNat = f.frameSize.toNat % 2 ^ 32 :=
      (Nat.mod_eq_of_lt f.frameSize.toNat_lt).symm
    obtain ⟨earlier, listed, size, split⟩ := Function.spilledSlots_split start first
    have placed := Function.slotsAfter_spilledSlots start listed
    have among : ∀ {u}, (b.work n pool).Steps (t.vacate (b.context n pool) victim index) u →
        (Owner.spilled b.name key, offset) ∈ b.spilled u := fun more =>
      List.mem_map.mpr ⟨_, List.mem_reverse.mpr (mem_of_lookup ((more.grown regular).slots found)), rfl⟩
    refine ⟨offset, found, stored, earlier, listed, fun u more small => ?_, fun slots all small => ?_⟩
    · have behind := (slotsAfter_spilled size ((h.reached.trans steps).trans more)).1
      exact (placed.append behind).own small (List.mem_append_right _ (among more))
    · rw [blocks] at all
      obtain ⟨rest, others, rfl⟩ := split all
      obtain ⟨⟨b', v⟩, allocated, others⟩ := bind_ok.mp others
      obtain ⟨last, tail, same⟩ := bind_ok.mp others
      cases same
      obtain ⟨s', ok, leads⟩ := Passes.succeeds h.passes h.next allocated
      have more := (h.resumes ran ok).steps.trans leads
      exact (Function.slotsAfter_spilledSlots start all).own small
        (List.mem_append_right _ (List.mem_append_left _ (among more)))

/-- Three values for two registers. -/
def threePushed : Block where
  name := "b"
  code := [.mov 0 1, .mov 2 3, .mov 4 5, .push 2, .push 0, .push 4]

def threePushedPool : Pool where
  operands := #[.reg (.abstract 0), .imm 7, .reg (.abstract 1), .imm 8, .reg (.abstract 2), .imm 9]

/-- The third value needs a register, and the first one is pushed after the second. -/
theorem threePushed_evicts : ∃ s t victim t',
    threePushed.Comes 2 threePushedPool {} {} 2 (.mov 4 5) s .acquire t ∧ t.residents.free.isEmpty = true ∧
      t.register? (.reg (.abstract 0)) = some 1 ∧ t.register? (.reg (.abstract 1)) = some 2 ∧
      t.evict (threePushed.context 2 threePushedPool) 2 = .ok t' ∧
      Furthest (threePushed.context 2 threePushedPool) t 2 victim ∧
      t'.residents.free.contains victim = true := by
  -- evaluating the run takes the equations of library functions, for which Mathlib is imported whole
  have run : ((State.start (threePushed.context 2 threePushedPool) threePushedPool {} {}).instruction
      (threePushed.context 2 threePushedPool) 0 (.mov 0 1) >>= fun s =>
        (s.releaseDead (threePushed.context 2 threePushedPool) 0).instruction
          (threePushed.context 2 threePushedPool) 1 (.mov 2 3) >>= fun s =>
            let t := (s.releaseDead (threePushed.context 2 threePushedPool) 1).unpinned
            .ok (t.current 4, t.role 4, t.current 5, t.role 5, t.residents.free.isEmpty,
              t.register? (.reg (.abstract 0)), t.register? (.reg (.abstract 1)))) =
      .ok (4, .abstract (.reg (.abstract 2)), 5, .other, true, some 1, some 2) := by cbv
  obtain ⟨s₁, first, run⟩ := bind_ok.mp run
  obtain ⟨s₂, second, run⟩ := bind_ok.mp run
  have found := Except.ok.inj run
  simp only [Prod.mk.injEq] at found
  obtain ⟨target, targetRole, source, sourceRole, full, held, held'⟩ := found
  have passes : threePushed.Passes 2 threePushedPool {} {} (.before 2) _ :=
    .next (.release (.instruction (.next (.release (.instruction .start rfl first))) rfl second))
  have live : (threePushed.context 2 threePushedPool).liveness.isLiveAfter 2 (.reg (.abstract 2)) = true := by
    decide +kernel
  have comes : threePushed.Comes 2 threePushedPool {} {} 2 (.mov 4 5) _ .acquire _ :=
    ⟨passes, rfl, .tail (.tail (.tail (.single .mov) (.moveRegister ((congrArg _ target).trans targetRole)))
      (.fetch live (.inl ((congrArg _ source).trans sourceRole)))) .defineAcquire⟩
  have alone : ({ name := "f", blocks := [threePushed] } : Function).blocks = [] ++ threePushed :: [] := rfl
  obtain ⟨victim, t', moves, evicted, furthest, free, -⟩ :=
    eviction_furthest (Nat.le_refl 2) (by decide) alone rfl comes full
  exact ⟨_, _, victim, t', comes, full, held, held', evicted, furthest, free⟩

end Target.Block

end Codegen86
