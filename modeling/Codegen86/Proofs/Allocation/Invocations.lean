import Codegen86.Proofs.Allocation.Bookkeeping
/-!
# What the allocator does within an instruction

The allocation of an instruction is a tree of operations (`Operation`), each of which invokes others on the
states that it comes to (`Invokes`), down to those that find a register (`acquire`) and those that let an
operand name one (`attach`).  What is asked of an operation (`Work.Admits`) holds wherever it is invoked; the
state it is invoked on is reached by steps, and steps lead on from where it ends to where the operation that
invoked it ends.  So the states at which operations of an instruction begin (`Within`) are on the way from
the state before the instruction to the state behind it.
-/

set_option autoImplicit false

namespace Codegen86

open Target

namespace Allocation

/-- An operation of the allocator at an instruction, with its operands. -/
inductive Operation where
  | instruction (i : Instruction)
  | move (target source : OperandRef)
  | moveToRegister (target : OperandRef) (key : Operand) (source : OperandRef)
  | moveToMemory (target : OperandRef) (word : Operand) (source : OperandRef)
  | arith (op : Arith) (target source : OperandRef)
  | pop (operand : OperandRef)
  | defineByMove (target : OperandRef) (key : Operand) (source : OperandRef)
  | defineByAlias (target : OperandRef) (key : Operand) (register : Nat)
  | use (operand : OperandRef)
  | resolve (operand : OperandRef) (key : Operand)
  | load (key : Operand)
  | acquire
  | attach (operand : OperandRef) (key : Operand) (register : Nat)
  deriving DecidableEq, Repr

/-- The state that an operation ends in. -/
def Operation.run (c : Context) (index : Nat) (s : State) : Operation → Except Error State
  | .instruction i => s.instruction c index i
  | .move x y => s.move c index x y
  | .moveToRegister x key y => s.moveToRegister c index x key y
  | .moveToMemory x word y => s.moveToMemory c index x word y
  | .arith op x y => s.arith c index op x y
  | .pop x => s.pop c index x
  | .defineByMove x key y => s.defineByMove c index x key y >>= fun found => .ok found.2
  | .defineByAlias x key r => .ok (s.defineByAlias x key r)
  | .use x => s.use c index x >>= fun found => .ok found.2
  | .resolve x key => s.resolve c index x key >>= fun found => .ok found.2.2
  | .load key => s.load c index key >>= fun found => .ok found.2
  | .acquire => s.acquire c index >>= fun found => .ok found.2
  | .attach x key r => .ok (s.attach x key r).2

/-- The operations that end with an instruction given out. -/
def Operation.gives : Operation → Bool
  | .instruction _ | .move _ _ | .moveToRegister _ _ _ | .moveToMemory _ _ _ | .arith _ _ _ | .pop _
  | .defineByMove _ _ _ | .defineByAlias _ _ _ => true
  | .use _ | .resolve _ _ | .load _ | .acquire | .attach _ _ _ => false

/-- The state in which an instruction begins: it uses no register yet. -/
def State.unpinned (s : State) : State := { s with pinned := .empty }

/-- An operation on a state invokes another one on a state that it comes to. -/
inductive Invokes (c : Context) (index : Nat) : Operation × State → Operation × State → Prop
  | push {s : State} {x : OperandRef} :
      Invokes c index (.instruction (.push x), s) (.use (s.unpinned.current x), s.unpinned)
  | pop {s : State} {x : OperandRef} :
      Invokes c index (.instruction (.pop x), s) (.pop (s.unpinned.current x), s.unpinned)
  | mov {s : State} {x y : OperandRef} :
      Invokes c index (.instruction (.mov x y), s)
        (.move (s.unpinned.current x) (s.unpinned.current y), s.unpinned)
  | arith {s : State} {op : Arith} {x y : OperandRef} :
      Invokes c index (.instruction (.arith op x y), s)
        (.arith op (s.unpinned.current x) (s.unpinned.current y), s.unpinned)
  | cmpLeft {s : State} {x y : OperandRef} :
      Invokes c index (.instruction (.cmp x y), s) (.use (s.unpinned.current x), s.unpinned)
  | cmpRight {s t : State} {x y z : OperandRef} (left : s.unpinned.use c index (s.unpinned.current x) = .ok (z, t)) :
      Invokes c index (.instruction (.cmp x y), s) (.use (s.unpinned.current y), t)
  | moveRegister {s : State} {x y : OperandRef} {key : Operand} (role : s.role x = .abstract key) :
      Invokes c index (.move x y, s) (.moveToRegister x key y, s)
  | moveMemory {s : State} {x y : OperandRef} {word : Operand} (role : s.role x = .memory word) :
      Invokes c index (.move x y, s) (.moveToMemory x word y, s)
  | moveOther {s : State} {x y : OperandRef} (role : s.role x = .other) :
      Invokes c index (.move x y, s) (.use y, s)
  | copy {s : State} {x y : OperandRef} {key sourceKey : Operand} (live : c.liveness.isLiveAfter index key = true)
      (role : s.role y = .abstract sourceKey) :
      Invokes c index (.moveToRegister x key y, s) (.resolve y sourceKey, s)
  | copied {s t : State} {x y z : OperandRef} {key sourceKey : Operand} {r : Nat}
      (live : c.liveness.isLiveAfter index key = true) (role : s.role y = .abstract sourceKey)
      (resolved : s.resolve c index y sourceKey = .ok (r, z, t)) :
      Invokes c index (.moveToRegister x key y, s) (.defineByAlias x key r, t)
  | cached {s : State} {x y : OperandRef} {key word : Operand} {r : Nat}
      (live : c.liveness.isLiveAfter index key = true) (role : s.role y = .memory word)
      (held : s.register? word = some r) :
      Invokes c index (.moveToRegister x key y, s) (.defineByAlias x key r, s)
  | fetch {s : State} {x y : OperandRef} {key : Operand} (live : c.liveness.isLiveAfter index key = true)
      (role : s.role y = .other ∨ ∃ word, s.role y = .memory word ∧ s.register? word = none) :
      Invokes c index (.moveToRegister x key y, s) (.defineByMove x key y, s)
  | store {s : State} {x y : OperandRef} {word key : Operand} (role : s.role y = .abstract key) :
      Invokes c index (.moveToMemory x word y, s) (.resolve y key, s)
  | storeOther {s : State} {x y : OperandRef} {word : Operand} (role : ∀ key, s.role y ≠ .abstract key) :
      Invokes c index (.moveToMemory x word y, s) (.use y, s)
  | arithSource {s : State} {op : Arith} {x y : OperandRef} :
      Invokes c index (.arith op x y, s) (.use y, s)
  | arithTarget {s t : State} {op : Arith} {x y z : OperandRef} {key : Operand} (role : s.role x = .abstract key)
      (source : s.use c index y = .ok (z, t)) : Invokes c index (.arith op x y, s) (.resolve x key, t)
  | popAcquire {s : State} {x : OperandRef} {key : Operand} (role : s.role x = .abstract key) :
      Invokes c index (.pop x, s) (.acquire, s)
  | popAttach {s t : State} {x : OperandRef} {key : Operand} {r : Nat} (role : s.role x = .abstract key)
      (acquired : s.acquire c index = .ok (r, t)) : Invokes c index (.pop x, s) (.attach x key r, t.bind key r)
  | defineAcquire {s : State} {x y : OperandRef} {key : Operand} :
      Invokes c index (.defineByMove x key y, s) (.acquire, s)
  | defineAttach {s t : State} {x y : OperandRef} {key : Operand} {r : Nat}
      (acquired : s.acquire c index = .ok (r, t)) :
      Invokes c index (.defineByMove x key y, s) (.attach x key r, (t.pin r).bind key r)
  | aliasAttach {s : State} {x : OperandRef} {key : Operand} {r : Nat} :
      Invokes c index (.defineByAlias x key r, s) (.attach x key r, s.bind key r)
  | use {s : State} {x : OperandRef} {key : Operand} (role : s.role x = .abstract key) :
      Invokes c index (.use x, s) (.resolve x key, s)
  | resolveLoad {s : State} {x : OperandRef} {key : Operand} :
      Invokes c index (.resolve x key, s) (.load key, s)
  | resolveAttach {s t : State} {x : OperandRef} {key : Operand} {r : Nat}
      (loaded : s.load c index key = .ok (r, t)) :
      Invokes c index (.resolve x key, s) (.attach x key r, t.pin r)
  | load {s : State} {key : Operand} {offset : Word} (absent : s.register? key = none)
      (found : s.slots.lookup key = some offset) : Invokes c index (.load key, s) (.acquire, s)

/-- The operations that an operation invokes, at whatever depth. -/
abbrev Within (c : Context) (index : Nat) : Operation × State → Operation × State → Prop :=
  Relation.ReflTransGen (Invokes c index)

namespace Work

/-- What is asked of an operation. -/
def Admits (W : Work) (s : State) : Operation → Prop
  | .instruction i => i ∈ W.code
  | .move x y | .arith _ x y => W.Stands s x ∧ W.Stands s y
  | .moveToRegister x key y => s.role x = .abstract key ∧ W.Stands s y
  | .moveToMemory x word y => s.role x = .memory word ∧ W.Stands s x ∧ W.Stands s y
  | .pop x | .use x => W.Stands s x
  | .defineByMove x key y => s.role x = .abstract key ∧ W.Fits s false y
  | .defineByAlias x key r => s.role x = .abstract key ∧ W.InRange r
  | .resolve x key => s.role x = .abstract key
  | .load key => key.isAbstract = true
  | .acquire => True
  | .attach x key r => s.role x = .abstract key ∧ W.InRange r ∧ s.register? key = some r

variable {W : Work} {index : Nat} {s s' t : State} {op op' : Operation}

theorem step_unpinned : W.Step s s.unpinned := .note

/-- A value that was asked for is in the register that was found. -/
theorem held_of_load {c : Context} {key : Operand} {r : Nat} (ok : s.load c index key = .ok (r, t)) :
    t.register? key = some r := by
  unfold State.load at ok
  split at ok
  · rename_i held
    cases ok
    exact held
  · split at ok
    · cases ok
    · obtain ⟨⟨reg, s₁⟩, acquired, rest⟩ := bind_ok.mp ok
      cases rest
      rw [register?_bind, if_pos rfl]

/-- What stands for the operands of an instruction of the block. -/
theorem stands_unpinned (h : W.Regular s) {i : Instruction} {x : OperandRef} (mem : i ∈ W.code) (use : x ∈ i.operands) :
    W.Stands s.unpinned (s.unpinned.current x) :=
  (step_unpinned.regular h).stands ⟨i, mem, use⟩

variable (W) in
/-- Where an operation that was invoked has ended, and where the one that invoked it ends: steps lead there, and an
instruction that is given out at the end is given out behind. -/
structure Resumes (op op' : Operation) (t' s' : State) : Prop where
  steps : W.Steps t' s'
  behind : op.gives = true → op'.gives = false → t'.out.size < s'.out.size

theorem lt_emit {u : State} {i : Instruction} (h : W.Regular s) (steps : W.Steps s u) :
    s.out.size < (u.emit i).out.size := by
  have := (steps.grown h).out.length_le
  simp only [Array.length_toList] at this
  rw [State.emit, Array.size_push]
  omega

theorem lt_eliminate (s : State) : s.out.size < s.eliminate.out.size := by
  simp [State.eliminate, State.emit]

theorem Resumes.same (none : ¬ (op.gives = true ∧ op'.gives = false)) : W.Resumes op op' s s :=
  ⟨.refl, fun gives silent => absurd ⟨gives, silent⟩ none⟩

/-- The operation goes on and gives out its instruction. -/
theorem Resumes.emit {u : State} {i : Instruction} (h : W.Regular s) (steps : W.Steps s u)
    (fits : ∀ x ∈ i.operands, W.Fits u i.destination?.isSome x) : W.Resumes op op' s (u.emit i) :=
  ⟨steps.tail (.emit fits), fun _ _ => lt_emit h steps⟩

theorem out_defineByAlias (s : State) (x : OperandRef) (key : Operand) (r : Nat) :
    (s.defineByAlias x key r).out = s.out.push .nop := by
  unfold State.defineByAlias State.attach
  dsimp only
  split
  · rfl
  · split <;> rfl

section

variable (read : W.Reads index) (later : W.ReadsAfter index) (known : ∀ key, W.defined key)
include read later known

/-- An operation comes to its end by steps. -/
theorem run_steps (h : W.Regular s) (admits : W.Admits s op) (ok : op.run W.context index s = .ok s') :
    W.Steps s s' := by
  cases op with
  | instruction i => exact steps_instruction read later h admits (fun _ key _ _ => known key) ok
  | move x y => exact steps_move read h (fun _ => known _) admits.1 admits.2 ok
  | moveToRegister x key y => exact steps_moveToRegister read h admits.1 (known key) admits.2 ok
  | moveToMemory x word y => exact steps_moveToMemory read h admits.1 admits.2.1 admits.2.2 ok
  | arith op x y => exact steps_arith read later h admits.1 admits.2 ok
  | pop x => exact steps_pop read h (fun _ => known _) admits ok
  | defineByMove x key y =>
    obtain ⟨⟨r, t⟩, defined, same⟩ := bind_ok.mp ok
    cases same
    exact (steps_defineByMove read h admits.1 (known key) admits.2 defined).1
  | defineByAlias x key r =>
    cases ok
    exact steps_defineByAlias h admits.1 (known key) admits.2
  | use x =>
    obtain ⟨⟨z, t⟩, used, same⟩ := bind_ok.mp ok
    cases same
    exact (steps_use read h admits used).1
  | resolve x key =>
    obtain ⟨⟨r, z, t⟩, resolved, same⟩ := bind_ok.mp ok
    cases same
    exact (steps_resolve read h admits resolved).1
  | load key =>
    obtain ⟨⟨r, t⟩, loaded, same⟩ := bind_ok.mp ok
    cases same
    exact (steps_load read h admits loaded).1
  | acquire =>
    obtain ⟨⟨r, t⟩, acquired, same⟩ := bind_ok.mp ok
    cases same
    exact (steps_acquire read h acquired).1
  | attach x key r =>
    cases ok
    exact (steps_attach h admits.2.1 admits.1).1

omit later in
/-- The state that an operation is invoked on is reached by steps, and what is asked of the operation holds there. -/
theorem invokes_steps (h : W.Regular s) (admits : W.Admits s op)
    (invokes : Invokes W.context index (op, s) (op', t)) : W.Steps s t ∧ W.Admits t op' := by
  have first : W.Steps s s.unpinned := .single step_unpinned
  have stands : ∀ {i x}, i ∈ W.code → x ∈ i.operands → W.Stands s.unpinned (s.unpinned.current x) :=
    fun mem use => stands_unpinned h mem use
  have regular := step_unpinned.regular h
  cases invokes with
  | push | pop => exact ⟨first, stands admits (by simp [Instruction.operands])⟩
  | mov | arith =>
    exact ⟨first, stands admits (by simp [Instruction.operands]), stands admits (by simp [Instruction.operands])⟩
  | cmpLeft => exact ⟨first, stands admits (by simp [Instruction.operands])⟩
  | cmpRight left =>
    obtain ⟨steps, -⟩ := steps_use read regular (stands admits (by simp [Instruction.operands])) left
    exact ⟨first.trans steps, (stands admits (by simp [Instruction.operands])).grown (steps.grown regular)⟩
  | moveRegister role => exact ⟨.refl, role, admits.2⟩
  | moveMemory role => exact ⟨.refl, role, admits.1, admits.2⟩
  | moveOther | arithSource => exact ⟨.refl, admits.2⟩
  | copy live role | store role | use role => exact ⟨.refl, role⟩
  | copied live role resolved =>
    obtain ⟨steps, range, -⟩ := steps_resolve read h role resolved
    exact ⟨steps, (steps.grown h).role admits.1, range⟩
  | cached live role held => exact ⟨.refl, admits.1, h.bound held⟩
  | fetch live role =>
    refine ⟨.refl, admits.1, admits.2.fits ?_ _⟩
    rcases role with role | ⟨word, role, -⟩ <;> simp [role]
  | storeOther role => exact ⟨.refl, admits.2.2⟩
  | arithTarget role source =>
    obtain ⟨steps, -⟩ := steps_use read h admits.2 source
    exact ⟨steps, (steps.grown h).role role⟩
  | popAcquire | defineAcquire | load => exact ⟨.refl, trivial⟩
  | popAttach role acquired =>
    obtain ⟨steps, range⟩ := steps_acquire read h acquired
    refine ⟨steps.tail (.bind range fun _ => known _), (steps.grown h).role role, range, ?_⟩
    rw [register?_bind, if_pos rfl]
  | defineAttach acquired =>
    obtain ⟨steps, range⟩ := steps_acquire read h acquired
    refine ⟨(steps.tail .note).tail (.bind range fun _ => known _), (steps.grown h).role admits.1, range, ?_⟩
    rw [register?_bind, if_pos rfl]
  | aliasAttach =>
    refine ⟨.single (.bind admits.2 fun _ => known _), admits.1, admits.2, ?_⟩
    rw [register?_bind, if_pos rfl]
  | resolveLoad => exact ⟨.refl, h.abstract admits⟩
  | resolveAttach loaded =>
    obtain ⟨steps, range⟩ := steps_load read h (h.abstract admits) loaded
    have held := held_of_load loaded
    exact ⟨steps.tail .note, (steps.grown h).role admits, range, held⟩

/-! ### Where an operation goes on

Once an operation that was invoked has come to its end, the one that invoked it goes on: one lemma for each operation
that invokes others. -/

omit later in
theorem instruction_rest {i : Instruction} (h : W.Regular s) (admits : W.Admits s (.instruction i))
    (invokes : Invokes W.context index (.instruction i, s) (op', t)) (ok : s.instruction W.context index i = .ok s') :
    ∃ t', op'.run W.context index t = .ok t' ∧ W.Resumes (.instruction i) op' t' s' := by
  obtain ⟨-, admits'⟩ := invokes_steps read known h admits invokes
  have regular := step_unpinned.regular h
  have stands : ∀ {x}, x ∈ i.operands → W.Stands s.unpinned (s.unpinned.current x) := fun use =>
    stands_unpinned h admits use
  cases invokes with
  | push =>
    obtain ⟨⟨z, t'⟩, used, same⟩ := bind_ok.mp ok
    cases same
    obtain ⟨steps, fits⟩ := steps_use read regular admits' used
    exact ⟨t', bind_ok.mpr ⟨_, used, rfl⟩, .emit (steps.regular regular) .refl (List.forall_mem_singleton.mpr fits)⟩
  | pop | mov | arith => exact ⟨s', ok, .same (by simp [Operation.gives])⟩
  | @cmpLeft _ x y =>
    obtain ⟨⟨z, t'⟩, used, ok⟩ := bind_ok.mp ok
    obtain ⟨⟨w, t''⟩, used', same⟩ := bind_ok.mp ok
    cases same
    obtain ⟨steps, fits⟩ := steps_use read regular admits' used
    have regular' := steps.regular regular
    have right := (stands (x := y) (by simp [Instruction.operands])).grown (steps.grown regular)
    obtain ⟨more, fits'⟩ := steps_use read regular' right used'
    exact ⟨t', bind_ok.mpr ⟨_, used, rfl⟩, .emit regular' more (fits_pair ((more.grown regular').fits fits) fits')⟩
  | cmpRight left =>
    obtain ⟨⟨z, t'⟩, used, ok⟩ := bind_ok.mp ok
    obtain ⟨⟨w, t''⟩, used', same⟩ := bind_ok.mp ok
    cases same
    cases used.symm.trans left
    obtain ⟨steps, fits⟩ := steps_use read regular (stands (by simp [Instruction.operands])) used
    have regular' := steps.regular regular
    obtain ⟨more, fits'⟩ := steps_use read regular' admits' used'
    exact ⟨t'', bind_ok.mpr ⟨_, used', rfl⟩,
      .emit (more.regular regular') .refl (fits_pair ((more.grown regular').fits fits) fits')⟩

omit later known in
theorem move_rest {x y : OperandRef} (h : W.Regular s) (admits : W.Admits s (.move x y))
    (invokes : Invokes W.context index (.move x y, s) (op', t)) (ok : s.move W.context index x y = .ok s') :
    ∃ t', op'.run W.context index t = .ok t' ∧ W.Resumes (.move x y) op' t' s' := by
  unfold State.move at ok
  cases invokes with
  | moveRegister role | moveMemory role =>
    rw [role] at ok
    exact ⟨s', ok, .same (by simp [Operation.gives])⟩
  | moveOther role =>
    rw [role] at ok
    obtain ⟨⟨z, t'⟩, used, same⟩ := bind_ok.mp ok
    cases same
    obtain ⟨steps, given⟩ := steps_use read h admits.2 used
    have fits := (steps.grown h).fits (admits.1.fits (by simp [role]) false)
    exact ⟨t', bind_ok.mpr ⟨_, used, rfl⟩, .emit (steps.regular h) .refl (fits_pair fits given)⟩

omit later in
theorem moveToRegister_rest {x y : OperandRef} {key : Operand} (h : W.Regular s)
    (admits : W.Admits s (.moveToRegister x key y))
    (invokes : Invokes W.context index (.moveToRegister x key y, s) (op', t))
    (ok : s.moveToRegister W.context index x key y = .ok s') :
    ∃ t', op'.run W.context index t = .ok t' ∧ W.Resumes (.moveToRegister x key y) op' t' s' := by
  obtain ⟨-, admits'⟩ := invokes_steps read known h admits invokes
  unfold State.moveToRegister at ok
  cases invokes with
  | copy live role =>
    rw [if_neg (by simp [live]), role] at ok
    obtain ⟨⟨r, z, t'⟩, resolved, same⟩ := bind_ok.mp ok
    cases same
    obtain ⟨steps, range, -⟩ := steps_resolve read h role resolved
    exact ⟨t', bind_ok.mpr ⟨_, resolved, rfl⟩,
      steps_defineByAlias (steps.regular h) ((steps.grown h).role admits.1) (known _) range,
      fun _ _ => by simp [out_defineByAlias]⟩
  | copied live role resolved =>
    rw [if_neg (by simp [live]), role] at ok
    obtain ⟨⟨r', z', t'⟩, resolved', same⟩ := bind_ok.mp ok
    cases same
    cases resolved'.symm.trans resolved
    exact ⟨_, rfl, .same (by simp [Operation.gives])⟩
  | cached live role held =>
    rw [if_neg (by simp [live]), role] at ok
    simp only [held] at ok
    cases ok
    exact ⟨_, rfl, .same (by simp [Operation.gives])⟩
  | fetch live role =>
    rw [if_neg (by simp [live])] at ok
    rcases role with role | ⟨word, role, absent⟩
    · rw [role] at ok
      obtain ⟨⟨r, t'⟩, defined, same⟩ := bind_ok.mp ok
      cases same
      exact ⟨_, bind_ok.mpr ⟨_, defined, rfl⟩, .same (by simp [Operation.gives])⟩
    · rw [role] at ok
      simp only [absent] at ok
      obtain ⟨⟨r, t'⟩, defined, same⟩ := bind_ok.mp ok
      cases same
      obtain ⟨-, range⟩ := steps_defineByMove read h admits.1 (known key) admits'.2 defined
      refine ⟨t', bind_ok.mpr ⟨_, defined, rfl⟩, ?_, fun _ gives => by cases gives⟩
      split
      · exact .single (.bind range fun _ => known _)
      · exact .refl

omit later known in
theorem moveToMemory_rest {x y : OperandRef} {word : Operand} (h : W.Regular s)
    (admits : W.Admits s (.moveToMemory x word y))
    (invokes : Invokes W.context index (.moveToMemory x word y, s) (op', t))
    (ok : s.moveToMemory W.context index x word y = .ok s') :
    ∃ t', op'.run W.context index t = .ok t' ∧ W.Resumes (.moveToMemory x word y) op' t' s' := by
  obtain ⟨-, is, memory, concrete⟩ := role_memory admits.1
  unfold State.moveToMemory at ok
  cases invokes with
  | store role =>
    rw [role] at ok
    obtain ⟨⟨r, z, t'⟩, resolved, same⟩ := bind_ok.mp ok
    cases same
    obtain ⟨steps, range, fits⟩ := steps_resolve read h role resolved
    have settled := (steps.grown h).settled (inside_of_memory (is ▸ memory)) (is ▸ concrete)
    have refers := admits.2.1.refers (by simp [admits.1])
    refine ⟨t', bind_ok.mpr ⟨_, resolved, rfl⟩,
      steps_moveBehind (steps.regular h) memory range refers (settled.trans is) fits, fun _ _ => ?_⟩
    split <;> simp [State.eliminate, State.emit, State.bind, State.markDirty, State.invalidate, State.markClean,
      State.unbind]
  | storeOther role =>
    have used : ∃ z t', s.use W.context index y = .ok (z, t') ∧ s' = (t'.invalidate word).emit (.mov x z) := by
      split at ok
      · rename_i key is
        exact absurd is (role key)
      all_goals
        obtain ⟨⟨z, t'⟩, used, same⟩ := bind_ok.mp ok
        cases same
        exact ⟨z, t', used, rfl⟩
    obtain ⟨z, t', used, rfl⟩ := used
    obtain ⟨steps, given⟩ := steps_use read h admits.2.2 used
    have fits := (steps.grown h).fits (admits.2.1.fits (by simp [admits.1]) false)
    exact ⟨t', bind_ok.mpr ⟨_, used, rfl⟩, steps_store (steps.regular h) memory (fits_pair fits given),
      fun _ _ => by simp [State.emit, State.invalidate, State.markClean, State.unbind]⟩

omit known in
theorem arith_rest {a : Arith} {x y : OperandRef} (h : W.Regular s) (admits : W.Admits s (.arith a x y))
    (invokes : Invokes W.context index (.arith a x y, s) (op', t)) (ok : s.arith W.context index a x y = .ok s') :
    ∃ t', op'.run W.context index t = .ok t' ∧ W.Resumes (.arith a x y) op' t' s' := by
  obtain ⟨⟨z, u⟩, used, ok⟩ := bind_ok.mp ok
  obtain ⟨steps, given⟩ := steps_use read h admits.2 used
  have regular := steps.regular h
  dsimp only at ok
  split at ok
  · rename_i key role
    obtain ⟨⟨r, w, v⟩, resolved, same⟩ := bind_ok.mp ok
    cases same
    obtain ⟨more, range, fits⟩ := steps_resolve read regular ((steps.grown h).role role) resolved
    have regular' := more.regular regular
    have apart : W.Steps v (v.separate W.context index r key) := steps_separate later regular' range
    have updates : W.Steps v ((v.separate W.context index r key).emit (.arith a w z)) :=
      steps_update later regular' range fits ((more.grown regular).fits given)
    cases invokes with
    | arithSource =>
      exact ⟨u, bind_ok.mpr ⟨_, used, rfl⟩, more.trans updates, fun _ _ => lt_emit regular (more.trans apart)⟩
    | arithTarget role' source =>
      cases used.symm.trans source
      cases role.symm.trans role'
      exact ⟨v, bind_ok.mpr ⟨_, resolved, rfl⟩, updates, fun _ _ => lt_emit regular' apart⟩
  · rename_i word role
    cases ok
    cases invokes with
    | arithSource =>
      have fits := (steps.grown h).fits (admits.1.fits (by simp [role]) false)
      have memory := (role_memory role).2.2.1
      exact ⟨u, bind_ok.mpr ⟨_, used, rfl⟩, steps_updateWord regular memory fits given,
        fun _ _ => lt_emit regular (steps_dropWord regular memory)⟩
    | arithTarget role' _ => cases role.symm.trans role'
  · rename_i role
    cases ok
    cases invokes with
    | arithSource =>
      have fits := (steps.grown h).fits (admits.1.fits (by simp [role]) false)
      exact ⟨u, bind_ok.mpr ⟨_, used, rfl⟩, .emit regular .refl (fits_pair fits given)⟩
    | arithTarget role' _ => cases role.symm.trans role'

omit later in
theorem pop_rest {x : OperandRef} (h : W.Regular s) (invokes : Invokes W.context index (.pop x, s) (op', t))
    (ok : s.pop W.context index x = .ok s') :
    ∃ t', op'.run W.context index t = .ok t' ∧ W.Resumes (.pop x) op' t' s' := by
  unfold State.pop at ok
  cases invokes with
  | @popAcquire _ _ key role =>
    rw [role] at ok
    obtain ⟨⟨r, t'⟩, acquired, same⟩ := bind_ok.mp ok
    cases same
    obtain ⟨steps, range⟩ := steps_acquire read h acquired
    have bound : W.Step t' (t'.bind key r) := .bind range fun _ => known _
    have attached := steps_attach (bound.regular (steps.regular h)) range ((steps.grown h).role role)
    exact ⟨t', bind_ok.mpr ⟨_, acquired, rfl⟩,
      .emit (steps.regular h) (.head bound attached.1) (List.forall_mem_singleton.mpr attached.2)⟩
  | @popAttach _ u _ key r role acquired =>
    rw [role] at ok
    simp only [acquired] at ok
    cases ok
    obtain ⟨steps, range⟩ := steps_acquire read h acquired
    have bound : W.Step u (u.bind key r) := .bind range fun _ => known _
    have regular := bound.regular (steps.regular h)
    have attached := steps_attach regular range ((steps.grown h).role role)
    exact ⟨_, rfl, .emit (attached.1.regular regular) .refl (List.forall_mem_singleton.mpr attached.2)⟩

omit later in
theorem defineByMove_rest {x y : OperandRef} {key : Operand} {r : Nat} (h : W.Regular s)
    (admits : W.Admits s (.defineByMove x key y))
    (invokes : Invokes W.context index (.defineByMove x key y, s) (op', t))
    (ok : s.defineByMove W.context index x key y = .ok (r, s')) :
    ∃ t', op'.run W.context index t = .ok t' ∧ W.Resumes (.defineByMove x key y) op' t' s' := by
  obtain ⟨⟨r, u⟩, acquired, same⟩ := bind_ok.mp ok
  cases same
  obtain ⟨steps, range⟩ := steps_acquire read h acquired
  have regular := steps.regular h
  have bound : W.Steps u ((u.pin r).bind key r) := .head .note (.single (.bind range fun _ => known _))
  have attached := steps_attach (bound.regular regular) range ((steps.grown h).role admits.1)
  have more : W.Steps u _ := bound.trans attached.1
  have fits := fits_pair attached.2 ((more.grown regular).fits ((steps.grown h).fits admits.2))
  cases invokes with
  | defineAcquire => exact ⟨u, bind_ok.mpr ⟨_, acquired, rfl⟩, .emit regular more fits⟩
  | defineAttach acquired' =>
    cases acquired.symm.trans acquired'
    exact ⟨_, rfl, .emit (more.regular regular) .refl fits⟩

omit later known in
theorem resolve_rest {x z : OperandRef} {key : Operand} {r : Nat} (h : W.Regular s)
    (admits : W.Admits s (.resolve x key)) (invokes : Invokes W.context index (.resolve x key, s) (op', t))
    (ok : s.resolve W.context index x key = .ok (r, z, s')) :
    ∃ t', op'.run W.context index t = .ok t' ∧ W.Resumes (.resolve x key) op' t' s' := by
  obtain ⟨⟨r, u⟩, loaded, same⟩ := bind_ok.mp ok
  cases same
  cases invokes with
  | resolveLoad =>
    obtain ⟨steps, range⟩ := steps_load read h (h.abstract admits) loaded
    have pinned : W.Step u (u.pin r) := .note
    have attached := steps_attach (pinned.regular (steps.regular h)) range ((steps.grown h).role admits)
    exact ⟨u, bind_ok.mpr ⟨_, loaded, rfl⟩, .head pinned attached.1, fun gives => by cases gives⟩
  | resolveAttach loaded' =>
    cases loaded.symm.trans loaded'
    exact ⟨_, rfl, .same fun both => by cases both.1⟩

omit later in
theorem load_rest {key : Operand} {r : Nat} (h : W.Regular s)
    (invokes : Invokes W.context index (.load key, s) (op', t)) (ok : s.load W.context index key = .ok (r, s')) :
    ∃ t', op'.run W.context index t = .ok t' ∧ W.Resumes (.load key) op' t' s' := by
  cases invokes with
  | load absent found =>
    simp only [State.load, absent, found] at ok
    obtain ⟨⟨r', t'⟩, acquired, same⟩ := bind_ok.mp ok
    cases same
    obtain ⟨steps, range⟩ := steps_acquire read h acquired
    have moved := steps_emitMove (steps.regular h) (.register range rfl) (.slot ((steps.grown h).slots found) rfl)
    exact ⟨t', bind_ok.mpr ⟨_, acquired, rfl⟩, (moved.tail .note).tail (.bind range fun _ => known _),
      fun gives => by cases gives⟩

/-- Once an operation that was invoked has come to its end, the one that invoked it goes on. -/
theorem invokes_rest (h : W.Regular s) (admits : W.Admits s op)
    (invokes : Invokes W.context index (op, s) (op', t)) (ok : op.run W.context index s = .ok s') :
    ∃ t', op'.run W.context index t = .ok t' ∧ W.Resumes op op' t' s' := by
  cases op with
  | instruction i => exact instruction_rest read known h admits invokes ok
  | move x y => exact move_rest read h admits invokes ok
  | moveToRegister x key y => exact moveToRegister_rest read known h admits invokes ok
  | moveToMemory x word y => exact moveToMemory_rest read h admits invokes ok
  | arith op x y => exact arith_rest read later h admits invokes ok
  | pop x => exact pop_rest read known h invokes ok
  | defineByMove x key y =>
    obtain ⟨⟨r, u⟩, defined, same⟩ := bind_ok.mp ok
    cases same
    exact defineByMove_rest read known h admits invokes defined
  | defineByAlias x key r =>
    cases ok
    cases invokes with
    | aliasAttach => exact ⟨_, rfl, steps_eliminate, fun _ _ => lt_eliminate _⟩
  | use x =>
    cases invokes with
    | use role =>
      rw [Operation.run, State.use, role] at ok
      obtain ⟨⟨z, u⟩, used, same⟩ := bind_ok.mp ok
      cases same
      obtain ⟨⟨r, w, t'⟩, resolved, same⟩ := bind_ok.mp used
      cases same
      exact ⟨_, bind_ok.mpr ⟨_, resolved, rfl⟩, .same (by simp [Operation.gives])⟩
  | resolve x key =>
    obtain ⟨⟨r, z, u⟩, resolved, same⟩ := bind_ok.mp ok
    cases same
    exact resolve_rest read h admits invokes resolved
  | load key =>
    obtain ⟨⟨r, u⟩, loaded, same⟩ := bind_ok.mp ok
    cases same
    exact load_rest read known h invokes loaded
  | acquire | attach x key r => cases invokes

omit later in
/-- The states that operations of an operation begin in are reached by steps. -/
theorem within_steps (h : W.Regular s) (admits : W.Admits s op)
    (within : Within W.context index (op, s) (op', t)) : W.Steps s t ∧ W.Admits t op' := by
  generalize last : (op', t) = there at within
  induction within generalizing op' t with
  | refl =>
    cases last
    exact ⟨.refl, admits⟩
  | @tail mid there before invokes ih =>
    subst last
    obtain ⟨steps, admits'⟩ := ih rfl
    obtain ⟨more, admits''⟩ := invokes_steps read known (steps.regular h) admits' invokes
    exact ⟨steps.trans more, admits''⟩

/-- If an operation comes to its end, those within it do, and it goes on from there. -/
theorem within_rest (h : W.Regular s) (admits : W.Admits s op)
    (within : Within W.context index (op, s) (op', t)) (ok : op.run W.context index s = .ok s') :
    ∃ t', op'.run W.context index t = .ok t' ∧ W.Resumes op op' t' s' := by
  generalize last : (op', t) = there at within
  induction within generalizing op' t with
  | refl =>
    cases last
    exact ⟨s', ok, .same fun both => Bool.noConfusion (both.1.symm.trans both.2)⟩
  | @tail mid there before invokes ih =>
    subst last
    obtain ⟨steps, admits'⟩ := within_steps read known h admits before
    obtain ⟨u, ran, rest⟩ := ih rfl
    obtain ⟨t', ran', more⟩ := invokes_rest read later known (steps.regular h) admits' invokes ran
    refine ⟨t', ran', more.steps.trans rest.steps, fun gives silent => ?_⟩
    -- either the operation between gives out its own instruction, or it is silent itself
    obtain ⟨steps', admits''⟩ := invokes_steps read known (steps.regular h) admits' invokes
    have regular := steps'.regular (steps.regular h)
    have regular' := (run_steps read later known regular admits'' ran').regular regular
    have first := (more.steps.grown regular').out.length_le
    have second := (rest.steps.grown (more.steps.regular regular')).out.length_le
    simp only [Array.length_toList] at first second
    cases between : mid.1.gives with
    | true =>
      have := more.behind between silent
      omega
    | false =>
      have := rest.behind gives between
      omega

end

end Work

end Allocation

/-! ## Blocks -/

namespace Target.Block

open Allocation

/-- The work on a block. -/
abbrev work (b : Block) (n : Nat) (pool : Pool) : Work := .ofBlock (b.context n pool) b.code

/-- The state in which the allocation of a block begins. -/
abbrev begin (b : Block) (n : Nat) (pool : Pool) (frame : Frame) (journal : Journal) : State :=
  .start (b.context n pool) pool frame journal

/-- The allocation of a block comes to the instruction at `index` in `s`, and within it to an operation in `t`. -/
structure Comes (b : Block) (n : Nat) (pool : Pool) (frame : Frame) (journal : Journal) (index : Nat)
    (i : Instruction) (s : State) (op : Operation) (t : State) : Prop where
  passes : b.Passes n pool frame journal (if b.closingStart = index then .stored index else .before index) s
  next : b.code[index]? = some i
  within : Within (b.context n pool) index (.instruction i, s) (op, t)

variable {b : Block} {n index : Nat} {pool : Pool} {frame : Frame} {journal : Journal} {i : Instruction}
  {s s' t t' : State} {op : Operation}

theorem regular_of_steps (steps : (b.work n pool).Steps (b.begin n pool frame journal) s) :
    (b.work n pool).Regular s :=
  steps.regular (.start pool frame journal)

namespace Comes

variable (h : b.Comes n pool frame journal index i s op t)
include h

theorem before : (b.work n pool).Steps (b.begin n pool frame journal) s := Allocation.Passes.steps h.passes

theorem admits : (b.work n pool).Admits s (.instruction i) := List.mem_of_getElem? h.next

theorem steps : (b.work n pool).Steps s t ∧ (b.work n pool).Admits t op :=
  Work.within_steps (Work.reads_ofBlock _) (fun _ => trivial) (regular_of_steps h.before) h.admits h.within

theorem reached : (b.work n pool).Steps (b.begin n pool frame journal) t := h.before.trans h.steps.1

/-- The operation comes to its end by steps. -/
theorem run (ran : op.run (b.context n pool) index t = .ok t') : (b.work n pool).Steps t t' :=
  Work.run_steps (Work.reads_ofBlock _) (Work.readsAfter_ofBlock _) (fun _ => trivial)
    (regular_of_steps h.reached) h.steps.2 ran

/-- From its end steps lead to the end of the instruction. -/
theorem resumes (ran : op.run (b.context n pool) index t = .ok t')
    (ok : s.instruction (b.context n pool) index i = .ok s') :
    (b.work n pool).Resumes (.instruction i) op t' s' := by
  obtain ⟨u, ran', rest⟩ := Work.within_rest (Work.reads_ofBlock _) (Work.readsAfter_ofBlock _)
    (fun _ => trivial) (regular_of_steps h.before) h.admits h.within ok
  cases ran.symm.trans ran'
  exact rest

end Comes

end Target.Block

end Codegen86
