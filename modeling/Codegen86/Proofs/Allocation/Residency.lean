import Codegen86.Proofs.Allocation.Bookkeeping
import Mathlib.Data.Nat.Find
/-!
# What the allocation of a block fails at

An instruction brings the abstract registers it reads into registers (`Instruction.registerReads`), in a fixed
order.  A value that an instruction before it has defined is in a register or has a slot as long as it is
read (`Kept`), whatever was evicted in between, and no other abstract register has a value.  With two
registers there is always one for it, since an instruction holds on to one at most while it asks for
another.  So the allocation fails exactly at the first read of a value that is not defined
(`Block.allocate_error_iff`).
-/

set_option autoImplicit false

namespace Codegen86

open Target

/-! ## Reads and definitions -/

namespace Target

/-- The operands that an instruction brings into registers to read them, in this order.  A move to an abstract
register that is not live behind it does not read its source. -/
def Instruction.registerReads (pool : Pool) (live : Operand → Bool) : Instruction → List Operand
  | .push x => [pool.get x]
  | .mov x y => if (pool.get x).isAbstract && !live (pool.get x) then [] else [pool.get y]
  | .arith _ x y => [pool.get y, pool.get x]
  | .cmp x y => [pool.get x, pool.get y]
  | .ret | .halt | .nop | .pop _ | .jump _ | .jumpIf _ _ | .call _ => []

/-- The operand that an instruction gives a new value. -/
def Instruction.definition? : Instruction → Option OperandRef
  | .mov x _ | .pop x => some x
  | _ => none

/-- Whether some instruction of `code` defines `o`. -/
def defines (pool : Pool) (code : List Instruction) (o : Operand) : Bool :=
  code.any fun i => i.definition?.any fun x => pool.get x == o

/-- The first abstract register that instruction `index` reads although no instruction before it defines it. -/
def Block.undefinedRead? (b : Block) (pool : Pool) (index : Nat) : Option Operand :=
  b.code[index]?.bind fun i =>
    (i.registerReads pool ((Allocation.Liveness.compute pool b.code).isLiveAfter index)).find? fun o =>
      o.isAbstract && !defines pool (b.code.take index) o

end Target

namespace Allocation

/-! ## Emptying a register -/

theorem register?_vacateOne (c : Context) (index r : Nat) (s : State) (key other : Operand) :
    (s.vacateOne c index r key).register? other =
      if other = key ∧ true = true then none else s.register? other := by
  unfold State.vacateOne
  simp only [register?_unbind, and_true]
  split
  · rfl
  · split
    · exact register?_of_eq (clean_residents s key r).1 other
    · split
      · exact register?_of_eq (slot_frame s key).1 other
      · rfl

theorem pinned_vacateOne (c : Context) (index r : Nat) (s : State) (key : Operand) :
    (s.vacateOne c index r key).pinned = s.pinned := by
  unfold State.vacateOne
  dsimp only [State.unbind]
  split
  · exact (clean_residents s key r).2.2
  · split
    · exact (slot_frame s key).2.2.1
    · rfl

theorem pinned_vacate (c : Context) (s : State) (r index : Nat) : (s.vacate c r index).pinned = s.pinned := by
  unfold State.vacate
  generalize s.residents.of r = keys
  induction keys generalizing s with
  | nil => rfl
  | cons key rest ih => rw [List.foldl_cons, ih, pinned_vacateOne]

/-- Nothing is in a register that was emptied. -/
theorem register?_vacate {c : Context} {s : State} {n r : Nat} (index : Nat) (h : s.residents.Consistent n)
    (key : Operand) : (s.vacate c r index).register? key ≠ some r := by
  rw [State.vacate, register?_foldl (register?_vacateOne c index r)]
  split
  · simp
  · rename_i elsewhere
    exact fun held => elsewhere ⟨h.mem_of_iff.mpr held, rfl⟩

/-! ## Registers in use -/

/-- The current instruction holds on to one more register at most. -/
def OneMore (s s' : State) : Prop := s'.pinned = s.pinned ∨ ∃ r, s'.pinned = s.pinned.insert r

variable {c : Context} {s s' : State} {x y : OperandRef} {key o : Operand} {r index : Nat}

/-- Of two registers one is left. -/
theorem OneMore.spare (two : 2 ≤ c.registers) (none : s.pinned = .empty) (h : OneMore s s') : Spare c s' := by
  rcases h with same | ⟨r, more⟩
  · exact spare_of_unused two fun other => by rw [same, none, RegisterSet.contains_empty]
  · refine spare_of_one two r fun other used => ?_
    rw [more, none, RegisterSet.contains_insert, RegisterSet.contains_empty] at used
    simp only [Bool.false_or, Bool.and_eq_true, beq_iff_eq] at used
    exact used.1

theorem pinned_attach (s : State) (x : OperandRef) (key : Operand) (r : Nat) :
    (s.attach x key r).2.pinned = s.pinned := by
  unfold State.attach
  dsimp only
  split
  · rfl
  · split <;> rfl

theorem pinned_acquire (ok : s.acquire c index = .ok (r, s')) : s'.pinned = s.pinned := by
  rw [Work.acquire_eq] at ok
  obtain ⟨s₁, found, first⟩ := bind_ok.mp ok
  have pinned : s₁.pinned = s.pinned := by
    split at found
    · unfold State.evict at found
      split at found
      · cases found
        exact pinned_vacate _ _ _ _
      · cases found
    · cases found
      rfl
  split at first
  · cases first
    exact pinned
  · cases first

theorem pinned_load (ok : s.load c index key = .ok (r, s')) : s'.pinned = s.pinned := by
  unfold State.load at ok
  split at ok
  · cases ok
    rfl
  · split at ok
    · cases ok
    · obtain ⟨⟨reg, s₁⟩, acquired, rest⟩ := bind_ok.mp ok
      cases rest
      have pinned : s₁.pinned = s.pinned := pinned_acquire acquired
      exact pinned

theorem oneMore_use (ok : s.use c index x = .ok (y, s')) : OneMore s s' := by
  unfold State.use at ok
  split at ok
  · obtain ⟨⟨reg, x', s₁⟩, resolved, rest⟩ := bind_ok.mp ok
    cases rest
    unfold State.resolve at resolved
    obtain ⟨⟨reg', s₂⟩, loaded, rest⟩ := bind_ok.mp resolved
    cases rest
    refine .inr ⟨reg, (pinned_attach (s₂.pin reg) x _ reg).trans ?_⟩
    rw [State.pin, pinned_load loaded]
  · split at ok
    · rename_i reg held
      cases ok
      exact .inr ⟨reg, rfl⟩
    · cases ok
      exact .inl rfl
  · cases ok
    exact .inl rfl

/-! ## What a computation comes to -/

/-- An error if `blocked` names a value that is not there, and else success. -/
def Outcome {α : Type} (c : Context) (index : Nat) (blocked : Option Operand) (x : Except Error α) : Prop :=
  match blocked with
  | none => ∃ a, x = .ok a
  | some o => x = .error (.notResident c.block index o.text)

namespace Outcome

variable {α β : Type} {blocked blocked' : Option Operand} {m : Except Error α} {f : α → Except Error β}

theorem ok (a : α) : Outcome c index none (.ok a) := ⟨a, rfl⟩

theorem bind (h : Outcome c index blocked m) (h' : ∀ a, m = .ok a → Outcome c index blocked' (f a)) :
    Outcome c index (blocked.or blocked') (m >>= f) := by
  cases blocked with
  | none =>
    obtain ⟨a, rfl⟩ := h
    exact h' a rfl
  | some o =>
    rw [show m = .error _ from h]
    rfl

/-- What follows cannot fail. -/
theorem then_ok (h : Outcome c index blocked m) {g : α → β} :
    Outcome c index blocked (m >>= fun a => .ok (g a)) := by
  rw [← Option.or_none (o := blocked)]
  exact h.bind fun a _ => .ok (g a)

end Outcome

/-! ## Finding a register -/

/-- A state in order: it is regular, and its books are sound. -/
structure Work.Orderly (W : Work) (s : State) : Prop where
  regular : W.Regular s
  books : s.books.Sound W.context.registers

namespace Work

variable {W : Work}

theorem Orderly.steps (few : W.context.registers ≤ RegisterSet.largest) (h : W.Orderly s)
    (steps : W.Steps s s') : W.Orderly s' :=
  ⟨steps.regular h.regular, h.books.entries few (steps.entries few h.books)⟩

/-- As long as some register is not in use by the current instruction, one is found. -/
theorem acquire_outcome (few : W.context.registers ≤ RegisterSet.largest) (read : W.Reads index)
    (h : W.Orderly s) (spare : Spare W.context s) : Outcome W.context index none (s.acquire W.context index) := by
  rw [acquire_eq]
  by_cases full : s.residents.free.isEmpty = true
  · rw [if_pos full]
    obtain ⟨victim, range, -, chosen⟩ := victim?_of_spare index h.books.residents full spare
    have after := h.steps few (steps_vacate read h.regular range)
    have free : (s.vacate W.context victim index).residents.free.contains victim = true :=
      after.books.residents.free_iff.mpr ⟨range.1, range.2, register?_vacate index h.books.residents⟩
    obtain ⟨r, first⟩ := Option.isSome_iff_exists.mp (RegisterSet.first?_isSome free)
    simp only [State.evict, chosen, bind, Except.bind, first]
    exact .ok _
  · rw [if_neg full]
    obtain ⟨r, there⟩ := RegisterSet.exists_of_not_isEmpty (Bool.eq_false_iff.mpr full)
    obtain ⟨r, first⟩ := Option.isSome_iff_exists.mp (RegisterSet.first?_isSome there)
    simp only [bind, Except.bind, first]
    exact .ok _

/-! ## Bringing a value into a register -/

/-- The values that are read: those that are defined are there, and `defined` tells which. -/
structure Reading (W : Work) (index : Nat) (defined : Operand → Bool) : Prop where
  few : W.context.registers ≤ RegisterSet.largest
  reads : W.Reads index
  defined : ∀ {o}, W.defined o ↔ defined o = true

/-- An abstract register without a value. -/
def missing (defined : Operand → Bool) (o : Operand) : Bool := o.isAbstract && !defined o

variable {defined : Operand → Bool}

theorem find?_missing_of_concrete (concrete : o.isAbstract = false) : [o].find? (missing defined) = none := by
  simp [missing, concrete]

theorem load_outcome (reading : W.Reading index defined) (h : W.Orderly s) (spare : Spare W.context s)
    (abstract : key.isAbstract = true) (kept : W.defined key → Kept s key) :
    Outcome W.context index ([key].find? (missing defined)) (s.load W.context index key) := by
  unfold State.load
  by_cases there : defined key = true
  · rw [show [key].find? (missing defined) = none by simp [missing, there]]
    split
    · exact .ok _
    · rename_i held
      obtain ⟨offset, found⟩ := (kept (reading.defined.mpr there)).resolve_left (by simp [held])
      rw [found]
      exact (acquire_outcome reading.few reading.reads h spare).then_ok
  · rw [show [key].find? (missing defined) = some key by simp [missing, abstract, there]]
    have absent : ¬ Kept s key := fun kept => there (reading.defined.mp (h.regular.known abstract kept))
    split
    · rename_i r held
      exact absurd (.inl ⟨r, held⟩) absent
    · split
      · rfl
      · rename_i offset found
        exact absurd (.inr ⟨offset, found⟩) absent

theorem resolve_outcome (reading : W.Reading index defined) (h : W.Orderly s) (spare : Spare W.context s)
    (abstract : key.isAbstract = true) (kept : W.defined key → Kept s key) :
    Outcome W.context index ([key].find? (missing defined)) (s.resolve W.context index x key) :=
  (load_outcome reading h spare abstract kept).then_ok

theorem use_outcome (reading : W.Reading index defined) (h : W.Orderly s) (spare : Spare W.context s)
    (role : s.role x = roleOf o) (kept : o.isAbstract = true → W.defined o → Kept s o) :
    Outcome W.context index ([o].find? (missing defined)) (s.use W.context index x) := by
  unfold State.use
  rw [role]
  rcases roleOf_cases o with ⟨abstract, is⟩ | ⟨concrete, is⟩
  · rw [is]
    exact (resolve_outcome reading h spare abstract (kept abstract)).then_ok
  · rw [find?_missing_of_concrete concrete]
    rcases is with is | is <;> rw [is]
    · dsimp only
      split <;> exact .ok _
    · exact .ok _

/-! ## Instructions -/

theorem find?_pair {o' : Operand} : [o, o'].find? (missing defined) =
    ([o].find? (missing defined)).or ([o'].find? (missing defined)) :=
  @List.find?_append _ (missing defined) [o] [o']

/-- Two operands are brought into registers one after the other. -/
theorem uses_outcome {o' : Operand} {β : Type} {f : OperandRef × State → Except Error β}
    (reading : W.Reading index defined) (h : W.Orderly s) (two : 2 ≤ W.context.registers)
    (none : s.pinned = .empty) (stands : W.Stands s x) (role : s.role x = roleOf o)
    (needed : ∀ {key}, key = o ∨ key = o' → key.isAbstract = true → W.needed key ∧ (W.defined key → Kept s key))
    (next : ∀ {z s₁}, W.Steps s s₁ → W.Orderly s₁ → Spare W.context s₁ →
      (o'.isAbstract = true → W.defined o' → Kept s₁ o') →
      Outcome W.context index ([o'].find? (missing defined)) (f (z, s₁))) :
    Outcome W.context index ([o, o'].find? (missing defined)) (s.use W.context index x >>= f) := by
  have spare : Spare W.context s := OneMore.spare two none (.inl rfl)
  rw [find?_pair]
  refine (use_outcome reading h spare role fun abstract => (needed (.inl rfl) abstract).2).bind ?_
  rintro ⟨z, s₁⟩ used
  obtain ⟨steps, -⟩ := steps_use reading.reads h.regular stands used
  exact next steps (h.steps reading.few steps) (OneMore.spare two none (oneMore_use used)) fun abstract there =>
    steps.kept abstract (needed (.inr rfl) abstract).1 ((needed (.inr rfl) abstract).2 there)

theorem move_outcome {o₁ o₂ : Operand} {reads : List Operand} (reading : W.Reading index defined)
    (h : W.Orderly s) (spare : Spare W.context s) (target : s.role x = roleOf o₁) (source : s.role y = roleOf o₂)
    (which : reads = if o₁.isAbstract && !W.context.liveness.isLiveAfter index o₁ then [] else [o₂])
    (kept : ∀ o ∈ reads, o.isAbstract = true → W.defined o → Kept s o) :
    Outcome W.context index (reads.find? (missing defined)) (s.move W.context index x y) := by
  unfold State.move
  rw [target]
  by_cases dead : (o₁.isAbstract && !W.context.liveness.isLiveAfter index o₁) = true
  · -- a value that nobody reads: the move goes, and its source is not looked at
    rw [if_pos dead] at which
    obtain ⟨abstract, dead⟩ := Bool.and_eq_true_iff.mp dead
    rw [which, roleOf, if_pos abstract]
    dsimp only
    rw [State.moveToRegister, if_pos dead]
    exact .ok _
  · rw [if_neg dead] at which
    subst which
    have kept := kept o₂ List.mem_cons_self
    have free : ∀ key, Outcome W.context index none (s.defineByMove W.context index x key y) := fun key =>
      (acquire_outcome reading.few reading.reads h spare).then_ok
    have used := use_outcome reading h spare source kept
    have resolved := fun abstract => resolve_outcome (x := y) reading h spare abstract (kept abstract)
    rcases roleOf_cases o₁ with ⟨abstract, is⟩ | ⟨-, is | is⟩ <;> rw [is] <;> dsimp only
    · have live : W.context.liveness.isLiveAfter index o₁ = true := by simpa [abstract] using dead
      rw [State.moveToRegister, if_neg (by simp [live]), source]
      rcases roleOf_cases o₂ with ⟨abstract₂, is₂⟩ | ⟨concrete, is₂⟩
      · rw [is₂]
        exact (resolved abstract₂).then_ok
      · rw [find?_missing_of_concrete concrete]
        rcases is₂ with is₂ | is₂ <;> rw [is₂] <;> dsimp only
        · split
          · exact .ok _
          · exact (free o₁).then_ok
        · exact (free o₁).then_ok
    · rw [State.moveToMemory, source]
      rcases roleOf_cases o₂ with ⟨abstract₂, is₂⟩ | ⟨-, is₂ | is₂⟩ <;> rw [is₂]
      · exact (resolved abstract₂).then_ok
      · exact used.then_ok
      · exact used.then_ok
    · exact used.then_ok

theorem instruction_outcome {i : Instruction} {pool : Pool} (reading : W.Reading index defined) (h : W.Orderly s)
    (two : 2 ≤ W.context.registers) (mem : i ∈ W.code)
    (inside : ∀ x ∈ i.operands, x < s.pool.operands.size)
    (role : ∀ x ∈ i.operands, s.role (s.current x) = roleOf (pool.get x))
    (needed : ∀ o ∈ i.registerReads pool (W.context.liveness.isLiveAfter index), o.isAbstract = true →
      W.needed o ∧ (W.defined o → Kept s o)) :
    Outcome W.context index
      ((i.registerReads pool (W.context.liveness.isLiveAfter index)).find? (missing defined))
      (s.instruction W.context index i) := by
  have first : W.Step s { s with pinned := .empty } := .note
  have h := h.steps reading.few (.single first)
  have stands : ∀ {x}, x ∈ i.operands →
      W.Stands { s with pinned := .empty } (State.current { s with pinned := .empty } x) :=
    fun operand => h.regular.stands ⟨i, mem, operand⟩
  have inside : ∀ x ∈ i.operands, State.current { s with pinned := .empty } x <
      (State.pool { s with pinned := .empty }).operands.size :=
    fun x operand => h.regular.inside_current (inside x operand)
  have role : ∀ x ∈ i.operands, State.role { s with pinned := .empty }
      (State.current { s with pinned := .empty } x) = roleOf (pool.get x) := fun x operand => by
    rw [current_unpinned]
    exact role x operand
  have needed : ∀ o ∈ i.registerReads pool (W.context.liveness.isLiveAfter index), o.isAbstract = true →
      W.needed o ∧ (W.defined o → Kept { s with pinned := .empty } o) := needed
  have unpinned : State.pinned { s with pinned := .empty } = .empty := rfl
  unfold State.instruction
  generalize { s with pinned := .empty } = s at h stands inside role needed unpinned ⊢
  have spare : Spare W.context s := OneMore.spare two unpinned (.inl rfl)
  cases i with
  | ret | halt | nop | jump | jumpIf | call => exact .ok _
  | push x =>
    exact (use_outcome reading h spare (role x (by simp [Instruction.operands]))
      fun abstract => (needed _ (by simp [Instruction.registerReads]) abstract).2).then_ok
  | pop x =>
    show Outcome W.context index none (s.pop W.context index _)
    unfold State.pop
    split
    · exact (acquire_outcome reading.few reading.reads h spare).then_ok
    · exact .ok _
    · exact .ok _
  | mov x y =>
    exact move_outcome reading h spare (role x (by simp [Instruction.operands]))
      (role y (by simp [Instruction.operands])) rfl fun o read abstract => (needed o read abstract).2
  | arith op x y =>
    refine uses_outcome reading h two unpinned (stands (by simp [Instruction.operands]))
      (role y (by simp [Instruction.operands]))
      (fun {key} which => needed key (by simpa [Instruction.registerReads] using which))
      fun {z s₁} _ h₁ spare₁ kept₁ => ?_
    rw [role x (by simp [Instruction.operands])]
    rcases roleOf_cases (pool.get x) with ⟨abstract, is⟩ | ⟨concrete, is⟩
    · rw [is]
      exact (resolve_outcome reading h₁ spare₁ abstract (kept₁ abstract)).then_ok
    · rw [find?_missing_of_concrete concrete]
      rcases is with is | is <;> rw [is] <;> exact .ok _
  | cmp x y =>
    refine uses_outcome reading h two unpinned (stands (by simp [Instruction.operands]))
      (role x (by simp [Instruction.operands]))
      (fun {key} which => needed key (by simpa [Instruction.registerReads] using which))
      fun {z s₁} steps h₁ spare₁ kept₁ => ?_
    refine (use_outcome reading h₁ spare₁ ?_ kept₁).then_ok
    rw [h₁.regular.role_grown (steps.grown h.regular) (inside y (by simp [Instruction.operands]))]
    exact role y (by simp [Instruction.operands])

/-! ## Definitions -/

/-- A register holds a value that was bound to it, whatever operand names it. -/
theorem held_attach (s : State) (x : OperandRef) (key : Operand) (r : Nat) :
    ((s.bind key r).attach x key r).2.register? key = some r := by
  rw [State.register?, residents_attach, ← State.register?, register?_bind, if_pos rfl]

/-- A value that an instruction defines is in a register behind it, if it is read there. -/
theorem held_defined {i : Instruction} (is : i.definition? = some x)
    (role : s.role (s.current x) = .abstract key) (live : c.liveness.isLiveAfter index key = true) (ok : s.instruction c index i = .ok s') :
    ∃ r, s'.register? key = some r := by
  have role : State.role { s with pinned := .empty } (State.current { s with pinned := .empty } x) =
      .abstract key := by
    rw [current_unpinned]
    exact role
  unfold State.instruction at ok
  generalize { s with pinned := .empty } = s at role ok
  cases i with
  | mov target y =>
    cases is
    have ok : s.move c index (s.current x) (s.current y) = .ok s' := ok
    rw [State.move, role] at ok
    dsimp only at ok
    rw [State.moveToRegister, if_neg (by simp [live])] at ok
    have define : ∀ {r s₁}, s.defineByMove c index (s.current x) key (s.current y) = .ok (r, s₁) →
        s₁.register? key = some r := fun ok => by
      unfold State.defineByMove at ok
      obtain ⟨⟨reg, s₂⟩, acquired, rest⟩ := bind_ok.mp ok
      cases rest
      exact held_attach _ _ _ _
    split at ok
    · obtain ⟨⟨reg, z, s₁⟩, resolved, rest⟩ := bind_ok.mp ok
      cases rest
      exact ⟨reg, held_attach _ _ _ _⟩
    · split at ok
      · rename_i reg held
        cases ok
        exact ⟨reg, held_attach _ _ _ _⟩
      · obtain ⟨⟨reg, s₁⟩, defined, rest⟩ := bind_ok.mp ok
        cases rest
        refine ⟨reg, ?_⟩
        split
        · rw [register?_bind]
          split
          · rfl
          · exact define defined
        · exact define defined
    · obtain ⟨⟨reg, s₁⟩, defined, rest⟩ := bind_ok.mp ok
      cases rest
      exact ⟨reg, define defined⟩
  | pop target =>
    cases is
    have ok : s.pop c index (s.current x) = .ok s' := ok
    rw [State.pop, role] at ok
    obtain ⟨⟨reg, s₁⟩, acquired, rest⟩ := bind_ok.mp ok
    cases rest
    exact ⟨reg, held_attach _ _ _ _⟩
  | _ => cases is

/-- The same work, with other values asked for. -/
theorem Regular.expect (h : W.Regular s) {needed known : Operand → Prop}
    (there : ∀ {key}, key.isAbstract = true → Kept s key → known key) :
    Work.Regular { W with needed, defined := known } s :=
  ⟨h.bound, h.free, h.dirty, h.keyed, h.retarget, there⟩

end Work

/-! ## From instruction to instruction -/

theorem defines_append {pool : Pool} {first : List Instruction} {i : Instruction} {o : Operand} :
    defines pool (first ++ [i]) o = true ↔
      defines pool first o = true ∨ ∃ x, i.definition? = some x ∧ pool.get x = o := by
  simp only [defines, List.any_append, List.any_cons, List.any_nil, Bool.or_false, Bool.or_eq_true]
  refine or_congr_right ?_
  cases i.definition? <;> simp

/-- What the liveness pass takes for a definition is one. -/
theorem effects_defines {pool : Pool} {i : Instruction} {o : Operand}
    (defined : (Effects.of pool i).defines = some o) : ∃ x, i.definition? = some x ∧ pool.get x = o := by
  have only : ∀ {x}, (some (pool.get x)).filter isTracked = some o → pool.get x = o := fun kept =>
    Option.mem_some.mp (Option.filter_eq_some_iff.mp kept).1
  cases i with
  | mov x y => exact ⟨x, rfl, only defined⟩
  | pop x => exact ⟨x, rfl, only defined⟩
  | _ => cases defined

/-- What is read as a register operand is read to the liveness pass. -/
theorem effects_reads {pool : Pool} {i : Instruction} {o : Operand} {live : Operand → Bool}
    (read : o ∈ i.registerReads pool live) (abstract : o.isAbstract = true) : o ∈ (Effects.of pool i).reads := by
  have self : o ∈ operandReads o := by simp [operandReads, isTracked, abstract]
  cases i with
  | push x =>
    obtain rfl := List.mem_singleton.mp read
    exact self
  | mov x y =>
    rw [Instruction.registerReads] at read
    split at read
    · cases read
    · obtain rfl := List.mem_singleton.mp read
      exact List.mem_append_left _ self
  | arith op x y =>
    rcases List.mem_pair.mp read with rfl | rfl
    · exact List.mem_append_right _ self
    · exact List.mem_append_left _ self
  | cmp x y =>
    rcases List.mem_pair.mp read with rfl | rfl
    · exact List.mem_append_left _ self
    · exact List.mem_append_right _ self
  | _ => cases read

theorem mem_operands_of_definition? {i : Instruction} {x : OperandRef} (is : i.definition? = some x) :
    x ∈ i.operands := by
  cases i with
  | mov target source =>
    cases is
    exact List.mem_cons_self
  | pop target =>
    cases is
    exact List.mem_cons_self
  | _ => cases is

theorem roleOf_eq_abstract {o key : Operand} (role : roleOf o = .abstract key) : o = key := by
  unfold roleOf at role
  split at role
  · exact Role.abstract.inj role
  · split at role <;> cases role

/-- Between instructions exactly the abstract registers that were defined may have a value, and those that are
live do. -/
structure Stocked (pool : Pool) (first rest : List Instruction) (s : State) : Prop where
  known : ∀ {key}, key.isAbstract = true → Kept s key → defines pool first key = true
  kept : ∀ {key}, key.isAbstract = true → defines pool first key = true → Live pool rest key → Kept s key

end Allocation

namespace Target.Block

open Allocation

variable {b : Block} {n index : Nat} {pool : Pool} {frame : Frame} {journal : Journal} {s s' : State}
  {first rest : List Instruction} {i : Instruction} {moment : Moment}

/-- An operand is to the allocator what it was in the pool. -/
theorem Passes.role (passes : b.Passes n pool frame journal moment s) {x : OperandRef}
    (inside : x < pool.operands.size) : s.role (s.current x) = roleOf (pool.get x) := by
  have steps := Allocation.Passes.steps passes
  have start := Work.Regular.start (W := .ofBlock (b.context n pool) b.code) pool frame journal
  have regular := steps.regular start
  rw [regular.role_current, regular.role_grown (steps.grown start) inside]
  rfl

/-- The state before an instruction, with its dirty words stored if the closing group begins there. -/
def ready (b : Block) (index : Nat) (s : State) : State :=
  if b.closingStart = index then s.writeBackAll else s

/-- What holds where the allocation of an instruction begins. -/
theorem orderly_ready (needed : Operand → Prop) {known : Operand → Prop} (few : n ≤ RegisterSet.largest)
    (passes : b.Passes n pool frame journal (.before index) s)
    (there : ∀ {key}, key.isAbstract = true → Kept s key → known key) :
    let W : Work := { context := b.context n pool, code := b.code, needed, defined := known }
    W.Orderly (b.ready index s) ∧ W.Steps s (b.ready index s) := by
  intro W
  have start := Work.Regular.start (W := .ofBlock (b.context n pool) b.code) pool frame journal
  have regular : W.Regular s := ((Allocation.Passes.steps passes).regular start).expect there
  have orderly : W.Orderly s := ⟨regular, (Passes.sound few passes).2⟩
  have steps : W.Steps s (b.ready index s) := by
    unfold ready
    split
    · exact Work.steps_writeBackAll regular
    · exact .refl
  exact ⟨orderly.steps few steps, steps⟩

theorem ready_eq (passes : b.Passes n pool frame journal (.before index) s) :
    b.Passes n pool frame journal (if b.closingStart = index then .stored index else .before index)
      (b.ready index s) := Allocation.Passes.ready passes

theorem Passes.size (passes : b.Passes n pool frame journal moment s) :
    pool.operands.size ≤ s.pool.operands.size :=
  ((Allocation.Passes.steps passes).grown (.start pool frame journal)).size

/-- What the allocation of an instruction comes to. -/
theorem instruction_outcome (two : 2 ≤ n) (few : n ≤ RegisterSet.largest)
    (inside : ∀ i ∈ b.code, ∀ x ∈ i.operands, x < pool.operands.size) (code : b.code = first ++ i :: rest)
    (passes : b.Passes n pool frame journal (.before first.length) s)
    (stocked : Stocked pool first (i :: rest) s) :
    Outcome (b.context n pool) first.length (b.undefinedRead? pool first.length)
      ((b.ready first.length s).instruction (b.context n pool) first.length i) := by
  obtain ⟨orderly, steps⟩ := orderly_ready
    (fun key => ((b.context n pool).liveness.nextRead key first.length).isSome = true) few passes stocked.known
  have mem : i ∈ b.code := by simp [code]
  have here : b.code[first.length]? = some i := by simp [code]
  have before : b.code.take first.length = first := by simp [code]
  rw [undefinedRead?, here, before]
  refine Work.instruction_outcome ⟨few, fun _ needed => needed, Iff.rfl⟩ orderly two mem
    (fun x operand => Nat.lt_of_lt_of_le (inside i mem x operand) (Passes.size (ready_eq passes)))
    (fun x operand => (ready_eq passes).role (inside i mem x operand)) fun o read abstract => ?_
  have live : Live pool (i :: rest) o := live_cons.mpr (.inl (effects_reads read abstract))
  have needed : ((Liveness.compute pool b.code).nextRead o first.length).isSome = true :=
    code ▸ Liveness.nextRead_isSome live
  exact ⟨needed, fun there => steps.kept abstract needed (stocked.kept abstract there live)⟩

/-- Behind the instruction, the right values are in registers or slots again. -/
theorem stocked_next (few : n ≤ RegisterSet.largest)
    (inside : ∀ i ∈ b.code, ∀ x ∈ i.operands, x < pool.operands.size) (code : b.code = first ++ i :: rest)
    (passes : b.Passes n pool frame journal (.before first.length) s)
    (stocked : Stocked pool first (i :: rest) s)
    (ok : (b.ready first.length s).instruction (b.context n pool) first.length i = .ok s') :
    Stocked pool (first ++ [i]) rest (s'.releaseDead (b.context n pool) first.length) := by
  let W : Work :=
    { context := b.context n pool
      code := b.code
      needed := fun key => (b.context n pool).liveness.isLiveAfter first.length key = true
      defined := fun o => defines pool (first ++ [i]) o = true }
  have mem : i ∈ b.code := by simp [code]
  have live_iff : ∀ {key}, W.needed key ↔ Live pool rest key := by
    intro key
    show (Liveness.compute pool b.code).isLiveAfter first.length key = true ↔ _
    rw [code]
    exact Liveness.isLiveAfter_iff
  have read : W.Reads first.length := fun key needed => by
    obtain ⟨kept, j, after, rest_eq, read, -⟩ := live_iff_exists.mp (live_iff.mp needed)
    show ((Liveness.compute pool b.code).nextRead key first.length).isSome = true
    rw [code]
    exact Liveness.nextRead_isSome_iff.mpr ⟨j, by simp [rest_eq], read⟩
  have later : W.ReadsAfter first.length := fun _ needed => needed
  have role : ∀ {x}, i.definition? = some x →
      (b.ready first.length s).role ((b.ready first.length s).current x) = roleOf (pool.get x) := fun is =>
    (ready_eq passes).role (inside i mem _ (mem_operands_of_definition? is))
  obtain ⟨orderly, steps⟩ : W.Orderly (b.ready first.length s) ∧ W.Steps s (b.ready first.length s) :=
    orderly_ready _ few passes fun abstract kept => defines_append.mpr (.inl (stocked.known abstract kept))
  have given : W.Steps (b.ready first.length s) s' := by
    refine Work.steps_instruction read later orderly.regular mem (fun x key which is => ?_) ok
    have defined : i.definition? = some x := by
      rcases which with ⟨y, rfl⟩ | rfl <;> rfl
    rw [role defined] at is
    exact defines_append.mpr (.inr ⟨x, defined, roleOf_eq_abstract is⟩)
  have released := Work.steps_releaseDead later (given.regular orderly.regular)
  have regular := released.regular (given.regular orderly.regular)
  refine ⟨regular.known, fun {key} abstract there live => ?_⟩
  have needed := live_iff.mpr live
  refine released.kept abstract needed ?_
  -- what the instruction defines is in a register, and what it does not was there before
  by_cases here : ∃ x, i.definition? = some x ∧ pool.get x = key
  · obtain ⟨x, defined, rfl⟩ := here
    exact .inl (Work.held_defined defined ((role defined).trans (if_pos abstract)) needed ok)
  · have there := (defines_append.mp there).resolve_right here
    have live : Live pool (i :: rest) key :=
      live_cons.mpr (.inr ⟨live, fun defined => here (effects_defines defined)⟩)
    exact given.kept abstract needed (steps.kept abstract needed (stocked.kept abstract there live))

/-- The allocation of a block fails at the first undefined read, and succeeds if there is none. -/
theorem instructions_outcome (two : 2 ≤ n) (few : n ≤ RegisterSet.largest)
    (inside : ∀ i ∈ b.code, ∀ x ∈ i.operands, x < pool.operands.size) (code : b.code = first ++ rest)
    (passes : b.Passes n pool frame journal (.before first.length) s) (stocked : Stocked pool first rest s) :
    ((∀ index, first.length ≤ index → b.undefinedRead? pool index = none) →
      ∃ s', s.instructions (b.context n pool) b.closingStart first.length rest = .ok s') ∧
    ∀ index o, first.length ≤ index → b.undefinedRead? pool index = some o →
      (∀ j, first.length ≤ j → j < index → b.undefinedRead? pool j = none) →
      s.instructions (b.context n pool) b.closingStart first.length rest =
        .error (.notResident b.name index o.text) := by
  induction rest generalizing first s with
  | nil =>
    refine ⟨fun _ => ⟨_, rfl⟩, fun index o least undefined _ => ?_⟩
    have outside : b.code[index]? = none := by
      rw [code, List.append_nil]
      exact List.getElem?_eq_none least
    rw [undefinedRead?, outside] at undefined
    cases undefined
  | cons i rest ih =>
    have outcome := instruction_outcome two few inside code passes stocked
    have eq : s.instructions (b.context n pool) b.closingStart first.length (i :: rest) =
        (b.ready first.length s).instruction (b.context n pool) first.length i >>= fun s' =>
          (s'.releaseDead (b.context n pool) first.length).instructions (b.context n pool) b.closingStart
            (first.length + 1) rest := rfl
    rw [eq]
    cases undefined : b.undefinedRead? pool first.length with
    | some o =>
      rw [undefined] at outcome
      have failed : (b.ready first.length s).instruction (b.context n pool) first.length i =
        .error (.notResident b.name first.length o.text) := outcome
      rw [failed]
      refine ⟨fun all => ?_, fun index o' least undefined' earlier => ?_⟩
      · rw [all _ (Nat.le_refl _)] at undefined
        cases undefined
      · rcases Nat.lt_or_eq_of_le least with later | rfl
        · rw [earlier _ (Nat.le_refl _) later] at undefined
          cases undefined
        · rw [undefined] at undefined'
          cases undefined'
          rfl
    | none =>
      rw [undefined] at outcome
      obtain ⟨s', ok⟩ := outcome
      rw [ok]
      have here : b.code[first.length]? = some i := by simp [code]
      have length : (first ++ [i]).length = first.length + 1 := by simp
      have passes' : b.Passes n pool frame journal (.before (first ++ [i]).length)
          (s'.releaseDead (b.context n pool) first.length) :=
        length ▸ ((ready_eq passes).instruction here ok).release.next
      obtain ⟨succeeds, fails⟩ := ih (by simp [code]) passes'
        (stocked_next few inside code passes stocked ok)
      rw [length] at succeeds fails
      refine ⟨fun all => succeeds fun index least => all index (Nat.le_of_succ_le least),
        fun index o least undefined' earlier => ?_⟩
      refine fails index o ?_ undefined' fun j least' => earlier j (Nat.le_of_succ_le least')
      refine Nat.lt_of_le_of_ne least fun same => ?_
      rw [← same, undefined] at undefined'
      cases undefined'

theorem stocked_start : Stocked pool [] rest (.start (b.context n pool) pool frame journal) where
  known _ kept := by rcases kept with ⟨_, held⟩ | ⟨_, found⟩ <;> contradiction
  kept _ there := by cases there

/-- The allocation of a block with two registers or more fails exactly at the first instruction that reads an
abstract register that no instruction before it defines, and names that register; with no such instruction
it succeeds. -/
theorem allocate_error_iff (two : 2 ≤ n) (few : n ≤ RegisterSet.largest) (b : Block) (pool : Pool)
    (inside : ∀ i ∈ b.code, ∀ x ∈ i.operands, x < pool.operands.size) (frame : Frame) (journal : Journal) :
    (∀ e, b.allocate n pool frame journal = .error e ↔
      ∃ index o, b.undefinedRead? pool index = some o ∧ (∀ j < index, b.undefinedRead? pool j = none) ∧
        e = .notResident b.name index o.text) ∧
    ((∃ result, b.allocate n pool frame journal = .ok result) ↔
      ∀ index, b.undefinedRead? pool index = none) := by
  have first : b.Passes n pool frame journal (.before ([] : List Instruction).length) _ := .start
  obtain ⟨succeeds, fails⟩ :=
    instructions_outcome two few inside (show b.code = [] ++ b.code from rfl) first stocked_start
  rw [List.length_nil] at succeeds fails
  have error : ∀ index o, b.undefinedRead? pool index = some o →
      (∀ j < index, b.undefinedRead? pool j = none) →
      b.allocate n pool frame journal = .error (.notResident b.name index o.text) := by
    intro index o undefined first
    rw [allocate_eq, fails index o (Nat.zero_le _) undefined fun j _ => first j]
    rfl
  by_cases all : ∀ index, b.undefinedRead? pool index = none
  · obtain ⟨s, ran⟩ := succeeds fun index _ => all index
    have ok := allocate_ok few ran
    refine ⟨fun e => ⟨fun failed => ?_, fun ⟨index, o, undefined, _⟩ => ?_⟩, fun _ => all, fun _ => ⟨_, ok⟩⟩
    · rw [ok] at failed
      cases failed
    · rw [all index] at undefined
      cases undefined
  · have there : ∃ index, b.undefinedRead? pool index ≠ none := not_forall.mp all
    obtain ⟨o, undefined⟩ := Option.ne_none_iff_exists'.mp (Nat.find_spec there)
    have first : ∀ j < Nat.find there, b.undefinedRead? pool j = none := fun j less =>
      not_not.mp (Nat.find_min there less)
    have failed := error _ o undefined first
    refine ⟨fun e => ⟨fun failed' => ?_, fun ⟨index, o', undefined', first', is⟩ => ?_⟩,
      fun ⟨result, ok⟩ => ?_, fun all' => absurd all' all⟩
    · rw [failed] at failed'
      cases failed'
      exact ⟨_, o, undefined, first, rfl⟩
    · rw [is]
      exact error index o' undefined' first'
    · rw [failed] at ok
      cases ok

/-- A block that pushes an abstract register after another one was defined. -/
theorem allocate_fails_undefined :
    (∀ i ∈ [Instruction.mov 0 2, .push 1, .push 0], ∀ x ∈ i.operands,
      x < (#[.reg (.abstract 0), .reg (.abstract 1), .imm 7] : Array Operand).size) ∧
    Block.allocate 2 { name := "b", code := [.mov 0 2, .push 1, .push 0] }
      { operands := #[.reg (.abstract 0), .reg (.abstract 1), .imm 7] } {} {} =
      .error (.notResident "b" 1 (Operand.reg (.abstract 1)).text) :=
  ⟨by decide, ((allocate_error_iff (by decide) (by decide)
    { name := "b", code := [.mov 0 2, .push 1, .push 0] }
    { operands := #[.reg (.abstract 0), .reg (.abstract 1), .imm 7] } (by decide) {} {}).1 _).mpr
    ⟨1, .reg (.abstract 1), by decide +kernel, by decide +kernel, rfl⟩⟩

end Target.Block

end Codegen86
