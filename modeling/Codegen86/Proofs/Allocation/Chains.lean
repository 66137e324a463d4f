import Codegen86.Proofs.Allocation.Steps
/-!
# Operations as chains of steps

Every operation of the allocator, up to the allocation of an instruction (`Work.steps_instruction`), is a
chain of steps.  Operands that it gives out fit (`Work.Fits`), and the values that are needed from the
instruction on are saved before a register is emptied.
-/

set_option autoImplicit false

namespace Codegen86.Allocation

open Target

namespace Work

variable {W : Work} {s s' : State} {x y : OperandRef} {key o : Operand} {r index : Nat}

/-! ## Moves between registers and memory -/

theorem fits_addOperand (place : W.Place s o) (transfers : Bool) :
    W.Fits (s.addOperand o).2 transfers (s.addOperand o).1 := by
  refine .place (by simp [State.addOperand, Pool.add]) ?_
  rw [show (s.addOperand o).2.pool.get (s.addOperand o).1 = o from Pool.get_size_add _ _]
  exact (Grown.addOperand place.concrete).place place

/-- The operands of an instruction with two. -/
theorem fits_pair {transfers : Bool} (left : W.Fits s transfers x) (right : W.Fits s transfers y) :
    ∀ z ∈ [x, y], W.Fits s transfers z :=
  List.forall_mem_cons.mpr ⟨left, List.forall_mem_singleton.mpr right⟩

theorem steps_emitMove (h : W.Regular s) {target source : Operand} (there : W.Place s target)
    (here : W.Place s source) : W.Steps s (s.emitMove target source) := by
  have first : W.Step s (s.addOperand target).2 := .operand there
  have regular := first.regular h
  have here := (first.grown h).place here
  have second : W.Step (s.addOperand target).2 ((s.addOperand target).2.addOperand source).2 := .operand here
  have fits := (second.grown regular).fits (fits_addOperand there false)
  exact .head first (.head second (.single (.emit (fits_pair fits (fits_addOperand here _)))))

theorem steps_slot (known : key.isAbstract = true → W.defined key) :
    W.Steps s (s.slot key).2 ∧ (s.slot key).2.slots.lookup key = some (s.slot key).1 := by
  unfold State.slot
  split
  · rename_i offset found
    exact ⟨.refl, found⟩
  · rename_i new
    exact ⟨.single (.reserve known new), by simp⟩

theorem steps_spill (h : W.Regular s) (range : W.InRange r) (known : key.isAbstract = true → W.defined key) :
    W.Steps s (s.spill key r) ∧ ∃ offset, (s.spill key r).slots.lookup key = some offset := by
  obtain ⟨steps, found⟩ := steps_slot (s := s) known
  exact ⟨(steps.trans (steps_emitMove (steps.regular h) (.slot found rfl) (.register range rfl))).tail .note,
    _, found⟩

/-- The word that is stored to is one that the block refers to. -/
theorem place_of_dirty (h : W.Regular s) (dirty : key ∈ s.dirty) : W.Place s key := by
  obtain ⟨memory, -, x, refers, is⟩ := h.dirty dirty
  exact .word refers memory is

theorem not_dirty_markClean (s : State) (key : Operand) : key ∉ (s.markClean key).dirty := fun mem => by
  simpa using (List.mem_filter.mp mem).2

theorem steps_markClean : W.Step s (s.markClean key) := .store fun _ mem => (List.mem_filter.mp mem).1

theorem steps_clean (h : W.Regular s) (range : W.InRange r) : W.Steps s (s.clean key r) := by
  unfold State.clean
  split
  · rename_i dirty
    have place : W.Place s key := place_of_dirty h (by simpa [State.isDirty] using dirty)
    have first : W.Step s (s.markClean key) := steps_markClean
    exact .head first (steps_emitMove (first.regular h) ((first.grown h).place place) (.register range rfl))
  · exact .refl

/-- Steps for each member of a list. -/
theorem steps_foldl {α : Type} {f : State → α → State} {P : State → α → Prop}
    (mono : ∀ {s s' : State} {a}, Grown s s' → P s a → P s' a)
    (each : ∀ {s a}, W.Regular s → P s a → W.Steps s (f s a)) (as : List α) (h : W.Regular s)
    (all : ∀ a ∈ as, P s a) : W.Steps s (as.foldl f s) := by
  induction as generalizing s with
  | nil => exact .refl
  | cons a rest ih =>
    have first := each h (all a List.mem_cons_self)
    exact first.trans (ih (first.regular h) fun b mem =>
      mono (first.grown h) (all b (List.mem_cons_of_mem _ mem)))

theorem steps_writeBackAll (h : W.Regular s) : W.Steps s s.writeBackAll := by
  have first : W.Step s { s with dirty := [] } := .store (by simp)
  refine .head first (steps_foldl (P := W.Place) Grown.place (fun {s key} h place => ?_) _ (first.regular h)
    fun key mem => (first.grown h).place (place_of_dirty h (by simpa [Residents.sorted] using mem)))
  split
  · rename_i r held
    exact steps_emitMove h place (.register (h.bound held) rfl)
  · exact .refl

theorem steps_unbind_clean (h : W.Regular s) (memory : key.isMemory = true) (range : W.InRange r) :
    W.Steps s ((s.clean key r).unbind key) :=
  (steps_clean h range).tail (.unbind (not_dirty_clean s key r) fun abstract => by
    rw [not_abstract_of_memory memory] at abstract
    cases abstract)

theorem steps_spill_unbind (h : W.Regular s) (other : key.isMemory = false) (range : W.InRange r)
    (known : key.isAbstract = true → W.defined key) : W.Steps s ((s.spill key r).unbind key) := by
  obtain ⟨steps, saved⟩ := steps_spill h range known
  exact steps.tail (.unbind ((steps.regular h).clean other) fun _ _ => saved)

theorem steps_vacateOne (read : W.Reads index)
    (h : W.Regular s) (range : W.InRange r) (known : key.isAbstract = true → W.defined key) :
    W.Steps s (s.vacateOne W.context index r key) := by
  unfold State.vacateOne
  dsimp only
  split
  · rename_i memory
    exact steps_unbind_clean h memory range
  · rename_i other
    have other : key.isMemory = false := by simpa using other
    split
    · exact steps_spill_unbind h other range known
    · rename_i never
      exact .single (.unbind (h.clean other) fun _ needed => absurd (read _ needed) never)

/-- The residents of a register may have a value. -/
theorem known_of_mem (h : W.Regular s) (mem : key ∈ s.residents.of r) (abstract : key.isAbstract = true) :
    W.defined key := by
  refine h.known abstract (.inl (Option.isSome_iff_exists.mp (lookup_isSome.mpr ?_)))
  exact List.mem_map_of_mem (f := (·.1)) (Residents.mem_of.mp mem)

theorem steps_vacate (read : W.Reads index)
    (h : W.Regular s) (range : W.InRange r) : W.Steps s (s.vacate W.context r index) :=
  steps_foldl (P := fun _ (key : Operand) => key.isAbstract = true → W.defined key) (fun _ known => known)
    (fun h known => steps_vacateOne read h range known) _ h fun _ mem => known_of_mem h mem

theorem steps_vacateAll (read : W.Reads index)
    (h : W.Regular s) : W.Steps s (s.vacateAll W.context index) := by
  refine steps_foldl (P := fun _ r => W.InRange r) (fun _ range => range) (fun {s r} h range => ?_) _ h
    fun r mem => ?_
  · split
    · exact .refl
    · exact steps_vacate read h range
  · obtain ⟨least, most⟩ := List.mem_range'_1.mp mem
    exact ⟨least, by omega⟩

/-! ## Finding a register -/

theorem acquire_eq {c : Context} : s.acquire c index =
    (if s.residents.free.isEmpty then s.evict c index else .ok s) >>= fun s =>
      match s.residents.free.first? with
      | some register => .ok (register, s)
      | none => .error (.registerPressure c.block index) := by
  unfold State.acquire
  split <;> rfl

theorem steps_acquire (read : W.Reads index)
    (h : W.Regular s) (ok : s.acquire W.context index = .ok (r, s')) : W.Steps s s' ∧ W.InRange r := by
  rw [acquire_eq] at ok
  obtain ⟨s₁, found, first⟩ := bind_ok.mp ok
  have steps : W.Steps s s₁ := by
    split at found
    · unfold State.evict at found
      split at found
      · rename_i victim chosen
        cases found
        refine steps_vacate read h ?_
        have some_there : State.evictable W.context s ≠ [] := fun none => by
          rw [State.victim?, none] at chosen
          cases chosen
        obtain ⟨reg, mem, same, -⟩ := victim?_spec index some_there
        rw [chosen] at same
        cases same
        exact (mem_evictable.mp mem).1
      · cases found
    · cases found
      exact .refl
  split at first
  · rename_i free
    cases first
    exact ⟨steps, (steps.regular h).free (RegisterSet.first?_eq_some free)⟩
  · cases first

/-! ## Naming registers -/

/-- The operand comes to name the register, or a new one does. -/
theorem steps_attach (h : W.Regular s) (range : W.InRange r) (role : s.role x = .abstract key) :
    W.Steps s (s.attach x key r).2 ∧ W.Fits (s.attach x key r).2 false (s.attach x key r).1 := by
  have role := (h.role_current x).trans role
  unfold State.attach
  dsimp only
  split
  · rename_i taken
    rcases role_abstract.mp role with found | ⟨absent, is, abstract⟩
    · obtain ⟨-, -, old, -, is⟩ := h.keyed found
      rw [is] at taken
      cases taken
    · have inside := Pool.inside_of_abstract taken
      refine ⟨.single (.name range abstract absent is), .place (by simpa [Pool.set] using inside) ?_⟩
      dsimp only
      rw [Pool.get_set _ _ _ inside, if_pos rfl]
      exact .register range rfl
  · rename_i concrete
    have found : s.keys.lookup (s.current x) = some key := by
      refine (role_abstract.mp role).resolve_right ?_
      rintro ⟨-, is, abstract⟩
      exact concrete (is ▸ abstract)
    split
    · rename_i same
      exact ⟨.refl, .place (h.keyed found).2.1 (.register range same)⟩
    · refine ⟨.single (.split range found), .place (by simp [State.physical, State.addOperand]) ?_⟩
      exact .register range (Pool.get_add_self _ _)

theorem steps_load (read : W.Reads index)
    (h : W.Regular s) (abstract : key.isAbstract = true)
    (ok : s.load W.context index key = .ok (r, s')) : W.Steps s s' ∧ W.InRange r := by
  unfold State.load at ok
  split at ok
  · rename_i reg held
    cases ok
    exact ⟨.refl, h.bound held⟩
  · split at ok
    · cases ok
    · rename_i offset found
      obtain ⟨⟨reg, s₁⟩, acquired, rest⟩ := bind_ok.mp ok
      cases rest
      obtain ⟨steps, range⟩ := steps_acquire read h acquired
      have moved := steps_emitMove (steps.regular h) (.register range rfl)
        (.slot ((steps.grown h).slots found) rfl)
      exact ⟨((steps.trans moved).tail .note).tail (.bind range fun _ =>
        h.known abstract (.inr ⟨offset, found⟩)), range⟩

theorem steps_resolve (read : W.Reads index)
    (h : W.Regular s) (role : s.role x = .abstract key)
    (ok : s.resolve W.context index x key = .ok (r, y, s')) :
    W.Steps s s' ∧ W.InRange r ∧ W.Fits s' false y := by
  unfold State.resolve at ok
  obtain ⟨⟨reg, s₁⟩, loaded, rest⟩ := bind_ok.mp ok
  cases rest
  obtain ⟨steps, range⟩ := steps_load read h (h.abstract role) loaded
  have steps : W.Steps s (s₁.pin r) := steps.tail .note
  have attached := steps_attach (steps.regular h) range ((steps.grown h).role role)
  exact ⟨steps.trans attached.1, range, attached.2⟩

/-! ## Reading and writing operands -/

variable (W) in
/-- What an instruction of the block may have as an operand at some point. -/
def Stands (s : State) (x : OperandRef) : Prop :=
  (∃ key, s.role x = .abstract key) ∨ W.Refers x ∧ (s.pool.get x).isAbstract = false

theorem Regular.stands (h : W.Regular s) (refers : W.Refers x) : W.Stands s (s.current x) := by
  cases role : s.role (s.current x) with
  | abstract key => exact .inl ⟨key, role⟩
  | memory key =>
    have same := h.current_eq (x := x) (by simp [role])
    obtain ⟨-, is, -, concrete⟩ := role_memory role
    exact .inr ⟨by rwa [same], is ▸ concrete⟩
  | other =>
    have same := h.current_eq (x := x) (by simp [role])
    exact .inr ⟨by rwa [same], (role_other role).2⟩

theorem Stands.grown (h : W.Stands s x) (grown : Grown s s') : W.Stands s' x :=
  h.imp (fun ⟨key, role⟩ => ⟨key, grown.role role⟩) fun ⟨refers, concrete⟩ => ⟨refers, grown.concrete concrete⟩

theorem Stands.refers (h : W.Stands s x) (other : ∀ key, s.role x ≠ .abstract key) : W.Refers x :=
  (h.resolve_left fun ⟨key, role⟩ => other key role).1

/-- An operand that is no abstract register can be given out as it is. -/
theorem Stands.fits (h : W.Stands s x) (other : ∀ key, s.role x ≠ .abstract key) (transfers : Bool) :
    W.Fits s transfers x := by
  obtain ⟨refers, concrete⟩ := h.resolve_left fun ⟨key, role⟩ => other key role
  exact .same refers (.inr concrete)

theorem steps_use (read : W.Reads index) (h : W.Regular s) (stands : W.Stands s x)
    (ok : s.use W.context index x = .ok (y, s')) : W.Steps s s' ∧ W.Fits s' false y := by
  unfold State.use at ok
  split at ok
  · rename_i key role
    obtain ⟨⟨reg, x', s₁⟩, resolved, rest⟩ := bind_ok.mp ok
    cases rest
    obtain ⟨steps, -, fits⟩ := steps_resolve read h role resolved
    exact ⟨steps, fits⟩
  · rename_i key role
    split at ok
    · rename_i reg held
      cases ok
      have place : W.Place (s.pin reg) (.reg (.physical reg)) := .register (h.bound held) rfl
      exact ⟨.head .note (.single (.operand place)), fits_addOperand place _⟩
    · cases ok
      exact ⟨.refl, stands.fits (by simp [role]) _⟩
  · rename_i role
    cases ok
    exact ⟨.refl, stands.fits (by simp [role]) _⟩

theorem steps_separateOne {owner : Operand} (later : W.ReadsAfter index) (h : W.Regular s) (range : W.InRange r)
    (known : key.isAbstract = true → W.defined key) :
    W.Steps s (s.separateOne W.context index r owner key) := by
  unfold State.separateOne
  split
  · exact .refl
  · split
    · rename_i memory
      exact steps_unbind_clean h memory range
    · rename_i other
      have other : key.isMemory = false := by simpa using other
      split
      · split
        · rename_i copy first
          have range' := h.free (RegisterSet.first?_eq_some first)
          have moved := steps_emitMove h (.register range' rfl) (.register range rfl)
          exact moved.tail (.move range' ((moved.regular h).clean other) known)
        · exact steps_spill_unbind h other range known
      · rename_i dead
        exact .single (.unbind (h.clean other) fun _ needed => absurd (later _ needed) dead)

theorem steps_separate {owner : Operand} (later : W.ReadsAfter index) (h : W.Regular s) (range : W.InRange r) :
    W.Steps s (s.separate W.context index r owner) :=
  steps_foldl (P := fun _ (key : Operand) => key.isAbstract = true → W.defined key) (fun _ known => known)
    (fun h known => steps_separateOne later h range known) _ h fun _ mem => known_of_mem h mem

theorem steps_releaseOne (later : W.ReadsAfter index) (h : W.Regular s) :
    W.Steps s (s.releaseOne W.context index key) := by
  unfold State.releaseOne
  split
  · exact .refl
  · rename_i dead
    have saved : ∀ {s : State}, key.isAbstract = true → W.needed key →
        ∃ offset, s.slots.lookup key = some offset := fun _ needed => absurd (later _ needed) dead
    dsimp only
    split
    · rename_i r held
      exact (steps_clean h (h.bound held)).tail (.unbind (not_dirty_clean s key r) saved)
    · exact .tail (.single steps_markClean) (.unbind (not_dirty_markClean s key) saved)

theorem steps_releaseDead (later : W.ReadsAfter index) (h : W.Regular s) :
    W.Steps s (s.releaseDead W.context index) :=
  steps_foldl (P := fun _ _ => True) (fun _ _ => trivial) (fun h _ => steps_releaseOne later h) _ h
    fun _ _ => trivial

/-! ## Instructions -/

theorem steps_eliminate : W.Steps s s.eliminate :=
  .head .note (.single (.emit (by simp [Instruction.operands])))

theorem steps_invalidate {word : Operand} (memory : word.isMemory = true) : W.Steps s (s.invalidate word) :=
  .head steps_markClean (.single (.unbind (not_dirty_markClean s word) fun abstract => by
    rw [not_abstract_of_memory memory] at abstract
    cases abstract))

theorem steps_defineByMove (read : W.Reads index) (h : W.Regular s) (role : s.role x = .abstract key)
    (known : W.defined key) (source : W.Fits s false y)
    (ok : s.defineByMove W.context index x key y = .ok (r, s')) : W.Steps s s' ∧ W.InRange r := by
  unfold State.defineByMove at ok
  obtain ⟨⟨reg, s₁⟩, acquired, rest⟩ := bind_ok.mp ok
  cases rest
  obtain ⟨steps, range⟩ := steps_acquire read h acquired
  have steps : W.Steps s ((s₁.pin r).bind key r) := (steps.tail .note).tail (.bind range fun _ => known)
  have attached := steps_attach (steps.regular h) range ((steps.grown h).role role)
  have steps : W.Steps s _ := steps.trans attached.1
  exact ⟨steps.tail (.emit (fits_pair attached.2 ((steps.grown h).fits source))), range⟩

theorem steps_defineByAlias (h : W.Regular s) (role : s.role x = .abstract key) (known : W.defined key)
    (range : W.InRange r) : W.Steps s (s.defineByAlias x key r) := by
  have first : W.Step s (s.bind key r) := .bind range fun _ => known
  exact .head first ((steps_attach (first.regular h) range ((first.grown h).role role)).1.trans steps_eliminate)

theorem steps_moveToRegister (read : W.Reads index) (h : W.Regular s) (role : s.role x = .abstract key)
    (known : W.defined key) (source : W.Stands s y)
    (ok : s.moveToRegister W.context index x key y = .ok s') : W.Steps s s' := by
  unfold State.moveToRegister at ok
  split at ok
  · cases ok
    exact steps_eliminate
  · split at ok
    · rename_i sourceKey from_
      obtain ⟨⟨reg, z, s₁⟩, resolved, rest⟩ := bind_ok.mp ok
      cases rest
      obtain ⟨steps, range, -⟩ := steps_resolve read h from_ resolved
      exact steps.trans (steps_defineByAlias (steps.regular h) ((steps.grown h).role role) known range)
    · rename_i word from_
      split at ok
      · rename_i reg held
        cases ok
        exact steps_defineByAlias h role known (h.bound held)
      · obtain ⟨⟨reg, s₁⟩, defined, rest⟩ := bind_ok.mp ok
        cases rest
        obtain ⟨steps, range⟩ := steps_defineByMove read h role known (source.fits (by simp [from_]) _) defined
        split
        · refine steps.tail (.bind range fun abstract => ?_)
          rw [(role_memory from_).2.2.2] at abstract
          cases abstract
        · exact steps
    · rename_i from_
      obtain ⟨⟨reg, s₁⟩, defined, rest⟩ := bind_ok.mp ok
      cases rest
      exact (steps_defineByMove read h role known (source.fits (by simp [from_]) _) defined).1

/-- Storing to a word in memory, after which no register holds it. -/
theorem steps_store {word : Operand} {i : Instruction} (h : W.Regular s) (memory : word.isMemory = true)
    (fits : ∀ z ∈ i.operands, W.Fits s i.destination?.isSome z) : W.Steps s ((s.invalidate word).emit i) := by
  have first := steps_invalidate (W := W) (s := s) memory
  exact first.tail (.emit fun z mem => (first.grown h).fits (fits z mem))

/-- A word of memory comes to be dirty in a register. -/
theorem steps_defer {word : Operand} (memory : word.isMemory = true) (range : W.InRange r)
    (refers : W.Refers x) (is : s.pool.get x = word) :
    W.Steps s ((s.bind word r).markDirty word).eliminate := by
  have bound : W.Step s (s.bind word r) := .bind range fun abstract => by
    rw [not_abstract_of_memory memory] at abstract
    cases abstract
  refine ((Relation.ReflTransGen.single bound).tail (.soil (x := x) memory ⟨r, ?_⟩ refers is)).trans steps_eliminate
  rw [register?_bind, if_pos rfl]

/-- What a move of a register to a word of memory does once the register is found. -/
theorem steps_moveBehind {word : Operand} {p : Prop} [Decidable p] (h : W.Regular s)
    (memory : word.isMemory = true) (range : W.InRange r) (refers : W.Refers x) (is : s.pool.get x = word)
    (source : W.Fits s false y) :
    W.Steps s (if p then ((s.bind word r).markDirty word).eliminate else (s.invalidate word).emit (.mov x y)) := by
  split
  · exact steps_defer memory range refers is
  · have concrete : (s.pool.get x).isAbstract = false := is ▸ not_abstract_of_memory memory
    exact steps_store h memory (fits_pair (.same refers (.inr concrete)) source)

theorem steps_moveToMemory {word : Operand} (read : W.Reads index) (h : W.Regular s)
    (role : s.role x = .memory word) (target : W.Stands s x) (source : W.Stands s y)
    (ok : s.moveToMemory W.context index x word y = .ok s') : W.Steps s s' := by
  obtain ⟨-, is, memory, concrete⟩ := role_memory role
  have refers := target.refers (by simp [role])
  have used : ∀ {z s₁}, s.use W.context index y = .ok (z, s₁) →
      W.Steps s ((s₁.invalidate word).emit (.mov x z)) := fun used => by
    obtain ⟨steps, given⟩ := steps_use read h source used
    have fits := (steps.grown h).fits (target.fits (by simp [role]) false)
    exact steps.trans (steps_store (steps.regular h) memory (fits_pair fits given))
  unfold State.moveToMemory at ok
  split at ok
  · rename_i sourceKey from_
    obtain ⟨⟨reg, z, s₁⟩, resolved, rest⟩ := bind_ok.mp ok
    cases rest
    obtain ⟨steps, range, given⟩ := steps_resolve read h from_ resolved
    have settled := (steps.grown h).settled (inside_of_memory (is ▸ memory)) (is ▸ concrete)
    exact steps.trans (steps_moveBehind (steps.regular h) memory range refers (settled.trans is) given)
  · obtain ⟨⟨z, s₁⟩, resolved, rest⟩ := bind_ok.mp ok
    cases rest
    exact used resolved
  · obtain ⟨⟨z, s₁⟩, resolved, rest⟩ := bind_ok.mp ok
    cases rest
    exact used resolved

theorem steps_move (read : W.Reads index) (h : W.Regular s)
    (known : ∀ {key}, s.role x = .abstract key → W.defined key) (target : W.Stands s x)
    (source : W.Stands s y) (ok : s.move W.context index x y = .ok s') : W.Steps s s' := by
  unfold State.move at ok
  split at ok
  · rename_i key role
    exact steps_moveToRegister read h role (known role) source ok
  · rename_i word role
    exact steps_moveToMemory read h role target source ok
  · rename_i role
    obtain ⟨⟨z, s₁⟩, used, rest⟩ := bind_ok.mp ok
    cases rest
    obtain ⟨steps, given⟩ := steps_use read h source used
    exact steps.tail (.emit (fits_pair ((steps.grown h).fits (target.fits (by simp [role]) _)) given))

/-- What an arithmetic instruction does once its target is in a register. -/
theorem steps_update {op : Arith} (later : W.ReadsAfter index) (h : W.Regular s) (range : W.InRange r)
    (target : W.Fits s false x) (source : W.Fits s false y) :
    W.Steps s ((s.separate W.context index r key).emit (.arith op x y)) := by
  have apart : W.Steps s (s.separate W.context index r key) := steps_separate later h range
  have grown := apart.grown h
  exact apart.tail (.emit (fits_pair (grown.fits target) (grown.fits source)))

/-- A word of memory that is written leaves its register. -/
theorem steps_dropWord {word : Operand} (h : W.Regular s) (memory : word.isMemory = true) :
    W.Steps s (match s.register? word with
      | some reg => (s.clean word reg).unbind word
      | none => s) := by
  split
  · rename_i reg held
    exact steps_unbind_clean h memory (h.bound held)
  · exact .refl

/-- What an arithmetic instruction does to a word of memory. -/
theorem steps_updateWord {op : Arith} {word : Operand} (h : W.Regular s) (memory : word.isMemory = true)
    (target : W.Fits s false x) (source : W.Fits s false y) :
    W.Steps s ((match s.register? word with
      | some reg => (s.clean word reg).unbind word
      | none => s).emit (.arith op x y)) :=
  have grown := (steps_dropWord h memory).grown h
  (steps_dropWord h memory).tail (.emit (fits_pair (grown.fits target) (grown.fits source)))

theorem steps_arith {op : Arith} (read : W.Reads index) (later : W.ReadsAfter index) (h : W.Regular s)
    (target : W.Stands s x) (source : W.Stands s y) (ok : s.arith W.context index op x y = .ok s') :
    W.Steps s s' := by
  unfold State.arith at ok
  obtain ⟨⟨z, s₁⟩, used, rest⟩ := bind_ok.mp ok
  obtain ⟨steps, given⟩ := steps_use read h source used
  have h₁ := steps.regular h
  dsimp only at rest
  split at rest
  · rename_i key role
    obtain ⟨⟨reg, w, s₂⟩, resolved, rest⟩ := bind_ok.mp rest
    cases rest
    obtain ⟨more, range, fits⟩ := steps_resolve read h₁ ((steps.grown h).role role) resolved
    exact (steps.trans more).trans (steps_update later (more.regular h₁) range fits ((more.grown h₁).fits given))
  · rename_i word role
    cases rest
    have fits := (steps.grown h).fits (target.fits (by simp [role]) false)
    exact steps.trans (steps_updateWord h₁ (role_memory role).2.2.1 fits given)
  · rename_i role
    cases rest
    exact steps.tail (.emit (fits_pair ((steps.grown h).fits (target.fits (by simp [role]) false)) given))

theorem steps_pop (read : W.Reads index) (h : W.Regular s)
    (known : ∀ {key}, s.role x = .abstract key → W.defined key) (target : W.Stands s x)
    (ok : s.pop W.context index x = .ok s') : W.Steps s s' := by
  unfold State.pop at ok
  split at ok
  · rename_i key role
    obtain ⟨⟨reg, s₁⟩, acquired, rest⟩ := bind_ok.mp ok
    cases rest
    obtain ⟨steps, range⟩ := steps_acquire read h acquired
    have steps : W.Steps s (s₁.bind key reg) := steps.tail (.bind range fun _ => known role)
    have attached := steps_attach (steps.regular h) range ((steps.grown h).role role)
    exact (steps.trans attached.1).tail (.emit (List.forall_mem_singleton.mpr attached.2))
  · rename_i word role
    cases ok
    exact steps_store h (role_memory role).2.2.1
      (List.forall_mem_singleton.mpr (target.fits (by simp [role]) _))
  · rename_i role
    cases ok
    exact .single (.emit (List.forall_mem_singleton.mpr (target.fits (by simp [role]) _)))

/-- The operand of a jump or a call. -/
theorem fits_transfer (h : W.Regular s) (leads : W.Leads x) : W.Fits s true (s.current x) := by
  rcases State.current_keyed h.retarget x with same | ⟨key, -, found⟩
  · obtain ⟨i, mem, is⟩ := id leads
    rw [same]
    exact .same ⟨i, mem, Instruction.mem_operands_of_destination? is⟩ (.inl ⟨rfl, leads⟩)
  · obtain ⟨-, inside, r, range, is⟩ := h.keyed found
    exact .place inside (.register range is)

variable (W) in
/-- An instruction defines no abstract register but one that may have a value. -/
def Defines (s : State) (i : Instruction) : Prop :=
  ∀ x key, (∃ y, i = .mov x y) ∨ i = .pop x → s.role (s.current x) = .abstract key → W.defined key

theorem current_of_eq (same : s'.retarget = s.retarget) (x : OperandRef) : s'.current x = s.current x := by
  have follow : ∀ (fuel : Nat) (x : OperandRef), s'.follow fuel x = s.follow fuel x := by
    intro fuel
    induction fuel with
    | zero => exact fun _ => rfl
    | succ fuel ih =>
      intro x
      unfold State.follow
      rw [same]
      split
      · rfl
      · exact ih _
  unfold State.current
  rw [same]
  exact follow _ x

theorem current_unpinned (s : State) (x : OperandRef) :
    State.current { s with pinned := .empty } x = s.current x :=
  current_of_eq (show State.retarget { s with pinned := .empty } = s.retarget from rfl) x

theorem steps_instruction {i : Instruction} (read : W.Reads index) (later : W.ReadsAfter index)
    (h : W.Regular s) (mem : i ∈ W.code) (known : W.Defines s i)
    (ok : s.instruction W.context index i = .ok s') : W.Steps s s' := by
  have first : W.Step s { s with pinned := .empty } := .note
  have h := first.regular h
  have known : W.Defines { s with pinned := .empty } i := fun x key which role =>
    known x key which (current_unpinned s x ▸ role)
  have stands : ∀ {x}, x ∈ i.operands →
      W.Stands { s with pinned := .empty } (State.current { s with pinned := .empty } x) :=
    fun operand => h.stands ⟨i, mem, operand⟩
  refine .head first ?_
  unfold State.instruction at ok
  generalize { s with pinned := .empty } = s at h known stands ok ⊢
  dsimp only at ok
  cases i with
  | ret | halt | nop =>
    cases ok
    exact .single (.emit (by simp [Instruction.mapRefs, Instruction.operands]))
  | push x =>
    obtain ⟨⟨z, s₁⟩, used, rest⟩ := bind_ok.mp ok
    cases rest
    obtain ⟨steps, fits⟩ := steps_use read h (stands (by simp [Instruction.operands])) used
    exact steps.tail (.emit (List.forall_mem_singleton.mpr fits))
  | pop x =>
    exact steps_pop read h (fun role => known x _ (.inr rfl) role) (stands (by simp [Instruction.operands])) ok
  | mov x y =>
    exact steps_move read h (fun role => known x _ (.inl ⟨y, rfl⟩) role)
      (stands (by simp [Instruction.operands])) (stands (by simp [Instruction.operands])) ok
  | arith op x y =>
    exact steps_arith read later h (stands (by simp [Instruction.operands]))
      (stands (by simp [Instruction.operands])) ok
  | cmp x y =>
    obtain ⟨⟨z, s₁⟩, used, rest⟩ := bind_ok.mp ok
    obtain ⟨⟨w, s₂⟩, used', rest⟩ := bind_ok.mp rest
    cases rest
    obtain ⟨steps, fits⟩ := steps_use read h (stands (by simp [Instruction.operands])) used
    have h₁ := steps.regular h
    obtain ⟨more, fits'⟩ := steps_use read h₁
      ((stands (by simp [Instruction.operands])).grown (steps.grown h)) used'
    exact (steps.trans more).tail (.emit (fits_pair ((more.grown h₁).fits fits) fits'))
  | jump x | jumpIf _ x =>
    cases ok
    have fits := fits_transfer (x := x) h ⟨_, mem, rfl⟩
    exact .single (.emit (List.forall_mem_singleton.mpr fits))
  | call x =>
    cases ok
    have fits := fits_transfer (x := x) h ⟨_, mem, rfl⟩
    have steps := steps_vacateAll read h
    exact steps.tail (.emit (List.forall_mem_singleton.mpr ((steps.grown h).fits fits)))

end Work

end Codegen86.Allocation
