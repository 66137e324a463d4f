import Codegen86.Proofs.Allocation.Separate
import Codegen86.Proofs.Allocation.Step
/-!
# Moves

A move to an abstract register loads it, gives it one more name, or is dropped; a move to memory is
carried out or put off.  Each of these handles the original move, and so does what is chosen of them
(`move_spec`).
-/

set_option autoImplicit false

namespace Codegen86.Allocation

open Target Symbolic

variable {E : Setting} {before after : Operand → Prop} {s s' : State} {u t : View} {index : Nat}

theorem abstract_mem_operandReads {o : Operand} (abstract : o.isAbstract = true) :
    o ∈ operandReads o := by
  simp [operandReads, isTracked, abstract]

theorem Shape.concrete (h : Shape E s) {x : OperandRef} {o : Operand} (stands : Stands s x o)
    (concrete : o.isAbstract = false) : Settled s x ∧ s.pool.get x = o := by
  obtain ⟨inside, found | ⟨-, here⟩⟩ := stands
  · rw [(h.keyed found).1] at concrete
    cases concrete
  · exact ⟨⟨inside, here ▸ concrete⟩, here⟩

theorem Acquired.keeps {reg : Nat} (h : Acquired E s reg s') : Keeps s s' :=
  ⟨h.kept, fun used => h.pinned ▸ used, fun _ held => h.still held⟩

section Moves

variable {x₀ y₀ x y : OperandRef}

theorem mov_ne_stackOverflow {M : Model} {p : Pool} {v : View} :
    v.execute M p (.mov x y) ≠ .error .stackOverflow :=
  execute_ne_stackOverflow nofun nofun

/-- A move keeps everything live but its target. -/
theorem Point.mov_others (point : Point E index (.mov x₀ y₀) before after) {o : Operand}
    (wanted : after o) (other : o ≠ E.pool.get x₀) : before o := by
  refine point.passes wanted fun defined => other ?_
  have defined : (some (E.pool.get x₀)).filter isTracked = some o := defined
  exact (Option.some.inj (Option.filter_eq_some_iff.mp defined).1).symm

theorem Point.mov_source (point : Point E index (.mov x₀ y₀) before after)
    (abstract : (E.pool.get y₀).isAbstract = true) : before (E.pool.get y₀) :=
  point.reads (List.mem_append_left _ (abstract_mem_operandReads abstract))

/-! ## To an abstract register -/

section ToRegister

variable {k : Nat} {reg : Nat}

/-- A value that is not read again is not moved. -/
theorem advances_eliminate (point : Point E index (.mov x₀ y₀) before after) (h : Shape E s)
    (target : E.pool.get x₀ = .reg (.abstract k)) (dead : ¬ after (.reg (.abstract k))) :
    Advances E before after (.mov x₀ y₀) s s.eliminate := by
  have others : ∀ o, after o → o ≠ .reg (.abstract k) ∧ before o := by
    intro o wanted
    have other : o ≠ .reg (.abstract k) := by
      rintro rfl
      exact dead wanted
    exact ⟨other, point.mov_others wanted (target ▸ other)⟩
  refine Advances.emit (j := .nop) (r := { s with journal := s.journal.recordEliminated }) rfl
    (h.withJournal _) (evolves_of_eq rfl rfl rfl rfl) nofun rfl (by simp [Instruction.operands]) ?_ ?_
    fun _ _ overflow => absurd overflow mov_ne_stackOverflow
  · intro covered key abstract wanted absent
    exact covered abstract (others key wanted).2 absent
  · intro u t u' _ _ _ holds step
    obtain ⟨w, -, write⟩ := execute_mov_ok step
    rw [target] at write
    obtain rfl : { u with locals := put u.locals k w } = u' := Except.ok.inj write
    exact ⟨t, rfl, (holds.dropLocal w others).of_eq rfl rfl rfl⟩

/-- A value that is in a register is defined by one more name for it. -/
theorem advances_alias (point : Point E index (.mov x₀ y₀) before after) (h : Shape E s)
    (target : E.pool.get x₀ = .reg (.abstract k)) (stands : Stands s x (.reg (.abstract k)))
    (bounds : 1 ≤ reg ∧ reg ≤ E.context.registers)
    (right : ∀ {u t : View} {w : Word}, Holds E before s u t →
      u.read E.original (E.pool.get y₀) = .ok w → t.general reg = w) :
    Advances E before after (.mov x₀ y₀) s (s.defineByAlias x (.reg (.abstract k)) reg) := by
  have isKey : IsKey E.base (.reg (.abstract k)) := isKey_of_abstract _ rfl
  have bound := h.bind isKey bounds
  have binds := evolves_of_eq (s := s) (r := s.bind (.reg (.abstract k)) reg) rfl rfl rfl rfl
  obtain ⟨attaches, -, -⟩ := attach_spec (L := after) bound (binds.stands stands) rfl bounds
  have store := sameStore_attach (s.bind (.reg (.abstract k)) reg) x (.reg (.abstract k)) reg
  have others : ∀ o, after o → o ≠ .reg (.abstract k) → before o :=
    fun o wanted other => point.mov_others wanted (target ▸ other)
  refine Advances.emit (j := .nop)
    (r := { ((s.bind (.reg (.abstract k)) reg).attach x (.reg (.abstract k)) reg).2 with
      journal := _ }) store.out (attaches.shape.withJournal _)
    (binds.trans (attaches.evolves.trans (evolves_of_eq rfl rfl rfl rfl))) nofun rfl
    (by simp [Instruction.operands]) ?_ ?_ fun _ _ overflow => absurd overflow mov_ne_stackOverflow
  · intro covered
    exact Covered.of_eq (Covered.bind covered reg others) store.residents store.slots
  · intro u t u' _ _ _ holds step
    obtain ⟨w, read, write⟩ := execute_mov_ok step
    rw [target] at write
    obtain rfl : { u with locals := put u.locals k w } = u' := Except.ok.inj write
    have dropped : Holds E (fun o => after o ∧ o ≠ .reg (.abstract k)) s
        { u with locals := put u.locals k w } t :=
      holds.dropLocal w fun o wanted => ⟨wanted.2, others o wanted.1 wanted.2⟩
    have named : Holds E after (s.bind (.reg (.abstract k)) reg)
        { u with locals := put u.locals k w } t :=
      dropped.bind (fun o wanted other => ⟨wanted, other⟩) fun _ =>
        (right holds read).trans (put_self u.locals k w).symm
    exact ⟨t, rfl, named.of_eq store.residents store.dirty store.slots⟩

/-- A value that is not in a register is moved to one. -/
theorem defineByMove_spec (point : Point E index (.mov x₀ y₀) before after) (h : Shape E s)
    (spare : Spare E.context s) (target : E.pool.get x₀ = .reg (.abstract k))
    (stands : Stands s x (.reg (.abstract k))) (ready : Ready s y (E.pool.get y₀))
    (allowed : Allowed E.base (E.pool.get y₀)) :
    ∃ reg s', s.defineByMove E.context index x (.reg (.abstract k)) y = .ok (reg, s') ∧
      (1 ≤ reg ∧ reg ≤ E.context.registers) ∧ s'.register? (.reg (.abstract k)) = some reg ∧
      Advances E before after (.mov x₀ y₀) s s' := by
  obtain ⟨reg, s₁, acquired, does, facts⟩ := acquire_spec (L := before) point.next h spare
  have few : reg ≤ 64 := Nat.le_trans facts.bounds.2 E.few
  let s₂ := (s₁.pin reg).bind (.reg (.abstract k)) reg
  have bound : Shape E s₂ := (does.shape.pin reg).bind (isKey_of_abstract _ rfl) facts.bounds
  have binds : Evolves s₁ s₂ := evolves_of_eq rfl rfl rfl rfl
  obtain ⟨attaches, settled, get⟩ := attach_spec (L := after) bound
    (binds.stands (does.evolves.stands stands)) rfl facts.bounds
  have store := sameStore_attach s₂ x (.reg (.abstract k)) reg
  have ready₁ := ready.keep does.evolves facts.keeps
  obtain ⟨settled', same⟩ := (binds.trans attaches.evolves).settledAt ready₁.1
  have others : ∀ o, after o → o ≠ .reg (.abstract k) → before o :=
    fun o wanted other => point.mov_others wanted (target ▸ other)
  refine ⟨reg, ((s₂.attach x (.reg (.abstract k)) reg).2).emit
    (.mov (s₂.attach x (.reg (.abstract k)) reg).1 y), ?_, facts.bounds, ?_, ?_⟩
  · simp [State.defineByMove, acquired, bind, Except.bind, pure, Except.pure, s₂]
  · show (s₂.attach x (.reg (.abstract k)) reg).2.register? (.reg (.abstract k)) = some reg
    rw [store.register?, register?_bind, if_pos rfl]
  · refine Advances.after_does does (Advances.emit store.out attaches.shape
      (binds.trans attaches.evolves) nofun rfl ?_ ?_ ?_ fun _ _ overflow => absurd overflow mov_ne_stackOverflow)
    · intro z use
      simp only [Instruction.operands, List.mem_cons, List.not_mem_nil, or_false] at use
      rcases use with rfl | rfl
      · exact settled
      · exact settled'
    · intro covered
      exact Covered.of_eq (Covered.bind (s := s₁.pin reg) covered reg others) store.residents store.slots
    · intro u t u' _ room _ holds step
      obtain ⟨w, read, write⟩ := execute_mov_ok step
      rw [target] at write
      obtain rfl : { u with locals := put u.locals k w } = u' := Except.ok.inj write
      refine ⟨{ t with general := put t.general reg w }, ?_, ?_⟩
      · have read' := ready₁.read does.shape room holds allowed point.mov_source read
        simp only [View.execute, get, same, read', bind, Except.bind]
        exact write_general few w
      · have dropped : Holds E (fun o => after o ∧ o ≠ .reg (.abstract k)) (s₁.pin reg)
            { u with locals := put u.locals k w } t :=
          (holds.dropLocal w fun o wanted => ⟨wanted.2, others o wanted.1 wanted.2⟩).of_eq rfl rfl rfl
        have named : Holds E after s₂ { u with locals := put u.locals k w }
            { t with general := put t.general reg w } :=
          (dropped.setGeneral facts.bounds.1 facts.empty w).bind
            (fun o wanted other => ⟨wanted, other⟩) fun _ =>
            (put_self t.general reg w).trans (put_self u.locals k w).symm
        exact named.of_eq store.residents store.dirty store.slots

/-- A register that was loaded from memory holds the word of memory too. -/
theorem Advances.bindWord (h : Advances E before after (.mov x₀ y₀) s s') {off : Word}
    (target : E.pool.get x₀ = .reg (.abstract k)) (source : E.pool.get y₀ = .mem .basePointer off)
    (inFrame : -(E.base : Int) ≤ off.toInt) (counts : after (.reg (.abstract k)))
    (bound : s'.register? (.reg (.abstract k)) = some reg) :
    Advances E before after (.mov x₀ y₀) s (s'.bind (.mem .basePointer off) reg) where
  shape := h.shape.bind (.inr ⟨off, rfl, inFrame⟩) (h.shape.residents.bounds bound)
  evolves := h.evolves.trans (evolves_of_eq rfl rfl rfl rfl)
  dirty := nofun
  covers covered := Covered.bind (h.covers covered) reg fun _ wanted _ => wanted
  simulates := by
    intro u t u' fits room apart holds step
    obtain ⟨t', emits, holds'⟩ := h.simulates fits room apart holds step
    refine ⟨t', emits.trans (evolves_of_eq rfl rfl rfl rfl) (.nothing rfl), ?_⟩
    refine holds'.bind (fun o wanted _ => wanted) fun _ => ?_
    obtain ⟨w, read, write⟩ := execute_mov_ok step
    rw [target] at write
    obtain rfl : { u with locals := put u.locals k w } = u' := Except.ok.inj write
    have loaded : value u (.mem .basePointer off) = w :=
      value_of_read (E := E) (.inr ⟨off, rfl, inFrame⟩) (source ▸ read)
    rw [holds'.held bound (.inr counts)]
    exact (put_self u.locals k w).trans loaded.symm
  overflows _ _ _ overflow := absurd overflow mov_ne_stackOverflow

theorem moveToRegister_spec (point : Point E index (.mov x₀ y₀) before after) (h : Shape E s)
    (covered : Covered before s) (unused : ∀ r, s.pinned.contains r = false)
    (target : E.pool.get x₀ = .reg (.abstract k)) (stands : Stands s x (.reg (.abstract k)))
    (source : Stands s y (E.pool.get y₀)) (allowed : Allowed E.base (E.pool.get y₀)) :
    ∃ s', s.moveToRegister E.context index x (.reg (.abstract k)) y = .ok s' ∧
      Advances E before after (.mov x₀ y₀) s s' := by
  have spare : Spare E.context s := spare_of_unused E.enough unused
  unfold State.moveToRegister
  by_cases counts : E.context.liveness.isLiveAfter index (.reg (.abstract k)) = true
  case neg =>
    refine ⟨s.eliminate, by simp [counts], ?_⟩
    exact advances_eliminate point h target fun wanted => counts ((point.lasts _).mpr wanted)
  have wanted := (point.lasts _).mp counts
  rw [h.role source, roleOf]
  simp only [counts, Bool.not_true, Bool.false_eq_true, if_false]
  by_cases abstract : (E.pool.get y₀).isAbstract = true
  · obtain ⟨reg, y', s₁, resolved, does, -, -, -, held, -⟩ :=
      resolve_spec point.next h covered spare source abstract (point.mov_source abstract)
    rw [if_pos abstract]
    refine ⟨s₁.defineByAlias x (.reg (.abstract k)) reg,
      by simp [resolved, bind, Except.bind, pure, Except.pure], ?_⟩
    refine .after_does does (advances_alias point does.shape target (does.evolves.stands stands)
      (does.shape.residents.bounds held) ?_)
    intro u t w holds read
    rw [holds.held held (.inr (point.mov_source abstract))]
    exact value_of_read (E := E) (isKey_of_abstract _ abstract) read
  · rw [if_neg abstract]
    rw [Bool.not_eq_true] at abstract
    obtain ⟨settled, get⟩ := h.concrete source abstract
    by_cases memory : (E.pool.get y₀).isMemory = true
    · obtain ⟨off, isWord, inFrame⟩ := (allowed.isKey (.inr memory)).eq_mem memory
      rw [if_pos memory]
      dsimp only
      cases held : s.register? (E.pool.get y₀) with
      | some reg =>
        refine ⟨_, rfl, advances_alias point h target stands (h.residents.bounds held) ?_⟩
        intro u t w holds read
        rw [holds.held held (.inl memory)]
        exact value_of_read (E := E) (allowed.isKey (.inr memory)) read
      | none =>
        have ready : Ready s y (E.pool.get y₀) := ⟨settled, .inr ⟨get, abstract, fun _ => held⟩⟩
        obtain ⟨reg, s', defined, bounds, bound, advances⟩ :=
          defineByMove_spec point h spare target stands ready allowed
        simp only [defined, bind, Except.bind, pure, Except.pure]
        split
        · refine ⟨_, rfl, ?_⟩
          rw [isWord]
          exact advances.bindWord target isWord inFrame wanted bound
        · exact ⟨s', rfl, advances⟩
    · have ready : Ready s y (E.pool.get y₀) :=
        ⟨settled, .inr ⟨get, abstract, fun m => absurd m memory⟩⟩
      obtain ⟨reg, s', defined, -, -, advances⟩ :=
        defineByMove_spec point h spare target stands ready allowed
      rw [if_neg memory]
      exact ⟨s', by simp [defined, bind, Except.bind, pure, Except.pure], advances⟩

end ToRegister

/-! ## To memory -/

section ToMemory

variable {off : Word}

theorem Shape.invalidate (h : Shape E s) (key : Operand) : Shape E (s.invalidate key) :=
  (h.markClean key).unbind fun mem => by simpa using (List.mem_filter.mp mem).2

theorem register?_invalidate (s : State) (key other : Operand) :
    (s.invalidate key).register? other = if other = key then none else s.register? other :=
  register?_unbind _ _ _

theorem mem_dirty_invalidate {key other : Operand} :
    other ∈ (s.invalidate key).dirty ↔ other ∈ s.dirty ∧ other ≠ key := by
  show other ∈ s.dirty.filter _ ↔ _
  simp

/-- The word is stored at once. -/
theorem advances_store (point : Point E index (.mov x₀ y₀) before after) (h : Shape E s)
    (target : E.pool.get x₀ = .mem .basePointer off) (inFrame : -(E.base : Int) ≤ off.toInt)
    (stands : Stands s x (.mem .basePointer off)) (ready : Ready s y (E.pool.get y₀))
    (allowed : Allowed E.base (E.pool.get y₀)) :
    Advances E before after (.mov x₀ y₀) s ((s.invalidate (.mem .basePointer off)).emit (.mov x y)) := by
  obtain ⟨settled, get⟩ := h.concrete stands rfl
  have others : ∀ o, o.isAbstract = true → after o → before o := by
    intro o abstract wanted
    refine point.mov_others wanted ?_
    rw [target]
    rintro rfl
    cases abstract
  refine Advances.emit rfl (h.invalidate _) (evolves_of_eq rfl rfl rfl rfl) nofun rfl ?_ ?_ ?_
    fun _ _ overflow => absurd overflow mov_ne_stackOverflow
  · intro z use
    simp only [Instruction.operands, List.mem_cons, List.not_mem_nil, or_false] at use
    rcases use with rfl | rfl
    · exact settled
    · exact ready.1
  · intro covered key abstract wanted absent
    rw [register?_invalidate, if_neg] at absent
    · exact covered abstract (others key abstract wanted) absent
    · rintro rfl
      cases abstract
  · intro u t u' fits room _ holds step
    obtain ⟨w, read, write⟩ := execute_mov_ok step
    rw [target] at write
    obtain ⟨valid, rfl⟩ := write_frame_ok write
    refine ⟨{ t with memory := put t.memory (u.basePointer + off) w }, ?_, ?_⟩
    · have read' := ready.read h room holds allowed point.mov_source read
      have get' : (s.invalidate (.mem .basePointer off)).pool.get x = .mem .basePointer off := get
      simp only [View.execute, get', bind, Except.bind]
      rw [show (s.invalidate (.mem .basePointer off)).pool.get y = s.pool.get y from rfl, read']
      exact write_frame holds.basePointer valid w
    · refine (holds.mono h others).overwrite h fits inFrame w ?_ ?_ mem_dirty_invalidate rfl
      · intro key reg held
        rw [register?_invalidate] at held
        split at held
        · cases held
        · rename_i other
          exact ⟨other, held⟩
      · intro key abstract absent
        rw [register?_invalidate, if_neg] at absent
        · exact absent
        · rintro rfl
          cases abstract

/-- The word stays in its register, to be stored later. -/
theorem advances_defer (point : Point E index (.mov x₀ y₀) before after) (h : Shape E s)
    (target : E.pool.get x₀ = .mem .basePointer off) (inFrame : -(E.base : Int) ≤ off.toInt)
    (abstract : (E.pool.get y₀).isAbstract = true) {reg : Nat}
    (held : s.register? (E.pool.get y₀) = some reg) :
    Advances E before after (.mov x₀ y₀) s
      ((s.bind (.mem .basePointer off) reg).markDirty (.mem .basePointer off)).eliminate := by
  have others : ∀ o, o.isAbstract = true → after o → before o := by
    intro o abstract wanted
    refine point.mov_others wanted ?_
    rw [target]
    rintro rfl
    cases abstract
  have bound := h.bind (.inr ⟨off, rfl, inFrame⟩) (h.residents.bounds held)
  have marked : Shape E ((s.bind (.mem .basePointer off) reg).markDirty (.mem .basePointer off)) := by
    refine ⟨bound.residents, bound.isKey, ?_, bound.slots, bound.frame, bound.poolSize, bound.keyed,
      bound.unkeyed, bound.original, bound.retarget⟩
    intro key mem
    rcases List.mem_insert_iff.mp mem with rfl | mem
    · exact ⟨rfl, reg, by rw [register?_markDirty, register?_bind, if_pos rfl]⟩
    · exact bound.dirty mem
  refine Advances.emit (j := .nop)
    (r := { (s.bind (.mem .basePointer off) reg).markDirty (.mem .basePointer off) with journal := _ })
    rfl (marked.withJournal _) (evolves_of_eq rfl rfl rfl rfl) nofun rfl (by simp [Instruction.operands]) ?_ ?_
    fun _ _ overflow => absurd overflow mov_ne_stackOverflow
  · intro covered key isAbstract wanted absent
    have absent : (s.bind (.mem .basePointer off) reg).register? key = none := absent
    rw [register?_bind, if_neg] at absent
    · exact covered isAbstract (others key isAbstract wanted) absent
    · rintro rfl
      cases isAbstract
  · intro u t u' _ _ _ holds step
    obtain ⟨w, read, write⟩ := execute_mov_ok step
    rw [target] at write
    obtain ⟨valid, rfl⟩ := write_frame_ok write
    refine ⟨t, rfl, ?_⟩
    have same : t.general reg = w := by
      rw [holds.held held (.inr (point.mov_source abstract))]
      exact value_of_read (E := E) (isKey_of_abstract _ abstract) read
    rw [← same]
    exact ((holds.mono h others).deferStore h valid).of_eq rfl rfl rfl

theorem moveToMemory_spec (point : Point E index (.mov x₀ y₀) before after) (h : Shape E s)
    (covered : Covered before s) (unused : ∀ r, s.pinned.contains r = false)
    (target : E.pool.get x₀ = .mem .basePointer off) (inFrame : -(E.base : Int) ≤ off.toInt)
    (stands : Stands s x (.mem .basePointer off)) (source : Stands s y (E.pool.get y₀))
    (allowed : Allowed E.base (E.pool.get y₀)) :
    ∃ s', s.moveToMemory E.context index x (.mem .basePointer off) y = .ok s' ∧
      Advances E before after (.mov x₀ y₀) s s' := by
  have spare : Spare E.context s := spare_of_unused E.enough unused
  have stored : ∃ s', (s.use E.context index y >>= fun used =>
      Except.ok ((used.2.invalidate (.mem .basePointer off)).emit (.mov x used.1))) = Except.ok s' ∧
      Advances E before after (.mov x₀ y₀) s s' := by
    obtain ⟨y', s₁, used, does, -, ready, -⟩ :=
      use_spec point.next h covered spare source point.mov_source
    refine ⟨(s₁.invalidate (.mem .basePointer off)).emit (.mov x y'),
      by simp [used, bind, Except.bind], ?_⟩
    exact .after_does does
      (advances_store point does.shape target inFrame (does.evolves.stands stands) ready allowed)
  unfold State.moveToMemory
  rw [h.role source, roleOf]
  by_cases abstract : (E.pool.get y₀).isAbstract = true
  · obtain ⟨reg, y', s₁, resolved, does, -, settled, get, held, pinned⟩ :=
      resolve_spec point.next h covered spare source abstract (point.mov_source abstract)
    rw [if_pos abstract]
    simp only [resolved, bind, Except.bind, pure, Except.pure]
    split
    · exact ⟨_, rfl, .after_does does (advances_defer point does.shape target inFrame abstract held)⟩
    · have ready : Ready s₁ y' (E.pool.get y₀) :=
        ⟨settled, .inl ⟨reg, get, held, (pinned reg).mpr (.inr rfl)⟩⟩
      exact ⟨_, rfl, .after_does does
        (advances_store point does.shape target inFrame (does.evolves.stands stands) ready allowed)⟩
  · rw [if_neg abstract]
    split
    · exact absurd ‹_› (by split <;> simp)
    · exact stored
    · exact stored

end ToMemory

/-! ## To another place -/

/-- What a write does to a place that allocation does not keep track of. -/
theorem Holds.writeOther (shape : Shape E s) (h : Holds E before s u t) {o : Operand} {w : Word}
    {u' : View} (allowed : Allowed E.base o) (concrete : o.isAbstract = false)
    (elsewhere : o.isMemory = false) (notBase : o ≠ .reg .basePointer)
    (write : u.write E.original o w = .ok u') :
    ∃ t', t.write E.model o w = .ok t' ∧ Holds E before s u' t' := by
  rcases write_ok write with ⟨k, rfl, rfl⟩ | ⟨r, rfl, rfl⟩ | ⟨rfl, rfl⟩ | ⟨rfl, rfl⟩ |
    ⟨b, off, a, rfl, -, -, rfl⟩
  · cases concrete
  · obtain rfl : r = 0 := allowed
    exact ⟨_, write_general (by omega) w, h.setResult shape w⟩
  · exact ⟨_, rfl, h.setStackPointer shape w⟩
  · exact absurd rfl notBase
  · cases elsewhere

/-- Allocation handles every admissible move. -/
theorem move_spec (point : Point E index (.mov x₀ y₀) before after)
    (ok : Admissible E.pool E.base (.mov x₀ y₀)) (h : Shape E s) (covered : Covered before s)
    (unused : ∀ r, s.pinned.contains r = false) (stands : Stands s x (E.pool.get x₀))
    (source : Stands s y (E.pool.get y₀)) :
    ∃ s', s.move E.context index x y = .ok s' ∧ Advances E before after (.mov x₀ y₀) s s' := by
  have allowedTarget := ok.allowed (x := x₀) (by simp [Instruction.operands])
  have allowed := ok.allowed (x := y₀) (by simp [Instruction.operands])
  unfold State.move
  rw [h.role stands, roleOf]
  by_cases abstract : (E.pool.get x₀).isAbstract = true
  · rw [if_pos abstract]
    obtain ⟨k, target⟩ | ⟨off, target, -⟩ := isKey_of_abstract E.base abstract
    · rw [target] at stands ⊢
      exact moveToRegister_spec point h covered unused target stands source allowed
    · rw [target] at abstract
      cases abstract
  · rw [if_neg abstract]
    rw [Bool.not_eq_true] at abstract
    by_cases memory : (E.pool.get x₀).isMemory = true
    · obtain ⟨off, target, inFrame⟩ := (allowedTarget.isKey (.inr memory)).eq_mem memory
      rw [if_pos memory]
      rw [target] at stands ⊢
      exact moveToMemory_spec point h covered unused target inFrame stands source allowed
    · rw [if_neg memory]
      rw [Bool.not_eq_true] at memory
      have spare : Spare E.context s := spare_of_unused E.enough unused
      obtain ⟨y', s₁, used, does, -, ready, -⟩ :=
        use_spec point.next h covered spare source point.mov_source
      obtain ⟨settled, get⟩ := does.shape.concrete (does.evolves.stands stands) abstract
      have others : ∀ o, o.isAbstract = true → after o → before o := by
        intro o isAbstract wanted
        refine point.mov_others wanted ?_
        rintro rfl
        rw [abstract] at isAbstract
        cases isAbstract
      refine ⟨s₁.emit (.mov x y'), by simp [used, bind, Except.bind, pure, Except.pure],
        .after_does does (.emit rfl does.shape (.refl s₁) (by simp) rfl ?_ ?_ ?_
          fun _ _ overflow => absurd overflow mov_ne_stackOverflow)⟩
      · intro z use
        simp only [Instruction.operands, List.mem_cons, List.not_mem_nil, or_false] at use
        rcases use with rfl | rfl
        · exact settled
        · exact ready.1
      · intro covered key isAbstract wanted absent
        exact covered isAbstract (others key isAbstract wanted) absent
      · intro u t u' _ room _ holds step
        obtain ⟨w, read, write⟩ := execute_mov_ok step
        obtain ⟨t', written, holds'⟩ := (holds.mono does.shape others).writeOther does.shape
          allowedTarget abstract memory (ok.keepsBase rfl rfl) write
        refine ⟨t', ?_, holds'⟩
        have read' := ready.read does.shape room holds allowed point.mov_source read
        simp only [View.execute, get, read', bind, Except.bind]
        exact written

end Moves

end Codegen86.Allocation
