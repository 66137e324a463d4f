import Codegen86.Proofs.Allocation.MoveInstruction
/-!
# Every instruction

`instruction_spec`: an admissible instruction that goes on to the next one gets its registers, and what
is given out for it does what it did.
-/

set_option autoImplicit false

namespace Codegen86.Allocation

open Target Symbolic

variable {E : Setting} {before after : Operand → Prop} {s s' : State} {u t : View} {index : Nat}

/-! ## Arithmetic -/

section Arithmetic

variable {op : Arith} {x₀ y₀ x y : OperandRef}

theorem Point.arith_others (point : Point E index (.arith op x₀ y₀) before after) {o : Operand}
    (wanted : after o) : before o := point.passes wanted nofun

theorem Point.arith_source (point : Point E index (.arith op x₀ y₀) before after)
    (abstract : (E.pool.get y₀).isAbstract = true) : before (E.pool.get y₀) :=
  point.reads (List.mem_append_right _ (abstract_mem_operandReads abstract))

theorem Point.arith_target (point : Point E index (.arith op x₀ y₀) before after)
    (abstract : (E.pool.get x₀).isAbstract = true) : before (E.pool.get x₀) :=
  point.reads (List.mem_append_left _ (abstract_mem_operandReads abstract))

theorem arith_ne_stackOverflow {M : Model} {p : Pool} {v : View} :
    v.execute M p (.arith op x y) ≠ .error .stackOverflow :=
  execute_ne_stackOverflow nofun nofun

theorem settled_pair {s : State} (first : Settled s x) (second : Settled s y) :
    ∀ z ∈ [x, y], Settled s z := by
  intro z use
  simp only [List.mem_cons, List.not_mem_nil, or_false] at use
  rcases use with rfl | rfl
  · exact first
  · exact second

/-- A register is updated in place, once its value is alone there. -/
theorem advances_update (point : Point E index (.arith op x₀ y₀) before after) (h : Shape E s)
    {k reg : Nat} (target : E.pool.get x₀ = .reg (.abstract k))
    (settled : Settled s x) (get : s.pool.get x = .reg (.physical reg))
    (held : s.register? (.reg (.abstract k)) = some reg) (ready : Ready s y (E.pool.get y₀))
    (allowed : Allowed E.base (E.pool.get y₀)) :
    Advances E before after (.arith op x₀ y₀) s
      ((s.separate E.context index reg (.reg (.abstract k))).emit (.arith op x y)) := by
  -- what shares the register counts only as far as it is live afterwards
  let kept : Operand → Prop := fun o =>
    before o ∧ (s.register? o = some reg → o = .reg (.abstract k) ∨ after o)
  have few := (h.reg_le held).2
  obtain ⟨does, owner, alone, elsewhere, words⟩ := separate_spec (L := kept) index h held
    (fun key other there _ dies wanted => by
      rcases wanted.2 there with same | L
      · exact other same
      · rw [(point.lasts key).mpr L] at dies
        cases dies)
  have before_target : before (.reg (.abstract k)) := target ▸ point.arith_target (by rw [target]; rfl)
  obtain ⟨settled', same⟩ := does.evolves.settledAt settled
  obtain ⟨settledSource, sameSource⟩ := does.evolves.settledAt ready.1
  have given := evolves_emit (i := .arith op x y) (settled_pair settled' settledSource)
  refine ⟨does.shape.emit _, does.evolves.trans given, nofun, ?_, ?_, ?_⟩
  · intro covered key abstract wanted absent
    have absent : (s.separate E.context index reg (.reg (.abstract k))).register? key = none := absent
    have covered' : Covered kept s := fun abstract wanted absent => covered abstract wanted.1 absent
    exact does.covers covered' abstract ⟨point.arith_others wanted, fun _ => .inr wanted⟩ absent
  · intro u t u' fits room _ holds step
    obtain ⟨source, old, w, readSource, readTarget, eval, write⟩ := execute_arith_ok step
    rw [target] at write readTarget
    obtain rfl : { u with locals := put u.locals k w } = u' := Except.ok.inj write
    have fewer : Holds E kept s u t := holds.mono h fun _ _ wanted => wanted.1
    obtain ⟨t₁, emits, holds₁⟩ := does.simulates fits room fewer
    have target₁ : t₁.general reg = old := by
      rw [holds₁.held owner (.inr ⟨before_target, fun _ => .inl rfl⟩)]
      exact value_of_read (E := E) (isKey_of_abstract _ rfl) readTarget
    have source₁ : t₁.read E.model (s.pool.get y) = .ok source := by
      rcases ready.2 with ⟨r, place, there, -⟩ | ⟨place, concrete, absent⟩
      · rw [place, read_general (h.reg_le there).2]
        have isKey := h.isKey there
        have counts : (E.pool.get y₀).isMemory = true ∨ before (E.pool.get y₀) := by
          rcases isKey.mem_or_abstract with ⟨memory, -⟩ | ⟨-, abstract⟩
          · exact .inl memory
          · exact .inr (point.arith_source abstract)
        by_cases shared : r = reg
        · -- the source's value is the target's, which is still in the register
          rw [shared] at there ⊢
          rw [target₁, ← value_of_read (E := E) (isKey_of_abstract _ rfl) readTarget,
            ← holds.held held (.inr before_target), holds.held there counts,
            value_of_read (E := E) isKey readSource]
        · rw [holds₁.held (elsewhere _ r shared there), value_of_read (E := E) isKey readSource]
          refine counts.imp_right fun wanted => ⟨wanted, fun here => ?_⟩
          rw [there] at here
          cases here
          exact absurd rfl shared
      · have ready₁ : Ready (s.separate E.context index reg (.reg (.abstract k))) y (E.pool.get y₀) := by
          refine ⟨settledSource, .inr ⟨sameSource.trans place, concrete, fun memory => ?_⟩⟩
          cases there : (s.separate E.context index reg (.reg (.abstract k))).register? (E.pool.get y₀) with
          | none => rfl
          | some r =>
            have := absent memory
            rw [words _ r memory there] at this
            cases this
        rw [← sameSource]
        exact ready₁.read does.shape room holds₁ allowed (by rw [concrete]; exact nofun) readSource
    refine ⟨{ t₁ with general := put t₁.general reg w }, emits.trans given
      ⟨[.arith op x y], by simp [State.emit], ?_, ?_⟩, ?_⟩
    · intro i mem
      obtain rfl := List.mem_singleton.mp mem
      exact ⟨rfl, settled_pair settled' settledSource⟩
    · show View.executeAll E.model (s.separate E.context index reg _).pool t₁ _ = _
      simp only [View.executeAll, View.execute, same, sameSource, get, source₁, read_general few,
        target₁, eval, bind, Except.bind]
      rw [write_general few w]
    · refine (holds₁.setLocal w owner (h.reg_le held).1 alone fun o wanted _ => ?_).of_eq rfl rfl rfl
      exact ⟨point.arith_others wanted, fun _ => .inr wanted⟩
  · intro u t _ _ _ overflow
    exact absurd overflow arith_ne_stackOverflow

/-- A word of memory is updated in place, once no register is ahead of it. -/
theorem advances_updateWord (point : Point E index (.arith op x₀ y₀) before after) (h : Shape E s)
    {off : Word} (target : E.pool.get x₀ = .mem .basePointer off)
    (inFrame : -(E.base : Int) ≤ off.toInt) (stands : Stands s x (.mem .basePointer off))
    (ready : Ready s y (E.pool.get y₀)) (allowed : Allowed E.base (E.pool.get y₀))
    (clean : .mem .basePointer off ∉ s.dirty) (s' : State)
    (registers : ∀ o, s'.register? o = if o = .mem .basePointer off then none else s.register? o)
    (shape : Shape E s') (evolves : Evolves s s') (dirty : s'.dirty = s.dirty)
    (slots : s'.slots = s.slots) (out : s'.out = s.out) :
    Advances E before after (.arith op x₀ y₀) s (s'.emit (.arith op x y)) := by
  obtain ⟨settled, get⟩ := h.concrete stands rfl
  obtain ⟨settled', same⟩ := evolves.settledAt settled
  obtain ⟨settledSource, sameSource⟩ := evolves.settledAt ready.1
  have unbound : ∀ {o : Operand}, o.isAbstract = true → s'.register? o = s.register? o := by
    intro o abstract
    rw [registers, if_neg]
    rintro rfl
    cases abstract
  refine .emit out shape evolves nofun rfl (settled_pair settled' settledSource) ?_ ?_
    fun _ _ overflow => absurd overflow arith_ne_stackOverflow
  · intro covered key abstract wanted absent
    rw [unbound abstract] at absent
    rw [slots]
    exact covered abstract (point.arith_others wanted) absent
  · intro u t u' fits room _ holds step
    obtain ⟨source, old, w, readSource, readTarget, eval, write⟩ := execute_arith_ok step
    rw [target] at write readTarget
    obtain ⟨valid, rfl⟩ := write_frame_ok write
    have source' := ready.read h room holds allowed point.arith_source readSource
    have target' : t.read E.model (.mem .basePointer off) = .ok old := by
      rw [read_frame (M := E.model) holds.basePointer valid, ← readTarget,
        read_frame (M := E.original) rfl valid]
      congr 1
      refine holds.memory (room.frame inFrame valid) (fun spill => ne_spill inFrame spill rfl) ?_
      intro other isDirty here
      rw [← Word.add_left_cancel here] at isDirty
      exact clean isDirty
    refine ⟨{ t with memory := put t.memory (u.basePointer + off) w }, ?_, ?_⟩
    · simp only [View.execute, same, sameSource, get, source', target', eval, bind, Except.bind]
      exact write_frame holds.basePointer valid w
    · refine (holds.mono h fun _ _ => point.arith_others).overwrite h (slots ▸ fits) inFrame w ?_ ?_ ?_ slots
      · intro key reg held
        rw [registers] at held
        split at held
        · cases held
        · rename_i other
          exact ⟨other, held⟩
      · intro key abstract absent
        rw [← unbound abstract]
        exact absent
      · intro key
        rw [dirty]
        refine ⟨fun mem => ⟨mem, ?_⟩, fun mem => mem.1⟩
        rintro rfl
        exact clean mem

/-- Allocation handles every admissible arithmetic instruction. -/
theorem arith_spec (point : Point E index (.arith op x₀ y₀) before after)
    (ok : Admissible E.pool E.base (.arith op x₀ y₀)) (h : Shape E s) (covered : Covered before s)
    (unused : ∀ r, s.pinned.contains r = false) (stands : Stands s x (E.pool.get x₀))
    (source : Stands s y (E.pool.get y₀)) :
    ∃ s', s.arith E.context index op x y = .ok s' ∧
      Advances E before after (.arith op x₀ y₀) s s' := by
  have allowedTarget := ok.allowed (x := x₀) (by simp [Instruction.operands])
  have allowed := ok.allowed (x := y₀) (by simp [Instruction.operands])
  obtain ⟨y', s₁, used, does, -, ready, busy, pinned⟩ :=
    use_spec point.next h covered (spare_of_unused E.enough unused) source point.arith_source
  have stands₁ := does.evolves.stands stands
  unfold State.arith
  rw [h.role stands, roleOf]
  by_cases abstract : (E.pool.get x₀).isAbstract = true
  · obtain ⟨k, target⟩ | ⟨off, target, -⟩ := isKey_of_abstract E.base abstract
    · have spare : Spare E.context s₁ := spare_of_one E.enough busy fun r used => by
        rcases pinned r used with before | same
        · rw [unused] at before
          cases before
        · exact same
      obtain ⟨reg, x', s₂, resolved, does', keeps, settled, get, held, -⟩ := resolve_spec point.next
        does.shape (does.covers covered) spare stands₁ abstract (point.arith_target abstract)
      rw [if_pos abstract]
      rw [target] at resolved held
      refine ⟨(s₂.separate E.context index reg (.reg (.abstract k))).emit (.arith op x' y'), ?_, ?_⟩
      · simp [used, target, resolved, bind, Except.bind, pure, Except.pure]
      · exact .after_does (does.trans does') (advances_update point does'.shape target settled get held
          (ready.keep does'.evolves keeps) allowed)
    · rw [target] at abstract
      cases abstract
  · rw [if_neg abstract]
    rw [Bool.not_eq_true] at abstract
    by_cases memory : (E.pool.get x₀).isMemory = true
    · obtain ⟨off, target, inFrame⟩ := (allowedTarget.isKey (.inr memory)).eq_mem memory
      rw [if_pos memory]
      rw [target] at stands₁ ⊢
      simp only [used, bind, Except.bind, pure, Except.pure]
      refine ⟨_, rfl, .after_does does ?_⟩
      cases held : s₁.register? (.mem .basePointer off) with
      | none =>
        have clean : .mem .basePointer off ∉ s₁.dirty := fun mem => by
          obtain ⟨-, reg, there⟩ := does.shape.dirty mem
          rw [held] at there
          cases there
        refine advances_updateWord point does.shape target inFrame stands₁ ready allowed clean s₁ ?_
          does.shape (.refl s₁) rfl rfl rfl
        intro o
        split
        · rename_i same
          rw [same, held]
        · rfl
      | some reg =>
        have cleaned := does_clean (L := before) does.shape held
        obtain ⟨residents, slots, pins⟩ := clean_residents s₁ (.mem .basePointer off) reg
        have registers : ∀ o, (s₁.clean (.mem .basePointer off) reg).register? o = s₁.register? o :=
          fun o => by rw [State.register?, residents, State.register?]
        have keeps : Keeps s₁ (s₁.clean (.mem .basePointer off) reg) :=
          ⟨fun held _ => (registers _).trans held, fun used => pins ▸ used,
            fun _ held => (registers _).symm.trans held⟩
        have clean := not_dirty_clean s₁ (.mem .basePointer off) reg
        refine .after_does cleaned (advances_updateWord point cleaned.shape target inFrame
          (cleaned.evolves.stands stands₁) (ready.keep cleaned.evolves keeps) allowed clean _ ?_
          (cleaned.shape.unbind clean) (evolves_of_eq rfl rfl rfl rfl) rfl rfl rfl)
        exact fun o => register?_unbind _ _ _
    · rw [if_neg memory]
      rw [Bool.not_eq_true] at memory
      obtain ⟨settled, get⟩ := does.shape.concrete stands₁ abstract
      refine ⟨s₁.emit (.arith op x y'), by simp [used, bind, Except.bind, pure, Except.pure],
        .after_does does (.emit rfl does.shape (.refl s₁) (by simp) rfl (settled_pair settled ready.1) ?_ ?_
          fun _ _ overflow => absurd overflow arith_ne_stackOverflow)⟩
      · intro covered key isAbstract wanted absent
        exact covered isAbstract (point.arith_others wanted) absent
      · intro u t u' _ room _ holds step
        obtain ⟨source, old, w, readSource, readTarget, eval, write⟩ := execute_arith_ok step
        obtain ⟨t', written, holds'⟩ := (holds.mono does.shape fun _ _ => point.arith_others).writeOther
          does.shape allowedTarget abstract memory (ok.keepsBase rfl rfl) write
        refine ⟨t', ?_, holds'⟩
        have target : Ready s₁ x (E.pool.get x₀) :=
          ⟨settled, .inr ⟨get, abstract, by rw [memory]; simp⟩⟩
        have source' := ready.read does.shape room holds allowed point.arith_source readSource
        have target' := target.read does.shape room holds allowedTarget (by rw [abstract]; simp)
          readTarget
        rw [get] at target'
        simp only [View.execute, get, source', target', eval, bind, Except.bind]
        exact written

end Arithmetic

/-! ## Comparisons and pushes -/

/-- Allocation handles every admissible comparison. -/
theorem cmp_spec {x₀ y₀ x y : OperandRef} (point : Point E index (.cmp x₀ y₀) before after)
    (ok : Admissible E.pool E.base (.cmp x₀ y₀)) (h : Shape E s) (covered : Covered before s)
    (unused : ∀ r, s.pinned.contains r = false) (stands : Stands s x (E.pool.get x₀))
    (source : Stands s y (E.pool.get y₀)) :
    ∃ x' y' s', s.use E.context index x = .ok (x', s') ∧
      ∃ s'', s'.use E.context index y = .ok (y', s'') ∧
        Advances E before after (.cmp x₀ y₀) s (s''.emit (.cmp x' y')) := by
  have allowedLeft := ok.allowed (x := x₀) (by simp [Instruction.operands])
  have allowedRight := ok.allowed (x := y₀) (by simp [Instruction.operands])
  have left : (E.pool.get x₀).isAbstract = true → before (E.pool.get x₀) := fun abstract =>
    point.reads (List.mem_append_left _ (abstract_mem_operandReads abstract))
  have right : (E.pool.get y₀).isAbstract = true → before (E.pool.get y₀) := fun abstract =>
    point.reads (List.mem_append_right _ (abstract_mem_operandReads abstract))
  have others : ∀ o, after o → before o := fun _ wanted => point.passes wanted (by simp [Effects.of])
  obtain ⟨x', s₁, used, does, -, ready, busy, pinned⟩ :=
    use_spec point.next h covered (spare_of_unused E.enough unused) stands left
  have spare : Spare E.context s₁ := spare_of_one E.enough busy fun r used => by
    rcases pinned r used with before | same
    · rw [unused] at before
      cases before
    · exact same
  obtain ⟨y', s₂, used', does', keeps, ready', -⟩ :=
    use_spec point.next does.shape (does.covers covered) spare (does.evolves.stands source) right
  have ready := ready.keep does'.evolves keeps
  refine ⟨x', y', s₁, used, s₂, used', .after_does (does.trans does')
    (.emit rfl does'.shape (.refl s₂) (fun _ => rfl) rfl (settled_pair ready.1 ready'.1) ?_ ?_
      fun _ _ overflow => absurd overflow (execute_ne_stackOverflow (by simp) (by simp)))⟩
  · intro covered key isAbstract wanted absent
    exact covered isAbstract (others key wanted) absent
  · intro u t u' _ room _ holds step
    obtain ⟨l, r, readRight, readLeft, rfl⟩ := execute_cmp_ok step
    have left' := ready.read does'.shape room holds allowedLeft left readLeft
    have right' := ready'.read does'.shape room holds allowedRight right readRight
    refine ⟨{ t with flags := compare l r }, ?_, ?_⟩
    · simp only [View.execute, left', right', bind, Except.bind, pure, Except.pure]
    · exact (holds.mono does'.shape fun key _ => others key).setFlags does'.shape _

/-- What a push comes to, with and without room on the stack. -/
theorem execute_push {M : Model} {p : Pool} {v : View} {x : OperandRef} :
    v.execute M p (.push x) =
      match v.read M (p.get x) with
      | .error cause => .error cause
      | .ok w =>
        if 0 < v.stackPointer ∧ M.valid (v.stackPointer - 1) = true then
          .ok (View.note { v with
            stackPointer := v.stackPointer - 1
            memory := put v.memory (v.stackPointer - 1) w } w)
        else .error .stackOverflow := by
  simp only [View.execute, View.push, bind, Except.bind, pure, Except.pure]
  cases v.read M (p.get x) with
  | error cause => rfl
  | ok w =>
    dsimp only
    by_cases free : 0 < v.stackPointer ∧ M.valid (v.stackPointer - 1) = true
    · rw [if_pos free, if_pos free]
    · rw [if_neg free, if_neg free]

/-- Allocation handles every admissible push, also where the stack overflows. -/
theorem push_spec {x₀ x : OperandRef} (point : Point E index (.push x₀) before after)
    (ok : Admissible E.pool E.base (.push x₀)) (h : Shape E s) (covered : Covered before s)
    (unused : ∀ r, s.pinned.contains r = false) (stands : Stands s x (E.pool.get x₀)) :
    ∃ x' s', s.use E.context index x = .ok (x', s') ∧
      Advances E before after (.push x₀) s (s'.emit (.push x')) := by
  have allowed := ok.allowed (x := x₀) (by simp [Instruction.operands])
  have wanted : (E.pool.get x₀).isAbstract = true → before (E.pool.get x₀) := fun abstract =>
    point.reads (abstract_mem_operandReads abstract)
  have others : ∀ o, after o → before o := fun _ wanted => point.passes wanted (by simp [Effects.of])
  obtain ⟨x', s₁, used, does, -, ready, -⟩ :=
    use_spec point.next h covered (spare_of_unused E.enough unused) stands wanted
  refine ⟨x', s₁, used, .after_does does (.emit rfl does.shape (.refl s₁) (fun _ => rfl) rfl ?_ ?_ ?_ ?_)⟩
  · intro z use
    obtain rfl := List.mem_singleton.mp use
    exact ready.1
  · intro covered key isAbstract wanted absent
    exact covered isAbstract (others key wanted) absent
  · intro u t u' fits room apart holds step
    rw [execute_push] at step
    split at step
    · cases step
    · rename_i w read
      have read' := ready.read does.shape room holds allowed wanted read
      split at step
      · rename_i free
        cases step
        refine ⟨View.note { t with
          stackPointer := u.stackPointer - 1
          memory := put t.memory (u.stackPointer - 1) w } w, ?_, ?_⟩
        · rw [execute_push, read', holds.stackPointer]
          exact if_pos free
        · exact (holds.mono does.shape fun key _ => others key).push does.shape fits free.1 apart w
      · cases step
  · intro u t room holds overflow
    rw [execute_push] at overflow
    split at overflow
    · rename_i cause failed
      cases overflow
      exact absurd failed (read_ne_stackOverflow _)
    · rename_i w read
      have read' := ready.read does.shape room holds allowed wanted read
      split at overflow
      · cases overflow
      · rename_i full
        rw [execute_push, read', holds.stackPointer]
        exact if_neg full

/-! ## All together -/

theorem Shape.unpin (h : Shape E s) : Shape E { s with pinned := .empty } :=
  ⟨h.residents, h.isKey, h.dirty, h.slots, h.frame, h.poolSize, h.keyed, h.unkeyed, h.original,
    h.retarget⟩

theorem does_unpin (h : Shape E s) {L : Operand → Prop} :
    Does E L s { s with pinned := .empty } :=
  ⟨h.unpin, evolves_of_eq rfl rfl rfl rfl, fun mem => mem, fun covered => Covered.of_eq covered rfl rfl,
    fun _ _ holds => ⟨_, .nothing rfl, holds.of_eq rfl rfl rfl⟩⟩

/-- Allocation handles every admissible instruction that goes on to the next one. -/
theorem instruction_spec {i : Instruction} (point : Point E index i before after)
    (ok : Admissible E.pool E.base i) (plain : i.isPlain = true) (h : Shape E s)
    (covered : Covered before s) :
    ∃ s', s.instruction E.context index i = .ok s' ∧ Advances E before after i s s' := by
  have unpins := does_unpin (L := before) h
  have unused : ∀ r, ({ s with pinned := .empty } : State).pinned.contains r = false :=
    RegisterSet.contains_empty
  unfold State.instruction
  dsimp only
  generalize ({ s with pinned := .empty } : State) = s₀ at unpins unused ⊢
  have stands : ∀ {x}, x ∈ i.operands → Stands s₀ (s₀.current x) (E.pool.get x) := fun use =>
    unpins.shape.current (unpins.shape.stands (ok.inside use))
  cases i with
  | nop =>
    refine ⟨s₀.emit .nop, rfl, .after_does unpins
      (.emit rfl unpins.shape (.refl _) (fun _ => rfl) rfl (by simp [Instruction.operands]) ?_ ?_
        fun _ _ overflow => absurd overflow (execute_ne_stackOverflow (by simp) (by simp)))⟩
    · intro covered key isAbstract wanted absent
      exact covered isAbstract (point.passes wanted (by simp [Effects.of])) absent
    · intro u t u' _ _ _ holds step
      cases step
      exact ⟨t, rfl, holds.mono unpins.shape fun _ _ wanted => point.passes wanted (by simp [Effects.of])⟩
  | push x =>
    obtain ⟨x', s', used, advances⟩ := push_spec point ok unpins.shape (unpins.covers covered) unused
      (stands List.mem_cons_self)
    refine ⟨s'.emit (.push x'), ?_, .after_does unpins advances⟩
    simp only [Instruction.mapRefs, used, bind, Except.bind, pure, Except.pure]
  | pop x => exact absurd rfl (ok.noPop x)
  | mov x y =>
    obtain ⟨s', moved, advances⟩ := move_spec point ok unpins.shape (unpins.covers covered) unused
      (stands List.mem_cons_self) (stands (List.mem_cons_of_mem _ List.mem_cons_self))
    exact ⟨s', moved, .after_does unpins advances⟩
  | arith op x y =>
    obtain ⟨s', done, advances⟩ := arith_spec point ok unpins.shape (unpins.covers covered) unused
      (stands List.mem_cons_self) (stands (List.mem_cons_of_mem _ List.mem_cons_self))
    exact ⟨s', done, .after_does unpins advances⟩
  | cmp x y =>
    obtain ⟨x', y', s', used, s'', used', advances⟩ := cmp_spec point ok unpins.shape
      (unpins.covers covered) unused (stands List.mem_cons_self)
      (stands (List.mem_cons_of_mem _ List.mem_cons_self))
    refine ⟨s''.emit (.cmp x' y'), ?_, .after_does unpins advances⟩
    simp only [Instruction.mapRefs, used, used', bind, Except.bind, pure, Except.pure]
  | _ => cases plain

end Codegen86.Allocation
