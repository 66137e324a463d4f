import Codegen86.Proofs.Allocation.Instructions
/-!
# Running an allocated block

`Realizes E W C C' code s s'` says that what is given out from `s` to `s'` runs as `code` does: it ends in
every way that `code` may end in, in states that `Agree`.  The calls of the two runs are related by
`Calling`.  `instructions_spec` shows that allocating the code of a block succeeds and realizes it, by
induction on the code that is left: first up to the closing group, where dirty words are stored, then
through it.
-/

set_option autoImplicit false

namespace Codegen86.Allocation

open Target Symbolic

variable {E : Setting} {L : Operand → Prop} {s s' s'' : State} {u t : View} {index : Nat}

/-! ## Storing all dirty words -/

/-- The dirty words can be stored one after another, in any order. -/
theorem does_writeBacks (keys : List Operand) (h : Shape E { s with dirty := keys })
    (clean : s.dirty = []) :
    let f := fun (s : State) key =>
      match s.register? key with
      | some register => s.writeBack key register
      | none => s
    Does E L { s with dirty := keys } (keys.foldl f s) ∧ (keys.foldl f s).dirty = [] ∧
      (keys.foldl f s).residents = s.residents := by
  induction keys generalizing s with
  | nil =>
    have same : ({ s with dirty := [] } : State) = s := by rw [← clean]
    refine ⟨?_, clean, rfl⟩
    rw [same] at h ⊢
    exact .refl h
  | cons key rest ih =>
    obtain ⟨memory, reg, held⟩ := h.dirty List.mem_cons_self
    have held : s.register? key = some reg := held
    obtain ⟨off, rfl, inFrame⟩ := (h.isKey held).eq_mem memory
    have fewer : Shape E { s with dirty := rest } :=
      ⟨h.residents, h.isKey, fun mem => h.dirty (List.mem_cons_of_mem _ mem), h.slots, h.frame,
        h.poolSize, h.keyed, h.unkeyed, h.original, h.retarget⟩
    have stored : Shape E { s.writeBack (.mem .basePointer off) reg with dirty := rest } :=
      fewer.emitMove _ _
    have first : Does E L { s with dirty := .mem .basePointer off :: rest }
        { s.writeBack (.mem .basePointer off) reg with dirty := rest } := by
      refine ⟨stored, ?_, fun mem => List.mem_cons_of_mem _ mem, fun covered => covered.of_eq rfl rfl, ?_⟩
      · exact (evolves_of_eq (s := { s with dirty := .mem .basePointer off :: rest })
          (r := { s with dirty := rest }) rfl rfl rfl rfl).trans (evolves_emitMove _ ⟨rfl, rfl⟩)
      · intro u t fits room holds
        have written := holds.writeBack h fits List.mem_cons_self held
        refine ⟨{ t with memory := put t.memory (u.basePointer + off) (t.general reg) }, ?_, ?_⟩
        · exact emits_emitMove (E := E) { s with dirty := rest } ⟨rfl, rfl⟩
            (read_general (h.reg_le held).2)
            (write_frame holds.basePointer (holds.dirtyValid List.mem_cons_self) (t.general reg))
        · refine ⟨written.result, written.stackPointer, written.basePointer, written.flags,
            written.pushed, written.held, written.saved, ?_, fun mem =>
              holds.dirtyValid (List.mem_cons_of_mem _ mem)⟩
          intro a tracked outside elsewhere
          refine written.memory tracked outside fun off' mem => ?_
          obtain ⟨mem, other⟩ := List.mem_filter.mp mem
          rcases List.mem_cons.mp mem with same | mem
          · rw [same] at other
            simp at other
          · exact elsewhere off' mem
    obtain ⟨does, done, residents⟩ := ih stored clean
    simp only [List.foldl_cons, held]
    exact ⟨first.trans does, done, residents⟩

theorem does_writeBackAll (h : Shape E s) :
    Does E L s s.writeBackAll ∧ s.writeBackAll.dirty = [] ∧
      s.writeBackAll.residents = s.residents := by
  have same : ∀ {key}, key ∈ Residents.sorted s.dirty ↔ key ∈ s.dirty := List.mem_mergeSort
  have sorted : Shape E { s with dirty := Residents.sorted s.dirty } :=
    ⟨h.residents, h.isKey, fun mem => h.dirty (same.mp mem), h.slots, h.frame, h.poolSize, h.keyed,
      h.unkeyed, h.original, h.retarget⟩
  have sorts : Does E L s { s with dirty := Residents.sorted s.dirty } := by
    refine ⟨sorted, evolves_of_eq rfl rfl rfl rfl, same.mp, fun covered => covered.of_eq rfl rfl,
      fun {u t} _ _ holds => ⟨t, .nothing rfl, ?_⟩⟩
    exact ⟨holds.result, holds.stackPointer, holds.basePointer, holds.flags, holds.pushed, holds.held,
      holds.saved, fun tracked outside elsewhere =>
        holds.memory tracked outside fun off mem => elsewhere off (same.mpr mem),
      fun mem => holds.dirtyValid (same.mp mem)⟩
  obtain ⟨does, done, residents⟩ :=
    does_writeBacks (L := L) (s := { s with dirty := [] }) (Residents.sorted s.dirty) sorted rfl
  exact ⟨sorts.trans does, done, residents⟩

/-! ## Two runs that agree -/

/-- What both runs have at the calls and the exits of a block. -/
structure Agree (E : Setting) (u t : View) : Prop where
  result : t.general 0 = u.general 0
  stackPointer : t.stackPointer = u.stackPointer
  basePointer : t.basePointer = u.basePointer
  flags : t.flags = u.flags
  pushed : t.pushed = u.pushed
  memory : ∀ {a}, E.tracked a → ¬ IsSpill E u.basePointer a → t.memory a = u.memory a

theorem Holds.agree (h : Holds E L s u t) (clean : s.dirty = []) : Agree E u t where
  result := h.result
  stackPointer := h.stackPointer
  basePointer := h.basePointer
  flags := h.flags
  pushed := h.pushed
  memory tracked outside := h.memory tracked outside (by simp [clean])

/-- Where nothing is in a register, states that agree and have the same slots hold the same. -/
theorem Agree.holds {u' t' : View} (h : Agree E u' t') (before : Holds E L s u t)
    (shape : Shape E s) (fits : E.base + s.slots.length ≤ E.cap)
    (empty : ∀ key, s.register? key = none) (base : u'.basePointer = u.basePointer)
    (locals : u'.locals = u.locals)
    (slots : ∀ a, IsSpill E u.basePointer a → t'.memory a = t.memory a) : Holds E L s u' t' where
  result := h.result
  stackPointer := h.stackPointer
  basePointer := h.basePointer
  flags := h.flags
  pushed := h.pushed
  held found := by
    rw [empty] at found
    cases found
  saved {key} abstract wanted absent := by
    obtain ⟨off, found, safe⟩ := before.saved abstract wanted absent
    obtain ⟨j, above, below, rfl⟩ := shape.slot_place fits found
    refine ⟨-Word.ofNat j, found, ?_⟩
    rw [base, slots _ ⟨j, above, below, rfl⟩, safe]
    obtain ⟨k, rfl⟩ | ⟨off, rfl, -⟩ := isKey_of_abstract E.base abstract
    · simp only [value, locals]
    · cases abstract
  memory tracked outside _ := h.memory tracked outside
  dirtyValid mem := by
    obtain ⟨-, reg, held⟩ := shape.dirty mem
    rw [empty] at held
    cases held

/-- What is asked of the calls: a call of the allocated code comes to what the call of the original code
may come to, and neither touches the frame or the abstract registers. -/
structure Calling (E : Setting) (W : View → Prop) (C C' : CallSpec) : Prop where
  apart : ∀ {v}, W v → v.stackPointer.toInt + E.cap ≤ v.basePointer.toInt
  same : ∀ {k l u t post}, W u → Agree E u t → C k l u = some post →
    ∃ post', C' k l t = some post' ∧ ∀ r', post' r' →
      match r' with
      | .ok t' => ∃ u', post (.ok u') ∧ Agree E u' t' ∧ u'.basePointer = u.basePointer ∧
          u'.locals = u.locals ∧ ∀ a, IsSpill E u.basePointer a → t'.memory a = t.memory a
      | .error c => post (.error c)

/-- Ending as the original code may end. -/
def Also (E : Setting) (Q : Exit → View → Prop) (e : Exit) (t : View) : Prop :=
  ∃ u, Q e u ∧ ((∃ c, e = .trap c) ∨ Agree E u t)

/-- What is given out from `s` to `s'` runs as `code` does. -/
def Realizes (E : Setting) (W : View → Prop) (C C' : CallSpec) (code : List Instruction)
    (s s' : State) : Prop :=
  ∀ {k : Nat} {u t : View} {Q : Exit → View → Prop}, E.base + s'.slots.length ≤ E.cap →
    Room E u.basePointer → (∀ c v, Q (.trap c) v → c = .stackOverflow) →
    Holds E (Live E.pool code) s u t →
    Runs { model := E.original, pool := E.pool, within := W, calls := C } k code u Q →
    ∃ given, s'.out.toList = s.out.toList ++ given ∧
      Runs { model := E.model, pool := s'.pool, calls := C' } k given t (Also E Q)

namespace Realizes

variable {W : View → Prop} {C C' : CallSpec} {rest : List Instruction}

/-- What comes before is run first. -/
theorem after_emits {k : Nat} {t₁ : View} {R : Exit → View → Prop}
    (evolves : Evolves s' s'') (emits : Emits E s s' t t₁)
    (then_ : ∃ given, s''.out.toList = s'.out.toList ++ given ∧
      Runs { model := E.model, pool := s''.pool, calls := C' } k given t₁ R) :
    ∃ given, s''.out.toList = s.out.toList ++ given ∧
      Runs { model := E.model, pool := s''.pool, calls := C' } k given t R := by
  obtain ⟨first, out, clean, run⟩ := emits
  obtain ⟨given, out', runs⟩ := then_
  refine ⟨first ++ given, by rw [out', out, List.append_assoc], ?_⟩
  refine Runs.executeAll (fun _ => trivial) (fun i mem => (clean i mem).1) ?_ runs
  rw [← run]
  exact View.executeAll_congr t fun i mem x use =>
    (evolves.settledAt ((clean i mem).2 x use)).2

theorem after_does (first : Does E (Live E.pool rest) s s') (evolves : Evolves s' s'')
    (h : Realizes E W C C' rest s' s'') : Realizes E W C C' rest s s'' := by
  intro k u t Q fits room only holds runs
  have shorter : s'.slots.length ≤ s''.slots.length := evolves.slots.length_le
  obtain ⟨t₁, emits, holds₁⟩ := first.simulates (by omega) room holds
  exact after_emits evolves emits (h fits room only holds₁ runs)

/-- An instruction that goes on to the next one, and then the rest. -/
theorem plain {i : Instruction} (calling : Calling E W C C') (ok : Admissible E.pool E.base i)
    (plain : i.isPlain = true) (step : Advances E (Live E.pool (i :: rest)) (Live E.pool rest) i s s')
    (evolves : Evolves s' s'') (h : Realizes E W C C' rest s' s'') :
    Realizes E W C C' (i :: rest) s s'' := by
  intro k u t Q fits room only holds runs
  have shorter : s'.slots.length ≤ s''.slots.length := evolves.slots.length_le
  obtain ⟨inside, next⟩ := (Runs.plain_iff plain).mp runs
  dsimp only at inside next
  cases done : u.execute E.original E.pool i with
  | ok u' =>
    rw [done] at next
    have base := execute_basePointer ok done
    obtain ⟨t', emits, holds'⟩ := step.simulates (by omega) room (calling.apart inside) holds done
    exact after_emits evolves emits (h fits (base ▸ room) only holds' next)
  | error c =>
    rw [done] at next
    obtain rfl := only c u next
    obtain ⟨code, out, clean, run⟩ := step.overflows (by omega) room holds done
    obtain ⟨more, out'⟩ := evolves.out
    refine ⟨code ++ more, by rw [← out', out, List.append_assoc], ?_⟩
    refine Runs.executeAll_error (fun _ => trivial) (fun i mem => (clean i mem).1) ?_ fun w =>
      ⟨u, next, .inl ⟨_, rfl⟩⟩
    rw [← run]
    exact View.executeAll_congr t fun i mem x use => (evolves.settledAt ((clean i mem).2 x use)).2

/-! ### Calls and transfers of control

The operand of the counterpart is a label, and so the same as the original one. -/

variable {x x' : OperandRef} {l : Label}

theorem call (calling : Calling E W C C') (shape : Shape E s)
    (label : E.pool.get x = .label l) (settled : Settled s x') (same : s.pool.get x' = .label l)
    (empty : ∀ key, s.register? key = none) (evolves : Evolves (s.emit (.call x')) s'')
    (h : Realizes E W C C' rest (s.emit (.call x')) s'') :
    Realizes E W C C' (.call x :: rest) s s'' := by
  intro k u t Q fits room only holds runs
  have shorter : s.slots.length ≤ s''.slots.length := evolves.slots.length_le
  obtain ⟨inside, l', post, label', spec, next⟩ := Runs.call_iff.mp runs
  dsimp only at inside label' spec next
  obtain rfl : l = l' := by
    rw [label] at label'
    cases label'
    rfl
  have clean : s.dirty = [] := List.eq_nil_iff_forall_not_mem.mpr fun key mem => by
    obtain ⟨-, reg, held⟩ := shape.dirty mem
    rw [empty] at held
    cases held
  obtain ⟨post', spec', outcomes⟩ := calling.same inside (holds.agree clean) spec
  have later : Realizes E W C C' rest (s.emit (.call x')) s'' := h
  have L : ∀ o, Live E.pool rest o → Live E.pool (.call x :: rest) o := fun o wanted =>
    live_cons.mpr (.inr ⟨wanted, by simp [Effects.of]⟩)
  obtain ⟨more, out⟩ := evolves.out
  have code : s''.out.toList = s.out.toList ++ (.call x' :: more) := by
    rw [← out]
    simp [State.emit]
  refine ⟨.call x' :: more, code, Runs.call_iff.mpr ⟨trivial, l, post', ?_, spec', fun r' possible => ?_⟩⟩
  · exact (evolves.settledAt (s := s.emit (.call x')) settled).2.trans same
  · have outcome := outcomes r' possible
    cases r' with
    | ok t' =>
      obtain ⟨u', allowed, agree, base, locals, slots⟩ := outcome
      have holds' : Holds E (Live E.pool rest) (s.emit (.call x')) u' t' :=
        ((agree.holds holds shape (by omega) empty base locals slots).mono shape
          fun o _ => L o).of_eq rfl rfl rfl
      obtain ⟨given, out', runs'⟩ := later fits (base ▸ room) only holds' (next _ allowed)
      obtain rfl : more = given := List.append_cancel_left (out.trans out')
      exact runs'
    | error c => exact ⟨u, next _ outcome, .inl ⟨c, rfl⟩⟩

theorem transfer {i i' : Instruction} (clean : s.dirty = []) (evolves : Evolves (s.emit i') s'')
    (leaves : ∀ {k : Nat} {u t : View} {Q : Exit → View → Prop}, Agree E u t →
      Runs { model := E.original, pool := E.pool, within := W, calls := C } k (i :: rest) u Q →
      ∀ more, Runs { model := E.model, pool := s''.pool, calls := C' } k (i' :: more) t (Also E Q)) :
    Realizes E W C C' (i :: rest) s s'' := by
  intro k u t Q _ _ _ holds runs
  obtain ⟨more, out⟩ := evolves.out
  refine ⟨i' :: more, ?_, leaves (holds.agree clean) runs more⟩
  rw [← out]
  simp [State.emit]

theorem ret (clean : s.dirty = []) (evolves : Evolves (s.emit .ret) s'') :
    Realizes E W C C' (.ret :: rest) s s'' :=
  transfer clean evolves fun agree runs _ =>
    Runs.ret_iff.mpr ⟨trivial, _, (Runs.ret_iff.mp runs).2, .inr agree⟩

theorem halt (clean : s.dirty = []) (evolves : Evolves (s.emit .halt) s'') :
    Realizes E W C C' (.halt :: rest) s s'' :=
  transfer clean evolves fun agree runs _ =>
    Runs.halt_iff.mpr ⟨trivial, _, (Runs.halt_iff.mp runs).2, .inr agree⟩

theorem jump (label : E.pool.get x = .label l) (settled : Settled s x')
    (same : s.pool.get x' = .label l) (clean : s.dirty = [])
    (evolves : Evolves (s.emit (.jump x')) s'') : Realizes E W C C' (.jump x :: rest) s s'' := by
  refine transfer clean evolves fun {k u t Q} agree runs more => ?_
  obtain ⟨-, l', label', q⟩ := Runs.jump_iff.mp runs
  obtain rfl : l = l' := by
    rw [label] at label'
    cases label'
    rfl
  refine Runs.jump_iff.mpr ⟨trivial, l, ?_, u, q, .inr agree⟩
  exact (evolves.settledAt (s := s.emit (.jump x')) settled).2.trans same

theorem jumpIf {c : Condition} (label : E.pool.get x = .label l) (settled : Settled s x')
    (same : s.pool.get x' = .label l) (clean : s.dirty = []) (shape : Shape E s)
    (evolves : Evolves (s.emit (.jumpIf c x')) s'')
    (h : Realizes E W C C' rest (s.emit (.jumpIf c x')) s'') :
    Realizes E W C C' (.jumpIf c x :: rest) s s'' := by
  intro k u t Q fits room only holds runs
  obtain ⟨-, l', label', next⟩ := Runs.jumpIf_iff.mp runs
  dsimp only at label' next
  obtain rfl : l = l' := by
    rw [label] at label'
    cases label'
    rfl
  have later : Realizes E W C C' rest (s.emit (.jumpIf c x')) s'' := h
  have L : ∀ o, Live E.pool rest o → Live E.pool (.jumpIf c x :: rest) o := fun o wanted =>
    live_cons.mpr (.inr ⟨wanted, nofun⟩)
  obtain ⟨more, out⟩ := evolves.out
  have code : s''.out.toList = s.out.toList ++ (.jumpIf c x' :: more) := by
    rw [← out]
    simp [State.emit]
  refine ⟨.jumpIf c x' :: more, code, Runs.jumpIf_iff.mpr ⟨trivial, l, ?_, ?_⟩⟩
  · exact (evolves.settledAt (s := s.emit (.jumpIf c x')) settled).2.trans same
  · rw [holds.flags]
    by_cases taken : c.holds u.flags = true
    · rw [if_pos taken] at next ⊢
      exact ⟨u, next, .inr (holds.agree clean)⟩
    · rw [if_neg taken] at next ⊢
      have holds' : Holds E (Live E.pool rest) (s.emit (.jumpIf c x')) u t :=
        (holds.mono shape fun o _ => L o).of_eq rfl rfl rfl
      obtain ⟨given, out', runs'⟩ := later fits room only holds' next
      obtain rfl : more = given := List.append_cancel_left (out.trans out')
      exact runs'

theorem nil (clean : s.dirty = []) : Realizes E W C C' [] s s := by
  intro k u t Q _ _ _ holds runs
  exact ⟨[], by simp, Runs.nil_iff.mpr ⟨trivial, u, (Runs.nil_iff.mp runs).2, .inr (holds.agree clean)⟩⟩

end Realizes

/-! ## One instruction of a block -/

section Steps

variable {W : View → Prop} {C C' : CallSpec} {first rest : List Instruction} {i : Instruction}
  {x : OperandRef}

theorem Shape.label (h : Shape E s) (ok : Admissible E.pool E.base i)
    (destination : i.destination? = some x) (use : x ∈ i.operands) :
    ∃ l, E.pool.get x = .label l ∧ Settled s (s.current x) ∧ s.pool.get (s.current x) = .label l := by
  obtain ⟨l, label⟩ := ok.label destination
  have stands := h.current (h.stands (ok.inside use))
  rw [label] at stands
  exact ⟨l, label, h.concrete stands rfl⟩

/-- What handling an instruction of a block comes to: the rest of the block can follow. -/
structure Handles (E : Setting) (W : View → Prop) (C C' : CallSpec) (i : Instruction)
    (rest : List Instruction) (s s' : State) : Prop where
  shape : Shape E s'
  evolves : Evolves s s'
  dirty : i.writesTarget = false → ∀ {key}, key ∈ s'.dirty → key ∈ s.dirty
  covered : Covered (Live E.pool rest) s'
  realizes : ∀ {s''}, Evolves s' s'' → Realizes E W C C' rest s' s'' →
    Realizes E W C C' (i :: rest) s s''

theorem covered_skip (h : Covered (Live E.pool (i :: rest)) s)
    (none : (Effects.of E.pool i).defines = none) : Covered (Live E.pool rest) s :=
  fun abstract wanted absent => h abstract (live_cons.mpr (.inr ⟨wanted, by rw [none]; nofun⟩)) absent

/-- A call comes after all registers have been emptied. -/
theorem handles_call (calling : Calling E W C C')
    (tables : E.context.liveness = .compute E.pool (first ++ .call x :: rest))
    (ok : Admissible E.pool E.base (.call x)) (h : Shape E s)
    (covered : Covered (Live E.pool (.call x :: rest)) s) :
    ∃ s', s.instruction E.context first.length (.call x) = .ok s' ∧
      Handles E W C C' (.call x) rest s s' := by
  have point := Point.of_split tables
  have unpins := does_unpin (L := Live E.pool (.call x :: rest)) h
  obtain ⟨empties, empty⟩ := does_vacateAll point.next unpins.shape
  obtain ⟨l, label, settled, same⟩ := unpins.shape.label ok rfl (by simp [Instruction.operands])
  obtain ⟨settled', same'⟩ := empties.evolves.settledAt settled
  have does := unpins.trans empties
  have given := evolves_emit (i := .call (State.current { s with pinned := .empty } x)) (by
    intro z use
    obtain rfl := List.mem_singleton.mp use
    exact settled')
  refine ⟨_, rfl, does.shape.emit _, does.evolves.trans given, fun _ _ mem => does.dirty mem,
    covered_skip (does.covers covered) rfl, fun evolves later => ?_⟩
  exact Realizes.after_does does (given.trans evolves)
    (Realizes.call calling does.shape label settled' (same'.trans same) empty evolves later)

/-- A transfer of control comes when nothing is left to store. -/
theorem handles_terminator (transfers : i.isTerminator = true) (ok : Admissible E.pool E.base i)
    (h : Shape E s) (covered : Covered (Live E.pool (i :: rest)) s) (clean : s.dirty = []) :
    ∃ s', s.instruction E.context index i = .ok s' ∧ Handles E W C C' i rest s s' := by
  have unpins := does_unpin (L := Live E.pool (i :: rest)) h
  have clean' : ({ s with pinned := .empty } : State).dirty = [] := clean
  have handles : ∀ {j : Instruction}, (∀ z ∈ j.operands, Settled { s with pinned := .empty } z) →
      (∀ {s''}, Evolves (State.emit { s with pinned := .empty } j) s'' →
        Realizes E W C C' rest (State.emit { s with pinned := .empty } j) s'' →
        Realizes E W C C' (i :: rest) { s with pinned := .empty } s'') →
      (Effects.of E.pool i).defines = none →
      Handles E W C C' i rest s (State.emit { s with pinned := .empty } j) := by
    intro j settled realizes none
    have given := evolves_emit settled
    exact ⟨unpins.shape.emit _, unpins.evolves.trans given, fun _ _ mem => mem,
      covered_skip (unpins.covers covered) none, fun evolves later =>
        Realizes.after_does unpins (given.trans evolves) (realizes evolves later)⟩
  cases i with
  | ret => exact ⟨_, rfl, handles (j := .ret) nofun (fun evolves _ => Realizes.ret clean' evolves) rfl⟩
  | halt =>
    exact ⟨_, rfl, handles (j := .halt) nofun (fun evolves _ => Realizes.halt clean' evolves) rfl⟩
  | jump x =>
    obtain ⟨l, label, settled, same⟩ := unpins.shape.label ok rfl (by simp [Instruction.operands])
    refine ⟨_, rfl, handles (j := .jump _) ?_
      (fun evolves _ => Realizes.jump label settled same clean' evolves) rfl⟩
    intro z use
    obtain rfl := List.mem_singleton.mp use
    exact settled
  | jumpIf c x =>
    obtain ⟨l, label, settled, same⟩ := unpins.shape.label ok rfl (by simp [Instruction.operands])
    refine ⟨_, rfl, handles (j := .jumpIf c _) ?_
      (fun evolves later => Realizes.jumpIf label settled same clean' unpins.shape evolves later) rfl⟩
    intro z use
    obtain rfl := List.mem_singleton.mp use
    exact settled
  | _ => cases transfers

theorem handles_spec (calling : Calling E W C C')
    (tables : E.context.liveness = .compute E.pool (first ++ i :: rest))
    (ok : Admissible E.pool E.base i) (h : Shape E s)
    (covered : Covered (Live E.pool (i :: rest)) s) (clean : i.isTerminator = true → s.dirty = []) :
    ∃ s', s.instruction E.context first.length i = .ok s' ∧ Handles E W C C' i rest s s' := by
  by_cases plain : i.isPlain = true
  · obtain ⟨s', done, advances⟩ := instruction_spec (.of_split tables) ok plain h covered
    exact ⟨s', done, advances.shape, advances.evolves, advances.dirty, advances.covers covered,
      fun evolves later => Realizes.plain calling ok plain advances evolves later⟩
  · by_cases transfers : i.isTerminator = true
    · exact handles_terminator transfers ok h covered (clean transfers)
    · cases i with
      | call x => exact handles_call calling tables ok h covered
      | _ => simp [Instruction.isPlain, Instruction.isTerminator] at plain transfers

/-! ## A whole block -/

/-- What is left once the rest of a block is allocated. -/
structure Finishes (E : Setting) (W : View → Prop) (C C' : CallSpec) (rest : List Instruction)
    (s s' : State) : Prop where
  shape : Shape E s'
  evolves : Evolves s s'
  empty : ∀ key, s'.register? key = none
  clean : s'.dirty = []
  realizes : Realizes E W C C' rest s s'

/-- Allocating the rest of a block succeeds and realizes it. -/
theorem instructions_spec (first : List Instruction) (closing : Nat) (calling : Calling E W C C')
    (rest : List Instruction)
    (tables : E.context.liveness = .compute E.pool (first ++ rest))
    (ok : ∀ i ∈ rest, Admissible E.pool E.base i) (h : Shape E s)
    (covered : Covered (Live E.pool rest) s)
    (tight : ∀ {key reg}, s.register? key = some reg → Live E.pool rest key)
    (clean : closing < first.length → s.dirty = []) (inside : closing ≤ first.length + rest.length)
    (body : ∀ p i, rest[p]? = some i → i.isTerminator = true → closing ≤ first.length + p)
    (group : ∀ p i, rest[p]? = some i → closing ≤ first.length + p → i.writesTarget = false) :
    ∃ s', s.instructions E.context closing first.length rest = .ok s' ∧
      Finishes E W C C' rest s s' := by
  have stores := does_writeBackAll (L := Live E.pool rest) h
  have unbound : ∀ {key}, s.writeBackAll.register? key = s.register? key := by
    intro key
    rw [State.register?, stores.2.2, State.register?]
  induction rest generalizing s first with
  | nil =>
    have empty : ∀ key, s.register? key = none := by
      intro key
      cases held : s.register? key with
      | none => rfl
      | some reg => exact absurd (tight held) not_live_nil
    rw [State.instructions]
    split
    · exact ⟨_, rfl, stores.1.shape, stores.1.evolves, fun key => unbound.trans (empty key), stores.2.1,
        Realizes.after_does stores.1 (.refl _) (Realizes.nil stores.2.1)⟩
    · have done := clean (by simp only [List.length_nil] at inside; omega)
      exact ⟨s, rfl, h, .refl s, empty, done, Realizes.nil done⟩
  | cons i rest ih =>
    -- the state at the instruction: at the closing group dirty words are stored
    obtain ⟨s₁, at_, does, done⟩ : ∃ s₁, (if closing = first.length then s.writeBackAll else s) = s₁ ∧
        Does E (Live E.pool (i :: rest)) s s₁ ∧ (closing ≤ first.length → s₁.dirty = []) := by
      split
      · exact ⟨_, rfl, stores.1, fun _ => stores.2.1⟩
      · exact ⟨_, rfl, .refl h, fun _ => clean (by omega)⟩
    obtain ⟨s₂, handled, handles⟩ := handles_spec calling tables (ok i List.mem_cons_self)
      does.shape (does.covers covered) fun transfers => done (body 0 i rfl transfers)
    have after := (Point.of_split tables).lasts
    obtain ⟨releases, tight', -⟩ := does_releaseDead after handles.shape
    obtain ⟨s', finished, finishes⟩ := ih (first ++ [i])
      (by rw [List.append_assoc]; exact tables) (fun j mem => ok j (List.mem_cons_of_mem _ mem))
      releases.shape (releases.covers handles.covered) tight'
      (fun past => List.eq_nil_iff_forall_not_mem.mpr fun key mem => by
        have past : closing ≤ first.length := by
          simp only [List.length_append, List.length_singleton] at past
          omega
        have left := handles.dirty (group 0 i rfl past) (releases.dirty mem)
        rw [done past] at left
        cases left)
      (by simp only [List.length_append, List.length_cons] at inside ⊢; omega)
      (fun p j there transfers => by
        have := body (p + 1) j there transfers
        simp only [List.length_append, List.length_singleton]
        omega)
      (fun p j there late => group (p + 1) j there (by
        simp only [List.length_append, List.length_singleton] at late
        omega))
      (does_writeBackAll releases.shape) (by
        intro key
        rw [State.register?, (does_writeBackAll (L := Live E.pool rest) releases.shape).2.2,
          State.register?])
    refine ⟨s', ?_, finishes.shape, does.evolves.trans (handles.evolves.trans
      (releases.evolves.trans finishes.evolves)), finishes.empty, finishes.clean, ?_⟩
    · rw [State.instructions]
      simp only [at_, handled, bind, Except.bind]
      simpa using finished
    · exact Realizes.after_does does (handles.evolves.trans (releases.evolves.trans finishes.evolves))
        (handles.realizes (releases.evolves.trans finishes.evolves)
          (Realizes.after_does releases finishes.evolves finishes.realizes))

end Steps

end Codegen86.Allocation
