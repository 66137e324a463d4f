import Codegen86.Proofs.Allocation.Residency
/-!
# What emptying a register saves

A register is emptied one resident after another (`State.vacate`).  Words of memory that are dirty are stored
back, abstract registers that are read again are stored to their slots, and nothing else is given out
(`Saves`).  The stores name the places they store to by operands that no later step changes.
-/

set_option autoImplicit false

namespace Codegen86.Allocation

open Target

variable {W : Work} {s s' s'' : State} {key other place o : Operand} {r index : Nat} {c : Context}

/-- A store of a register to a place. -/
def State.Stores (s : State) (r : Nat) (place : Operand) (i : Instruction) : Prop :=
  ∃ x y, i = .mov x y ∧ x < s.pool.operands.size ∧ y < s.pool.operands.size ∧
    s.pool.get x = place ∧ s.pool.get y = .reg (.physical r)

/-- A store goes on naming its place and its register. -/
theorem Work.Grown.stores {i : Instruction} (h : Work.Grown s s') (concrete : place.isAbstract = false)
    (stores : s.Stores r place i) : s'.Stores r place i := by
  obtain ⟨x, y, rfl, left, right, target, source⟩ := stores
  refine ⟨x, y, rfl, Nat.lt_of_lt_of_le left h.size, Nat.lt_of_lt_of_le right h.size, ?_, ?_⟩
  · rw [h.settled left (by rw [target]; exact concrete), target]
  · rw [h.settled right (by rw [source]; rfl), source]

theorem emitMove_stores (s : State) (place : Operand) (r : Nat) :
    ∃ i, (s.emitMove place (.reg (.physical r))).out.toList = s.out.toList ++ [i] ∧
      (s.emitMove place (.reg (.physical r))).Stores r place i := by
  have inside : s.pool.operands.size < (s.pool.add place).2.operands.size := by simp
  refine ⟨_, Array.toList_push .., _, _, rfl, ?_, ?_, ?_, Pool.get_add_self _ _⟩
  · show s.pool.operands.size < ((s.pool.add place).2.add _).2.operands.size
    rw [Pool.size_add]
    exact Nat.lt_succ_of_lt inside
  · show (s.pool.add place).2.operands.size < ((s.pool.add place).2.add _).2.operands.size
    rw [Pool.size_add _ (.reg _)]
    exact Nat.lt_succ_self _
  · exact (Pool.get_add_of_lt _ _ inside).trans (Pool.get_add_self _ _)

/-- From `s` to `s'` some residents of a register have been saved: `moves` store the dirty words among them, and to
slots the abstract registers that are read again. -/
structure Saves (c : Context) (index r : Nat) (keys : List Operand) (s s' : State) (moves : List Instruction) :
    Prop where
  out : s'.out.toList = s.out.toList ++ moves
  stores : ∀ i ∈ moves, ∃ place, place.isAbstract = false ∧ s'.Stores r place i
  words : ∀ key ∈ keys, key ∈ s.dirty → ∃ i ∈ moves, s'.Stores r key i
  values : ∀ key ∈ keys, key.isMemory = false → (c.liveness.nextRead key index).isSome = true →
    ∃ offset, s'.slots.lookup key = some offset ∧ ∃ i ∈ moves, s'.Stores r (.frameSlot offset) i
  dirty : ∀ {key}, key ∈ s'.dirty ↔ key ∈ s.dirty ∧ key ∉ keys

namespace Saves

variable {keys more moves moves' : List Operand}

theorem nil (s : State) : Saves c index r [] s s [] where
  out := (List.append_nil _).symm
  stores := nofun
  words := nofun
  values := nofun
  dirty := by simp

/-- One resident after another. -/
theorem cons {first rest : List Instruction} (regular : W.Regular s) (apart : key ∉ keys)
    (h : Saves c index r [key] s s' first) (h' : Saves c index r keys s' s'' rest)
    (grown : Work.Grown s' s'') : Saves c index r (key :: keys) s s'' (first ++ rest) where
  out := by rw [h'.out, h.out, List.append_assoc]
  stores i mem := by
    rcases List.mem_append.mp mem with mem | mem
    · obtain ⟨place, concrete, stores⟩ := h.stores i mem
      exact ⟨place, concrete, grown.stores concrete stores⟩
    · exact h'.stores i mem
  words := by
    refine List.forall_mem_cons.mpr ⟨fun dirty => ?_, fun other mem dirty => ?_⟩
    · obtain ⟨i, mem, stores⟩ := h.words key List.mem_cons_self dirty
      have concrete := Work.not_abstract_of_memory (regular.dirty dirty).1
      exact ⟨i, List.mem_append_left _ mem, grown.stores concrete stores⟩
    · have dirty' : other ∈ s'.dirty := h.dirty.mpr ⟨dirty, fun same => by
        cases List.mem_singleton.mp same
        exact apart mem⟩
      obtain ⟨i, mem, stores⟩ := h'.words other mem dirty'
      exact ⟨i, List.mem_append_right _ mem, stores⟩
  values := by
    refine List.forall_mem_cons.mpr ⟨fun value read => ?_, fun other mem value read => ?_⟩
    · obtain ⟨offset, found, i, mem, stores⟩ := h.values key List.mem_cons_self value read
      exact ⟨offset, grown.slots found, i, List.mem_append_left _ mem, grown.stores rfl stores⟩
    · obtain ⟨offset, found, i, mem, stores⟩ := h'.values other mem value read
      exact ⟨offset, found, i, List.mem_append_right _ mem, stores⟩
  dirty := by
    intro other
    rw [h'.dirty, h.dirty, List.mem_singleton, List.mem_cons, not_or, and_assoc]

end Saves

/-! ## One resident -/

theorem mem_dirty_markClean : other ∈ (s.markClean key).dirty ↔ other ∈ s.dirty ∧ other ≠ key := by
  simp [State.markClean]

/-- A word of memory is stored back if it is dirty. -/
theorem saves_word (memory : key.isMemory = true) :
    ∃ moves, Saves c index r [key] s ((s.clean key r).unbind key) moves := by
  have value : ∀ k ∈ [key], k.isMemory ≠ false := fun k mem => by
    cases List.mem_singleton.mp mem
    simp [memory]
  by_cases dirty : s.isDirty key = true
  · obtain ⟨i, out, stores⟩ := emitMove_stores (s.markClean key) key r
    have same : s.clean key r = (s.markClean key).emitMove key (.reg (.physical r)) := if_pos dirty
    refine ⟨[i], ?_, ?_, ?_, fun k mem other => absurd other (value k mem), ?_⟩
    · rw [same]
      exact out
    · rw [same]
      exact List.forall_mem_singleton.mpr ⟨key, Work.not_abstract_of_memory memory, stores⟩
    · rw [same]
      exact List.forall_mem_singleton.mpr fun _ => ⟨i, List.mem_singleton_self i, stores⟩
    · intro other
      rw [same, List.mem_singleton]
      exact mem_dirty_markClean
  · have same : s.clean key r = s := if_neg dirty
    have clean : key ∉ s.dirty := by simpa [State.isDirty] using dirty
    rw [same]
    refine ⟨[], (List.append_nil _).symm, List.forall_mem_nil _, ?_,
      fun k mem other => absurd other (value k mem), ?_⟩
    · exact List.forall_mem_singleton.mpr fun dirty => absurd dirty clean
    · intro other
      rw [List.mem_singleton]
      exact ⟨fun mem => ⟨mem, fun same => clean (same ▸ mem)⟩, And.left⟩

/-- An abstract register is stored to its slot if it is read again. -/
theorem saves_value (regular : W.Regular s) (value : key.isMemory = false) : ∃ moves, Saves c index r [key] s
    ((if (c.liveness.nextRead key index).isSome then s.spill key r else s).unbind key) moves := by
  have clean : key ∉ s.dirty := regular.clean value
  have dirty : ∀ {other}, other ∈ s.dirty ↔ other ∈ s.dirty ∧ other ∉ [key] := fun {other} => by
    rw [List.mem_singleton]
    exact ⟨fun mem => ⟨mem, fun same => clean (same ▸ mem)⟩, And.left⟩
  split
  · obtain ⟨-, slotDirty, -, slotOut⟩ := slot_frame s key
    obtain ⟨i, out, stores⟩ := emitMove_stores (s.slot key).2 (.frameSlot (s.slot key).1) r
    have found : (s.slot key).2.slots.lookup key = some (s.slot key).1 :=
      (Work.steps_slot (W := .ofBlock c []) fun _ => trivial).2
    refine ⟨[i], ?_, List.forall_mem_singleton.mpr ⟨_, rfl, stores⟩,
      List.forall_mem_singleton.mpr fun dirty => absurd dirty clean,
      List.forall_mem_singleton.mpr fun _ _ => ⟨_, found, i, List.mem_singleton_self i, stores⟩, ?_⟩
    · rw [← slotOut]
      exact out
    · intro other
      show other ∈ (s.slot key).2.dirty ↔ _
      rw [slotDirty]
      exact dirty
  · rename_i never
    exact ⟨[], (List.append_nil _).symm, List.forall_mem_nil _,
      List.forall_mem_singleton.mpr fun dirty => absurd dirty clean,
      List.forall_mem_singleton.mpr fun _ read => absurd read never, dirty⟩

theorem saves_vacateOne (c : Context) (index r : Nat) (regular : W.Regular s) (key : Operand) :
    ∃ moves, Saves c index r [key] s (s.vacateOne c index r key) moves := by
  unfold State.vacateOne
  cases memory : key.isMemory with
  | true => exact saves_word memory
  | false => exact saves_value regular memory

/-! ## The register -/

/-- Emptying a register saves its residents. -/
theorem saves_vacate (read : W.Reads index) (regular : W.Regular s)
    (distinct : (s.residents.of r).Nodup) (range : W.InRange r) :
    ∃ moves, Saves W.context index r (s.residents.of r) s (s.vacate W.context r index) moves := by
  unfold State.vacate
  have known : ∀ key ∈ s.residents.of r, key.isAbstract = true → W.defined key := fun _ mem =>
    Work.known_of_mem regular mem
  generalize s.residents.of r = keys at distinct known
  induction keys generalizing s with
  | nil => exact ⟨[], .nil s⟩
  | cons key rest ih =>
    obtain ⟨apart, distinct⟩ := List.nodup_cons.mp distinct
    obtain ⟨here, known⟩ := List.forall_mem_cons.mp known
    obtain ⟨first, saves⟩ := saves_vacateOne W.context index r regular key
    have regular' := (Work.steps_vacateOne read regular range here).regular regular
    obtain ⟨others, saves'⟩ := ih regular' distinct known
    have steps := Work.steps_foldl (P := fun _ (key : Operand) => key.isAbstract = true → W.defined key)
      (fun _ known => known) (fun h known => Work.steps_vacateOne read h range known) rest regular' known
    exact ⟨first ++ others, .cons regular apart saves saves' (steps.grown regular')⟩

end Codegen86.Allocation
