import Codegen86.Proofs.Allocation.Operands
/-!
# Leaving one value alone in its register

Before an instruction updates a register in place, all other values that the register holds are moved
away: `separate_spec`.
-/

set_option autoImplicit false

namespace Codegen86.Allocation

open Target Symbolic

variable {E : Setting} {L : Operand → Prop} {s s' : State} {index reg : Nat} {owner key : Operand}

/-- From `s` to `s'` the resident `key` leaves the register, and the other residents stay. -/
structure Leaves (reg : Nat) (key : Operand) (s s' : State) : Prop where
  others : ∀ o, o ≠ key → s'.register? o = s.register? o
  gone : s'.register? key ≠ some reg
  memory : key.isMemory = true → s'.register? key = none

/-- A live value is copied to a free register. -/
theorem does_copy (h : Shape E s) (held : s.register? key = some reg) (abstract : key.isAbstract = true)
    {copy : Nat} (free : s.residents.free.first? = some copy) :
    Does E L s
        (((s.emitMove (.reg (.physical copy)) (.reg (.physical reg))).unbind key).bind key copy) ∧
      Leaves reg key s
        (((s.emitMove (.reg (.physical copy)) (.reg (.physical reg))).unbind key).bind key copy) := by
  obtain ⟨least, most, empty⟩ := h.residents.free_iff.mp (RegisterSet.first?_eq_some free)
  have few := E.few
  have clean : key ∉ s.dirty := by
    intro mem
    have := (h.dirty mem).1
    cases key <;> simp_all [Operand.isAbstract, Operand.isMemory]
  have moved := h.emitMove (.reg (.physical copy)) (.reg (.physical reg))
  refine ⟨⟨(moved.unbind clean).bind (h.isKey held) ⟨least, most⟩,
    (evolves_emitMove _ ⟨rfl, rfl⟩).trans (evolves_of_eq rfl rfl rfl rfl), fun mem => mem, ?_, ?_⟩, ⟨?_, ?_, ?_⟩⟩
  · intro covered other abstract' wanted absent
    rw [register?_bind] at absent
    split at absent
    · cases absent
    · rename_i apart
      rw [register?_unbind, if_neg apart] at absent
      exact covered abstract' wanted absent
  · intro u t fits room holds
    refine ⟨{ t with general := put t.general copy (t.general reg) }, ?_, ?_⟩
    · exact emits_emitMove (E := E) s ⟨rfl, rfl⟩ (read_general (h.reg_le held).2)
        (write_general (by omega) _)
    · have copied : Holds E L (s.emitMove (.reg (.physical copy)) (.reg (.physical reg))) u
          { t with general := put t.general copy (t.general reg) } :=
        (holds.setGeneral least empty _).of_eq rfl rfl rfl
      have others : Holds E (fun o => L o ∧ o ≠ key) _ u _ :=
        copied.mono moved fun _ _ wanted => wanted.1
      refine (others.unbind fun _ wanted => absurd rfl wanted.2).bind
        (fun o wanted other => ⟨wanted, other⟩) fun wanted => ?_
      exact (put_self t.general copy _).trans (holds.held held wanted)
  · intro o other
    rw [register?_bind, if_neg other, register?_unbind, if_neg other]
    rfl
  · rw [register?_bind, if_pos rfl]
    intro same
    cases same
    exact empty key held
  · intro memory
    cases key <;> simp_all [Operand.isAbstract, Operand.isMemory]

/-- A resident other than the owner leaves the register; what is live is saved. -/
theorem separateOne_spec (h : Shape E s) (held : s.register? key = some reg) (other : key ≠ owner)
    (dead : key.isAbstract = true → E.context.liveness.isLiveAfter index key = false → ¬ L key) :
    Does E L s (s.separateOne E.context index reg owner key) ∧
      Leaves reg key s (s.separateOne E.context index reg owner key) := by
  unfold State.separateOne
  rw [if_neg other]
  have unbound : ∀ s' : State, s'.residents = s.residents →
      Leaves reg key s (s'.unbind key) := by
    intro s' same
    have registers : ∀ o, s'.register? o = s.register? o := fun o => by
      rw [State.register?, same, State.register?]
    refine ⟨fun o apart => ?_, ?_, fun _ => ?_⟩
    · rw [register?_unbind, if_neg apart, registers]
    · rw [register?_unbind, if_pos rfl]
      simp
    · rw [register?_unbind, if_pos rfl]
  rcases (h.isKey held).mem_or_abstract with ⟨memory, concrete⟩ | ⟨register, abstract⟩
  · rw [if_pos memory]
    have cleaned := does_clean_unbind (L := L) h held fun abstract => by simp [concrete] at abstract
    exact ⟨cleaned.1, unbound _ (clean_residents s key reg).1⟩
  · rw [if_neg (by simp [register])]
    split
    · split
      · rename_i copy free
        exact does_copy h held abstract free
      · refine ⟨does_spill h held abstract, unbound _ ?_⟩
        exact (slot_frame s key).1
    · rename_i dies
      have clean : key ∉ s.dirty := fun mem => by
        have := (h.dirty mem).1
        simp [register] at this
      exact ⟨does_unbind h clean fun abstract => dead abstract (by simpa using dies), unbound s rfl⟩

/-- After `separate` the register holds its owner alone. -/
theorem separate_spec (index : Nat) (h : Shape E s) (held : s.register? owner = some reg)
    (dead : ∀ key, key ≠ owner → s.register? key = some reg → key.isAbstract = true →
      E.context.liveness.isLiveAfter index key = false → ¬ L key) :
    Does E L s (s.separate E.context index reg owner) ∧
      (s.separate E.context index reg owner).register? owner = some reg ∧
      (∀ o, (s.separate E.context index reg owner).register? o = some reg → o = owner) ∧
      (∀ o r, r ≠ reg → s.register? o = some r →
        (s.separate E.context index reg owner).register? o = some r) ∧
      (∀ o r, o.isMemory = true →
        (s.separate E.context index reg owner).register? o = some r → s.register? o = some r) := by
  -- each key of the list is in the register until it is its turn
  have each : ∀ (keys : List Operand) {s : State}, keys.Nodup → Shape E s →
      (∀ key ∈ keys, s.register? key = some reg ∧ (key ≠ owner → key.isAbstract = true →
        E.context.liveness.isLiveAfter index key = false → ¬ L key)) →
      let s' := keys.foldl (State.separateOne E.context index reg owner) s
      Does E L s s' ∧ (∀ o, o ∉ keys ∨ o = owner → s'.register? o = s.register? o) ∧
        (∀ o ∈ keys, o ≠ owner → s'.register? o ≠ some reg ∧
          (o.isMemory = true → s'.register? o = none)) := by
    intro keys
    induction keys with
    | nil => exact fun _ h _ => ⟨.refl h, fun _ _ => rfl, by simp⟩
    | cons key rest ih =>
      intro s nodup h there
      obtain ⟨fresh, nodup⟩ := List.nodup_cons.mp nodup
      obtain ⟨held, dead⟩ := there key List.mem_cons_self
      have first : Does E L s (s.separateOne E.context index reg owner key) ∧
          (∀ o, o ≠ key ∨ o = owner →
            (s.separateOne E.context index reg owner key).register? o = s.register? o) ∧
          (key ≠ owner → Leaves reg key s (s.separateOne E.context index reg owner key)) := by
        by_cases same : key = owner
        · rw [State.separateOne, if_pos same]
          exact ⟨.refl h, fun _ _ => rfl, fun other => absurd same other⟩
        · obtain ⟨does, leaves⟩ := separateOne_spec (L := L) h held same (dead same)
          refine ⟨does, fun o apart => leaves.others o ?_, fun _ => leaves⟩
          rintro rfl
          exact apart.elim (fun no => no rfl) same
      obtain ⟨does, kept, leaves⟩ := first
      obtain ⟨does', kept', left⟩ := ih nodup does.shape fun o mem => by
        have apart : o ≠ key := by
          rintro rfl
          exact fresh mem
        rw [kept o (.inl apart)]
        exact there o (List.mem_cons_of_mem _ mem)
      refine ⟨does.trans does', fun o outside => ?_, fun o mem other => ?_⟩
      · rw [List.foldl_cons, kept' o (outside.imp_left fun no mem => no (List.mem_cons_of_mem _ mem)),
          kept o (outside.imp_left fun no same => no (same ▸ List.mem_cons_self))]
      · rcases List.mem_cons.mp mem with rfl | mem
        · rw [List.foldl_cons, kept' o (.inl fresh)]
          exact ⟨(leaves other).gone, (leaves other).memory⟩
        · exact left o mem other
  have there : ∀ o, o ∈ s.residents.of reg ↔ s.register? o = some reg :=
    fun o => h.residents.mem_of_iff
  obtain ⟨does, kept, left⟩ := each (s.residents.of reg) (h.residents.nodup_of reg) h
    fun o mem => ⟨(there o).mp mem, fun other => dead o other ((there o).mp mem)⟩
  refine ⟨does, (kept owner (.inr rfl)).trans held, fun o here => ?_, fun o r apart before => ?_,
    fun o r memory after => ?_⟩
  · by_cases same : o = owner
    · exact same
    · by_cases mem : o ∈ s.residents.of reg
      · exact absurd here (left o mem same).1
      · exact absurd ((there o).mpr ((kept o (.inl mem)).symm.trans here)) mem
  · have outside : o ∉ s.residents.of reg := by
      intro mem
      rw [(there o).mp mem] at before
      cases before
      exact apart rfl
    exact (kept o (.inl outside)).trans before
  · by_cases outside : o ∉ s.residents.of reg ∨ o = owner
    · exact (kept o outside).symm.trans after
    · obtain ⟨mem, other⟩ := not_or.mp outside
      have := (left o (Decidable.not_not.mp mem) other).2 memory
      rw [State.separate, this] at after
      cases after

end Codegen86.Allocation
