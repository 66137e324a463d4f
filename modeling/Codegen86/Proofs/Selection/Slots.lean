import Codegen86.Proofs.Selection.Steps
import Mathlib.Data.List.Flatten
import Mathlib.Data.List.Perm.Subperm
/-!
# Slots of local variables

Only a local variable takes a slot, when it is lowered, and it is lowered once.  So the values with slots
are among the values listed in the blocks lowered (`Slotted`), no two slots are for the same value, and there
are no more words in a frame than values in the function.
-/

set_option autoImplicit false

namespace Codegen86.Selection

open Target IR

variable {c : Context} {s s' s'' : Lowering}

/-- From `s` to `s'` slots are taken for local variables among `values`. -/
structure Takes (c : Context) (s s' : Lowering) (values : List ValueId) : Prop where
  slots : ∃ new, s'.slots = new ++ s.slots ∧ (new.map (·.1)).Subperm values ∧
    ∀ entry ∈ new, ∃ bytes, c.function.op? entry.1 = some (.alloca bytes)

theorem Takes.of_eq {values : List ValueId} (same : s'.slots = s.slots) : Takes c s s' values :=
  ⟨⟨[], same, List.nil_subperm, nofun⟩⟩

theorem Takes.trans {values values' : List ValueId} (h : Takes c s s' values) (h' : Takes c s' s'' values') :
    Takes c s s'' (values ++ values') := by
  obtain ⟨new, slots, among, allocas⟩ := h.slots
  obtain ⟨new', slots', among', allocas'⟩ := h'.slots
  refine ⟨new' ++ new, by rw [slots', slots, List.append_assoc], ?_, fun entry mem => ?_⟩
  · rw [List.map_append]
    exact List.perm_append_comm.subperm.trans (among.append among')
  · exact (List.mem_append.mp mem).elim (allocas' entry) (allocas entry)

theorem Adds.takes (h : Adds s s') : Takes c s s' [] := by
  cases h <;> exact .of_eq rfl

theorem Step.takes {e : Event} (h : Step c s e s') : Takes c s s' e.made := by
  cases h with
  | @reserve v bytes offset frame found _ =>
    refine ⟨[(v, offset)], rfl, List.Subperm.refl _, fun entry mem => ?_⟩
    obtain rfl := List.mem_singleton.mp mem
    exact ⟨bytes, found⟩
  | lead labels =>
    cases labels with
    | known found same => exact .of_eq (same ▸ rfl)
    | new absent block name same => exact .of_eq (same ▸ rfl)
  | _ => exact .of_eq rfl

theorem Steps.takes {events : List Event} (h : Steps c s events s') : Takes c s s' (events.flatMap Event.made) := by
  induction h with
  | refl => exact .of_eq rfl
  | adds first _ ih => exact first.takes.trans ih
  | event first _ ih => exact first.takes.trans ih

/-- The operations of a block take slots for values among those listed. -/
theorem operations_take {body : List ValueId} (ok : s.operations c body = .ok s') : Takes c s s' body := by
  obtain ⟨new, slots, among, allocas⟩ := (operations_steps ok).takes.slots
  exact ⟨new, slots, among.trans (made_eventsAll c body).subperm, allocas⟩

/-! ## Slots of a function -/

/-- The values listed in a block. -/
def listed (f : IR.Function) (id : BlockId) : List ValueId := (f.blocks[id]?.map (·.body)).getD []

/-- The values with slots are local variables listed in the blocks before `position`. -/
structure Slotted (c : Context) (position : Nat) (s : Lowering) : Prop where
  listed : (s.slots.map (·.1)).Subperm ((s.labels.take position).flatMap fun entry => listed c.function entry.1)
  allocas : ∀ entry ∈ s.slots, ∃ bytes, c.function.op? entry.1 = some (.alloca bytes)

/-- A block takes slots for local variables listed in it. -/
theorem Slotted.block {position : Nat} {id : BlockId} {label : String} (h : Slotted c position s)
    (here : s.labels[position]? = some (id, label)) (ok : s.block c id label = .ok s')
    (labels : s.labels <+: s'.labels) : Slotted c (position + 1) s' := by
  obtain ⟨t, all, ok⟩ := bind_ok.mp ok
  cases ok
  obtain ⟨new, slots, sub, allocas⟩ := (operations_take all).slots
  obtain ⟨inside, here⟩ := List.getElem?_eq_some_iff.mp here
  have slots : t.endBlock.slots = new ++ s.slots := slots
  constructor
  · obtain ⟨more, eq⟩ := labels
    rw [slots, ← eq, List.take_append_of_le_length inside, List.take_succ_eq_append_getElem inside, here,
      List.flatMap_append, List.flatMap_singleton, List.map_append]
    refine List.Subperm.trans ?_ (List.perm_append_comm.subperm)
    exact List.Subperm.append sub h.listed
  · intro entry mem
    rw [slots] at mem
    exact (List.mem_append.mp mem).elim (allocas entry) (h.allocas entry)

theorem nodup_of_subperm {α : Type} {l l' : List α} (h : l.Subperm l') (distinct : l'.Nodup) : l.Nodup := by
  obtain ⟨same, perm, sub⟩ := h
  exact perm.nodup_iff.mp (sub.nodup distinct)

theorem placed_eq (f : IR.Function) : f.placed = (List.range f.blocks.length).flatMap (listed f) := by
  have bodies : (List.range f.blocks.length).map (listed f) = f.blocks.map (·.body) := by
    refine List.ext_getElem (by simp) fun i _ inside => ?_
    simp only [List.length_map] at inside
    simp [listed, inside]
  rw [Function.placed, List.flatMap_def, List.flatMap_def, bodies]

/-- Blocks found once list no value twice. -/
theorem listed_subperm {f : IR.Function} {ids : List BlockId} (once : ids.Nodup)
    (known : ∀ id ∈ ids, id < f.blocks.length) : (ids.flatMap (listed f)).Subperm f.placed := by
  rw [placed_eq]
  obtain ⟨same, perm, sub⟩ := List.subperm_of_subset once fun id mem => List.mem_range.mpr (known id mem)
  exact ⟨_, perm.flatMap_right _, sub.flatMap _⟩

variable {position : Nat} {f : IR.Function} {pl : Placement}

/-- Values with slots are listed in the function, each once. -/
theorem Slotted.taken (h : Slotted c position s) (once : (s.labels.map (·.1)).Nodup)
    (known : ∀ entry ∈ s.labels, entry.1 < c.function.blocks.length) :
    (s.slots.map (·.1)).Subperm c.function.placed := by
  refine h.listed.trans ?_
  have inside : ∀ id ∈ (s.labels.take position).map (·.1), id < c.function.blocks.length := by
    intro id mem
    obtain ⟨entry, there, rfl⟩ := List.mem_map.mp mem
    exact known entry (List.mem_of_mem_take there)
  have sub := listed_subperm (((List.take_sublist position s.labels).map _).nodup once) inside
  rwa [List.flatMap_map] at sub

/-- Different slots are for different values, none of them one with a home. -/
theorem Slotted.distinct (h : Slotted c position s) (planned : Planned c.function c.plan pl)
    (once : (s.labels.map (·.1)).Nodup) (known : ∀ entry ∈ s.labels, entry.1 < c.function.blocks.length) :
    ((c.plan.homes ++ s.slots).map (·.1)).Nodup := by
  have taken := h.taken once known
  rw [List.map_append, List.nodup_append]
  refine ⟨planned.distinct, nodup_of_subperm taken planned.placed.distinct, fun v home w slot same => ?_⟩
  subst same
  obtain ⟨op, found, -, other⟩ := planned.result v home
  obtain ⟨entry, mem, rfl⟩ := List.mem_map.mp slot
  obtain ⟨bytes, alloca⟩ := h.allocas entry mem
  rw [found] at alloca
  exact other bytes (Option.some.inj alloca)

/-- A frame has no more words than the function has values. -/
theorem Slotted.bound (h : Slotted c position s) (planned : Planned c.function c.plan pl)
    (once : (s.labels.map (·.1)).Nodup) (known : ∀ entry ∈ s.labels, entry.1 < c.function.blocks.length) :
    c.plan.homes.length + s.slots.length ≤ c.function.values.size := by
  have values : ∀ {v op}, c.function.op? v = some op → v < c.function.values.size := by
    intro v op found
    refine Nat.lt_of_not_le fun outside => ?_
    rw [Function.op?, Array.getElem?_eq_none outside] at found
    cases found
  have inside : (c.plan.homes ++ s.slots).map (·.1) ⊆ List.range c.function.values.size := by
    intro v mem
    rw [List.mem_range]
    rw [List.map_append] at mem
    rcases List.mem_append.mp mem with mem | mem
    · obtain ⟨op, found, -⟩ := planned.result v mem
      exact values found
    · obtain ⟨entry, there, rfl⟩ := List.mem_map.mp mem
      obtain ⟨bytes, found⟩ := h.allocas entry there
      exact values found
  have := (List.subperm_of_subset (h.distinct planned once known) inside).length_le
  simpa using this

/-- Every function lists a value that is neither kept nor a local variable: the last of a block. -/
theorem Placed.terminator (h : Placed f pl) :
    ∃ v ∈ f.placed, ∃ op, f.op? v = .some op ∧ op.isTerminator = true := by
  obtain ⟨b, rest, blocks⟩ := List.exists_cons_of_ne_nil h.some
  have mem : b ∈ f.blocks := by simp [blocks]
  have split : b.body = b.body.dropLast ++ [b.body.getLast (h.full b mem)] :=
    (List.dropLast_append_getLast (h.full b mem)).symm
  obtain ⟨op, listed⟩ := h.listed b mem _ _ [] split
  exact ⟨_, mem_placed mem (List.getLast_mem (h.full b mem)), op, listed.found, listed.terminator⟩

/-- Where value numbers have 32 bits, so has the size of a frame. -/
theorem Slotted.words_lt (h : Slotted c position s) (planned : Planned c.function c.plan pl)
    (once : (s.labels.map (·.1)).Nodup) (known : ∀ entry ∈ s.labels, entry.1 < c.function.blocks.length)
    (numbers : ∀ v ∈ c.function.placed, v < 2 ^ 32) :
    c.plan.homes.length + s.slots.length < 2 ^ 32 := by
  obtain ⟨last, placed, op, found, terminator⟩ := planned.placed.terminator
  have inside : last :: (c.plan.homes ++ s.slots).map (·.1) ⊆ List.range (2 ^ 32) := by
    intro v mem
    refine List.mem_range.mpr (numbers v ?_)
    rcases List.mem_cons.mp mem with rfl | mem
    · exact placed
    · rw [List.map_append] at mem
      rcases List.mem_append.mp mem with mem | mem
      · exact planned.owned v mem
      · exact (h.taken once known).subset mem
  have other : last ∉ (c.plan.homes ++ s.slots).map (·.1) := by
    intro mem
    rw [List.map_append] at mem
    rcases List.mem_append.mp mem with mem | mem
    · obtain ⟨op', found', result, -⟩ := planned.result last mem
      rw [found] at found'
      cases found'
      rw [Op.hasResult_of_isTerminator terminator] at result
      cases result
    · obtain ⟨entry, there, rfl⟩ := List.mem_map.mp mem
      obtain ⟨bytes, alloca⟩ := h.allocas entry there
      rw [found] at alloca
      cases alloca
      cases terminator
  have := (List.subperm_of_subset (List.nodup_cons.mpr ⟨other, h.distinct planned once known⟩) inside).length_le
  simp only [List.length_cons, List.length_map, List.length_append, List.length_range] at this
  omega

end Codegen86.Selection
