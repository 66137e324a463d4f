import Codegen86.Proofs.Allocation.Given
import Codegen86.Proofs.FrameSlots
/-!
# Slots of spilled values

A block that is allocated takes words of the frame for the values that it spills, each value a word of its
own.  Blocks follow each other in this, so that no word is taken twice in a function (`Spills.append`).
-/

set_option autoImplicit false

namespace Codegen86.Stack

open Target Allocation

/-- Slots of values that were spilled in some blocks.  The frame had `words` words before and has grown by
the slots; the pool has grown by more. -/
structure Spills (blocks : List Block) (words : Nat) (q : Pool) (slots : Slots) (frame : Frame) (q' : Pool) :
    Prop where
  placed : SlotsAfter words slots
  owners : (slots.map (·.1)).Nodup
  spilled : ∀ owner ∈ slots.map (·.1), ∃ b ∈ blocks, ∃ key, owner = .spilled b.name key
  frame : frame.words.toNat = (words + slots.length) % 2 ^ 32
  pool : q.operands.size + slots.length ≤ q'.operands.size

variable {blocks more blocks' : List Block} {b : Block} {words registers : Nat} {q r q' : Pool}
  {slots slots' : Slots} {frame frame' : Frame} {journal journal' : Journal}

theorem Spills.nil (size : frame.words.toNat = words % 2 ^ 32) : Spills [] words q [] frame q :=
  ⟨trivial, List.nodup_nil, nofun, size, Nat.le_refl _⟩

/-- The slots of one block. -/
theorem spills_of_stocked {J : Job} {s : State} (h : J.Stocked s) (b : Block) :
    Spills [b] J.words J.pool (b.spilled s) s.frame s.pool where
  placed := h.slots.congr (by simp [Block.spilled, Function.comp_def])
  owners := by
    have owners : (b.spilled s).map (·.1) = (s.slots.map (·.1)).reverse.map (Owner.spilled b.name) := by
      simp [Block.spilled, Function.comp_def]
    rw [owners]
    exact (List.nodup_reverse.mpr h.distinct).map fun _ _ same => (Owner.spilled.inj same).2
  spilled := by
    intro owner mem
    simp only [Block.spilled, List.map_map, List.mem_map] at mem
    obtain ⟨entry, -, rfl⟩ := mem
    exact ⟨b, List.mem_singleton_self b, entry.1, rfl⟩
  frame := by
    rw [Block.spilled, List.length_map, List.length_reverse]
    exact h.frame
  pool := by
    rw [Block.spilled, List.length_map, List.length_reverse, Nat.add_comm]
    exact h.spills

/-- Blocks with other names spill to other slots. -/
theorem Spills.append (h : Spills blocks words q slots frame r)
    (h' : Spills more (words + slots.length) r slots' frame' q')
    (apart : ∀ b ∈ blocks, ∀ c ∈ more, b.name ≠ c.name) :
    Spills (blocks ++ more) words q (slots ++ slots') frame' q' where
  placed := h.placed.append h'.placed
  owners := by
    rw [List.map_append, List.nodup_append]
    refine ⟨h.owners, h'.owners, fun owner mem owner' mem' same => ?_⟩
    obtain ⟨b, block, key, rfl⟩ := h.spilled owner mem
    obtain ⟨c, block', key', rfl⟩ := h'.spilled owner' mem'
    exact apart b block c block' (Owner.spilled.inj same).1
  spilled := by
    intro owner mem
    rw [List.map_append] at mem
    rcases List.mem_append.mp mem with mem | mem
    · obtain ⟨b, block, rest⟩ := h.spilled owner mem
      exact ⟨b, List.mem_append_left _ block, rest⟩
    · obtain ⟨b, block, rest⟩ := h'.spilled owner mem
      exact ⟨b, List.mem_append_right _ block, rest⟩
  frame := by
    rw [List.length_append, ← Nat.add_assoc]
    exact h'.frame
  pool := by
    have := h.pool
    have := h'.pool
    rw [List.length_append]
    omega

theorem spilledSlots_append
    (first : Function.allocateBlocks registers q frame journal blocks = .ok (blocks', r, frame', journal'))
    (listed : Function.spilledSlots registers q frame journal blocks = .ok slots)
    (listed' : Function.spilledSlots registers r frame' journal' more = .ok slots') :
    Function.spilledSlots registers q frame journal (blocks ++ more) = .ok (slots ++ slots') := by
  induction blocks generalizing q frame journal blocks' slots with
  | nil =>
    cases first
    cases listed
    exact listed'
  | cons b rest ih =>
    obtain ⟨⟨b', s⟩, one, first⟩ := bind_ok.mp first
    obtain ⟨⟨rest', r, frame', journal'⟩, others, eq⟩ := bind_ok.mp first
    cases eq
    obtain ⟨⟨c, t⟩, again, listed⟩ := bind_ok.mp listed
    rw [one] at again
    cases again
    obtain ⟨tail, behind, eq⟩ := bind_ok.mp listed
    cases eq
    rw [List.append_assoc]
    exact bind_ok.mpr ⟨_, one, bind_ok.mpr ⟨_, ih others behind, rfl⟩⟩

end Codegen86.Stack
