import Codegen86.Proofs.Words
import Mathlib.Data.List.Nodup
/-!
# Slots of frames

Words of a frame are handed out one after another, and none is given back.  As long as the size of the frame
has not wrapped around, everything that has a slot has a word of its own (`SlotsAfter.nodup`), below the base
pointer and within the frame.
-/

set_option autoImplicit false

namespace Codegen86

theorem Frame.reserve_spec {frame : Frame} {words : Nat} (size : frame.words.toNat = words % 2 ^ 32) :
    frame.reserve.1 = -Word.ofNat ((words + 1) % 2 ^ 32) ∧
      frame.reserve.2.words.toNat = (words + 1) % 2 ^ 32 := by
  have next : (frame.words + 1).toNat = (words + 1) % 2 ^ 32 := by
    rw [UInt32.toNat_add, size]
    simp
  exact ⟨by rw [← next]; rfl, next⟩

/-- Slots handed out one after another, in a frame that has as many words already. -/
def SlotsAfter {α : Type} (words : Nat) : List (α × Word) → Prop
  | [] => True
  | (_, offset) :: rest => offset = -Word.ofNat ((words + 1) % 2 ^ 32) ∧ SlotsAfter (words + 1) rest

namespace SlotsAfter

variable {α β : Type} {words : Nat} {slots more : List (α × Word)}

theorem append (h : SlotsAfter words slots) (h' : SlotsAfter (words + slots.length) more) :
    SlotsAfter words (slots ++ more) := by
  induction slots generalizing words with
  | nil => exact h'
  | cons entry rest ih =>
    rw [List.length_cons, Nat.add_comm rest.length, ← Nat.add_assoc] at h'
    exact ⟨h.1, ih h.2 h'⟩

theorem snoc (h : SlotsAfter words slots) (a : α) {offset : Word}
    (next : offset = -Word.ofNat ((words + slots.length + 1) % 2 ^ 32)) :
    SlotsAfter words (slots ++ [(a, offset)]) :=
  h.append ⟨next, trivial⟩

/-- It does not matter what the slots are for. -/
theorem congr (h : SlotsAfter words slots) {slots' : List (β × Word)}
    (same : slots'.map (·.2) = slots.map (·.2)) : SlotsAfter words slots' := by
  induction slots generalizing words slots' with
  | nil =>
    rw [List.map_nil, List.map_eq_nil_iff] at same
    subst same
    trivial
  | cons entry rest ih =>
    obtain ⟨first, others, rfl, offset, same⟩ := List.map_eq_cons_iff.mp same
    exact ⟨offset.trans h.1, ih h.2 same⟩

/-- Sizes count only as far as they have not wrapped around. -/
theorem wrap {words' : Nat} (h : SlotsAfter words slots) (same : words % 2 ^ 32 = words' % 2 ^ 32) :
    SlotsAfter words' slots := by
  induction slots generalizing words words' with
  | nil => trivial
  | cons entry rest ih =>
    have next : (words + 1) % 2 ^ 32 = (words' + 1) % 2 ^ 32 := by omega
    exact ⟨next ▸ h.1, ih h.2 next⟩

theorem offset (h : SlotsAfter words slots) {entry : α × Word} (mem : entry ∈ slots) :
    ∃ j, words < j ∧ j ≤ words + slots.length ∧ entry.2 = -Word.ofNat (j % 2 ^ 32) := by
  induction slots generalizing words with
  | nil => cases mem
  | cons first rest ih =>
    rw [List.length_cons]
    rcases List.mem_cons.mp mem with rfl | mem
    · exact ⟨words + 1, by omega, by omega, h.1⟩
    · obtain ⟨j, least, most, eq⟩ := ih h.2 mem
      exact ⟨j, by omega, by omega, eq⟩

/-- No two slots are the same word, if the frame has not grown too large. -/
theorem nodup (h : SlotsAfter words slots) (small : words + slots.length < 2 ^ 32) :
    (slots.map (·.2)).Nodup := by
  induction slots generalizing words with
  | nil => exact List.nodup_nil
  | cons entry rest ih =>
    rw [List.length_cons] at small
    refine List.nodup_cons.mpr ⟨fun mem => ?_, ih h.2 (by omega)⟩
    obtain ⟨other, mem, same⟩ := List.mem_map.mp mem
    obtain ⟨j, least, most, eq⟩ := h.2.offset mem
    have first := h.1
    rw [Nat.mod_eq_of_lt (by omega)] at first eq
    have := Word.neg_ofNat_inj (by omega) (by omega) (eq.symm.trans (same.trans first))
    omega

/-- Every slot is below the base pointer and within the frame. -/
theorem bounds (h : SlotsAfter words slots) (small : words + slots.length < 2 ^ 32) {entry : α × Word}
    (mem : entry ∈ slots) : -((words + slots.length : Nat) : Int) ≤ entry.2.toInt ∧ entry.2.toInt ≤ -1 := by
  obtain ⟨j, least, most, eq⟩ := h.offset mem
  rw [eq, Nat.mod_eq_of_lt (by omega), Word.toInt_neg_ofNat (by omega)]
  omega

end SlotsAfter

end Codegen86
