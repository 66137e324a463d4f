import Codegen86.Peephole.Optimize
import Codegen86.Proofs.Peephole.Place
import Codegen86.Proofs.Peephole.Windows
/-!
# Applying one rule

A rule applied somewhere in a program takes out one instruction, something follows it in its function, and
the instruction is redundant in the linked program (`Applies.removes`).
-/

set_option autoImplicit false

namespace Codegen86.Peephole

open Target Symbolic

/-- `p'` is `p` after a rule was applied to the rest `code` of some block. -/
inductive Applies (p : Program) : Program → Prop
  | intro {before after : List Function} {f : Function} {above below : List Block} {b : Block}
      {ahead code rest : List Instruction} (functions : p.functions = before ++ f :: after)
      (blocks : f.blocks = above ++ b :: below) (split : b.code = ahead ++ code)
      (dropped : Dropped p.pool (fallsInto below) code rest) :
      Applies p { p with
        functions :=
          before ++ { f with blocks := above ++ { b with code := ahead ++ rest } :: below } :: after }

/-- The instruction at a place is taken out of a program, and it is redundant there. -/
structure Removes (s : Place) (p p' : Program) : Prop where
  inside : s.In p.functions
  result : p' = { p with functions := s.without }
  followed : Place.In.Followed s
  redundant : ∀ model policy word, ∃ b n,
    Redundant s.address b n (p.linked model policy fun k => word (shift s.address k))
      (p'.linked model policy word)

theorem fallsInto_eq_some {below : List Block} {name : String} (h : fallsInto below = some name) :
    ∃ b rest, below = b :: rest ∧ b.name = name := by
  unfold fallsInto at h
  split at h
  · cases h
  · split at h
    · cases h
    · cases h
      exact ⟨_, [], rfl, rfl⟩
  · cases h
    exact ⟨_, _, rfl, rfl⟩

section

variable {p p' : Program} {s : Place}

/-- No label of the linked program leads into the middle of the block. -/
theorem apart_linked (h : s.In p.functions) {j : Nat} (positive : 0 < j) (less : j < s.block.code.length)
    (name : String) : p.address? name ≠ some (s.start + j) := by
  intro found
  have := h.apart (mem_of_lookup found)
  dsimp only at this
  omega

theorem removes_idle (linkable : p.Linkable) (h : s.In p.functions) (idle : Idle p.pool s.instruction) :
    Removes s p { p with functions := s.without } := by
  have followed := h.followed linkable idle.plain
  refine ⟨h, rfl, followed, fun model policy word => ⟨s.address, 1, ?_⟩⟩
  refine redundant_idle (i := s.instruction)
    (h.deletes (h.more linkable followed) model policy word) ?_ idle
  have inside : s.ahead.length < s.block.code.length := by simp [h.code]
  rw [Place.address]
  exact (h.getElem? inside).trans (by simp [h.code])

theorem removes_jump (linkable : p.Linkable) (h : s.In p.functions) {z : OperandRef} {l : Label}
    (jump : s.instruction = .jump z) (last : s.behind = []) (label : p.pool.get z = .label l)
    (follows : some l.name = fallsInto s.below) :
    Removes s p { p with functions := s.without } := by
  obtain ⟨b, rest, below, name⟩ := fallsInto_eq_some follows.symm
  have followed : Place.In.Followed s := .inr (by rw [below]; exact List.cons_ne_nil b rest)
  refine ⟨h, rfl, followed, fun model policy word => ⟨s.address, 1, ?_⟩⟩
  have inside : s.ahead.length < s.block.code.length := by simp [h.code]
  refine redundant_jump (h.deletes (h.more linkable followed) model policy word) (z := z)
    (l := l) ?_ label ?_
  · rw [Place.address]
    exact (h.getElem? inside).trans (by simp [h.code, jump])
  · have next := h.next_label below
    have address : s.start + s.block.code.length = s.address + 1 := by
      simp [Place.address, h.code, last, Nat.add_assoc]
    rw [name, address] at next
    refine lookup_of_mem ?_ next
    rw [functionLabels_names]
    exact linkable.names

/-- Of two moves in a row, one is taken out. -/
theorem removes_pair (linkable : p.Linkable) (h : s.In p.functions) {k : Nat} {x₁ y₁ x₂ y₂ : OperandRef}
    {kept : Instruction} (first : s.block.code[k]? = some (.mov x₁ y₁))
    (second : s.block.code[k + 1]? = some (.mov x₂ y₂))
    (window : s.ahead.length = k ∧ kept = .mov x₂ y₂ ∨ s.ahead.length = k + 1 ∧ kept = .mov x₁ y₁)
    (same : ∀ {M : Model} {v v' v'' : View}, v.execute M p.pool (.mov x₁ y₁) = .ok v' →
      v'.execute M p.pool (.mov x₂ y₂) = .ok v'' → v.execute M p.pool kept = .ok v'') :
    Removes s p { p with functions := s.without } := by
  have bound₁ := (List.getElem?_eq_some_iff.mp first).1
  have bound₂ := (List.getElem?_eq_some_iff.mp second).1
  have here₁ := (h.getElem? bound₁).trans first
  have here₂ := (h.getElem? bound₂).trans second
  have at_ : s.block.code[s.ahead.length]? = some s.instruction := by simp [h.code]
  have plain : s.instruction.isPlain = true := by
    rcases window with ⟨e, -⟩ | ⟨e, -⟩
    · rw [e, first] at at_
      rw [← Option.some.inj at_]
      rfl
    · rw [e, second] at at_
      rw [← Option.some.inj at_]
      rfl
  have followed := h.followed linkable plain
  refine ⟨h, rfl, followed, fun model policy word => ⟨s.start + k, 2, ?_⟩⟩
  have D := h.deletes (h.more linkable followed) model policy word
  have left : (Program.linked { p with functions := s.without } model policy word).code[s.start + k]? =
      some kept := by
    rcases window with ⟨e, rfl⟩ | ⟨e, rfl⟩
    · have d : s.address = s.start + k := by rw [Place.address, e]
      have get := D.get (k := s.start + (k + 1)) (by omega)
      rw [show shift s.address (s.start + (k + 1)) = s.start + k by unfold shift; split <;> omega] at get
      exact get.trans here₂
    · have d : s.address = s.start + (k + 1) := by rw [Place.address, e]
      have get := D.get (k := s.start + k) (by omega)
      rw [show shift s.address (s.start + k) = s.start + k by unfold shift; split <;> omega] at get
      exact get.trans here₁
  refine redundant_pair D ?_ here₁ here₂ left ?_ same ?_ ?_
  · rw [Place.address]
    omega
  · rcases window with ⟨-, rfl⟩ | ⟨-, rfl⟩ <;> rfl
  · exact fun pc l => apart_linked h (Nat.succ_pos k) bound₂ l.name
  · exact fun l => apart_linked h (Nat.succ_pos k) bound₂ l.name

/-- Applying a rule takes out one instruction, which is redundant. -/
theorem Applies.removes (h : Applies p p') (linkable : p.Linkable) : ∃ s, Removes s p p' := by
  obtain ⟨functions, blocks, split, dropped⟩ := h
  rename_i before after f above below b ahead code rest
  have frames : ∀ {x₁ y₁ x₂ y₂ : OperandRef}, .mov x₁ y₁ ∈ p.code → .mov x₂ y₂ ∈ p.code →
      ∀ z ∈ [x₁, y₁, x₂, y₂], FrameOnly (p.pool.get z) := by
    intro x₁ y₁ x₂ y₂ first second z mem
    simp only [List.mem_cons, List.not_mem_nil, or_false] at mem
    rcases mem with rfl | rfl | rfl | rfl
    · exact linkable.base _ first _ (by simp [Instruction.operands])
    · exact linkable.base _ first _ (by simp [Instruction.operands])
    · exact linkable.base _ second _ (by simp [Instruction.operands])
    · exact linkable.base _ second _ (by simp [Instruction.operands])
  have used : ∀ i ∈ code, i ∈ p.code := by
    intro i mem
    simp only [Program.code, functions, Function.code, blocks, split, List.flatMap_append,
      List.flatMap_cons, List.mem_append]
    simp [mem]
  cases dropped with
  | idle idle => exact ⟨⟨before, f, after, above, b, below, ahead, _, rest⟩,
      removes_idle linkable ⟨functions, blocks, split⟩ idle⟩
  | jump label follows => exact ⟨⟨before, f, after, above, b, below, ahead, _, []⟩,
      removes_jump linkable ⟨functions, blocks, split⟩ rfl rfl label follows⟩
  | @first rest x₁ y₁ x₂ y₂ target unread =>
    refine ⟨⟨before, f, after, above, b, below, ahead, .mov x₁ y₁, .mov x₂ y₂ :: rest⟩, ?_⟩
    refine removes_pair linkable ⟨functions, blocks, split⟩ (k := ahead.length) ?_ ?_ (.inl ⟨rfl, rfl⟩)
      (deadStore_same (frames (used (.mov x₁ y₁) (by simp)) (used (.mov x₂ y₂) (by simp))) target unread)
    · simp [split]
    · simp [split]
  | @second rest x₁ y₁ x₂ y₂ there back keeps =>
    let s : Place := ⟨before, f, after, above, b, below, ahead ++ [.mov x₁ y₁], .mov x₂ y₂, rest⟩
    have result : s.without =
        before ++ { f with blocks := above ++ { b with code := ahead ++ .mov x₁ y₁ :: rest } :: below } ::
          after := by
      simp [s, Place.without, Place.smaller, Place.shorter]
    have one : s.block.code[ahead.length]? = some (.mov x₁ y₁) := by simp [s, split]
    have two : s.block.code[ahead.length + 1]? = some (.mov x₂ y₂) := by simp [s, split]
    rw [← result]
    refine ⟨s, removes_pair linkable ⟨functions, blocks, by simp [s, split]⟩ one two
      (.inr ⟨by simp [s], rfl⟩) fun there' back' => ?_⟩
    rw [roundTrip_same (frames (used (.mov x₁ y₁) (by simp)) (used (.mov x₂ y₂) (by simp))) there back
      keeps there' back']
    exact there'

end

end Codegen86.Peephole
