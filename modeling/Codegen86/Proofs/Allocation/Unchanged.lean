import Codegen86.Proofs.Allocation.Emitted
import Codegen86.Proofs.Allocation.Invocations
/-!
# What is given out stays as it is

Registers are assigned by changing operands that instructions before and behind share.  An operand that an
instruction was given out with names no abstract register, and only operands that name one are changed: so no
instruction changes once it is given out, except a jump or call to an abstract register (`State.Unchanged`).
An operand is split for one that is new, so chains of splits run upwards in the pool and end; an operand that
was made to name a register does so, wherever in its chain it stands (`attach_names`).
-/

set_option autoImplicit false

namespace Codegen86

open Target

namespace Allocation

namespace State

/-- What is given out in a state is there in another one, and has the same operands. -/
def Unchanged (s t : State) : Prop :=
  s.out.toList <+: t.out.toList ∧
    ∀ i ∈ s.out.toList, (∀ x ∈ i.operands, t.pool.get x = s.pool.get x) ∧ i.text t.pool = i.text s.pool

/-- An operand was split, and another one is in its place. -/
def Next (s : State) (x y : OperandRef) : Prop := s.retarget.lookup x = some y

/-- Operands are split for later ones. -/
def Upwards (s : State) : Prop := ∀ x y, s.Next x y → x < y

/-- No chain of splits comes back to where it was, and what stands for an operand is where its chain ends. -/
def ChainsEnd (s : State) : Prop :=
  (∀ x, ¬ Relation.TransGen s.Next x x) ∧
    ∀ x, Relation.ReflTransGen s.Next x (s.current x) ∧ ∀ y, ¬ s.Next (s.current x) y

variable {s t : State} {x y z : OperandRef}

theorem chain_follow (s : State) (fuel : Nat) (x : OperandRef) :
    Relation.ReflTransGen s.Next x (s.follow fuel x) := by
  induction fuel generalizing x with
  | zero => exact .refl
  | succ fuel ih =>
    unfold follow
    split
    · exact .refl
    · rename_i next found
      exact .head found (ih next)

theorem chain_current (s : State) (x : OperandRef) : Relation.ReflTransGen s.Next x (s.current x) :=
  s.chain_follow _ x

/-- Once the splits are followed upwards for as many steps as there are splits behind, there are none left. -/
theorem follow_ends (upwards : s.Upwards) {fuel : Nat}
    (enough : s.retarget.countP (fun entry => decide (x ≤ entry.1)) ≤ fuel) :
    s.retarget.lookup (s.follow fuel x) = none := by
  induction fuel generalizing x with
  | zero =>
    cases found : s.retarget.lookup x with
    | none => exact found
    | some y =>
      have := List.countP_eq_zero.mp (Nat.le_zero.mp enough) _ (mem_of_lookup found)
      simp at this
  | succ fuel ih =>
    unfold follow
    split
    · assumption
    · rename_i y found
      refine ih (Nat.le_of_lt_succ (Nat.lt_of_lt_of_le ?_ enough))
      -- the entry that was followed counts no more
      have before : x < y := upwards x y found
      obtain ⟨front, back, split⟩ := List.append_of_mem (mem_of_lookup found)
      have fewer : ∀ entries : List (OperandRef × OperandRef),
          entries.countP (fun entry => decide (y ≤ entry.1)) ≤ entries.countP (fun entry => decide (x ≤ entry.1)) :=
        fun entries => List.countP_mono_left fun entry _ above =>
          decide_eq_true (Nat.le_trans (Nat.le_of_lt before) (of_decide_eq_true above))
      rw [split, List.countP_append, List.countP_append, List.countP_cons_of_neg (by simpa using before),
        List.countP_cons_of_pos (by simp)]
      have := fewer front
      have := fewer back
      omega

theorem Upwards.current_ends (upwards : s.Upwards) (x : OperandRef) : s.retarget.lookup (s.current x) = none :=
  follow_ends upwards List.countP_le_length

theorem Upwards.chainsEnd (upwards : s.Upwards) : s.ChainsEnd := by
  have above : ∀ {x y}, Relation.TransGen s.Next x y → x < y := fun chain => by
    induction chain with
    | single next => exact upwards _ _ next
    | tail _ next ih => exact Nat.lt_trans ih (upwards _ _ next)
  refine ⟨fun x circle => Nat.lt_irrefl x (above circle), fun x => ⟨s.chain_current x, fun y next => ?_⟩⟩
  rw [Next, upwards.current_ends] at next
  cases next

/-- A chain has one end. -/
theorem ChainsEnd.current_eq (h : s.ChainsEnd) (chain : Relation.ReflTransGen s.Next x y)
    (last : s.retarget.lookup y = none) : s.current x = y := by
  have unique : Relator.RightUnique s.Next := fun x y z next next' => by
    rw [Next, next] at next'
    exact Option.some.inj next'
  obtain ⟨here, ends⟩ := h.2 x
  rcases Relation.ReflTransGen.total_of_right_unique unique here chain with more | more
  · rcases Relation.ReflTransGen.cases_head more with same | ⟨z, next, -⟩
    · exact same
    · exact absurd next (ends z)
  · rcases Relation.ReflTransGen.cases_head more with same | ⟨z, next, -⟩
    · exact same.symm
    · rw [Next, last] at next
      cases next

/-- Once the end of a chain is split, the chain goes on to the operand that is in its place. -/
theorem Upwards.current_split (h : t.Upwards) (splits : t.retarget = (s.current x, y) :: s.retarget)
    (last : s.retarget.lookup (s.current x) = none) (fresh : s.retarget.lookup y = none) : t.current x = y := by
  have lookup : ∀ z, t.retarget.lookup z = if z = s.current x then some y else s.retarget.lookup z := fun z => by
    rw [splits, lookup_cons_ite]
  have next : t.Next (s.current x) y := (lookup _).trans (if_pos rfl)
  have before : ∀ z z', s.Next z z' → t.Next z z' := fun z z' next => by
    rw [Next, lookup, if_neg]
    · exact next
    · rintro rfl
      rw [Next, last] at next
      cases next
  have chain : Relation.ReflTransGen t.Next x (s.current x) :=
    Relation.ReflTransGen.mono before _ _ (s.chain_current x)
  refine h.chainsEnd.current_eq (chain.tail next) ?_
  rw [lookup, if_neg (Nat.ne_of_gt (h _ _ next))]
  exact fresh

end State

/-! ## Steps -/

namespace Work

variable {W : Work} {s s' t : State} {x y : OperandRef} {key : Operand} {r : Nat}

/-- An operand is split for one that is new. -/
theorem Step.upwards (step : W.Step s s') (regular : W.Regular s) (h : s.Upwards) : s'.Upwards := by
  cases step with
  | bind | unbind | move | soil | store | reserve | operand | emit | name | note => exact h
  | @split z key r range found =>
    intro x y next
    rw [State.Next] at next
    dsimp only at next
    rw [lookup_cons_ite] at next
    split at next
    · rename_i here
      cases next
      rw [here]
      exact (regular.keyed found).2.1
    · exact h x y next

theorem Steps.upwards (steps : W.Steps s s') (regular : W.Regular s) (h : s.Upwards) : s'.Upwards := by
  induction steps with
  | refl => exact h
  | tail before step ih => exact step.upwards (Steps.regular before regular) ih

/-- An operand that was made to name a register is in the pool as that register, at the end of the chain of every
operand that it stands for. -/
theorem attach_names (regular : W.Regular s) (h : s.Upwards) (role : s.role x = .abstract key)
    (range : W.InRange r) (same : s.current y = s.current x) :
    (s.attach x key r).2.pool.get ((s.attach x key r).2.current y) = .reg (.physical r) := by
  have upwards := (steps_attach regular range role).1.upwards regular h
  have last := h.current_ends x
  have chain := s.chain_current y
  rw [same] at chain
  unfold State.attach at upwards ⊢
  dsimp only at upwards ⊢
  split at upwards
  · rename_i abstract
    rw [if_pos abstract, upwards.chainsEnd.current_eq chain last]
    exact (Pool.get_set _ _ _ (Pool.inside_of_abstract abstract)).trans (if_pos rfl)
  · rename_i concrete
    rw [if_neg concrete]
    split at upwards
    · rename_i is
      rw [if_pos is, upwards.chainsEnd.current_eq chain last]
      exact is
    · rename_i other
      rw [if_neg other]
      have fresh : s.retarget.lookup s.pool.operands.size = none := by
        cases found : s.retarget.lookup s.pool.operands.size with
        | none => rfl
        | some z =>
          obtain ⟨key, keyed, -⟩ := regular.retarget found
          exact absurd (regular.keyed keyed).2.1 (Nat.lt_irrefl _)
      rw [State.Upwards.current_split upwards (same ▸ rfl) (same ▸ last) fresh]
      exact Pool.get_size_add _ _

/-- Where jumps and calls hold no abstract registers, what is given out stays. -/
theorem Steps.unchanged {words : Nat} (regular : W.Regular s) (emitted : W.Emitted words s)
    (inside : ∀ x, W.Refers x → x < s.pool.operands.size)
    (concrete : ∀ x, W.Leads x → (s.pool.get x).isAbstract = false) (steps : W.Steps s t) : s.Unchanged t := by
  have grown := steps.grown regular
  have same : ∀ i ∈ s.out.toList, ∀ x ∈ i.operands, t.pool.get x = s.pool.get x := fun i mem x use => by
    cases emitted.fits i mem x use with
    | place inside is => exact grown.settled inside is.concrete
    | same refers settled =>
      exact grown.settled (inside x refers) (settled.elim (fun leads => concrete x leads.2) id)
  exact ⟨grown.out, fun i mem => ⟨same i mem, Instruction.text_congr (same i mem)⟩⟩

end Work

end Allocation

/-! ## Blocks -/

namespace Target.Block

open Allocation

variable {b : Block} {n : Nat} {pool : Pool} {frame : Frame} {journal : Journal}

/-- The allocation of a block goes by steps, from one instruction to another and through the operations within
each one.  What is given out at any step stays as it is through all later ones, if jumps and calls hold labels;
chains of splits end; and once an abstract register is attached through an operand, the operand at the end of
its chain is the register that the abstract register is in. -/
theorem emitted_unchanged (inside : ∀ i ∈ b.code, ∀ x ∈ i.operands, x < pool.operands.size)
    (labels : ∀ i ∈ b.code, ∀ x, i.destination? = some x → ∃ l, pool.get x = .label l) :
    (∀ moment s, b.Passes n pool frame journal moment s →
      (b.work n pool).Steps (b.begin n pool frame journal) s ∧
        ∀ b' u, b.allocate n pool frame journal = .ok (b', u) → (b.work n pool).Steps s u) ∧
    (∀ index i s op t, b.Comes n pool frame journal index i s op t →
      (b.work n pool).Steps s t ∧ ∀ t', op.run (b.context n pool) index t = .ok t' →
        (b.work n pool).Steps t t' ∧ ∀ s', s.instruction (b.context n pool) index i = .ok s' →
          (b.work n pool).Steps t' s') ∧
    (∀ s, (b.work n pool).Steps (b.begin n pool frame journal) s →
      s.ChainsEnd ∧ ∀ t, (b.work n pool).Steps s t → s.Unchanged t) ∧
    ∀ index i s x key r t, b.Comes n pool frame journal index i s (.attach x key r) t →
      (t.attach x key r).2.register? key = some r ∧
        (t.attach x key r).2.pool.get ((t.attach x key r).2.current x) = .reg (.physical r) := by
  have upwards : ∀ {s}, (b.work n pool).Steps (b.begin n pool frame journal) s → s.Upwards := fun steps =>
    steps.upwards (.start pool frame journal) fun x y next => by cases next
  refine ⟨fun moment s passes => ⟨passes.steps, fun b' u ok => Passes.leads passes ok⟩,
    fun index i s op t comes => ⟨comes.steps.1, fun t' ran => ⟨comes.run ran, fun s' ok => ?_⟩⟩,
    fun s steps => ⟨(upwards steps).chainsEnd, fun t more => ?_⟩, fun index i s x key r t comes => ?_⟩
  · exact (comes.resumes ran ok).steps
  · have start : (b.work n pool).Regular (b.begin n pool frame journal) := .start pool frame journal
    have grown := steps.grown start
    refine more.unchanged (steps.regular start) (steps.emitted start (.start pool frame journal))
      (fun x refers => ?_) fun x leads => ?_
    · obtain ⟨i, mem, use⟩ := refers
      exact Nat.lt_of_lt_of_le (inside i mem x use) grown.size
    · obtain ⟨i, mem, is⟩ := leads
      obtain ⟨l, label⟩ := labels i mem x is
      refine grown.concrete (s := b.begin n pool frame journal) ?_
      show (pool.get x).isAbstract = false
      rw [label]
      rfl
  · obtain ⟨role, range, held⟩ := comes.steps.2
    refine ⟨?_, Work.attach_names (regular_of_steps comes.reached) (upwards comes.reached) role range rfl⟩
    rw [State.register?, residents_attach]
    exact held

/-- A definition that was given out, in a block that goes on to push what it defines and ends in a jump. -/
theorem emitted_unchanged_defined :
    ∃ s, Block.Passes { name := "b", code := [.mov 0 1, .push 0, .jump 2] } 2
        { operands := #[.reg (.abstract 0), .imm 7, .label { name := "b" }] } {} {} (.allocated 0) s ∧
      s.out.toList.map (·.text s.pool) = ["MOV R1, 7"] ∧
      ∀ t, (Block.work { name := "b", code := [.mov 0 1, .push 0, .jump 2] } 2
        { operands := #[.reg (.abstract 0), .imm 7, .label { name := "b" }] }).Steps s t → s.Unchanged t := by
  have passes : Block.Passes { name := "b", code := [.mov 0 1, .push 0, .jump 2] } 2
      { operands := #[.reg (.abstract 0), .imm 7, .label { name := "b" }] } {} {} (.allocated 0) _ :=
    .instruction .start rfl rfl
  have labels : ∀ i ∈ [Instruction.mov 0 1, .push 0, .jump 2], ∀ x, i.destination? = some x →
      ∃ l, Pool.get { operands := #[.reg (.abstract 0), .imm 7, .label { name := "b" }] } x = .label l := by
    intro i mem x is
    simp only [List.mem_cons, List.not_mem_nil, or_false] at mem
    rcases mem with rfl | rfl | rfl
    · cases is
    · cases is
    · cases is
      exact ⟨_, rfl⟩
  have unchanged := @emitted_unchanged { name := "b", code := [.mov 0 1, .push 0, .jump 2] } 2
    { operands := #[.reg (.abstract 0), .imm 7, .label { name := "b" }] } {} {} (by decide) labels
  exact ⟨_, passes, by decide +kernel, (unchanged.2.2.1 _ (unchanged.1 _ _ passes).1).2⟩

end Target.Block

end Codegen86
