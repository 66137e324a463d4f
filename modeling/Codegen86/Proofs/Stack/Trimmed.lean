import Codegen86.Proofs.Stack.Framing
import Codegen86.Proofs.Stack.Optimized
/-!
# The optimizer keeps functions around their frames

Of a prologue and an epilogue a rule can drop only the instructions that reserve and release the frame, and
only where the frame has no words.  Both are blocks with code, so they are kept, and all that is left between
them was there before (`AllFramed.optimize`).
-/

set_option autoImplicit false

namespace Codegen86.Stack

open Target Peephole Symbolic

variable {pool pool' : Pool} {params : Nat → Prop} {words : Nat} {frame : OperandRef}
  {entry exit_ kept : Bool} {ahead code left : List Instruction} {next : Option String} {t : Function}
  {size : Nat}

/-! ## Dropping an instruction -/

/-- Code that does not begin with a move loses an idle instruction, or a jump that is all of it. -/
theorem idle_of_dropped {i : Instruction} {rest : List Instruction} (dropped : Dropped pool next (i :: rest) left)
    (move : ∀ x y, i ≠ .mov x y) : left = rest ∧ (Idle pool i ∨ rest = [] ∧ ∃ z, i = .jump z) := by
  cases dropped with
  | idle idle => exact ⟨rfl, .inl idle⟩
  | first | second => exact absurd rfl (move _ _)
  | jump => exact ⟨rfl, .inr ⟨rfl, _, rfl⟩⟩

/-- The instruction that reserves or releases the frame is idle only if the frame has no words. -/
theorem zero_of_idle {op : Arith} {stack : OperandRef} (is : pool.get stack = .reg .stackPointer)
    (amount : pool.get frame = .imm (Word.ofNat size)) (small : size < 2 ^ 32) (linear : op = .add ∨ op = .sub)
    (idle : Idle pool (.arith op stack frame)) : size = 0 := by
  have least : (0 : Word) ≤ Word.ofNat size := by
    rw [Int64.le_iff_toInt_le, Word.toInt_ofNat (by omega)]
    exact Int.natCast_nonneg _
  have zero : Word.ofNat size = 0 := by
    rcases linear with rfl | rfl
    · have same := shifts_of_idle idle (.drop is amount (Int64.zero_add _).symm (Int64.le_refl 0))
      exact (Stage.framed.inj same).symm
    · exact Stage.framed.inj (shifts_of_idle idle (.reserve is amount least))
  have same := congrArg Int64.toInt zero
  rw [Word.toInt_ofNat (by omega)] at same
  have : (size : Int) = 0 := same
  omega

theorem contained_of_dropped {get : OperandRef → Operand} {next : Option String}
    (contained : ∀ i ∈ ahead ++ code, Contained get params words i) (dropped : Dropped pool next code left) :
    ∀ i ∈ ahead ++ left, Contained get params words i := by
  intro i mem
  rcases List.mem_append.mp mem with mem | mem
  · exact contained i (List.mem_append_left _ mem)
  · exact contained i (List.mem_append_right _ (mem_of_dropped dropped mem))

/-- What is dropped of code that begins by adjusting the stack pointer is that, or it comes behind. -/
theorem Adjusts.trim {op : Arith} {reserve body : List Instruction} (linear : op = .add ∨ op = .sub)
    (amount : pool.get frame = .imm (Word.ofNat size)) (small : size < 2 ^ 32)
    (h : Adjusts pool.get op frame kept reserve) (split : reserve ++ body = ahead ++ code)
    (dropped : Dropped pool next code left) :
    kept = true ∧ size = 0 ∧ ahead ++ left = body ∨
      ∃ ahead', body = ahead' ++ code ∧ ahead ++ left = reserve ++ (ahead' ++ left) := by
  cases h with
  | dropped => exact .inr ⟨ahead, split, rfl⟩
  | @kept stack is =>
    cases ahead with
    | cons i ahead =>
      obtain ⟨rfl, behind⟩ := List.cons.inj split
      exact .inr ⟨ahead, behind, rfl⟩
    | nil =>
      have split : code = .arith op stack frame :: body := split.symm
      subst split
      obtain ⟨rfl, idle | ⟨-, z, jump⟩⟩ := idle_of_dropped dropped nofun
      · exact .inl ⟨rfl, zero_of_idle is amount small linear idle, rfl⟩
      · cases jump

theorem Enters.trim {body : List Instruction} (amount : pool.get frame = .imm (Word.ofNat size))
    (small : size < 2 ^ 32) (h : Enters pool.get frame kept body (ahead ++ code))
    (contained : ∀ i ∈ body, Contained pool.get params words i) (dropped : Dropped pool next code left) :
    ∃ kept' body', Enters pool.get frame kept' body' (ahead ++ left) ∧
      (∀ i ∈ body', Contained pool.get params words i) ∧ (kept' = kept ∨ size = 0) := by
  obtain ⟨saved, base, top, reserve, split, isSaved, isBase, isTop, adjusts⟩ := h.split
  have enters : ∀ {kept' : Bool} {reserve' body' : List Instruction}, Adjusts pool.get .sub frame kept' reserve' →
      Enters pool.get frame kept' body' (.push saved :: .mov base top :: (reserve' ++ body')) :=
    fun adjusts => ⟨saved, base, top, _, rfl, isSaved, isBase, isTop, adjusts⟩
  have whole : ahead ++ code = .push saved :: .mov base top :: (reserve ++ body) := by
    rw [split, List.append_assoc]
    rfl
  rcases ahead with _ | ⟨i, _ | ⟨j, ahead⟩⟩
  · -- the base pointer is saved
    have whole : code = _ := whole
    subst whole
    obtain ⟨-, idle | ⟨-, z, jump⟩⟩ := idle_of_dropped dropped nofun
    · exact absurd rfl (idle.noPush saved)
    · cases jump
  · -- it is made to point to the top of the stack
    obtain ⟨rfl, second⟩ := List.cons.inj whole
    have second : code = .mov base top :: (reserve ++ body) := second
    generalize behind : reserve ++ body = rest at second
    subst second
    cases dropped with
    | idle idle => exact absurd (shifts_of_idle idle (.base isBase isTop)) nofun
    | first target =>
      cases adjusts with
      | kept is => cases behind
      | dropped =>
        have behind : body = _ := behind
        have owned := (contained _ (by rw [behind]; exact List.mem_cons_self)).writes _ rfl
        rw [← target, isBase] at owned
        exact absurd rfl owned
    | @second rest x₁ y₁ x₂ y₂ =>
      cases adjusts with
      | kept is => cases behind
      | dropped =>
        have behind : body = _ := behind
        refine ⟨false, rest, enters .dropped, fun i mem => contained i ?_, .inl rfl⟩
        rw [behind]
        exact List.mem_cons_of_mem _ mem
  · obtain ⟨rfl, others⟩ := List.cons.inj whole
    obtain ⟨rfl, behind⟩ := List.cons.inj others
    rcases adjusts.trim (.inr rfl) amount small behind.symm dropped with ⟨-, zero, eq⟩ | ⟨ahead', eq, eq'⟩
    · refine ⟨false, body, ?_, contained, .inr zero⟩
      rw [← eq]
      exact enters .dropped
    · refine ⟨kept, ahead' ++ left, ?_, contained_of_dropped (eq ▸ contained) dropped, .inl rfl⟩
      have trimmed := @enters _ _ (ahead' ++ left) adjusts
      rwa [← eq'] at trimmed

theorem Leaves.trim (amount : pool.get frame = .imm (Word.ofNat size)) (small : size < 2 ^ 32)
    (h : Leaves pool.get frame kept (ahead ++ code)) (dropped : Dropped pool next code left) :
    ∃ kept', Leaves pool.get frame kept' (ahead ++ left) ∧ (kept' = kept ∨ size = 0) := by
  obtain ⟨release, saved, split, adjusts, isSaved⟩ := h.split
  rcases adjusts.trim (.inl rfl) amount small split.symm dropped with ⟨-, zero, eq⟩ | ⟨ahead', eq, -⟩
  · exact ⟨false, ⟨[], saved, eq, .dropped, isSaved⟩, .inr zero⟩
  · -- neither the saved base pointer nor the return is dropped
    exfalso
    rcases ahead' with _ | ⟨i, _ | ⟨j, _ | ⟨k, ahead'⟩⟩⟩
    · have eq : code = [.pop saved, .ret] := eq.symm
      subst eq
      obtain ⟨-, idle | ⟨-, z, jump⟩⟩ := idle_of_dropped dropped nofun
      · exact idle.noPop saved rfl
      · cases jump
    · have eq : code = [.ret] := (List.cons.inj eq).2.symm
      subst eq
      obtain ⟨-, idle | ⟨-, z, jump⟩⟩ := idle_of_dropped dropped nofun
      · exact absurd idle.plain (by decide)
      · cases jump
    · have eq : code = [] := (List.cons.inj (List.cons.inj eq).2).2.symm
      subst eq
      cases dropped
    · cases (List.cons.inj (List.cons.inj eq).2).2

/-! ## Functions -/

/-- A rule applied to one block of the function. -/
theorem Framing.applied (h : Framing pool.get params words frame entry exit_ t) {above below : List Block}
    {b : Block} (blocks : t.blocks = above ++ b :: below) (split : b.code = ahead ++ code)
    (dropped : Dropped pool next code left) :
    ∃ entry' exit', Framing pool.get params words frame entry' exit'
      { t with blocks := above ++ { b with code := ahead ++ left } :: below } := by
  obtain ⟨first, body, middle, last, eq, enters, opened, contained, leaves⟩ := h.blocks
  have small := t.frameSize.toNat_lt
  have none : t.frameSize.toNat = 0 → t.frameSize = 0 := fun zero => UInt32.toNat_inj.mp zero
  rw [eq] at blocks
  cases above with
  | nil =>
    -- the first block
    obtain ⟨rfl, rfl⟩ := List.cons.inj blocks
    rw [split] at enters
    obtain ⟨entry', body', enters, opened, same⟩ := enters.trim h.amount small opened dropped
    refine ⟨entry', exit_, h.framed, h.size, h.amount,
      ⟨_, body', middle, last, rfl, enters, opened, contained, leaves⟩, ?_⟩
    rcases same with rfl | zero
    · exact h.empty
    · exact fun _ => none zero
  | cons a above =>
    obtain ⟨rfl, others⟩ := List.cons.inj blocks
    have others : middle ++ [last] = above ++ b :: below := others
    rcases List.eq_nil_or_concat below with rfl | ⟨below, z, rfl⟩
    · -- the last block
      obtain ⟨rfl, ends⟩ := List.append_inj' others rfl
      obtain rfl := List.singleton_inj.mp ends
      rw [split] at leaves
      obtain ⟨exit', leaves, same⟩ := leaves.trim h.amount small dropped
      refine ⟨entry, exit', h.framed, h.size, h.amount,
        ⟨first, body, middle, _, rfl, enters, opened, contained, leaves⟩, ?_⟩
      rcases same with rfl | zero
      · exact h.empty
      · exact fun _ => none zero
    · rw [List.concat_eq_append] at others ⊢
      rw [← List.cons_append, ← List.append_assoc] at others
      obtain ⟨rfl, ends⟩ := List.append_inj' others rfl
      obtain rfl := List.singleton_inj.mp ends
      refine ⟨entry, exit_, h.framed, h.size, h.amount,
        ⟨first, body, above ++ { b with code := ahead ++ left } :: below, last, by simp, enters, opened,
          fun c mem => ?_, leaves⟩, h.empty⟩
      rcases List.mem_append.mp mem with mem | mem
      · exact contained c (List.mem_append_left _ mem)
      · rcases List.mem_cons.mp mem with rfl | mem
        · refine contained_of_dropped ?_ dropped
          rw [← split]
          exact contained b (List.mem_append_right _ List.mem_cons_self)
        · exact contained c (List.mem_append_right _ (List.mem_cons_of_mem _ mem))

/-- The last block is kept, and of those before it the ones with code. -/
theorem compact_concat (blocks : List Block) (last : Block) :
    (compact (blocks ++ [last])).1 = blocks.filter (fun b => !b.code.isEmpty) ++ [last] := by
  induction blocks with
  | nil => rfl
  | cons b rest ih =>
    rw [List.cons_append, compact]
    split
    · rename_i renamed eq
      rw [eq] at ih
      simp at ih
    · rename_i next kept renamed eq
      rw [eq] at ih
      have ih : next :: kept = rest.filter (fun b => !b.code.isEmpty) ++ [last] := ih
      rw [List.filter_cons, ih]
      cases b.code.isEmpty <;> rfl

theorem Framing.compacted {get : OperandRef → Operand} (h : Framing get params words frame entry exit_ t) :
    Framing get params words frame entry exit_ (compacted t) := by
  obtain ⟨first, body, middle, last, eq, enters, opened, contained, leaves⟩ := h.blocks
  obtain ⟨saved, base, top, reserve, code, -⟩ := enters.split
  refine ⟨h.framed, h.size, h.amount, ⟨first, body, middle.filter (fun b => !b.code.isEmpty), last, ?_, enters,
    opened, fun b mem => contained b (List.mem_of_mem_filter mem), leaves⟩, h.empty⟩
  have full : first.code.isEmpty = false := by simp [code]
  rw [Peephole.compacted, eq]
  show (compact (first :: middle ++ [last])).1 = _
  rw [compact_concat, List.filter_cons, full]
  rfl

/-! ## Programs -/

theorem relabels_renameLabels (renamed : List (String × String)) (pool : Pool) (blocks : List Block)
    (x : OperandRef) : Relabels (pool.get x) ((renameLabels renamed pool blocks).get x) := by
  unfold renameLabels
  induction (blocks.flatMap (·.code)).filterMap Instruction.destination? generalizing pool with
  | nil => exact .same
  | cons y rest ih =>
    refine Relabels.trans ?_ (ih (renameRef renamed pool y))
    unfold renameRef
    split
    · rename_i is
      split
      · exact relabels_set is _ x
      · exact .same
    · exact .same

/-- Every function of the program is around a frame as `house` has it for its name. -/
def AllFramed (house : String → (Nat → Prop) → Nat → Prop) (p : Program) : Prop :=
  ∀ t ∈ p.functions, ∃ params words frame entry exit_, house t.name params words ∧
    Framing p.pool.get params words frame entry exit_ t

namespace AllFramed

variable {house : String → (Nat → Prop) → Nat → Prop} {p p' : Program}

theorem applies (h : AllFramed house p) (applies : Applies p p') : AllFramed house p' := by
  obtain ⟨functions, blocks, split, dropped⟩ := applies
  rename_i before after f above below b ahead code rest
  intro g mem
  have old : g = { f with blocks := above ++ { b with code := ahead ++ rest } :: below } ∨
      g ∈ p.functions := by
    rw [functions]
    simp only [List.mem_append, List.mem_cons] at mem ⊢
    rcases mem with mem | mem | mem <;> simp [mem]
  rcases old with rfl | mem
  · obtain ⟨params, words, frame, entry, exit_, housed, framing⟩ := h f (by simp [functions])
    obtain ⟨entry', exit', framing⟩ := framing.applied blocks split dropped
    exact ⟨params, words, frame, entry', exit', housed, framing⟩
  · exact h g mem

theorem compacts (h : AllFramed house p) (compacts : Compacts p p') : AllFramed house p' := by
  obtain ⟨functions⟩ := compacts
  rename_i before after f
  intro g mem
  have old : g = compacted f ∨ g ∈ p.functions := by
    rw [functions]
    simp only [List.mem_append, List.mem_cons] at mem ⊢
    rcases mem with mem | mem | mem <;> simp [mem]
  have relabels := relabels_renameLabels (compact f.blocks).2 p.pool (compact f.blocks).1
  rcases old with rfl | mem
  · obtain ⟨params, words, frame, entry, exit_, housed, framing⟩ := h f (by simp [functions])
    exact ⟨params, words, frame, entry, exit_, housed, framing.compacted.relabel fun x _ => relabels x⟩
  · obtain ⟨params, words, frame, entry, exit_, housed, framing⟩ := h g mem
    exact ⟨params, words, frame, entry, exit_, housed, framing.relabel fun x _ => relabels x⟩

/-- The functions of the optimized program are around their frames. -/
theorem optimize (h : AllFramed house p) (rules : List Rule) (journal : Journal) :
    AllFramed house (optimize rules p journal).1 :=
  optimize_induction (I := AllFramed house) (fun _ _ applies now => now.applies applies)
    (fun _ _ compacts now => now.compacts compacts) rules p journal h

end AllFramed

end Codegen86.Stack
