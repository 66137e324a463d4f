import Codegen86.Proofs.Peephole.Passes
import Codegen86.Proofs.Stack.Stages
/-!
# The optimizer keeps the stack balanced

What a rule drops shifts no stage, and the block that stands in for a removed one is never the first of its
function.  So functions that leave the stack as they found it still do after the optimizer.
-/

set_option autoImplicit false

namespace Codegen86.Stack

open Target Peephole Symbolic

variable {pool : Pool} {home k k' : Stage}

/-- A state that tells which instructions change the pointers. -/
def probe : View :=
  { general := fun _ => 0
    locals := fun _ => 0
    stackPointer := 0
    basePointer := 1
    memory := fun _ => 0
    flags := .eq }

/-- An instruction without effect shifts no stage. -/
theorem shifts_of_idle {i : Instruction} (idle : Idle pool i) (h : Shifts pool.get k i k') : k' = k := by
  have nothing := @idle.same (.ideal false) probe
  cases h with
  | save base => exact absurd rfl (idle.noPush _)
  | base target source =>
    have done := @nothing { probe with basePointer := 0 } (by simp [View.execute, target, source,
      View.read, View.register, View.write, View.setRegister, bind, Except.bind, probe])
    exact absurd (congrArg View.basePointer done) (by decide)
  | @reserve x y w target amount least =>
    have done := @nothing { probe with stackPointer := 0 - w } (by simp [View.execute, target, amount,
      View.read, View.register, View.write, View.setRegister, Arith.eval, bind, Except.bind, probe])
    have zero : 0 - w = 0 := congrArg View.stackPointer done
    have : w = 0 := by grind
    rw [this]
  | @drop x y u v w target amount sum least =>
    have done := @nothing { probe with stackPointer := 0 + w } (by simp [View.execute, target, amount,
      View.read, View.register, View.write, View.setRegister, Arith.eval, bind, Except.bind, probe])
    have zero : 0 + w = 0 := congrArg View.stackPointer done
    have : u = v := by grind
    rw [this]
  | push source => exact absurd rfl (idle.noPush _)
  | neutral neutral => rfl
  | call => exact absurd idle.plain (by simp [Instruction.isPlain])
  | jump => exact absurd idle.plain (by simp [Instruction.isPlain])
  | jumpIf => rfl
  | restore base => exact absurd rfl (idle.noPop _)
  | ret => exact absurd idle.plain (by simp [Instruction.isPlain])

/-- A move leads to the stage it starts from, or makes the base pointer point to the top of the stack. -/
theorem shifts_mov {x y : OperandRef} (h : Shifts pool.get k (.mov x y) k') :
    (∃ w, k = .framed w ∧ k' = .framed w ∧ pool.get x ≠ .reg .basePointer) ∨
      k = .saved ∧ pool.get x = .reg .basePointer := by
  cases h with
  | base target source => exact .inr ⟨rfl, target⟩
  | neutral neutral =>
    cases neutral with
    | mov target source =>
      refine .inl ⟨_, rfl, rfl, fun is => ?_⟩
      rw [is] at target
      exact target

/-- Code without what a rule drops leads to the same stage. -/
theorem flow_of_dropped {next : Option String} {code rest : List Instruction}
    (dropped : Dropped pool next code rest) (h : Flow pool.get home k code home) :
    Flow pool.get home k rest home := by
  cases dropped with
  | idle idle =>
    cases h with
    | cons head jumps tail =>
      rw [shifts_of_idle idle head] at tail
      exact tail
  | first target unread =>
    cases h with
    | cons head jumps tail =>
      rcases shifts_mov head with ⟨w, rfl, rfl, -⟩ | ⟨rfl, is⟩
      · exact tail
      · -- the base pointer is not written again
        cases head with
        | base =>
          cases tail with
          | cons second =>
            rcases shifts_mov second with ⟨w, -, -, other⟩ | ⟨stage, -⟩
            · exact absurd (target ▸ is) other
            · cases stage
  | second there back keeps =>
    cases h with
    | cons head jumps tail =>
      cases tail with
      | cons second jumps' rest =>
        rcases shifts_mov second with ⟨w, rfl, rfl, -⟩ | ⟨rfl, -⟩
        · exact .cons head jumps rest
        · cases head
  | jump label follows =>
    cases h with
    | cons head jumps tail =>
      rw [jumps rfl]
      exact .nil

theorem mem_of_dropped {next : Option String} {code rest : List Instruction}
    (dropped : Dropped pool next code rest) {i : Instruction} (mem : i ∈ rest) : i ∈ code := by
  cases dropped with
  | idle => exact List.mem_cons_of_mem _ mem
  | first => exact List.mem_cons_of_mem _ mem
  | second =>
    rcases List.mem_cons.mp mem with rfl | mem
    · exact List.mem_cons_self
    · exact List.mem_cons_of_mem _ (List.mem_cons_of_mem _ mem)
  | jump => cases mem

/-- A block with less code in the place of a block. -/
theorem Framed.applied {w : Word} {first b : Block} {rest above below : List Block}
    {ahead code left : List Instruction} {next : Option String} (h : Framed pool.get w first rest)
    (blocks : first :: rest = above ++ b :: below) (split : b.code = ahead ++ code)
    (dropped : Dropped pool next code left) :
    ∃ first' rest', above ++ { b with code := ahead ++ left } :: below = first' :: rest' ∧
      Framed pool.get w first' rest' := by
  have shorter : ∀ {k : Stage}, Flow pool.get (.framed w) k b.code (.framed w) →
      Flow pool.get (.framed w) k (ahead ++ left) (.framed w) := by
    intro k flow
    rw [split] at flow
    obtain ⟨k', before, behind⟩ := flow.split
    exact before.append (flow_of_dropped dropped behind)
  have fewer : ∀ {i}, i ∈ ahead ++ left → i ∈ b.code := by
    intro i mem
    rw [split]
    rcases List.mem_append.mp mem with mem | mem
    · exact List.mem_append_left _ mem
    · exact List.mem_append_right _ (mem_of_dropped dropped mem)
  have here : b ∈ first :: rest := by
    rw [blocks]
    simp
  cases above with
  | nil =>
    cases blocks
    refine ⟨_, _, rfl, shorter h.enters, h.stays, fun c mem => ?_⟩
    rcases List.mem_cons.mp mem with rfl | mem
    · exact fun i code => h.apart _ here i (fewer code)
    · exact h.apart c (List.mem_cons_of_mem _ mem)
  | cons a above =>
    cases blocks
    have old : ∀ {c}, c ∈ above ++ { b with code := ahead ++ left } :: below →
        c = { b with code := ahead ++ left } ∨ c ∈ above ++ b :: below := by
      intro c mem
      simp only [List.mem_append, List.mem_cons] at mem ⊢
      rcases mem with mem | mem | mem <;> simp [mem]
    refine ⟨_, _, rfl, h.enters, fun c mem => ?_, fun c mem => ?_⟩
    · rcases old mem with rfl | mem
      · exact shorter (h.stays b (by simp))
      · exact h.stays c mem
    · rcases List.mem_cons.mp mem with rfl | mem
      · exact h.apart c List.mem_cons_self
      · rcases old mem with rfl | mem
        · exact fun i code => h.apart b here i (fewer code)
        · exact h.apart c (List.mem_cons_of_mem _ mem)

variable {p p' : Program}

theorem AllBalanced.applies (h : AllBalanced p) (applies : Applies p p') : AllBalanced p' := by
  obtain ⟨functions, blocks, split, dropped⟩ := applies
  rename_i before after f above below b ahead code rest
  intro g mem
  have old : g = { f with blocks := above ++ { b with code := ahead ++ rest } :: below } ∨
      g ∈ p.functions := by
    rw [functions]
    simp only [List.mem_append, List.mem_cons] at mem ⊢
    rcases mem with mem | mem | mem <;> simp [mem]
  rcases old with rfl | mem
  · obtain ⟨w, first, others, eq, framed⟩ := h f (by simp [functions])
    obtain ⟨first', others', eq', framed'⟩ := framed.applied (eq.symm.trans blocks) split dropped
    exact ⟨w, first', others', eq', framed'⟩
  · exact h g mem

/-! ## Empty blocks -/

theorem compact_sublist (blocks : List Block) : (compact blocks).1.Sublist blocks := by
  induction blocks with
  | nil => exact .slnil
  | cons b rest ih =>
    unfold compact
    split
    · exact .cons_cons _ (List.nil_sublist _)
    · rename_i next kept renamed eq
      rw [eq] at ih
      split
      · exact .cons _ ih
      · exact .cons_cons _ ih

/-- A first block with code is kept. -/
theorem compact_full {first : Block} (full : first.code ≠ []) (rest : List Block) :
    compact (first :: rest) = (first :: (compact rest).1, (compact rest).2) := by
  rw [compact]
  split
  · rename_i renamed eq
    rw [eq]
  · rename_i next kept renamed eq
    rw [if_neg (by simpa using full), eq]

theorem AllBalanced.compacts (h : AllBalanced p) (linkable : p.Linkable) (compacts : Compacts p p') :
    AllBalanced p' := by
  obtain ⟨functions⟩ := compacts
  rename_i before after f
  have here : f ∈ p.functions := by simp [functions]
  have distinct := function_distinct linkable here
  -- operands other than labels stay
  have plain : ∀ i ∈ p.code, i.isPlain = true → ∀ x ∈ i.operands,
      (compactedProgram p before after f).pool.get x = p.pool.get x := by
    intro i mem plain x use
    refine (get_renameLabels (List.nodup_cons.mp distinct).2 p.pool x).trans ?_
    split
    · exact renameOperand_other (linkable.labels i mem plain x use)
    · rfl
  have flow : ∀ {g : Function} {b : Block} {home k k' : Stage}, g ∈ p.functions → b ∈ g.blocks →
      Flow p.pool.get home k b.code k' →
      Flow (compactedProgram p before after f).pool.get home k b.code k' := by
    intro g b home k k' function block flow
    refine flow.congr fun i mem => plain i ?_
    exact List.mem_flatMap.mpr ⟨g, function, List.mem_flatMap.mpr ⟨b, block, mem⟩⟩
  have label : ∀ {g : Function} {b : Block} {i : Instruction}, g ∈ p.functions → b ∈ g.blocks →
      i ∈ b.code → i.isJump = true → ∀ x ∈ i.operands, ∀ l,
      (compactedProgram p before after f).pool.get x = .label l → p.pool.get x = .label l ∨
        g = f ∧ ∃ name, (compact f.blocks).2.lookup name = some l.name := by
    intro g b i function block mem jump x use l is
    have code : i ∈ g.code := List.mem_flatMap.mpr ⟨b, block, mem⟩
    have dest : i.destination? = some x := by
      cases i <;> simp_all [Instruction.destination?, Instruction.operands, Instruction.isJump]
    obtain ⟨l', old, -⟩ := linkable.jumps g function i code jump x use
    rcases compactedProgram_label linkable functions function code dest old with
      ⟨-, same⟩ | ⟨-, eq, new, renamed, same⟩
    · rw [same] at is
      cases is
      exact .inl old
    · rw [same] at is
      cases is
      exact .inr ⟨eq, l'.name, renamed⟩
  intro g mem
  rcases mem_compactedProgram linkable functions mem with rfl | ⟨function, other⟩
  · obtain ⟨w, first, rest, eq, framed⟩ := h f here
    have shape := compact_full framed.full rest
    have kept : ∀ {b}, b ∈ (compact rest).1 → b ∈ rest := fun mem => (compact_sublist rest).subset mem
    have mem_f : ∀ {b}, b ∈ first :: (compact rest).1 → b ∈ first :: rest := fun mem =>
      (List.mem_cons.mp mem).elim (fun e => e ▸ List.mem_cons_self)
        fun mem => List.mem_cons_of_mem _ (kept mem)
    refine ⟨w, first, (compact rest).1, by rw [compacted, eq, shape], ?_, fun b mem => ?_,
      fun b mem i code jump x use l is => ?_⟩
    · exact flow here (by simp [eq]) framed.enters
    · exact flow here (by rw [eq]; exact List.mem_cons_of_mem _ (kept mem)) (framed.stays b (kept mem))
    · rcases label here (by rw [eq]; exact mem_f mem) code jump x use l is with
        same | ⟨-, name, renamed⟩
      · exact framed.apart b (mem_f mem) i code jump x use l same
      · -- the block that stands in comes behind the first
        rw [eq, shape] at renamed
        obtain ⟨a, -, new⟩ := compact_renamed (a := 0) (mem_of_lookup renamed)
        have new := List.mem_map_of_mem (f := (·.1)) new
        rw [blockLabels_names] at new
        intro same
        dsimp only at new
        rw [same] at new
        have blocks := (List.nodup_cons.mp distinct).2
        rw [eq, List.map_cons] at blocks
        exact (List.nodup_cons.mp blocks).1 (((compact_sublist rest).map _).subset new)
  · obtain ⟨w, first, rest, eq, framed⟩ := h g function
    refine ⟨w, first, rest, eq, ?_, fun b mem => ?_, fun b mem i code jump x use l is => ?_⟩
    · exact flow function (by simp [eq]) framed.enters
    · exact flow function (by rw [eq]; exact List.mem_cons_of_mem _ mem) (framed.stays b mem)
    · rcases label function (by rw [eq]; exact mem) code jump x use l is with old | ⟨same, -⟩
      · exact framed.apart b mem i code jump x use l old
      · exact absurd same other

/-- The functions of the optimized program leave the stack as they found it. -/
theorem AllBalanced.optimize (h : AllBalanced p) (linkable : p.Linkable) (rules : List Rule)
    (journal : Journal) : AllBalanced (optimize rules p journal).1 :=
  (optimize_induction (I := fun p => p.Linkable ∧ AllBalanced p)
    (fun _ _ applies now => ⟨applies.linkable now.1, now.2.applies applies⟩)
    (fun _ _ compacts now => ⟨compacts.linkable now.1, now.2.compacts now.1 compacts⟩) rules p journal
    ⟨linkable, h⟩).2

end Codegen86.Stack
