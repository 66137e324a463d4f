import Codegen86.Allocation.Program
import Codegen86.Proofs.Allocation.Chains
import Codegen86.Proofs.Recordings
/-!
# What allocation records

The allocator writes spills, reloads and eliminated moves into the journal, and the functions it works on, and
nothing else (`Program.allocate_later`).
-/

set_option autoImplicit false

namespace Codegen86

open Target

namespace Allocation.State

/-- The journal of `s` is later than `j`. -/
def Records (j : Journal) (s : State) : Prop := j.Later s.journal

variable {j : Journal} {c : Context} {s s' : State} {key : Operand} {x y : OperandRef} {register index : Nat}

namespace Records

/-! ## Moves between registers and memory -/

theorem of_eq (h : s.Records j) (same : s'.journal = s.journal) : s'.Records j := by
  rw [Records, same]
  exact h

theorem foldl {α : Type} {f : State → α → State} (h : s.Records j) (keeps : ∀ t a, Records j t → Records j (f t a))
    (as : List α) : (as.foldl f s).Records j := by
  induction as generalizing s with
  | nil => exact h
  | cons a rest ih => exact ih (keeps s a h)

theorem spill (h : s.Records j) (key : Operand) (register : Nat) : (s.spill key register).Records j := by
  have reserved : (s.slot key).2.Records j := by
    unfold slot
    split <;> exact h
  exact Journal.Later.write .spill reserved

theorem clean (h : s.Records j) (key : Operand) (register : Nat) : (s.clean key register).Records j := by
  unfold State.clean
  split <;> exact h

theorem writeBackAll (h : s.Records j) : s.writeBackAll.Records j := by
  have forgotten : Records j { s with dirty := [] } := h
  refine forgotten.foldl (fun t key h => ?_) _
  split <;> exact h

theorem vacateOne (h : s.Records j) (c : Context) (index register : Nat) (key : Operand) :
    (vacateOne c index register s key).Records j := by
  unfold State.vacateOne
  dsimp only
  split
  · exact h.clean key register
  · split
    · exact h.spill key register
    · exact h

theorem vacate (h : s.Records j) (c : Context) (register index : Nat) : (s.vacate c register index).Records j :=
  h.foldl (fun _ key h => h.vacateOne c index register key) _

theorem acquire (h : s.Records j) (ok : s.acquire c index = .ok (register, s')) : s'.Records j := by
  rw [Work.acquire_eq] at ok
  obtain ⟨t, evicted, ok⟩ := bind_ok.mp ok
  have evicted : t.Records j := by
    split at evicted
    · unfold evict at evicted
      split at evicted
      · cases evicted
        exact h.vacate c _ index
      · cases evicted
    · cases evicted
      exact h
  split at ok
  · cases ok
    exact evicted
  · cases ok

theorem attach (h : s.Records j) (x : OperandRef) (key : Operand) (register : Nat) :
    (s.attach x key register).2.Records j := by
  unfold State.attach
  dsimp only
  split
  · exact h
  · split <;> exact h

theorem load (h : s.Records j) (ok : s.load c index key = .ok (register, s')) : s'.Records j := by
  unfold State.load at ok
  split at ok
  · cases ok
    exact h
  · split at ok
    · cases ok
    · obtain ⟨⟨r, t⟩, acquired, ok⟩ := bind_ok.mp ok
      cases ok
      have acquired := h.acquire acquired
      exact Journal.Later.write .reload acquired

theorem resolve (h : s.Records j) (ok : s.resolve c index x key = .ok (register, y, s')) : s'.Records j := by
  obtain ⟨⟨r, t⟩, loaded, ok⟩ := bind_ok.mp ok
  have pinned : (t.pin r).Records j := (h.load loaded).of_eq rfl
  cases ok
  exact pinned.attach x key _

theorem use (h : s.Records j) (ok : s.use c index x = .ok (y, s')) : s'.Records j := by
  unfold State.use at ok
  split at ok
  · obtain ⟨⟨r, z, t⟩, resolved, ok⟩ := bind_ok.mp ok
    cases ok
    exact h.resolve resolved
  · split at ok <;> cases ok <;> exact h
  · cases ok
    exact h

theorem eliminate (h : s.Records j) : s.eliminate.Records j := Journal.Later.write .eliminated h

theorem separate (h : s.Records j) (c : Context) (index register : Nat) (owner : Operand) :
    (s.separate c index register owner).Records j := by
  refine h.foldl (fun t key h => ?_) _
  unfold separateOne
  split
  · exact h
  · split
    · exact h.clean key register
    · split
      · split
        · exact h
        · exact h.spill key register
      · exact h

theorem releaseDead (h : s.Records j) (c : Context) (index : Nat) : (s.releaseDead c index).Records j := by
  refine h.foldl (fun t key h => ?_) _
  unfold releaseOne
  split
  · exact h
  · dsimp only
    split
    · exact h.clean key _
    · exact h

/-! ## Instructions -/

theorem defineByMove (h : s.Records j) (ok : s.defineByMove c index x key y = .ok (register, s')) :
    s'.Records j := by
  obtain ⟨⟨r, t⟩, acquired, ok⟩ := bind_ok.mp ok
  have bound : ((t.pin r).bind key r).Records j := (h.acquire acquired).of_eq rfl
  cases ok
  exact bound.attach x key _

theorem defineByAlias (h : s.Records j) (x : OperandRef) (key : Operand) (register : Nat) :
    (s.defineByAlias x key register).Records j := by
  have bound : (s.bind key register).Records j := h
  exact (bound.attach x key register).eliminate

theorem moveToRegister (h : s.Records j) (ok : s.moveToRegister c index x key y = .ok s') : s'.Records j := by
  unfold State.moveToRegister at ok
  split at ok
  · cases ok
    exact h.eliminate
  · split at ok
    · obtain ⟨⟨r, z, t⟩, resolved, ok⟩ := bind_ok.mp ok
      cases ok
      exact (h.resolve resolved).defineByAlias x key r
    · split at ok
      · cases ok
        exact h.defineByAlias x key _
      · obtain ⟨⟨r, t⟩, moved, ok⟩ := bind_ok.mp ok
        have moved := h.defineByMove moved
        cases ok
        split <;> exact moved
    · obtain ⟨⟨r, t⟩, moved, ok⟩ := bind_ok.mp ok
      cases ok
      exact h.defineByMove moved

theorem moveToMemory (h : s.Records j) (ok : s.moveToMemory c index x key y = .ok s') : s'.Records j := by
  unfold State.moveToMemory at ok
  split at ok
  · obtain ⟨⟨r, z, t⟩, resolved, ok⟩ := bind_ok.mp ok
    have resolved := h.resolve resolved
    cases ok
    split
    · have marked : ((t.bind key r).markDirty key).Records j := resolved
      exact marked.eliminate
    · exact resolved
  all_goals
    obtain ⟨⟨z, t⟩, used, ok⟩ := bind_ok.mp ok
    have used := h.use used
    cases ok
    exact used

theorem move (h : s.Records j) (ok : s.move c index x y = .ok s') : s'.Records j := by
  unfold State.move at ok
  split at ok
  · exact h.moveToRegister ok
  · exact h.moveToMemory ok
  · obtain ⟨⟨z, t⟩, used, ok⟩ := bind_ok.mp ok
    have used := h.use used
    cases ok
    exact used

theorem arith {op : Arith} (h : s.Records j) (ok : s.arith c index op x y = .ok s') : s'.Records j := by
  obtain ⟨⟨z, t⟩, used, ok⟩ := bind_ok.mp ok
  have used := h.use used
  dsimp only at ok
  split at ok
  · obtain ⟨⟨r, target, u⟩, resolved, ok⟩ := bind_ok.mp ok
    cases ok
    exact (used.resolve resolved).separate c index r _
  · cases ok
    split
    · exact used.clean _ _
    · exact used
  · cases ok
    exact used

theorem pop (h : s.Records j) (ok : s.pop c index x = .ok s') : s'.Records j := by
  unfold State.pop at ok
  split at ok
  · rename_i key _
    obtain ⟨⟨r, t⟩, acquired, ok⟩ := bind_ok.mp ok
    have bound : (t.bind key r).Records j := (h.acquire acquired).of_eq rfl
    cases ok
    exact bound.attach x key r
  all_goals
    cases ok
    exact h

theorem vacateAll (h : s.Records j) (c : Context) (index : Nat) : (s.vacateAll c index).Records j := by
  refine h.foldl (fun t register h => ?_) _
  split
  · exact h
  · exact h.vacate c register index

theorem instruction {i : Instruction} (h : s.Records j) (ok : s.instruction c index i = .ok s') :
    s'.Records j := by
  have fresh : Records j { s with pinned := .empty } := h
  unfold State.instruction at ok
  dsimp only at ok
  split at ok
  · obtain ⟨⟨x, t⟩, used, ok⟩ := bind_ok.mp ok
    have used := fresh.use used
    cases ok
    exact used
  · exact fresh.pop ok
  · exact fresh.move ok
  · obtain ⟨⟨x, t⟩, used, ok⟩ := bind_ok.mp ok
    obtain ⟨⟨y, u⟩, used', ok⟩ := bind_ok.mp ok
    have used := (fresh.use used).use used'
    cases ok
    exact used
  · exact fresh.arith ok
  · cases ok
    exact fresh.vacateAll c index
  · cases ok
    exact fresh

theorem instructions {closing : Nat} {code : List Instruction} (h : s.Records j)
    (ok : s.instructions c closing index code = .ok s') : s'.Records j := by
  have stored : (if closing = index then s.writeBackAll else s).Records j := by
    split
    · exact h.writeBackAll
    · exact h
  induction code generalizing s index with
  | nil =>
    cases ok
    exact stored
  | cons i rest ih =>
    obtain ⟨t, one, ok⟩ := bind_ok.mp ok
    have released := (stored.instruction one).releaseDead c index
    refine ih released ok ?_
    split
    · exact released.writeBackAll
    · exact released

end Records

end Allocation.State

namespace Target

open Allocation

variable {registers : Nat} {pool pool' : Pool} {journal journal' : Journal}

theorem Block.allocate_later {b b' : Block} {frame : Frame} {s : State}
    (ok : b.allocate registers pool frame journal = .ok (b', s)) : journal.Later s.journal := by
  obtain ⟨t, all, ok⟩ := bind_ok.mp ok
  obtain ⟨u, finished, ok⟩ := bind_ok.mp ok
  cases ok
  have start : ∀ c, (State.start c pool frame journal).Records journal := fun _ => .refl
  unfold State.finish at finished
  dsimp only at finished
  split at finished
  · cases finished
    exact (start _).instructions all
  · cases finished

theorem Function.allocateBlocks_later {blocks blocks' : List Block} {frame frame' : Frame}
    (ok : allocateBlocks registers pool frame journal blocks = .ok (blocks', pool', frame', journal')) :
    journal.Later journal' := by
  induction blocks generalizing pool frame journal blocks' with
  | nil =>
    cases ok
    exact .refl
  | cons b rest ih =>
    obtain ⟨⟨b', s⟩, one, ok⟩ := bind_ok.mp ok
    obtain ⟨⟨rest', _, _, _⟩, others, ok⟩ := bind_ok.mp ok
    cases ok
    exact (b.allocate_later one).trans (ih others)

theorem Function.allocate_later {f f' : Function}
    (ok : f.allocate registers pool journal = .ok (f', pool', journal')) : journal.Later journal' := by
  obtain ⟨⟨blocks, _, _, _⟩, all, ok⟩ := bind_ok.mp ok
  cases ok
  have entered : journal.Later (journal.enter f.name) := .write (.enter f.name) .refl
  exact entered.trans (allocateBlocks_later all)

theorem Program.allocateFunctions_later {functions functions' : List Function}
    (ok : allocateFunctions registers pool journal functions = .ok (functions', pool', journal')) :
    journal.Later journal' := by
  induction functions generalizing pool journal functions' with
  | nil =>
    cases ok
    exact .refl
  | cons f rest ih =>
    obtain ⟨⟨f', _, _⟩, one, ok⟩ := bind_ok.mp ok
    obtain ⟨⟨rest', _, _⟩, others, ok⟩ := bind_ok.mp ok
    cases ok
    exact (f.allocate_later one).trans (ih others)

/-- Allocation only records. -/
theorem Program.allocate_later {p q : Program} (ok : p.allocate registers journal = .ok (q, journal')) :
    journal.Later journal' := by
  obtain ⟨⟨functions, _, _⟩, all, ok⟩ := bind_ok.mp ok
  cases ok
  exact allocateFunctions_later all

end Target

end Codegen86
