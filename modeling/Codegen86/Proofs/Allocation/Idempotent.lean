import Codegen86.Proofs.Allocation.Emitted
import Mathlib
/-!
# Allocating once and for all

What the allocation of a program gives out is all physical: registers that are allocated or that the program
named itself, its own words of memory, and slots below the frames.  Code like that is given out as it is,
and the immediates that reserve the frames are set to what they are; so allocating the program again
changes nothing (`Program.allocate_sound`).
-/

set_option autoImplicit false

namespace Codegen86.Target

open Allocation

/-! ## Frames -/

theorem Pool.ext_get {p q : Pool} (size : p.operands.size = q.operands.size)
    (get : ∀ x, x < p.operands.size → p.get x = q.get x) : p = q := by
  have same : p.operands = q.operands := Array.ext size fun x inside inside' => by
    simpa [Pool.get, inside, inside'] using get x inside
  cases p
  cases q
  cases same
  rfl

/-- Set the immediate that reserves the frame of a function. -/
def Function.setFrame (f : Function) (pool : Pool) : Pool :=
  match f.frame with
  | some x => pool.set x (.imm (Frame.size { words := f.frameSize }))
  | none => pool

/-- Set the immediates of functions, one after another. -/
def Program.setFrames (functions : List Function) (pool : Pool) : Pool :=
  functions.foldl (fun pool f => f.setFrame pool) pool

namespace Program

variable {f : Function} {functions : List Function} {p q : Pool} {x : OperandRef}

@[simp] theorem size_setFrame (f : Function) (q : Pool) : (f.setFrame q).operands.size = q.operands.size := by
  unfold Function.setFrame
  split
  · simp [Pool.set]
  · rfl

@[simp] theorem size_setFrames (functions : List Function) (q : Pool) :
    (setFrames functions q).operands.size = q.operands.size := by
  induction functions generalizing q with
  | nil => rfl
  | cons f rest ih => exact (ih _).trans (size_setFrame f q)

theorem get_setFrame (f : Function) (inside : x < q.operands.size) :
    (f.setFrame q).get x =
      if f.frame = some x then .imm (Frame.size { words := f.frameSize }) else q.get x := by
  unfold Function.setFrame
  cases frame : f.frame with
  | none => simp
  | some y =>
    dsimp only
    by_cases same : x = y
    · subst same
      rw [q.get_set _ _ inside, if_pos rfl, if_pos rfl]
    · rw [if_neg fun eq => same (Option.some.inj eq).symm]
      by_cases inside' : y < q.operands.size
      · rw [q.get_set _ _ inside', if_neg same]
      · simp [Pool.set, Array.setIfInBounds, inside']

theorem get_setFrames_of_not (other : ∀ f ∈ functions, f.frame ≠ some x) (inside : x < q.operands.size) :
    (setFrames functions q).get x = q.get x := by
  induction functions generalizing q with
  | nil => rfl
  | cons f rest ih =>
    have first := get_setFrame f inside
    rw [if_neg (other f List.mem_cons_self)] at first
    rw [← first]
    exact ih (fun g mem => other g (List.mem_cons_of_mem _ mem)) (by simpa using inside)

/-- The last function that has the frame decides what its immediate is. -/
theorem get_setFrames_of_mem (there : ∃ f ∈ functions, f.frame = some x) (inside : x < p.operands.size)
    (inside' : x < q.operands.size) : (setFrames functions p).get x = (setFrames functions q).get x := by
  induction functions generalizing p q with
  | nil =>
    obtain ⟨f, mem, -⟩ := there
    cases mem
  | cons f rest ih =>
    show (setFrames rest (f.setFrame p)).get x = (setFrames rest (f.setFrame q)).get x
    by_cases later : ∃ g ∈ rest, g.frame = some x
    · exact ih later (by simpa using inside) (by simpa using inside')
    · have none : ∀ g ∈ rest, g.frame ≠ some x := fun g mem frame => later ⟨g, mem, frame⟩
      obtain ⟨g, mem, frame⟩ := there
      obtain rfl := (List.mem_cons.mp mem).resolve_right fun mem => none g mem frame
      rw [get_setFrames_of_not none (by simpa using inside), get_setFrames_of_not none (by simpa using inside'),
        get_setFrame g inside, get_setFrame g inside', if_pos frame, if_pos frame]

/-- A frame that one function alone has is that function's. -/
theorem get_setFrames_alone {k : Nat} (here : functions[k]? = some f) (frame : f.frame = some x)
    (alone : ∀ k' g, functions[k']? = some g → g.frame = some x → k' = k) (inside : x < q.operands.size) :
    (setFrames functions q).get x = .imm (Frame.size { words := f.frameSize }) := by
  induction functions generalizing k q with
  | nil => cases here
  | cons g rest ih =>
    show (setFrames rest (g.setFrame q)).get x = _
    cases k with
    | zero =>
      obtain rfl : g = f := by simpa using here
      have none : ∀ h ∈ rest, h.frame ≠ some x := fun h mem frame' => by
        obtain ⟨k', at_⟩ := List.getElem?_of_mem mem
        cases alone (k' + 1) h at_ frame'
      rw [get_setFrames_of_not none (by simpa using inside), get_setFrame g inside, if_pos frame]
    | succ k =>
      refine ih here (fun k' h at_ frame' => ?_) (by simpa using inside)
      exact Nat.succ.inj (alone (k' + 1) h at_ frame')

/-- Setting immediates makes nothing abstract. -/
theorem setFrame_concrete (f : Function) (concrete : (q.get x).isAbstract = false) :
    ((f.setFrame q).get x).isAbstract = false := by
  by_cases inside : x < q.operands.size
  · rw [get_setFrame f inside]
    split
    · rfl
    · exact concrete
  · refine Bool.eq_false_iff.mpr fun abstract => inside ?_
    simpa using Pool.inside_of_abstract abstract

end Program

/-! ## Allocating code that names no abstract register -/

namespace Function

variable {n : Nat} {pool : Pool} {blocks : List Block} {f : Function}

theorem allocateBlocks_plain (few : blocks ≠ [] → n ≤ RegisterSet.largest)
    (plain : ∀ b ∈ blocks, ∀ i ∈ b.code, Plain pool i) (frame : Frame) (journal : Journal) :
    allocateBlocks n pool frame journal blocks = .ok (blocks, pool, frame, journal) := by
  induction blocks with
  | nil => rfl
  | cons b rest ih =>
    have few := few (by simp)
    obtain ⟨s, ok, rfl, rfl, rfl⟩ := Block.allocate_plain few (plain b List.mem_cons_self) frame journal
    have rest_eq := ih (fun _ => few) fun b mem => plain b (List.mem_cons_of_mem _ mem)
    simp only [allocateBlocks, ok, rest_eq, bind, Except.bind, pure, Except.pure]

theorem allocate_plain (few : f.blocks ≠ [] → n ≤ RegisterSet.largest)
    (plain : ∀ i ∈ f.code, Plain pool i) (journal : Journal) :
    f.allocate n pool journal = .ok (f, f.setFrame pool, journal.enter f.name) := by
  have blocks := allocateBlocks_plain few
    (fun b mem i use => plain i (List.mem_flatMap.mpr ⟨b, mem, use⟩)) { words := f.frameSize }
    (journal.enter f.name)
  simp only [allocate, blocks, bind, Except.bind, pure, Except.pure]
  rfl

end Function

theorem Program.allocateFunctions_plain {n : Nat} {pool : Pool} {functions : List Function}
    (few : ∀ f ∈ functions, f.blocks ≠ [] → n ≤ RegisterSet.largest)
    (plain : ∀ f ∈ functions, ∀ i ∈ f.code, Plain pool i) (journal : Journal) :
    ∃ journal', allocateFunctions n pool journal functions =
      .ok (functions, setFrames functions pool, journal') := by
  induction functions generalizing pool journal with
  | nil => exact ⟨journal, rfl⟩
  | cons f rest ih =>
    have still : ∀ g ∈ rest, ∀ i ∈ g.code, Plain (f.setFrame pool) i := fun g mem i use none x operand =>
      setFrame_concrete f (plain g (List.mem_cons_of_mem _ mem) i use none x operand)
    obtain ⟨journal', rest_eq⟩ :=
      ih (fun g mem => few g (List.mem_cons_of_mem _ mem)) still (journal.enter f.name)
    refine ⟨journal', ?_⟩
    simp only [allocateFunctions, Function.allocate_plain (few f List.mem_cons_self)
      (plain f List.mem_cons_self), rest_eq, bind, Except.bind, pure, Except.pure]
    rfl

/-! ## What is given out for functions -/

/-- The slots that the allocation of blocks reserves. -/
def Function.slotsReserved (n : Nat) (pool : Pool) (frame : Frame) (journal : Journal) : List Block → Nat
  | [] => 0
  | b :: rest =>
    match b.allocate n pool frame journal with
    | .ok (_, s) => s.slots.length + slotsReserved n s.pool s.frame s.journal rest
    | .error _ => 0

/-- Whether all frames stay below 2^32 words. -/
def Program.framesFit (n : Nat) (pool : Pool) (journal : Journal) : List Function → Bool
  | [] => true
  | f :: rest =>
    f.frameSize.toNat + Function.slotsReserved n pool { words := f.frameSize } (journal.enter f.name) f.blocks <
        2 ^ 32 &&
      match f.allocate n pool journal with
      | .ok (_, pool, journal) => framesFit n pool journal rest
      | .error _ => true

theorem Function.allocateBlocks_supplies {n words : Nat} {pool pool' p : Pool} {frame frame' : Frame}
    {journal journal' : Journal} {blocks blocks' : List Block} {given : Operand → Prop}
    {frames : OperandRef → Prop}
    (ok : allocateBlocks n pool frame journal blocks = .ok (blocks', pool', frame', journal'))
    (settles : Settles n frames p pool)
    (own : ∀ b ∈ blocks, ∀ i ∈ b.code, ∀ x ∈ i.operands, x < p.operands.size ∧ given (p.get x))
    (size : frame.words.toNat = words % 2 ^ 32) :
    let count := slotsReserved n pool frame journal blocks
    Settles n (fun _ => False) pool pool' ∧ frame'.words.toNat = (words + count) % 2 ^ 32 ∧
      (blocks' ≠ [] → n ≤ RegisterSet.largest) ∧
      ∀ b ∈ blocks', ∀ i ∈ b.code, ∀ x ∈ i.operands, x < pool'.operands.size ∧
        (i.destination? = none → Supplied given n words count (pool'.get x)) := by
  induction blocks generalizing words pool frame journal blocks' with
  | nil =>
    cases ok
    exact ⟨.refl _, size, fun some => absurd rfl some, fun b mem => by cases mem⟩
  | cons b rest ih =>
    obtain ⟨⟨b', s⟩, here, ok⟩ := bind_ok.mp ok
    obtain ⟨⟨rest', pool₁, frame₁, journal₁⟩, there, ok⟩ := bind_ok.mp ok
    cases ok
    have count : slotsReserved n pool frame journal (b :: rest) =
        s.slots.length + slotsReserved n s.pool s.frame s.journal rest := by
      rw [slotsReserved, here]
    obtain ⟨first, words_eq, supplied⟩ :=
      Block.allocate_supplies here settles (own b List.mem_cons_self) size
    have onward : Settles n frames p s.pool := settles.trans (first.mono fun _ => False.elim)
    obtain ⟨more, words_eq', -, supplied'⟩ :=
      ih there onward (fun b mem => own b (List.mem_cons_of_mem _ mem)) words_eq
    dsimp only
    rw [count]
    refine ⟨first.trans more, by rw [words_eq', Nat.add_assoc], fun _ => (Block.steps_of_allocate here).2.1,
      fun c mem i use x operand => ?_⟩
    rcases List.mem_cons.mp mem with rfl | mem
    · obtain ⟨inside, out⟩ := supplied i use x operand
      exact ⟨Nat.lt_of_lt_of_le inside more.size, fun none =>
        more.supplied inside ((out none).mono (Nat.le_refl _) (by omega))⟩
    · obtain ⟨inside, out⟩ := supplied' c mem i use x operand
      exact ⟨inside, fun none => (out none).mono (by omega) (by omega)⟩

/-- A function and what its allocation gave out, over the pool `q`. -/
structure Function.Allocated (given : Operand → Prop) (n : Nat) (q : Pool) (f f' : Function) (count : Nat) :
    Prop where
  name : f'.name = f.name
  frame : f'.frame = f.frame
  size : f'.frameSize.toNat = (f.frameSize.toNat + count) % 2 ^ 32
  few : f'.blocks ≠ [] → n ≤ RegisterSet.largest
  supplied : ∀ i ∈ f'.code, ∀ x ∈ i.operands, x < q.operands.size ∧
    (i.destination? = none → Supplied given n f.frameSize.toNat count (q.get x))

section

variable {n count : Nat} {pool pool' p q r : Pool} {journal journal' : Journal} {given : Operand → Prop}
  {frames : OperandRef → Prop} {f f' : Function} {functions functions' : List Function}

theorem Function.Allocated.settle (h : f.Allocated given n q f' count) (settles : Settles n frames q r) :
    f.Allocated given n r f' count :=
  ⟨h.name, h.frame, h.size, h.few, fun i mem x use =>
    have ⟨inside, out⟩ := h.supplied i mem x use
    ⟨Nat.lt_of_lt_of_le inside settles.size, fun none => settles.supplied inside (out none)⟩⟩

theorem Program.settles_setFrame (f : Function) (q : Pool) :
    Settles n (fun x => f.frame = some x) q (f.setFrame q) where
  size := Nat.le_of_eq (size_setFrame f q).symm
  get inside := by
    rw [get_setFrame f inside]
    split
    · rename_i frame
      exact .inr ⟨frame, _, rfl⟩
    · exact .inl (.inl rfl)

theorem Function.allocate_supplies (ok : f.allocate n pool journal = .ok (f', pool', journal'))
    (settles : Settles n frames p pool)
    (own : ∀ i ∈ f.code, ∀ x ∈ i.operands, x < p.operands.size ∧ given (p.get x)) :
    Settles n (fun x => f.frame = some x) pool pool' ∧ (∃ q, pool' = f'.setFrame q ∧
      q.operands.size = pool'.operands.size) ∧
      f.Allocated given n pool' f'
        (slotsReserved n pool { words := f.frameSize } (journal.enter f.name) f.blocks) := by
  obtain ⟨⟨blocks', q, frame', journal₁⟩, blocks, ok⟩ := bind_ok.mp ok
  cases ok
  have small : f.frameSize.toNat = f.frameSize.toNat % 2 ^ 32 := by
    have := f.frameSize.toNat_lt
    omega
  obtain ⟨first, size, few, supplied⟩ := allocateBlocks_supplies blocks settles
    (fun b mem i use => own i (List.mem_flatMap.mpr ⟨b, mem, use⟩)) small
  let f' : Function := { f with blocks := blocks', frameSize := frame'.words }
  have last : Settles n (fun x => f.frame = some x) q (f'.setFrame q) := Program.settles_setFrame f' q
  refine ⟨(first.mono fun _ => False.elim).trans last, ⟨q, rfl, (Program.size_setFrame f' q).symm⟩, ?_⟩
  have here : f.Allocated given n q f'
      (slotsReserved n pool { words := f.frameSize } (journal.enter f.name) f.blocks) := by
    refine ⟨rfl, rfl, size, few, fun i mem x use => ?_⟩
    obtain ⟨b, mem, code⟩ := List.mem_flatMap.mp mem
    exact supplied b mem i code x use
  exact here.settle last

theorem Program.map_frame
    (same : List.Forall₂ (fun f f' : Function => f'.frame = f.frame) functions functions') :
    functions'.map (·.frame) = functions.map (·.frame) := by
  induction same with
  | nil => rfl
  | cons frame _ ih => rw [List.map_cons, List.map_cons, frame, ih]

/-- The functions of a program and what their allocation gave out.  Setting the immediates of the frames once
more changes nothing. -/
theorem Program.allocateFunctions_supplies (given : Operand → Prop) (frames : OperandRef → Prop)
    (ok : allocateFunctions n pool journal functions = .ok (functions', pool', journal'))
    (settles : Settles n frames p pool)
    (own : ∀ f ∈ functions, ∀ i ∈ f.code, ∀ x ∈ i.operands, x < p.operands.size ∧ given (p.get x))
    (inside : ∀ f ∈ functions, ∀ x, f.frame = some x → x < p.operands.size ∧ frames x) :
    Settles n (fun x => ∃ f ∈ functions, f.frame = some x) pool pool' ∧
      List.Forall₂ (fun f f' => ∃ count, (framesFit n pool journal functions = true →
        f.frameSize.toNat + count < 2 ^ 32) ∧ f.Allocated given n pool' f' count) functions functions' ∧
      setFrames functions' pool' = pool' := by
  induction functions generalizing pool journal functions' with
  | nil =>
    cases ok
    exact ⟨.refl _, .nil, rfl⟩
  | cons f rest ih =>
    obtain ⟨⟨f', pool₁, journal₁⟩, here, ok⟩ := bind_ok.mp ok
    obtain ⟨⟨rest', pool₂, journal₂⟩, there, ok⟩ := bind_ok.mp ok
    cases ok
    obtain ⟨first, ⟨q, set, size⟩, allocated⟩ :=
      Function.allocate_supplies here settles (own f List.mem_cons_self)
    have onward : Settles n frames p pool₁ :=
      settles.trans (first.mono fun x frame => (inside f List.mem_cons_self x frame).2)
    obtain ⟨more, functions_eq, again⟩ := ih there onward
      (fun g mem => own g (List.mem_cons_of_mem _ mem)) (fun g mem => inside g (List.mem_cons_of_mem _ mem))
    have fit : framesFit n pool journal (f :: rest) = true → f.frameSize.toNat + Function.slotsReserved n pool
        { words := f.frameSize } (journal.enter f.name) f.blocks < 2 ^ 32 ∧
        framesFit n pool₁ journal₁ rest = true := fun fit => by
      simpa [framesFit, here] using fit
    refine ⟨(first.mono fun x frame => ⟨f, List.mem_cons_self, frame⟩).trans
      (more.mono fun x ⟨g, mem, frame⟩ => ⟨g, List.mem_cons_of_mem _ mem, frame⟩),
      .cons ⟨_, fun all => (fit all).1, allocated.settle more⟩
        (functions_eq.imp fun g g' ⟨count, small, gives⟩ => ⟨count, fun all => small (fit all).2, gives⟩), ?_⟩
    -- the immediate of `f` has been set already, unless a later function has the same one
    have same := map_frame (functions_eq.imp fun g g' ⟨_, _, gives⟩ => gives.frame)
    refine Pool.ext_get (by simp) fun x within => ?_
    have within : x < pool'.operands.size := by simpa using within
    show (setFrames rest' (f'.setFrame pool')).get x = pool'.get x
    by_cases later : ∃ g ∈ rest', g.frame = some x
    · rw [get_setFrames_of_mem later (q := pool') (by simpa using within) within, again]
    · rw [get_setFrames_of_not (fun g mem frame => later ⟨g, mem, frame⟩) (by simpa using within),
        get_setFrame f' within]
      split
      · rename_i frame
        have insideP := (inside f List.mem_cons_self x (allocated.frame ▸ frame)).1
        have inside₁ := Nat.lt_of_lt_of_le insideP onward.size
        have is : pool₁.get x = .imm (Frame.size { words := f'.frameSize }) := by
          rw [set, get_setFrame f' (size ▸ inside₁), if_pos frame]
        rcases more.concrete inside₁ (by rw [is]; rfl) with kept | ⟨⟨g, mem, frame⟩, -⟩
        · rw [kept, is]
        · have mem : g.frame ∈ rest'.map (·.frame) := same ▸ List.mem_map_of_mem mem
          obtain ⟨g', mem', eq⟩ := List.mem_map.mp mem
          exact absurd ⟨g', mem', eq.trans frame⟩ later
      · rfl

theorem Program.mem_referenced {p : Program} {f : Function} {i : Instruction} {x : OperandRef}
    (function : f ∈ p.functions) (code : i ∈ f.code) (use : x ∈ i.operands) : p.pool.get x ∈ p.referenced :=
  List.mem_map_of_mem (List.mem_flatMap.mpr ⟨i, List.mem_flatMap.mpr ⟨f, function, code⟩, use⟩)

/-- Behind an allocation the operands of all instructions but jumps and calls are physical: registers are `SP`,
`BP`, registers of the program or of `R1` to `Rn`, and words of memory are those of the program or slots
below the function's frame as it was.  Frames do not shrink, and their immediates are their sizes.
Allocating once more changes nothing. -/
theorem Program.allocate_sound {registers : Nat} {p p' : Program}
    (inside : ∀ i ∈ p.code, ∀ x ∈ i.operands, x < p.pool.operands.size)
    (frames : ∀ f ∈ p.functions, ∀ x, f.frame = some x → x < p.pool.operands.size)
    (ok : p.allocate registers journal = .ok (p', journal')) :
    let n := registerCount registers
    let fit := framesFit n p.pool journal p.functions = true
    p'.functions.length = p.functions.length ∧
    (∀ (k : Nat) (f f' : Function), p.functions[k]? = some f → p'.functions[k]? = some f' →
      f'.name = f.name ∧ f'.frame = f.frame ∧
      (∀ i ∈ f'.code, i.destination? = none → ∀ x ∈ i.operands,
        (∀ r, p'.pool.get x = .reg r → r = .stackPointer ∨ r = .basePointer ∨
          ∃ m, r = .physical m ∧ (1 ≤ m ∧ m ≤ n ∨ .reg r ∈ p.referenced)) ∧
        (fit → ∀ base offset, p'.pool.get x = .mem base offset → .mem base offset ∈ p.referenced ∨
          base = .basePointer ∧ ∃ j, f.frameSize.toNat < j ∧ j ≤ f'.frameSize.toNat ∧
            offset = -Word.ofNat j)) ∧
      (fit → f.frameSize ≤ f'.frameSize) ∧
      ∀ x, f'.frame = some x → (∀ k' g, p.functions[k']? = some g → g.frame = some x → k' = k) →
        p'.pool.get x = .imm (Word.ofNat f'.frameSize.toNat)) ∧
    ∀ journal, ∃ journal', p'.allocate registers journal = .ok (p', journal') := by
  intro n fit
  obtain ⟨⟨functions', pool', journal₁⟩, all, ok⟩ := bind_ok.mp ok
  cases ok
  have code : ∀ f ∈ p.functions, ∀ i ∈ f.code, i ∈ p.code := fun f function i mem =>
    List.mem_flatMap.mpr ⟨f, function, mem⟩
  obtain ⟨settles, gives, again⟩ := allocateFunctions_supplies (· ∈ p.referenced) (fun _ => True) all
    (.refl p.pool)
    (fun f function i mem x use => ⟨inside i (code f function i mem) x use, mem_referenced function mem use⟩)
    (fun f function x frame => ⟨frames f function x frame, trivial⟩)
  have pair : ∀ {k : Nat} {f f' : Function}, p.functions[k]? = some f → functions'[k]? = some f' →
      ∃ count, (fit → f.frameSize.toNat + count < 2 ^ 32) ∧
        f.Allocated (· ∈ p.referenced) n pool' f' count := fun at_ at_' =>
    List.forall₂_zip gives (List.mem_of_getElem? (List.getElem?_zip_eq_some.mpr ⟨at_, at_'⟩))
  refine ⟨gives.length_eq.symm, fun k f f' at_ at_' => ?_, fun journal => ?_⟩
  · obtain ⟨count, small, out⟩ := pair at_ at_'
    have size : fit → f'.frameSize.toNat = f.frameSize.toNat + count := fun all =>
      out.size.trans (Nat.mod_eq_of_lt (small all))
    refine ⟨out.name, out.frame, fun i mem none x use => ⟨fun r is => ?_, fun all base offset is => ?_⟩,
      fun all => ?_, fun x frame alone => ?_⟩
    · have supplied := (out.supplied i mem x use).2 none
      rw [is] at supplied
      exact supplied.of_reg
    · have supplied := (out.supplied i mem x use).2 none
      rw [is] at supplied
      rw [size all]
      exact supplied.of_mem (small all)
    · rw [UInt32.le_iff_toNat_le, size all]
      omega
    · have insideP := frames f (List.mem_of_getElem? at_) x (out.frame ▸ frame)
      rw [← again]
      have inside' := Nat.lt_of_lt_of_le insideP settles.size
      refine get_setFrames_alone at_' frame (fun k' g' there frame' => ?_) inside'
      have less : k' < p.functions.length := gives.length_eq ▸ (List.getElem?_eq_some_iff.mp there).1
      obtain ⟨_, _, out'⟩ := pair (List.getElem?_eq_getElem less) there
      exact alone k' _ (List.getElem?_eq_getElem less) (out'.frame ▸ frame')
  · have each : ∀ f' ∈ functions', ∃ f count, Function.Allocated (· ∈ p.referenced) n pool' f f' count :=
      fun f' mem => by
        obtain ⟨k, at_'⟩ := List.getElem?_of_mem mem
        have less : k < p.functions.length := gives.length_eq ▸ (List.getElem?_eq_some_iff.mp at_').1
        obtain ⟨count, -, out⟩ := pair (List.getElem?_eq_getElem less) at_'
        exact ⟨_, count, out⟩
    have few : ∀ f' ∈ functions', f'.blocks ≠ [] → n ≤ RegisterSet.largest := fun f' mem => by
      obtain ⟨f, count, out⟩ := each f' mem
      exact out.few
    have plain : ∀ f' ∈ functions', ∀ i ∈ f'.code, Plain pool' i := fun f' mem i code none x use => by
      obtain ⟨f, count, out⟩ := each f' mem
      exact ((out.supplied i code x use).2 none).concrete
    obtain ⟨journal₂, more⟩ := allocateFunctions_plain few plain journal
    rw [again] at more
    have more : allocateFunctions (registerCount registers) pool' journal functions' = _ := more
    refine ⟨journal₂, ?_⟩
    simp only [allocate, more, bind, Except.bind, pure, Except.pure]

end

/-- A function with three values at once, for which two registers are too few. -/
def Program.threeValues : Program where
  functions := [{
    name := "main"
    blocks := [{
      name := "entry"
      code := [.arith .sub 7 6, .mov 0 3, .mov 1 4, .mov 2 5, .push 0, .push 1, .push 2, .ret] }]
    frameSize := 2
    frame := some 6 }]
  pool := { operands := #[.reg (.abstract 0), .reg (.abstract 1), .reg (.abstract 2), .imm 10, .imm 20, .imm 30,
    .imm 2, .reg .stackPointer] }

set_option maxRecDepth 4000 in
theorem Program.allocate_sound_threeValues : ∃ p' journal', threeValues.allocate 2 {} = .ok (p', journal') ∧
    framesFit (registerCount 2) threeValues.pool {} threeValues.functions = true ∧
    p'.functions.map (·.frameSize) = [3] ∧ p'.pool.get 6 = .imm 3 ∧
    ∀ journal, ∃ journal', p'.allocate 2 journal = .ok (p', journal') := by
  -- evaluating the run takes the equations of library functions, for which Mathlib is imported whole
  have ran : (threeValues.allocate 2 {}).toOption.map
      (fun r => (r.1.functions.map (·.frameSize), r.1.pool.get 6)) = some ([3], .imm 3) := by cbv
  have fit : framesFit (registerCount 2) threeValues.pool {} threeValues.functions = true := by cbv
  cases ok : threeValues.allocate 2 {} with
  | error e =>
    rw [ok] at ran
    cases ran
  | ok result =>
    rw [ok] at ran
    obtain ⟨sizes, immediate⟩ := Prod.mk.inj (Option.some.inj ran)
    exact ⟨result.1, result.2, rfl, fit, sizes, immediate, (allocate_sound (by decide) (by decide) ok).2.2⟩

end Codegen86.Target
