import Codegen86.Proofs.Stack.Framing
import Codegen86.Proofs.Stack.Spilled
/-!
# Allocated blocks

Blocks are allocated one after another over one pool.  What was allocated stays as it is, but for the immediate
that reserves the frame, which is set when the function's last block is allocated (`Settles`).  Its labels lead
where those of the selected program led (`Connected`), it keeps the frame (`KeepsFrame`), and what it names of
memory is in the frame or an argument (`Issued`); so it is of each block of a function (`blocks_settled`).
-/

set_option autoImplicit false

namespace Codegen86.Stack

open Target Selection Allocation

variable {E : Site} {first next : Nat} {x low : OperandRef} {code : List Instruction} {p q q' : Pool}
  {targets : List String} {registers words : Nat} {frame frame' : Frame} {journal journal' : Journal}

/-! ## What was allocated -/

/-- Operands that name no abstract register stay, but for the frame immediates at `frames`. -/
structure Settles (frames : List OperandRef) (p q : Pool) : Prop where
  size : p.operands.size ≤ q.operands.size
  get : ∀ {x}, x < p.operands.size → (p.get x).isAbstract = false → x ∉ frames → q.get x = p.get x

theorem Settles.of_keeps (h : p.Keeps q) : Settles [] p q :=
  ⟨h.size, fun inside concrete _ => h.get inside concrete⟩

theorem Settles.trans {r : Pool} {frames frames' : List OperandRef} (h : Settles frames p q)
    (h' : Settles frames' q r) : Settles (frames ++ frames') p r where
  size := Nat.le_trans h.size h'.size
  get inside concrete apart := by
    have same := h.get inside concrete fun mem => apart (List.mem_append_left _ mem)
    rw [h'.get (Nat.lt_of_lt_of_le inside h.size) (by rw [same]; exact concrete)
      fun mem => apart (List.mem_append_right _ mem), same]

/-- An operand is set, and the others stay. -/
theorem settles_set (q : Pool) {x : OperandRef} (inside : x < q.operands.size) (o : Operand) :
    Settles [x] q (q.set x o) where
  size := by simp [Pool.set]
  get _ _ apart := by rw [Pool.get_set q _ o inside, if_neg (mt List.mem_singleton.mpr apart)]

/-- Operands that last stay, as no frame immediate that is still to be set is among them. -/
theorem Lasting.settles {original : OperandRef → Prop} {frames : List OperandRef} (h : Lasting q original x)
    (settles : Settles frames q q') (apart : ∀ g ∈ frames, ¬ original g ∧ ∃ v, q.get g = .imm v) :
    q'.get x = q.get x ∧ Lasting q' original x := by
  have same : q'.get x = q.get x := by
    refine settles.get h.inside h.concrete fun mem => ?_
    obtain ⟨other, v, imm⟩ := apart x mem
    rcases h.known with here | known
    · exact other here
    · exact known v imm
  exact ⟨same, Nat.lt_of_lt_of_le h.inside settles.size, same ▸ h.concrete, same ▸ h.known⟩

/-- Code whose operands last, whose jumps lead to blocks of the function and whose calls lead to functions
that were found. -/
structure Connected (E : Site) (targets : List String) (q : Pool) (code : List Instruction) : Prop where
  lasting : ∀ i ∈ code, ∀ x ∈ i.operands, Lasting q E.Inside x
  labels : ∀ i ∈ code, ∀ x, i.destination? = some x →
    ∃ name, q.get x = .symbol name ∧ name ∈ if i.isJump then targets else E.found
  ordinary : ∀ i ∈ code, i.destination? = none → ∀ x ∈ i.operands, Ordinary (q.get x)

/-- Code that keeps the frame, however large it is. -/
def KeepsFrame (q : Pool) (code : List Instruction) : Prop :=
  ∀ w : Word, 0 ≤ w → Flow q.get (.framed w) (.framed w) code (.framed w)

section

variable {frames : List OperandRef} (stays : Settles frames q q')
  (apart : ∀ g ∈ frames, ¬ E.Inside g ∧ ∃ v, q.get g = .imm v)
include stays apart

theorem Connected.get (h : Connected E targets q code) {i : Instruction} (mem : i ∈ code)
    (use : x ∈ i.operands) : q'.get x = q.get x :=
  ((h.lasting i mem x use).settles stays apart).1

theorem Connected.settles (h : Connected E targets q code) : Connected E targets q' code := by
  refine ⟨fun i mem x use => ((h.lasting i mem x use).settles stays apart).2, fun i mem x dest => ?_,
    fun i mem none x use => ?_⟩
  · rw [h.get stays apart mem (Instruction.mem_operands_of_destination? dest)]
    exact h.labels i mem x dest
  · rw [h.get stays apart mem use]
    exact h.ordinary i mem none x use

theorem KeepsFrame.settles (h : KeepsFrame q code) (connected : Connected E targets q code) :
    KeepsFrame q' code :=
  fun w least => (h w least).congr fun _ mem _ _ use => connected.get stays apart mem use

end

/-- Code that was given out in a frame of `words` words. -/
structure Issued (E : Site) (targets : List String) (q : Pool) (words : Nat) (code : List Instruction) :
    Prop where
  connected : Connected E targets q code
  contained : ∀ i ∈ code, Contained q.get E.params words i
  keeps : words < 2 ^ 32 → KeepsFrame q code

theorem Issued.mono {words' : Nat} (more : words ≤ words') (h : Issued E targets q words code) :
    Issued E targets q words' code :=
  ⟨h.connected, fun i mem => (h.contained i mem).mono more, fun small => h.keeps (Nat.lt_of_le_of_lt more small)⟩

theorem Issued.settles {frames : List OperandRef} (stays : Settles frames q q')
    (apart : ∀ g ∈ frames, ¬ E.Inside g ∧ ∃ v, q.get g = .imm v) (h : Issued E targets q words code) :
    Issued E targets q' words code :=
  ⟨h.connected.settles stays apart,
    fun i mem => (h.contained i mem).congr fun _ use => h.connected.get stays apart mem use,
    fun small => (h.keeps small).settles stays apart h.connected⟩

/-! ## Blocks -/

/-- Code of the function that needs no registers. -/
def Needless (E : Site) (low : OperandRef) (code : List Instruction) : Prop :=
  ∀ i ∈ code, ∀ x ∈ i.operands, low ≤ x ∧ x < E.pool.operands.size ∧ (E.pool.get x).isAbstract = false ∧
    (E.pool.get x).isMemory = false

/-- Code that needs no registers is as it was selected. -/
theorem Needless.get (grows : E.pool.Grows p) (untouched : Untouched p q low first) {bare : List Instruction}
    (h : Needless E low bare) {i : Instruction} (mem : i ∈ bare) (use : x ∈ i.operands) :
    x < q.operands.size ∧ q.get x = E.pool.get x := by
  obtain ⟨above, inside, concrete, -⟩ := h i mem x use
  have insideP := Nat.lt_of_lt_of_le inside grows.size
  have same := grows.get inside
  exact ⟨Nat.lt_of_lt_of_le insideP untouched.size,
    (untouched.concrete above insideP (by rw [same]; exact concrete)).trans same⟩

theorem Needless.bare (grows : E.pool.Grows p) (untouched : Untouched p q low first)
    {bare : List Instruction} (h : Needless E low bare) {i : Instruction} (mem : i ∈ bare) : Bare q i := by
  intro x use
  rw [(h.get grows untouched mem use).2]
  exact (h i mem x use).2.2

/-- What is left of a block is as it was selected. -/
theorem Remains.get (grows : E.pool.Grows p) (above : low ≤ E.least) (untouched : Untouched p q low first)
    {rest : List Instruction} (h : Remains E targets first next rest) {i : Instruction} (mem : i ∈ rest)
    (use : x ∈ i.operands) : x < q.operands.size ∧ q.get x = E.pool.get x := by
  have inside := h.inside mem use
  refine ⟨Nat.lt_of_lt_of_le inside.2 (Nat.le_trans grows.size untouched.size), ?_⟩
  refine untouched.get grows above inside fun k abstract => ?_
  exact ((h.orderly mem).own k ⟨x, use, by rw [abstract]; simp [Operand.mentions]⟩).1

/-- A block begins with code that needs no registers.  What follows is connected and keeps to the frame, which
has grown by the slots of spilled values. -/
theorem block_settled (few : registers ≤ 64) (grows : E.pool.Grows p) (above : low ≤ E.least)
    (untouched : Untouched p q low first) {b b' : Block} {s : State}
    (bare rest : List Instruction) (split : b.code = bare ++ rest)
    (needless : Needless E low bare) (remains : Remains E targets first next rest)
    (size : frame.words.toNat = words % 2 ^ 32) (room : E.words ≤ words)
    (ok : b.allocate registers q frame journal = .ok (b', s)) :
    b'.name = b.name ∧ q.Keeps s.pool ∧ Untouched p s.pool low next ∧
      Spills [b] words q (b.spilled s) s.frame s.pool ∧
      ∃ out, b'.code = bare ++ out ∧ (rest = [] → out = [] ∧ s.pool = q) ∧
        Issued E targets s.pool (words + (b.spilled s).length) out := by
  -- the operands of the block are as they were selected
  have own : ∀ i ∈ rest, ∀ x ∈ i.operands, ∀ k, E.pool.get x = .reg (.abstract k) → first ≤ k ∧ k < next := by
    intro i mem x use k abstract
    exact (remains.orderly mem).own k ⟨x, use, by rw [abstract]; simp [Operand.mentions]⟩
  have same : ∀ i ∈ rest, ∀ x ∈ i.operands, q.get x = E.pool.get x := fun i mem x use =>
    (remains.get grows above untouched mem use).2
  have bare_ : ∀ i ∈ bare, Bare q i := fun i mem => needless.bare grows untouched mem
  have inside : ∀ i ∈ b.code, ∀ x ∈ i.operands, x < q.operands.size := by
    intro i mem x use
    rw [split] at mem
    rcases List.mem_append.mp mem with mem | mem
    · exact (needless.get grows untouched mem use).1
    · exact (remains.get grows above untouched mem use).1
  have label : ∀ i ∈ rest, ∀ x, i.destination? = some x →
      ∃ name, q.get x = .symbol name ∧ name ∈ if i.isJump then targets else E.found := by
    intro i mem x dest
    obtain ⟨name, is, known⟩ := remains.destination mem dest
    exact ⟨name, (same i mem x (Instruction.mem_operands_of_destination? dest)).trans is.2, known⟩
  let J : Job :=
    { registers, pool := q, words, code := b.code, few, inside
      labels := by
        intro i mem x dest
        rw [split] at mem
        rcases List.mem_append.mp mem with mem | mem
        · exact (bare_ i mem x (Instruction.mem_operands_of_destination? dest)).1
        · obtain ⟨name, get, -⟩ := label i mem x dest
          rw [get]
          rfl }
  obtain ⟨name, tame, keeps, out, code, renders, nothing⟩ := J.allocate_gives rfl size split bare_ ok
  -- what the block stores to is what its own moves store to
  have stored : ∀ {o}, J.Stored o → o.isMemory = true ∧ ∃ x y, .mov x y ∈ rest ∧ E.pool.get x = o := by
    rintro o ⟨memory, x, y, mem, get⟩
    have mem : .mov x y ∈ b.code := mem
    have get : q.get x = o := get
    rw [split] at mem
    rcases List.mem_append.mp mem with mem | mem
    · have := (bare_ _ mem x List.mem_cons_self).2
      rw [get, memory] at this
      cases this
    · exact ⟨memory, x, y, mem, (same _ mem x List.mem_cons_self).symm.trans get⟩
  have spills := spills_of_stocked tame.stocked b
  have slots : (b.spilled s).length = s.slots.length := by simp [Block.spilled]
  refine ⟨name, keeps, ⟨Nat.le_trans untouched.size tame.size, fun {x} aboveX insideX => ?_⟩, spills, out, code,
    fun none => ⟨(nothing none).1, (nothing none).2.1⟩,
    ⟨fun i mem x use => ?_, fun i mem x dest => ?_, fun i mem none x use => ?_⟩, ?_, fun small => ?_⟩
  · have old := untouched.same aboveX insideX
    rcases tame.changed (Nat.lt_of_lt_of_le insideX untouched.size) with eq | ⟨abstract, i, mem, y, use, eq⟩
    · rw [eq]
      rcases old with get | ⟨k, less, get⟩
      · exact .inl get
      · exact .inr ⟨k, Nat.lt_of_lt_of_le less remains.next_le, get⟩
    · -- what names the register of an operand of the block has a number of the block
      have abstract : (q.get x).isAbstract = true := abstract
      have eq : q.get y = q.get x := eq
      have mem : i ∈ rest := by
        have mem : i ∈ b.code := mem
        rw [split] at mem
        refine (List.mem_append.mp mem).resolve_left fun mem => ?_
        rw [← eq, (bare_ i mem y use).1] at abstract
        cases abstract
      right
      rcases old with get | ⟨k, less, get⟩
      · obtain ⟨k, number⟩ : ∃ k, q.get x = .reg (.abstract k) := by
          cases found : q.get x with
          | reg r =>
            rw [found] at abstract
            cases r <;> first | exact ⟨_, rfl⟩ | cases abstract
          | _ =>
            rw [found] at abstract
            cases abstract
        refine ⟨k, (own i mem y use k ?_).2, get ▸ number⟩
        rw [← same i mem y use, eq, number]
      · exact ⟨k, Nat.lt_of_lt_of_le less remains.next_le, get⟩
  · exact lasting_of_renders renders (fun j mem y use =>
      ⟨Nat.lt_of_lt_of_le (inside j (by rw [split]; exact List.mem_append_right _ mem) y use) keeps.size,
        remains.inside mem use⟩) mem use
  · obtain ⟨j, there, dest', kind, get⟩ := destination_of_renders renders
      (fun j mem y dest => by
        obtain ⟨name, get, -⟩ := label j mem y dest
        exact ⟨_, get⟩) mem dest
    obtain ⟨name, old, known⟩ := label j there x dest'
    refine ⟨name, get.trans old, ?_⟩
    rwa [kind] at known
  · refine ordinary_of_renders renders (fun {o} is => ?_) (fun j mem none y use => ?_) mem none use
    · obtain ⟨-, y, z, mem, rfl⟩ := stored is
      exact remains.ordinary mem rfl List.mem_cons_self
    · have get : J.pool.get y = E.pool.get y := same j mem y use
      rw [get]
      exact remains.ordinary mem none use
  · refine contained_of_renders renders (Nat.le_of_eq (by rw [slots])) (fun {o} is => ?_) fun i mem => ?_
    · obtain ⟨-, x, y, mem, rfl⟩ := stored is
      exact ((remains.contained mem).writes x rfl).mono (by omega)
    · exact ((remains.contained mem).mono (by omega)).congr (same i mem)
  · rw [slots] at small
    have flow : ∀ {w : Word}, 0 ≤ w → Flow (masked q) (.framed w) (.framed w) rest (.framed w) :=
      fun least => (remains.flow (by omega) least).congr fun i mem _ x use => congrArg mask (same i mem x use)
    have sheltered : Sheltered J s.slots.length := by
      refine ⟨fun {o} is => ?_, small⟩
      -- a move to memory is a move to a word of the frame
      obtain ⟨memory, x, y, mem, get⟩ := stored is
      obtain ⟨stage, stage', shifts, -⟩ := (flow (w := 0) (Int64.le_refl 0)).shifts mem
      have same : masked q x = o := by
        rw [masked, same _ mem x List.mem_cons_self, get, mask_of_concrete (Job.concrete_of_memory memory)]
      cases shifts with
      | base target =>
        rw [same] at target
        rw [target] at memory
        cases memory
      | neutral neutral =>
        cases neutral with
        | mov target => exact same ▸ target
    exact fun w least => flow_of_renders renders sheltered remains.noPop (flow least)

/-- Blocks with a body are allocated one after another. -/
theorem blocks_settled (few : registers ≤ 64) (grows : E.pool.Grows p) (above : low ≤ E.least)
    (untouched : Untouched p q low first) {blocks blocks' : List Block}
    (made : Blocks E targets first next blocks) (distinct : (blocks.map (·.name)).Nodup)
    (size : frame.words.toNat = words % 2 ^ 32) (room : E.words ≤ words)
    (ok : Function.allocateBlocks registers q frame journal blocks = .ok (blocks', q', frame', journal')) :
    blocks'.map (·.name) = blocks.map (·.name) ∧ q.Keeps q' ∧ Untouched p q' low next ∧
      ∃ slots, Function.spilledSlots registers q frame journal blocks = .ok slots ∧
        Spills blocks words q slots frame' q' ∧
        ∀ b ∈ blocks', Issued E targets q' (words + slots.length) b.code := by
  induction made generalizing q frame journal blocks' words with
  | nil =>
    cases ok
    exact ⟨rfl, .refl _, untouched, [], rfl, .nil size, by simp⟩
  | @cons first middle next b rest head _ ih =>
    obtain ⟨⟨b', s⟩, one, ok⟩ := bind_ok.mp ok
    obtain ⟨⟨rest', q', frame', journal'⟩, more, ok⟩ := bind_ok.mp ok
    cases ok
    obtain ⟨body, closing, split, code, closes⟩ := head.split
    obtain ⟨apart, distinct⟩ := List.nodup_cons.mp distinct
    obtain ⟨name, keeps, between, spills, out, code', -, issued⟩ :=
      block_settled few grows above untouched [] (body ++ closing) split (by simp [Needless]) (.code code closes)
        size room one
    obtain ⟨names, keeps', after, slots, listed, spills', issued'⟩ :=
      ih between distinct spills.frame (Nat.le_trans room (Nat.le_add_right _ _)) more
    rw [List.nil_append] at code'
    refine ⟨by rw [List.map_cons, List.map_cons, name, names], keeps.trans keeps', after, b.spilled s ++ slots,
      bind_ok.mpr ⟨_, one, bind_ok.mpr ⟨_, listed, rfl⟩⟩, spills.append spills' fun c here d behind same => ?_,
      fun c mem => ?_⟩
    · obtain rfl := List.mem_singleton.mp here
      exact apart (List.mem_map.mpr ⟨d, behind, same.symm⟩)
    · rw [List.length_append, ← Nat.add_assoc]
      rcases List.mem_cons.mp mem with rfl | mem
      · exact code' ▸ (issued.settles (.of_keeps keeps') (by simp)).mono (Nat.le_add_right _ _)
      · exact issued' c mem

theorem allocateBlocks_append {blocks more blocks' : List Block}
    (ok : Function.allocateBlocks registers q frame journal (blocks ++ more) =
      .ok (blocks', q', frame', journal')) :
    ∃ first second pool between log,
      Function.allocateBlocks registers q frame journal blocks = .ok (first, pool, between, log) ∧
      Function.allocateBlocks registers pool between log more = .ok (second, q', frame', journal') ∧
      blocks' = first ++ second := by
  induction blocks generalizing q frame journal blocks' with
  | nil => exact ⟨[], blocks', q, frame, journal, rfl, ok, rfl⟩
  | cons b rest ih =>
    obtain ⟨⟨b', s⟩, one, ok⟩ := bind_ok.mp ok
    obtain ⟨⟨rest', q', frame', journal'⟩, others, ok⟩ := bind_ok.mp ok
    cases ok
    obtain ⟨first, second, pool, between, log, before, after, rfl⟩ := ih others
    refine ⟨b' :: first, second, pool, between, log, ?_, after, rfl⟩
    exact bind_ok.mpr ⟨_, one, bind_ok.mpr ⟨_, before, rfl⟩⟩

end Codegen86.Stack
