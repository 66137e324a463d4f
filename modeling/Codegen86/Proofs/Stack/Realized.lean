import Codegen86.Proofs.Selection.ActivationRuns
import Codegen86.Proofs.Stack.Allocates
/-!
# Allocated functions run as selected functions do

A block that was allocated runs as it did before with abstract registers, where calls are known to leave the frame
alone, and all words but those of spilled values are the same (`RunsAs`).  So it is with the blocks of a whole
function: what comes before the arguments are loaded and what comes behind the last block is not changed at all, and
of the rest one block becomes one block (`Carried`).
-/

set_option autoImplicit false

namespace Codegen86.Stack

open Target Selection Allocation Symbolic

/-! ## Code -/

/-- The states are the same but for general registers, and for the words of the frame at `base` that are not among
the first `words` of its `size` words. -/
structure Resembles (base : Word) (words size : Nat) (u t : View) : Prop where
  result : t.general 0 = u.general 0
  stackPointer : t.stackPointer = u.stackPointer
  basePointer : t.basePointer = u.basePointer
  memory : ∀ a, (∀ j, words < j → j ≤ size → a ≠ base + -Word.ofNat j) → t.memory a = u.memory a

/-- Calls from frames of `size` words come to the same, whatever values are spilled to the frame. -/
def CallsAlike (size : Nat) (W : View → Prop) (C C' : CallSpec) : Prop :=
  ∀ E : Setting, E.cap = size → (∀ a, E.tracked a) → Calling E W C C'

/-- In pool `q`, without abstract registers, `out` runs as `code` does in pool `p` with them, in a frame of `size`
words of which `code` uses `words`. -/
structure RunsAs (words size : Nat) (p q : Pool) (code out : List Instruction) : Prop where
  runs : ∀ {base : Word} {W : View → Prop} {C C' : CallSpec} {k : Nat} {v : View} {Q : Symbolic.Exit → View → Prop},
    (∀ w, W w → w.basePointer = base) → CallsAlike size W C C' → (∀ c w, Q (.trap c) w → c = .stackOverflow) →
    Runs { model := .ideal true, pool := p, within := W, calls := C } k code v Q →
    Runs { model := .ideal false, pool := q, calls := C' } k out v fun e t =>
      ∃ u, Q e u ∧ ((∃ c, e = .trap c) ∨ Resembles base words size u t)

/-- Code that has the same operands in both pools, none of them an abstract register or a word of memory. -/
def Copied (p q : Pool) (code : List Instruction) : Prop :=
  ∀ i ∈ code, ∀ x ∈ i.operands, q.get x = p.get x ∧ (p.get x).isAbstract = false ∧ (p.get x).isMemory = false

variable {E : Site} {first next words size registers : Nat} {x low : OperandRef} {code out : List Instruction}
  {p₀ p q q' : Pool} {targets : List String} {frame frame' : Frame} {journal journal' : Journal}

theorem RunsAs.congr (h : RunsAs words size p q code out) (same : ∀ i ∈ out, ∀ x ∈ i.operands, q'.get x = q.get x) :
    RunsAs words size p q' code out :=
  ⟨fun pin calling safe runs => Runs.congr_pool same (h.runs pin calling safe runs)⟩

theorem Copied.congr (h : Copied p q code) (same : ∀ i ∈ code, ∀ x ∈ i.operands, q'.get x = q.get x) :
    Copied p q' code := fun i mem x use => by
  rw [same i mem x use]
  exact h i mem x use

/-- Code that needs no registers is copied, also where one immediate is set in both pools. -/
theorem Needless.copied (h : Needless E low code) (grows : E.pool.Grows p) (untouched : Untouched p q low first)
    {ref : OperandRef} (inside : ref < p.operands.size) (w : Word) :
    Copied (p.set ref (.imm w)) (q.set ref (.imm w)) code := by
  intro i mem x use
  obtain ⟨-, get⟩ := h.get grows untouched mem use
  obtain ⟨-, own, concrete, word⟩ := h i mem x use
  rw [Pool.get_set q x _ (Nat.lt_of_lt_of_le inside untouched.size), Pool.get_set p x _ inside]
  by_cases same : x = ref
  · rw [if_pos same, if_pos same]
    exact ⟨rfl, rfl, rfl⟩
  · rw [if_neg same, if_neg same, get, grows.get own]
    exact ⟨rfl, concrete, word⟩

/-! ## Blocks -/

/-- Selected code names no words below those that are reserved for it. -/
theorem Remains.deep (h : Remains E targets first next code) (few : ∀ i, E.params i → i < 2 ^ 32)
    (room : E.words ≤ words) :
    ∀ i ∈ code, ∀ x ∈ i.operands, ∀ base off, E.pool.get x = .mem base off → -(words : Int) ≤ off.toInt := by
  intro i mem x use base off is
  have visible := (h.contained mem).reads x use
  rw [is] at visible
  rcases visible.2 with ⟨j, -, most, rfl⟩ | ⟨k, param, rfl⟩
  · have less : j % 2 ^ 32 < 2 ^ 32 := Nat.mod_lt _ (by decide)
    have le := Nat.mod_le j (2 ^ 32)
    rw [Word.toInt_neg_ofNat (by omega)]
    omega
  · have less := few k param
    rw [Word.toInt_ofNat (by simp only [Calling.argBase]; omega)]
    omega

section

variable (enough : 2 ≤ registers) (few : registers ≤ 64) (small : size < 2 ^ 32)
  (params : ∀ i, E.params i → i < 2 ^ 32) (agrees : ∀ x, E.Inside x → p₀.get x = E.pool.get x)
include enough few small params agrees

/-- What a block becomes runs as the block does, but for the code at its beginning that needs no registers. -/
theorem block_realized (grows : E.pool.Grows p) (above : low ≤ E.least) (untouched : Untouched p q low first)
    {b b' : Block} {s : State} (bare rest : List Instruction) (split : b.code = bare ++ rest)
    (needless : Needless E low bare) (remains : Remains E targets first next rest)
    (ends : ∀ i ∈ b.code.take b.closingStart, i.isTerminator = false)
    (words_ : frame.words.toNat = words % 2 ^ 32) (room : E.words ≤ words)
    (ok : b.allocate registers q frame journal = .ok (b', s)) (fits : words + (b.spilled s).length ≤ size)
    (made : b'.code = bare ++ out) : RunsAs E.words size p₀ s.pool rest out := by
  constructor
  intro base W C C' k v Q pin calling safe runs
  let S : Setting :=
    { context := ⟨b.name, .compute q b.code, registers⟩, pool := q, base := words, cap := size
      valid := fun _ => true, tracked := fun _ => True, enough, few, small }
  have same : ∀ i ∈ rest, ∀ x ∈ i.operands, x < q.operands.size ∧ q.get x = E.pool.get x :=
    fun _ mem _ use => remains.get grows above untouched mem use
  have allocatable : ({ b with code := rest } : Block).Allocatable q S.base :=
    remains.allocatable same (remains.deep params room) rfl
  obtain ⟨t, s', none, eq, done, finishes⟩ := allocate_rest (E := S) journal (calling S rfl fun _ => trivial)
    ⟨rfl, rfl⟩ words_ split (fun i mem => needless.bare grows untouched mem)
    (fun i mem => allocatable.admissible mem) ends fun o abstract => allocatable.not_live abstract
  obtain ⟨rfl, rfl⟩ := Prod.mk.inj (Except.ok.inj (ok.symm.trans done))
  have runs : Runs { model := S.original, pool := S.pool, within := W, calls := C } k rest v
      fun e w => Q e w ∧ W w := by
    refine (Runs.congr_pool (p := q) (fun i mem x use => ?_) runs).leaves.mono fun e w q => ⟨q.1, q.2.1⟩
    exact (same i mem x use).2.trans (agrees x (remains.inside mem use)).symm
  have slots : (b.spilled s).length = s.slots.length := by simp [Block.spilled]
  have holds : Holds S (Live S.pool rest) t v v := by
    have start : Holds S (Live S.pool rest) (.start S.context S.pool frame journal) v v :=
      Agree.start ⟨rfl, rfl, rfl, rfl, rfl, fun _ _ => rfl⟩ journal fun o abstract => allocatable.not_live abstract
    rw [eq]
    exact start.of_eq rfl rfl rfl
  obtain ⟨given, split', runs'⟩ := finishes.realizes (by rw [slots] at fits; exact fits)
    ⟨fun _ _ => rfl, fun _ _ => trivial⟩ (fun c w q => safe c w q.1) holds runs
  obtain rfl : given = out := by
    rw [none] at split'
    exact List.append_cancel_left (split'.symm.trans made)
  refine runs'.mono fun e w also => ?_
  obtain ⟨u, ⟨q, inside⟩, agree⟩ := also
  refine ⟨u, q, agree.imp_right fun agree =>
    ⟨agree.result, agree.stackPointer, agree.basePointer, fun a outside => agree.memory trivial ?_⟩⟩
  rintro ⟨j, least, most, rfl⟩
  exact outside j (Nat.lt_of_le_of_lt room least) most (by rw [pin u inside])

/-- Blocks with a body become blocks that run as they do. -/
theorem blocks_realized (grows : E.pool.Grows p) (above : low ≤ E.least) (untouched : Untouched p q low first)
    {blocks blocks' : List Block} (made : Blocks E targets first next blocks)
    (distinct : (blocks.map (·.name)).Nodup) (words_ : frame.words.toNat = words % 2 ^ 32) (room : E.words ≤ words)
    (ok : Function.allocateBlocks registers q frame journal blocks = .ok (blocks', q', frame', journal'))
    {slots : Slots} (listed : Function.spilledSlots registers q frame journal blocks = .ok slots)
    (fits : words + slots.length ≤ size) :
    List.Forall₂ (fun b b' => b'.name = b.name ∧ RunsAs E.words size p₀ q' b.code b'.code) blocks blocks' := by
  induction made generalizing q frame journal blocks' words slots with
  | nil =>
    cases ok
    exact .nil
  | @cons first middle next b rest head tail ih =>
    obtain ⟨⟨b', s⟩, one, ok⟩ := bind_ok.mp ok
    obtain ⟨⟨rest', q', frame', journal'⟩, more, eq⟩ := bind_ok.mp ok
    cases eq
    obtain ⟨⟨c, s'⟩, again, listed⟩ := bind_ok.mp listed
    obtain ⟨rfl, rfl⟩ := Prod.mk.inj (Except.ok.inj (one.symm.trans again))
    obtain ⟨others, listedRest, eq⟩ := bind_ok.mp listed
    cases eq
    rw [List.length_append] at fits
    obtain ⟨body, closing, split, code, closes⟩ := head.split
    obtain ⟨-, distinct⟩ := List.nodup_cons.mp distinct
    have none : Needless E low [] := by simp [Needless]
    obtain ⟨name, -, between, spills, out, code', -, issued⟩ := block_settled few grows above untouched []
      (body ++ closing) split none (.code code closes) words_ room one
    have room' := Nat.le_trans room (Nat.le_add_right words (b.spilled s).length)
    obtain ⟨-, keeps', -⟩ := blocks_settled few grows above between tail distinct spills.frame room' more
    refine .cons ⟨name, ?_⟩ (ih between distinct spills.frame room' more listedRest (by omega))
    have runs := block_realized enough few small params agrees grows above untouched [] (body ++ closing) split none
      (.code code closes) (Keeps.closing head.keeps) words_ room one (by omega) code'
    rw [split, code']
    exact runs.congr fun i mem x use => issued.connected.get (.of_keeps keeps') (by simp) mem use

end

/-! ## Functions -/

/-- What a block of a function becomes; the last one, named `last`, stays as it is. -/
inductive Becomes (p q : Pool) (words size : Nat) (last : String) (b b' : Block) : Prop
  | body (name : b'.name = b.name) (inner : b.name ≠ last) (runs : RunsAs words size p q b.code b'.code)
  | last (name : b'.name = b.name) (code : b'.code = b.code) (copied : Copied p q b.code)
      (noCall : ∀ x, .call x ∉ b.code)

/-- What a function becomes: its first three instructions stay as they are, and so does the last block. -/
structure Carried (p q : Pool) (words size : Nat) (t t' : Function) : Prop where
  name : t'.name = t.name
  split : ∃ opening opening' others others' last bare rest out,
    t.blocks = opening :: others ∧ t'.blocks = opening' :: others' ∧ others.getLast? = some last ∧
      opening.code = bare ++ rest ∧ opening'.code = bare ++ out ∧ bare.length = 3 ∧ Copied p q bare ∧
      RunsAs words size p q rest out ∧ List.Forall₂ (Becomes p q words size last.name) others others'

theorem Becomes.congr {last : String} {b b' : Block} (h : Becomes p q words size last b b')
    (same : ∀ i ∈ b'.code, ∀ x ∈ i.operands, q'.get x = q.get x) : Becomes p q' words size last b b' := by
  cases h with
  | body name inner runs => exact .body name inner (runs.congr same)
  | last name code copied noCall => exact .last name code (copied.congr (code ▸ same)) noCall

theorem Carried.congr {t t' : Function} (h : Carried p q words size t t')
    (same : ∀ i ∈ t'.code, ∀ x ∈ i.operands, q'.get x = q.get x) : Carried p q' words size t t' := by
  obtain ⟨opening, opening', others, others', last, bare, rest, out, blocks, blocks', final, code, code', size, copied,
    runs, become⟩ := h.split
  have used : ∀ b ∈ t'.blocks, ∀ i ∈ b.code, ∀ x ∈ i.operands, q'.get x = q.get x :=
    fun b block i mem => same i (List.mem_flatMap.mpr ⟨b, block, mem⟩)
  rw [blocks'] at used
  have first := used opening' List.mem_cons_self
  rw [code'] at first
  refine ⟨h.name, opening, opening', others, others', last, bare, rest, out, blocks, blocks', final, code, code', size,
    copied.congr fun i mem => first i (List.mem_append_left _ mem),
    runs.congr fun i mem => first i (List.mem_append_right _ mem), ?_⟩
  have behind := fun b' mem => used b' (List.mem_cons_of_mem _ mem)
  exact ((List.forall₂_and_left _ _).mpr ⟨behind, become.flip⟩).flip.imp fun b b' h => h.2.congr h.1

section

variable (enough : 2 ≤ registers) (few : registers ≤ 64)
include enough few

/-- A lowered function becomes one that runs as it does. -/
theorem function_carried (grows : E.pool.Grows p) {f : IR.Function} {ref : OperandRef} {t t' : Function}
    {slots : Slots} (lowered : Lowered E f ref first next t slots) (above : low ≤ ref)
    (untouched : Untouched p q low first) (ok : t.allocate registers q journal = .ok (t', q', journal'))
    (params : ∀ i, f.Reads i → i < 2 ^ 32) (small : f.values.size + q'.operands.size < 2 ^ 32) :
    ∃ size p₀, t.frameSize.toNat ≤ size ∧ size < 2 ^ 32 ∧ Resized p ref size p₀ ∧
      Carried p₀ q' t.frameSize.toNat size t t' := by
  obtain ⟨⟨blocks', u, grown, log⟩, all, eq⟩ := bind_ok.mp ok
  rw [lowered.framed] at eq
  cases eq
  obtain ⟨untouched', spilled, listed, rebuilt⟩ := lowered_rebuilt few grows lowered above untouched all
  -- the frame holds what was reserved and what was spilled
  let size := E.words + spilled.length
  have bound := lowered.bound
  have pool := rebuilt.spills.pool
  have setSize : (u.set ref (.imm grown.size)).operands.size = u.operands.size := by simp [Pool.set]
  have small : f.values.size + (u.set ref (.imm grown.size)).operands.size < 2 ^ 32 := small
  have fits : size < 2 ^ 32 := by omega
  have reserved : t.frameSize.toNat = E.words := lowered.words.trans (Nat.mod_eq_of_lt (by omega))
  have frame : grown.size = Word.ofNat size := by
    rw [Frame.size, rebuilt.spills.frame, Nat.mod_eq_of_lt fits]
  have least : ref < E.least := Nat.lt_of_succ_le (Nat.le_of_eq lowered.below)
  have insideP : ref < p.operands.size := Nat.lt_of_lt_of_le lowered.inside grows.size
  let p₀ := p.set ref (.imm (Word.ofNat size))
  have getP : ∀ x, p₀.get x = if x = ref then .imm (Word.ofNat size) else p.get x := fun x =>
    Pool.get_set p _ _ insideP
  have agrees : ∀ x, E.Inside x → p₀.get x = E.pool.get x := fun x inside => by
    rw [getP, if_neg (Nat.ne_of_gt (Nat.lt_of_lt_of_le least inside.1)), grows.get inside.2]
  have copied : ∀ {code}, Needless E low code → Copied p₀ (u.set ref (.imm grown.size)) code := fun needless =>
    frame ▸ needless.copied grows untouched' insideP _
  have final := settles_set u (Nat.lt_of_lt_of_le insideP untouched'.size) (.imm grown.size)
  have within : low ≤ E.least := Nat.le_trans above (Nat.le_of_lt least)
  have params : ∀ i, E.params i → i < 2 ^ 32 := fun i param => params i (lowered.params ▸ param)
  -- the prologue, the bodies, the epilogue
  obtain ⟨prologue, bodies, epilogue, middle, blocks, enters, made, leaves⟩ := lowered.blocks
  rw [blocks] at all listed
  obtain ⟨prologue', s, bodies', v, between, log', epilogue', s', opens, many, shuts, rfl, rfl, rfl⟩ :=
    allocateBlocks_ends all
  have distinct := lowered.distinct
  rw [blocks, List.cons_append, List.map_cons, List.map_append, List.nodup_cons, List.nodup_append] at distinct
  obtain ⟨-, distinct, -, apart⟩ := distinct
  obtain ⟨bare, rest, enter, opening, needless, remains⟩ := opens_of_entry lowered above enters
  obtain ⟨-, needless'⟩ := shuts_of_exit lowered above leaves
  obtain ⟨-, keeps₁, untouched₁, spills₁, out, enter', -, issued₁⟩ :=
    block_settled few grows within untouched bare rest enter needless remains lowered.words (Nat.le_refl _) opens
  obtain ⟨-, keeps₂, untouched₂, spilled₂, listed₂, spills₂, issued₂⟩ :=
    blocks_settled few grows within untouched₁ made distinct spills₁.frame (Nat.le_add_right _ _) many
  obtain ⟨nameShuts, keeps₃, -, -, out', leave', nothing, -⟩ :=
    block_settled few grows within untouched₂ epilogue.code [] (by rw [List.append_nil]) needless'
      (.nothing : Remains E (Selection.inner t) next next []) spills₂.frame
      (Nat.le_trans (Nat.le_add_right _ _) (Nat.le_add_right _ _)) shuts
  obtain ⟨rfl, -⟩ := nothing rfl
  obtain rfl : spilled = _ := Except.ok.inj (listed.symm.trans (spilledSlots_ends opens many listed₂ shuts))
  have total : size = E.words + ((prologue.spilled s).length + spilled₂.length + (epilogue.spilled s').length) := by
    simp only [size, List.length_append]
  have three : bare.length = 3 := by
    obtain ⟨_, _, _, _, same, -⟩ := (opening out).split
    rw [List.append_cancel_right same]
    rfl
  have runs := block_realized enough few fits params agrees grows within untouched bare rest enter needless remains
    (Keeps.closing (Entry.keeps lowered.reserves enters)) lowered.words (Nat.le_refl _) opens (by omega) enter'
  have become := blocks_realized enough few fits params agrees grows within untouched₁ made distinct spills₁.frame
    (Nat.le_add_right _ _) many listed₂ (by omega)
  refine ⟨size, p₀, by omega, fits, ⟨by simp [p₀, Pool.set], ?_, fun x other => ?_⟩, rfl, prologue, prologue',
    bodies ++ [epilogue], bodies' ++ [epilogue'], epilogue, bare, rest, out, blocks, rfl,
    List.getLast?_concat, enter, enter', three, copied needless, ?_, List.rel_append ?_ (.cons ?_ .nil)⟩
  · rw [getP, if_pos rfl]
  · rw [getP, if_neg other]
  · rw [reserved]
    exact runs.congr fun i mem x use =>
      issued₁.connected.get ((Settles.of_keeps (keeps₂.trans keeps₃)).trans final)
        (frame_stands lowered grows above untouched₁).2 mem use
  · have other : ∀ b ∈ bodies, b.name ≠ epilogue.name := fun b mem =>
      apart b.name (List.mem_map_of_mem mem) epilogue.name (by simp)
    have both := ((List.forall₂_and_left _ _).mpr ⟨issued₂, ((List.forall₂_and_left _ _).mpr ⟨other, become⟩).flip⟩).flip
    refine both.imp fun b b' h => .body h.2.2.1 h.2.1 ?_
    rw [reserved]
    exact h.2.2.2.congr fun i mem x use =>
      h.1.connected.get ((Settles.of_keeps keeps₃).trans final)
        (frame_stands lowered grows above untouched₂).2 mem use
  · obtain ⟨stack, saved, code, -, -⟩ := leaves.split
    refine .last nameShuts (by rw [leave', List.append_nil]) (copied needless') fun x => ?_
    rw [code]
    simp

/-- Lowered functions become functions that run as they do, each in a pool in which its frame has another size. -/
theorem functions_carried {source : IR.Program} {found : List String} {high : OperandRef}
    {functions functions' : List Function} {slots : List Slots}
    (made : Functions source p found low high first next functions slots) (untouched : Untouched p q low first)
    (ok : Program.allocateFunctions registers q journal functions = .ok (functions', q', journal'))
    (params : ∀ f ∈ source.functions, (∃ pl, Placed f pl) → ∀ i, f.Reads i → i < 2 ^ 32)
    (small : ∀ f ∈ source.functions, f.values.size + q'.operands.size < 2 ^ 32) :
    ∀ t ∈ functions, ∃ t' ∈ functions', ∃ ref size p₀, t.frame = some ref ∧ t.frameSize.toNat ≤ size ∧
      size < 2 ^ 32 ∧ Resized p ref size p₀ ∧ Carried p₀ q' t.frameSize.toNat size t t' := by
  induction made generalizing q journal functions' with
  | nil => simp
  | @cons low high first middle next E f ref t rest slots _ head origin above grows known tail ih =>
    obtain ⟨⟨t', r, log⟩, one, ok⟩ := bind_ok.mp ok
    obtain ⟨⟨rest', q', journal'⟩, more, eq⟩ := bind_ok.mp ok
    cases eq
    have mem := IR.Program.mem_of_function? origin
    obtain ⟨-, untouched', -, -, finished, -⟩ := function_finished few grows head above untouched one
    obtain ⟨settles, -⟩ := functions_finished few tail untouched' more
    have apart : ∀ g ∈ frames rest, E.pool.operands.size ≤ g ∧ ∃ v, r.get g = .imm v := by
      intro g mem
      obtain ⟨least, inside, v, imm⟩ := frames_above tail mem
      exact ⟨least, v, (untouched'.concrete least inside (by rw [imm]; rfl)).trans imm⟩
    intro s mem'
    rcases List.mem_cons.mp mem' with rfl | mem'
    · obtain ⟨size, p₀, le, fits, resized, carried⟩ := function_carried enough few grows head above untouched one
        (params f mem head.placed) (Nat.lt_of_le_of_lt (Nat.add_le_add_left settles.size _) (small f mem))
      exact ⟨t', List.mem_cons_self, ref, size, p₀, head.framed, le, fits, resized,
        carried.congr fun i mem x use => (finished.last settles apart mem use).1⟩
    · obtain ⟨s', there, rest⟩ := ih untouched' more s mem'
      exact ⟨s', List.mem_cons_of_mem _ there, rest⟩

end

end Codegen86.Stack
