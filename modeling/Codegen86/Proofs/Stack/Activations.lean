import Codegen86.Proofs.Linking.Addresses
import Codegen86.Proofs.Selection.Meaning
import Codegen86.Proofs.Stack.Realized
/-!
# Activations of allocated functions

An activation of a lowered function comes to the same when the function is allocated: its blocks lead to each other
as before (`ends_carried`), from states that are the same but for spilled values, and calls see none of these
(`callsAlike`).  So the functions of an allocated program run as the calls of their sources do
(`allocated_enters`), in a memory without bounds.
-/

set_option autoImplicit false

namespace Codegen86.Stack

open Target Selection Allocation Symbolic

variable {A : Scene} {q : Pool} {t t' : Function} {last : String} {name : String} {u v w : View}
  {opening opening' : Block} {others others' : List Block} {within : String → View → Prop}
  {R : Except Trap View → Prop}

/-! ## States of a scene -/

/-- Spilled values do not matter to what follows a block. -/
theorem Resembles.alike (h : Resembles A.base A.site.words A.size u v) : A.Alike u v where
  basePointer := h.basePointer
  stackPointer := h.stackPointer
  result := h.result
  memory a high := h.memory a fun j least most same => by
    have base := A.least
    have small := A.small
    rw [same, Word.toInt_slot (by omega) (by omega)] at high
    omega

/-- Spilled values are kept in the frame. -/
theorem bottom_le_spill {E : Setting} (size : E.cap = A.size) {a : Word} (spill : IsSpill E A.base a) :
    A.bottom.toInt ≤ a.toInt := by
  obtain ⟨j, -, most, rfl⟩ := spill
  have base := A.least
  have small := A.small
  rw [A.toInt_bottom, Word.toInt_slot (by omega) (by omega)]
  omega

/-- What the code of an allocated block runs in. -/
def spilledSurroundings (A : Scene) (q : Pool) : Surroundings where
  model := .ideal false
  pool := q
  calls := Symbolic.Memory.unbounded.calls A.context.source A.known (A.room + 1)

/-- Calls come to the same whatever values are spilled: these are above the arguments, where a call changes
nothing. -/
theorem callsAlike (memory : A.memory = .unbounded) {W : View → Prop} (inside : ∀ v, W v → A.Within v) :
    CallsAlike A.size W A.surroundings.calls (spilledSurroundings A q).calls := by
  intro E size tracked
  refine ⟨fun here => ?_, fun {k l u t post} here agree spec => ?_⟩
  · obtain ⟨base, apart⟩ := inside _ here
    rw [size, base]
    exact apart
  · obtain ⟨base, -⟩ := inside _ here
    have spec : A.memory.callsBelow A.bottom A.context.source A.known (A.room + 1) k l u = some post := spec
    rw [memory] at spec
    obtain ⟨spec, f, function, below⟩ := Memory.of_callsBelow_eq_some spec
    obtain ⟨f', r, function', outcome, -, most, rfl⟩ := Memory.of_calls_eq_some spec
    obtain rfl : f' = f := Option.some.inj (function'.symm.trans function)
    rw [← agree.stackPointer] at below most
    have high : ∀ a, IsSpill E u.basePointer a → t.stackPointer.toInt + f'.arity ≤ a.toInt := fun a spill =>
      Int.le_trans below (bottom_le_spill size (base ▸ spill))
    -- the arguments are the same
    have words : t.stackWords f'.arity = u.stackWords f'.arity := by
      refine List.map_congr_left fun i less => ?_
      have less := List.mem_range.mp less
      have top := A.base.toInt_lt
      have bottom := A.toInt_bottom
      have there : (t.stackPointer + Word.ofNat i).toInt = t.stackPointer.toInt + i :=
        Word.toInt_add_ofNat (by omega)
      rw [← agree.stackPointer]
      refine agree.memory (tracked _) fun spill => ?_
      have := high _ spill
      omega
    refine ⟨_, Memory.calls_eq_some (m := .unbounded) (k := k) function (by simp [View.stackWords])
      (words.symm ▸ outcome) (t.stacked_stackWords _) trivial (by simpa [View.stackWords] using most), fun r' answer => ?_⟩
    cases r' with
    | error c => exact answer
    | ok t' =>
      obtain ⟨returned, locals⟩ := answer
      classical
      -- the frame of the original code, where nothing was spilled
      let u' : View := { t' with
        locals := u.locals
        memory := fun a => if IsSpill E u.basePointer a then u.memory a else t'.memory a }
      have kept : ∀ a, IsSpill E u.basePointer a → t'.memory a = t.memory a := fun a spill =>
        returned.memory a (by have := high a spill; omega)
      refine ⟨u', ⟨⟨returned.defined, returned.result, returned.stackPointer.trans agree.stackPointer,
        returned.basePointer.trans agree.basePointer, fun a above => ?_⟩, rfl⟩, ⟨rfl, rfl, rfl, rfl, rfl, ?_⟩,
        returned.basePointer.trans agree.basePointer, rfl, kept⟩
      · show (if IsSpill E u.basePointer a then u.memory a else t'.memory a) = u.memory a
        split
        · rfl
        · rename_i outside
          rw [← agree.stackPointer] at above
          exact (returned.memory a above).trans (agree.memory (tracked a) outside)
      · intro a _ outside
        have base' : u'.basePointer = u.basePointer := returned.basePointer.trans agree.basePointer
        rw [base'] at outside
        exact (if_neg outside).symm

/-! ## Blocks of an activation -/

/-- A block runs as the one that it was. -/
theorem Becomes.realizes {b b' : Block} (h : Becomes A.site.pool q A.site.words A.size last b b')
    (memory : A.memory = .unbounded) {W : View → Prop} (inside : b.name ≠ last → ∀ v, W v → A.Within v)
    {Q : Symbolic.Exit → View → Prop} (safe : ∀ c w, Q (.trap c) w → c = .stackOverflow)
    (runs : Runs { A.outer with within := W } 0 b.code v Q) :
    Runs (spilledSurroundings A q) 0 b'.code v fun e w =>
      ∃ u, Q e u ∧ ((∃ c, e = .trap c) ∨ Resembles A.base A.site.words A.size u w) := by
  cases h with
  | body name inner as =>
    refine as.runs (fun w here => (inside inner w here).1) (callsAlike (q := q) memory (inside inner)) safe ?_
    rw [Scene.outer, Scene.surroundings, memory] at runs
    rw [Scene.surroundings, memory]
    exact runs
  | last name code copied noCall =>
    rw [code]
    have valid : (Model.ideal false).valid = (A.memory.model true).valid := by
      rw [memory]
      rfl
    have runs : Runs (spilledSurroundings A q) 0 b.code v Q :=
      Runs.concrete (S := { A.outer with within := W }) valid (fun _ _ => trivial) copied noCall runs
    exact runs.mono fun e w q => ⟨w, q, .inr ⟨rfl, rfl, rfl, fun _ _ => rfl⟩⟩

/-- What is found under the name of a block, but the first one, is what the block became. -/
theorem codeOf?_carried {p : Pool} {words size : Nat} {code : List Instruction} (blocks : t.blocks = opening :: others)
    (blocks' : t'.blocks = opening' :: others') (become : List.Forall₂ (Becomes p q words size last) others others')
    (distinct : (t.blocks.map (·.name)).Nodup) (distinct' : (t'.blocks.map (·.name)).Nodup)
    (inner : name ∈ Selection.inner t) (found : t.codeOf? name = some code) :
    ∃ b b', b ∈ t.blocks ∧ b.name = name ∧ b.code = code ∧ t'.codeOf? name = some b'.code ∧
      Becomes p q words size last b b' := by
  rw [Selection.inner, blocks, List.tail_cons] at inner
  obtain ⟨b, mem, rfl⟩ := List.mem_map.mp inner
  have here : b ∈ t.blocks := by rw [blocks]; exact List.mem_cons_of_mem _ mem
  obtain rfl := Option.some.inj ((codeOf?_of_mem distinct here).symm.trans found)
  obtain ⟨i, less, at_⟩ := List.getElem_of_mem mem
  obtain ⟨same, all⟩ := List.forall₂_iff_get.mp become
  have as := all i less (same ▸ less)
  rw [List.get_eq_getElem, at_] at as
  have name : (others'.get ⟨i, same ▸ less⟩).name = b.name := by
    cases as with
    | body name => exact name
    | last name => exact name
  refine ⟨b, _, here, rfl, rfl, name ▸ codeOf?_of_mem distinct' ?_, as⟩
  rw [blocks']
  exact List.mem_cons_of_mem _ (List.get_mem _ _)

section

variable (memory : A.memory = .unbounded) (blocks : t.blocks = opening :: others)
  (blocks' : t'.blocks = opening' :: others')
  (become : List.Forall₂ (Becomes A.site.pool q A.site.words A.size last) others others')
  (distinct : (t.blocks.map (·.name)).Nodup) (distinct' : (t'.blocks.map (·.name)).Nodup)
  (leads : ∀ i ∈ t.code, i.isJump = true → ∀ x ∈ i.operands, ∀ l, A.site.pool.get x = .label l →
    l.name ∈ Selection.inner t)
  (inside : ∀ name, name ≠ last → ∀ v, within name v → A.Within v) (safe : ∀ c, R (.error c) → c = .stackOverflow)
  (closed : ∀ u w, Resembles A.base A.site.words A.size u w → R (.ok u) → R (.ok w))
include memory blocks blocks' become distinct distinct' leads inside safe closed

/-- An activation that goes on with a block comes to an end as before, whatever values are spilled. -/
theorem ends_carried (ends : A.Ends t within R name v) (inner : name ∈ Selection.inner t)
    (resembles : Resembles A.base A.site.words A.size v w) :
    Symbolic.Ends t'.codeOf? (spilledSurroundings A q) (fun _ _ => True) Eq R name w := by
  unfold Scene.Ends at ends
  induction ends generalizing w with
  | @block name v body Q found runs jumps returns traps stays ih =>
    obtain ⟨b, b', mem, rfl, rfl, found', as⟩ :=
      codeOf?_carried blocks blocks' become distinct distinct' inner found
    have runs := as.realizes memory (W := within b.name) (fun other => inside _ other)
      (fun c w q => safe c (traps c w q.1)) (runs w resembles.alike).leaves
    refine .block found' (fun v same => same ▸ runs) ?_ ?_ ?_ ?_
    · rintro l w' ⟨u, ⟨q, -, label⟩, similar⟩
      obtain ⟨i, code, jump, x, use, is⟩ := label l rfl
      exact ih l u q (leads i (List.mem_flatMap.mpr ⟨b, mem, code⟩) jump x use l is)
        (similar.resolve_left (by simp))
    · rintro w' ⟨u, ⟨q, -⟩, similar⟩
      exact closed u w' (similar.resolve_left (by simp)) (returns u q)
    · rintro c w' ⟨u, ⟨q, -⟩, -⟩
      exact traps c u q
    · refine fun w' => ⟨?_, ?_⟩
      · rintro ⟨u, ⟨q, -⟩, -⟩
        exact (stays u).1 q
      · rintro ⟨u, ⟨q, -⟩, -⟩
        exact (stays u).2 q

/-- So does an activation from its beginning, where the frame is made by code that stays. -/
theorem opening_carried {bare rest out : List Instruction} (code : opening.code = bare ++ rest)
    (plain : ∀ i ∈ bare, i.isPlain = true) (copied : Copied A.site.pool q bare)
    (as : RunsAs A.site.words A.size A.site.pool q rest out)
    (made : v.executeAll (.ideal true) A.site.pool bare = .ok w)
    (runs : Runs A.surroundings 0 rest w (A.Continues t within R)) :
    Runs (spilledSurroundings A q) 0 (bare ++ out) v
      (Symbolic.Continues t'.codeOf? (spilledSurroundings A q) (fun _ _ => True) Eq R) := by
  have same : v.executeAll (.ideal false) q bare = v.executeAll (.ideal true) A.site.pool bare :=
    View.executeAll_concrete v rfl copied
  refine Runs.executeAll (fun _ => trivial) plain (same.trans made) ?_
  have runs := runs.leaves
  have alike := callsAlike (q := q) memory (W := A.Within) fun _ => id
  rw [Scene.surroundings, memory] at runs
  rw [Scene.surroundings, memory] at alike
  refine (as.runs (fun w here => here.1) alike (fun c w q => safe c q.1) runs).mono fun e w done => ?_
  obtain ⟨u, ⟨continues, -, label⟩, similar⟩ := done
  cases e with
  | jump l =>
    obtain ⟨i, mem, jump, x, use, is⟩ := label l rfl
    have there : i ∈ t.code := List.mem_flatMap.mpr
      ⟨opening, by rw [blocks]; exact List.mem_cons_self, by rw [code]; exact List.mem_append_right _ mem⟩
    exact ends_carried memory blocks blocks' become distinct distinct' leads inside safe closed continues
      (leads i there jump x use l is) (similar.resolve_left (by simp))
  | ret => exact closed u w (similar.resolve_left (by simp)) continues
  | trap c => exact continues
  | fallThrough => exact continues
  | halt => exact continues

end

/-! ## Whole activations -/

/-- Spilled values do not matter to the caller. -/
theorem returns_of_resembles {r : IR.Result} (base : A.base = v.stackPointer - 1) (least : 0 ≤ v.stackPointer.toInt)
    (returns : Symbolic.Returns r v u) (resembles : Resembles A.base A.site.words A.size u w) : Symbolic.Returns r v w where
  defined := returns.defined
  result x value := resembles.result.trans (returns.result x value)
  stackPointer := resembles.stackPointer.trans returns.stackPointer
  basePointer := resembles.basePointer.trans returns.basePointer
  memory a above := by
    refine (resembles.memory a fun j least' most same => ?_).trans (returns.memory a above)
    have positive := A.least
    have small := A.small
    have top := v.stackPointer.toInt_lt
    have one : (1 : Word).toInt = 1 := rfl
    have low : A.base.toInt = v.stackPointer.toInt - 1 := by
      rw [base, Word.toInt_sub_of_bounds, one] <;> omega
    rw [same, Word.toInt_slot (by omega) (by omega)] at above
    omega

variable {source : IR.Program} {entry : String} {journal journal' log log' : Journal} {p p' placed : Program}
  {registers : Nat}

/-- The values listed in the blocks of a function that is lowered are among its values. -/
theorem placed_lt {f : IR.Function} {selector selector' : Selector} {c : Selection.Context} {frame : OperandRef}
    {s s' : Lowering} (lowers : Lowers source selector f c frame s s' t selector') :
    ∀ x ∈ f.placed, x < f.values.size := by
  intro x mem
  obtain ⟨b, block, inside⟩ := List.mem_flatMap.mp mem
  obtain ⟨before, after, split⟩ := List.append_of_mem inside
  obtain ⟨op, listed⟩ := (lowers.placed b (lowers.function.symm ▸ block)).2 before x after split
  obtain ⟨value, there, -⟩ := Option.map_eq_some_iff.mp (lowers.function ▸ listed.found)
  exact (Array.getElem?_eq_some_iff.mp there).1

/-- Jumps lead to the same blocks with a frame of any size. -/
theorem leading_resized {pool resizes : Pool} {frame : OperandRef} {size : Nat} {targets : List String}
    {code : List Instruction} (leading : Leading pool targets code) (resized : Resized pool frame size resizes) :
    ∀ i ∈ code, i.isJump = true → ∀ x ∈ i.operands, ∀ l, resizes.get x = .label l → l.name ∈ targets := by
  intro i mem jump x use l is
  obtain ⟨target, symbol, known⟩ := leading i mem jump x use
  have apart : x ≠ frame := by
    rintro rfl
    rw [resized.amount] at is
    cases is
  rw [resized.others x apart, symbol] at is
  cases is
  exact known

/-- The functions of an allocated program run as the calls of their sources do that do not divide by zero, in
whatever order they are laid out. -/
theorem allocated_enters (selected : select source entry journal = .ok (p, journal'))
    (allocated : p.allocate registers log = .ok (p', log')) (enough : 2 ≤ registers) (few : registers ≤ 64)
    (params : ∀ f ∈ source.functions, (∃ pl, Placed f pl) → ∀ i, f.Reads i → i < 2 ^ 32)
    (small : ∀ f ∈ source.functions, f.values.size + p'.pool.operands.size < 2 ^ 32)
    (linkable : placed.Linkable) (pool : placed.pool = p'.pool) (perm : placed.functions.Perm p'.functions)
    (word : Nat → Word) (fuel depth room : Nat) :
    (placed.linked (.ideal false) .innermost word).Enters .unbounded source
      (callsOf source (p.functions.map (·.name)) fuel depth).whole room := by
  obtain ⟨slots, -, chosen⟩ := select_spec selected
  obtain ⟨last, program, found, -, includes⟩ := select_includes selected
  obtain ⟨next, functions⟩ := chosen.functions
  obtain ⟨⟨functions', q, log''⟩, all, eq⟩ := bind_ok.mp allocated
  cases eq
  have count : registerCount registers = registers := Nat.mod_eq_of_lt (Nat.lt_of_le_of_lt few (by decide))
  rw [count] at all
  have carried := functions_carried enough few functions ⟨Nat.le_refl _, fun _ _ => .inl rfl⟩ all params small
  have bounded : Symbolic.Memory.unbounded.top < 2 ^ 63 := by decide
  rw [← found]
  induction depth generalizing room with
  | zero =>
    intro l f r args _ _ outcome
    simp [callsOf, IR.Program.call, IR.Calls.whole] at outcome
  | succ depth ih =>
    intro l f r args function arity outcome
    obtain ⟨outcome, defined⟩ := IR.Calls.whole_eq_some.mp outcome
    obtain ⟨mem, outcome⟩ := activation_of_callsOf function outcome
    obtain ⟨f', c, frame, u, s, s', t, u', origin, included⟩ := includes l.name mem
    obtain rfl : f' = f := Option.some.inj (origin.symm.trans function)
    have there : t ∈ p.functions := program ▸ included.function
    obtain ⟨t', there', frame', size, p₀, framed, enough, fits, resized, carried⟩ := carried t there
    obtain rfl : frame' = frame := Option.some.inj (framed.symm.trans included.lowers.framed)
    obtain ⟨before, after, split⟩ := List.append_of_mem (perm.mem_iff.mpr there')
    have name : l.name = t'.name :=
      (carried.name.trans (included.lowers.named.trans (IR.Program.name_of_function? origin))).symm
    refine ⟨_, linkable.call (.ideal false) .innermost word split name, fun v points entered => ?_⟩
    obtain ⟨opening, opening', others, others', block, bare, rest, out, blocks, blocks', final, code, code', three,
      copied, runsAs, become⟩ := carried.split
    obtain ⟨-, leading, -⟩ := functions.leading there
    have small := small f' (IR.Program.mem_of_function? origin)
    let within : String → View → Prop := fun name u => name ≠ block.name →
      u.basePointer = v.stackPointer - 1 ∧ u.stackPointer.toInt + size ≤ u.basePointer.toInt
    have outside : ∀ b ∈ t.blocks.getLast?, ∀ u, within b.name u := by
      intro b mem u other
      rw [blocks, List.getLast?_cons, final] at mem
      exact absurd (congrArg (·.name) (Option.some.inj mem)).symm other
    have knows : ∀ name ∈ last.found, ∀ words,
        (callsOf source last.found fuel depth).whole name words = (source.call fuel depth).whole name words := by
      intro name mem words
      simp only [IR.Calls.whole, callsOf, if_pos mem]
    have entered' : Entered .unbounded (0 + 1 + largest (source.functions.map (·.arity)) + size + 1) args v :=
      ⟨trivial, entered.least, entered.most, entered.stacked⟩
    obtain ⟨prologue, others₀, saved, base, top, pointer, rest₀, blocks₀, code₀, runs⟩ :=
      included.enters within (program ▸ resized) enough fits (callsOf source last.found fuel depth).whole
        (fun x mem => Nat.lt_of_lt_of_le (placed_lt included.lowers x mem) (by omega))
        (fun name g function => le_largest (List.mem_map_of_mem (IR.Program.mem_of_function? function))) bounded knows
        arity (IR.Activation.blocks_whole outcome defined) entered' (fun name u base room _ => ⟨base, room⟩) outside
    obtain ⟨rfl, rfl⟩ := List.cons.inj (blocks₀.symm.trans blocks)
    obtain ⟨rfl, rfl⟩ := List.append_inj (code.symm.trans code₀) three
    have closed := linkable.closed_linked (.ideal false) .innermost word
    have has := linkable.function (.ideal false) .innermost word split
    have plain : ∀ i ∈ ([.push saved, .mov base top, .arith .sub pointer frame'] : List Instruction),
        i.isPlain = true := by
      simp [Instruction.isPlain]
    rcases runs with ⟨A, w, of, made, runs⟩ | ⟨-, overflow⟩
    · obtain ⟨memory, rfl, rfl, known, room, rfl, words, base⟩ := of
      have answered : (placed.linked (.ideal false) .innermost word).Answered (spilledSurroundings A q).calls := by
        rw [spilledSurroundings, known, room]
        exact Linked.answered rfl rfl bounded (ih 0)
      rw [← words] at runsAs become
      have opened := opening_carried memory blocks blocks' become included.lowers.distinct has.names
        (leading_resized leading resized) (fun name other u here => ?_) (fun c fails => ?_)
        (fun u w resembles returns => returns_of_resembles base entered.least returns resembles) code plain copied runsAs
        made runs
      · rw [← code'] at opened
        exact Runs.enters (S := spilledSurroundings A q) closed rfl pool answered has (fun _ => rfl) blocks' opened points
      · obtain ⟨here, low⟩ := here other
        exact ⟨here.trans base.symm, base ▸ here ▸ low⟩
      · rcases fails with ⟨overflow, -⟩ | ⟨-, divides⟩
        · exact overflow
        · exact absurd divides defined
    · have pool : placed.pool = q := pool
      have same : v.executeAll (.ideal false) placed.pool [.push saved, .mov base top, .arith .sub pointer frame'] =
          v.executeAll (.ideal true) p₀ [.push saved, .mov base top, .arith .sub pointer frame'] := by
        rw [pool]
        exact View.executeAll_concrete v rfl copied
      exact has.fails closed blocks' code' plain (same.trans overflow) (.inl ⟨rfl, rfl⟩) points

end Codegen86.Stack
