import Codegen86.Proofs.Frames
import Codegen86.Proofs.Lookup
import Codegen86.Selection.Plan
/-!
# What placement and plans guarantee

A function that passes the checks lists no value twice, ends every block in its only terminator, and
reads parameters and listed values with results only (`Placed`).  A fused comparison stands in the block
that its branch ends, and nothing but that branch reads it (`Placed.fused_read`).  Homes are the first words
of the frame (`Planned`).
-/

set_option autoImplicit false

namespace Codegen86.Selection

open IR

variable {f : Function}

/-! ## Checks on blocks -/

/-- What the check of a listed value asks. -/
structure Listed (f : Function) (v : ValueId) (isLast : Bool) (op : Op) : Prop where
  found : f.op? v = some op
  noArg : ∀ i, op ≠ .arg i
  terminator : op.isTerminator = isLast
  successors : ∀ b ∈ op.successors, b < f.blocks.length

/-- A block whose values are all listed as they should be. -/
def WellListed (f : Function) (body : List ValueId) : Prop :=
  ∀ before v after, body = before ++ v :: after → ∃ op, Listed f v after.isEmpty op

theorem place_ok {block : Block} {id : BlockId} {pl pl' : Placement} {v : ValueId} {isLast : Bool}
    (h : place f block id pl v isLast = .ok pl') :
    (∃ op, Listed f v isLast op) ∧ v ∉ pl.map (·.1) ∧ pl' = (v, id) :: pl := by
  unfold place at h
  split at h
  · cases h
  · cases h
  · rename_i op noArg found
    split at h
    · cases h
    · rename_i last
      split at h
      · cases h
      · rename_i known
        split at h
        · cases h
        · rename_i new
          cases h
          refine ⟨⟨op, found, fun i same => noArg i same, by simpa using last, fun b mem => ?_⟩,
            mt lookup_isSome.mpr new, rfl⟩
          simpa using List.find?_eq_none.mp known b mem

theorem placeAll_ok {block : Block} {id : BlockId} {pl pl' : Placement} {body : List ValueId}
    (h : placeAll f block id pl body = .ok pl') :
    WellListed f body ∧ pl' = body.reverse.map (·, id) ++ pl ∧
      ((pl.map (·.1)).Nodup → (pl'.map (·.1)).Nodup) := by
  induction body generalizing pl with
  | nil =>
    cases h
    refine ⟨fun before v after split => by simp at split, rfl, fun nodup => nodup⟩
  | cons v rest ih =>
    rw [placeAll] at h
    cases placed : place f block id pl v rest.isEmpty with
    | error e => simp [placed, bind, Except.bind] at h
    | ok next =>
      rw [placed] at h
      obtain ⟨listed, new, rfl⟩ := place_ok placed
      obtain ⟨well, rfl, distinct⟩ := ih h
      refine ⟨fun before u after split => ?_, by simp, fun nodup => distinct ?_⟩
      · cases before with
        | nil =>
          obtain ⟨rfl, rfl⟩ := List.cons.inj split
          exact listed
        | cons first others =>
          obtain ⟨-, split⟩ := List.cons.inj split
          exact well others u after split
      · simpa using ⟨by simpa using new, nodup⟩

/-- The checks of the blocks in a list. -/
theorem placeBlocks_ok {blocks : List (Block × BlockId)} {pl pl' : Placement}
    (h : blocks.foldlM (placeBlock f) pl = .ok pl') :
    (∀ entry ∈ blocks, entry.1.body ≠ [] ∧ WellListed f entry.1.body) ∧
      pl'.map (·.1) = (blocks.flatMap (·.1.body)).reverse ++ pl.map (·.1) ∧
      ((pl.map (·.1)).Nodup → (pl'.map (·.1)).Nodup) ∧
      ∀ entry ∈ pl', entry ∈ pl ∨ ∃ b, (b, entry.2) ∈ blocks ∧ entry.1 ∈ b.body := by
  induction blocks generalizing pl with
  | nil =>
    cases h
    exact ⟨nofun, rfl, id, fun entry mem => .inl mem⟩
  | cons first rest ih =>
    rw [List.foldlM_cons] at h
    cases checked : placeBlock f pl first with
    | error e => simp [checked, bind, Except.bind] at h
    | ok next =>
      rw [checked] at h
      unfold placeBlock at checked
      split at checked
      · cases checked
      · rename_i full
        obtain ⟨well, rfl, distinct⟩ := placeAll_ok checked
        obtain ⟨others, keys, distinct', origin⟩ := ih h
        refine ⟨fun entry mem => ?_, ?_, fun nodup => distinct' (distinct nodup), fun entry mem => ?_⟩
        · rcases List.mem_cons.mp mem with rfl | mem
          · exact ⟨by simpa using full, well⟩
          · exact others entry mem
        · simp [keys, Function.comp_def]
        · rcases origin entry mem with mem | ⟨b, mem, inside⟩
          · rcases List.mem_append.mp mem with mem | mem
            · obtain ⟨v, mem, rfl⟩ := List.mem_map.mp mem
              exact .inr ⟨first.1, List.mem_cons_self, by simpa using mem⟩
            · exact .inl mem
          · exact .inr ⟨b, List.mem_cons_of_mem _ mem, inside⟩

/-- A function that passes the checks. -/
structure Placed (f : Function) (pl : Placement) : Prop where
  some : f.blocks ≠ []
  full : ∀ b ∈ f.blocks, b.body ≠ []
  listed : ∀ b ∈ f.blocks, WellListed f b.body
  distinct : f.placed.Nodup
  place : ∀ {v id}, pl.lookup v = .some id → ∃ b, f.blocks[id]? = .some b ∧ v ∈ b.body
  mem : ∀ {v}, v ∈ pl.map (·.1) ↔ v ∈ f.placed
  uses : ∀ v ∈ uses f, isDefined f pl v = true

theorem placement_ok {pl : Placement} (h : placement f = .ok pl) : Placed f pl := by
  unfold placement at h
  by_cases empty : f.blocks.isEmpty = true
  · rw [if_pos empty] at h
    cases h
  · rw [if_neg empty] at h
    cases checked : f.numbered.foldlM (placeBlock f) [] with
    | error e => simp [checked, bind, Except.bind] at h
    | ok pl' =>
      simp only [checked, bind, Except.bind, pure, Except.pure] at h
      split at h
      · cases h
      · rename_i defined
        cases h
        obtain ⟨blocks, keys, distinct, origin⟩ := placeBlocks_ok checked
        have numbered : ∀ b ∈ f.blocks, ∃ id, (b, id) ∈ f.numbered := by
          intro b mem
          obtain ⟨i, inside, rfl⟩ := List.getElem_of_mem mem
          exact ⟨i, List.mem_zipIdx_iff_getElem?.mpr (List.getElem?_eq_getElem inside)⟩
        have placed : f.numbered.flatMap (·.1.body) = f.placed := by
          have := List.flatMap_map (l := f.numbered) Prod.fst fun b : Block => b.body
          rw [Function.numbered, List.zipIdx_map_fst] at this
          exact this.symm
        have keys : pl.map (·.1) = f.placed.reverse := by
          rw [keys, placed]
          simp
        constructor
        · simpa using empty
        · intro b mem
          obtain ⟨id, mem⟩ := numbered b mem
          exact (blocks _ mem).1
        · intro b mem
          obtain ⟨id, mem⟩ := numbered b mem
          exact (blocks _ mem).2
        · have := distinct List.nodup_nil
          rwa [keys, (List.reverse_perm _).nodup_iff] at this
        · intro v id found
          rcases origin _ (mem_of_lookup found) with mem | ⟨b, mem, inside⟩
          · cases mem
          · exact ⟨b, List.mem_zipIdx_iff_getElem?.mp mem, inside⟩
        · intro v
          rw [keys, List.mem_reverse]
        · intro v mem
          simpa using List.find?_eq_none.mp defined v mem

/-! ## Fused comparisons -/

/-- Two values that read `x` read it twice. -/
theorem two_le_count_flatMap {values : List ValueId} {u v x : ValueId} {reads : ValueId → List ValueId}
    (mu : u ∈ values) (mv : v ∈ values) (ne : u ≠ v) (ru : x ∈ reads u) (rv : x ∈ reads v) :
    2 ≤ (values.flatMap reads).count x := by
  obtain ⟨before, after, rfl⟩ := List.append_of_mem mu
  have here : 1 ≤ (reads u).count x := List.one_le_count_iff.mpr ru
  have there : v ∈ before ∨ v ∈ after := by
    rcases List.mem_append.mp mv with mem | mem
    · exact .inl mem
    · exact .inr ((List.mem_cons.mp mem).resolve_left (Ne.symm ne))
  rw [List.flatMap_append, List.flatMap_cons, List.count_append, List.count_append]
  rcases there with mem | mem
  · have : 1 ≤ (before.flatMap reads).count x :=
      List.one_le_count_iff.mpr (List.mem_flatMap.mpr ⟨v, mem, rv⟩)
    omega
  · have : 1 ≤ (after.flatMap reads).count x :=
      List.one_le_count_iff.mpr (List.mem_flatMap.mpr ⟨v, mem, rv⟩)
    omega

theorem mem_placed {f : Function} {b : Block} {v : ValueId} (mem : b ∈ f.blocks)
    (inside : v ∈ b.body) : v ∈ f.placed :=
  List.mem_flatMap.mpr ⟨b, mem, inside⟩

/-- No parameter is listed in a block. -/
theorem Placed.noArg {pl : Placement} (h : Placed f pl) {x : ValueId} (placed : x ∈ f.placed) (i : Nat) :
    f.op? x ≠ .some (.arg i) := by
  obtain ⟨b, mem, inside⟩ := List.mem_flatMap.mp placed
  obtain ⟨before, after, split⟩ := List.append_of_mem inside
  obtain ⟨op, listed⟩ := h.listed b mem before x after split
  rw [listed.found]
  exact fun same => listed.noArg i (Option.some.inj same)

/-- Only the branch that it is fused with reads a fused comparison, and it stands in that branch's
block. -/
theorem Placed.fused_read {pl : Placement} (h : Placed f pl) {x u : ValueId}
    (fused : x ∈ fusedComparisons f pl) (placed : u ∈ f.placed) (read : x ∈ f.operandsOf u) :
    (∃ onTrue onFalse, f.op? u = .some (.branch x onTrue onFalse)) ∧ f.isComparison x = true ∧
      ∃ b ∈ f.blocks, u ∈ b.body ∧ x ∈ b.body := by
  obtain ⟨⟨b, id⟩, numbered, found⟩ := List.mem_filterMap.mp fused
  have here : f.blocks[id]? = .some b := List.mem_zipIdx_iff_getElem?.mp numbered
  have mem : b ∈ f.blocks := List.mem_of_getElem? here
  unfold fusedIn? at found
  split at found
  · rename_i cond onTrue onFalse branch
    obtain ⟨v, last, op⟩ := Option.bind_eq_some_iff.mp branch
    split at found
    · rename_i test
      cases found
      simp only [Bool.and_eq_true, beq_iff_eq] at test
      obtain ⟨⟨comparison, place⟩, once⟩ := test
      have inside : v ∈ b.body := List.mem_of_getLast? last
      obtain ⟨b', here', within⟩ := h.place place
      obtain rfl : b = b' := Option.some.inj (here.symm.trans here')
      have reads : x ∈ f.operandsOf v := by simp [Function.operandsOf, op, Op.operands]
      obtain rfl : u = v := Decidable.byContradiction fun ne => by
        have := two_le_count_flatMap placed (mem_placed mem inside) ne read reads
        have : (f.placed.flatMap f.operandsOf).count x = 1 := once
        omega
      exact ⟨⟨onTrue, onFalse, op⟩, comparison, b, mem, inside, within⟩
    · cases found
  · cases found

/-! ## Home slots -/

theorem reserveHomes_spec {frame : Frame} {words : Nat} (size : frame.words.toNat = words % 2 ^ 32)
    (values : List ValueId) :
    (reserveHomes frame values).1.map (·.1) = values ∧
      SlotsAfter words (reserveHomes frame values).1 ∧
      (reserveHomes frame values).2.words.toNat = (words + values.length) % 2 ^ 32 := by
  induction values generalizing frame words with
  | nil => exact ⟨rfl, trivial, size⟩
  | cons v rest ih =>
    obtain ⟨offset, next⟩ := Frame.reserve_spec size
    obtain ⟨keys, homes, last⟩ := ih next
    refine ⟨by simp [reserveHomes, keys], ⟨offset, homes⟩, ?_⟩
    rw [List.length_cons, ← Nat.add_assoc, Nat.add_right_comm]
    exact last

/-- A function with its plan. -/
structure Planned (f : Function) (plan : Plan) (pl : Placement) : Prop where
  placed : Placed f pl
  fused : plan.fused = fusedComparisons f pl
  distinct : (plan.homes.map (·.1)).Nodup
  homes : SlotsAfter 0 plan.homes
  frame : plan.frame.words.toNat = plan.homes.length % 2 ^ 32
  result : ∀ x ∈ plan.homes.map (·.1), ∃ op, f.op? x = some op ∧ op.hasResult = true ∧
    ∀ bytes, op ≠ .alloca bytes
  owned : ∀ x ∈ plan.homes.map (·.1), x ∈ f.placed

theorem mem_segmentsFrom {fused : List ValueId} {id : BlockId} {segment : Nat} {body : List ValueId}
    {entry : ValueId × Segment} (mem : entry ∈ segmentsFrom f fused id segment body) :
    entry.1 ∈ body := by
  induction body generalizing segment with
  | nil => cases mem
  | cons v rest ih =>
    rcases List.mem_cons.mp mem with rfl | mem
    · exact List.mem_cons_self
    · exact List.mem_cons_of_mem _ (ih mem)

theorem mem_segments {fused : List ValueId} {entry : ValueId × Segment}
    (mem : entry ∈ segments f fused) : entry.1 ∈ f.placed := by
  obtain ⟨⟨b, id⟩, numbered, mem⟩ := List.mem_flatMap.mp mem
  exact mem_placed (List.mem_of_getElem? (List.mem_zipIdx_iff_getElem?.mp numbered))
    (mem_segmentsFrom mem)

/-- What is read where a value is computed is an operand somewhere. -/
theorem Placed.uses_of_readsAt {pl : Placement} (h : Placed f pl) {v x : ValueId} (placed : v ∈ f.placed)
    (read : x ∈ readsAt f (fusedComparisons f pl) v) : x ∈ Selection.uses f := by
  have operand : ∀ {u}, u ∈ f.placed → x ∈ f.operandsOf u → x ∈ Selection.uses f :=
    fun mem read => List.mem_flatMap.mpr ⟨_, mem, read⟩
  unfold readsAt at read
  split at read
  · cases read
  · split at read
    · rename_i cond onTrue onFalse op
      have reads : cond ∈ f.operandsOf v := by simp [Function.operandsOf, op, Op.operands]
      split at read
      · rename_i fused
        obtain ⟨-, -, b, mem, -, within⟩ := h.fused_read (List.contains_iff_mem.mp fused) placed reads
        exact operand (mem_placed mem within) read
      · obtain rfl := List.mem_singleton.mp read
        exact operand placed reads
    · rename_i op found
      exact operand placed (by simpa [Function.operandsOf, found] using read)
    · cases read

/-- A value that has a home has a result, and is no local variable. -/
theorem Placed.hasResult_of_escaping {pl : Placement} (h : Placed f pl) {x : ValueId}
    (mem : x ∈ escaping f (fusedComparisons f pl)) :
    ∃ op, f.op? x = .some op ∧ op.hasResult = true ∧ ∀ bytes, op ≠ .alloca bytes := by
  obtain ⟨⟨v, segment⟩, listed, mem⟩ := List.mem_flatMap.mp mem
  have placed : v ∈ f.placed := mem_segments listed
  rcases List.mem_append.mp mem with read | materialized
  · obtain ⟨read, escapes⟩ := List.mem_filter.mp read
    have defined := h.uses x (h.uses_of_readsAt placed read)
    unfold isDefined at defined
    unfold escapesTo at escapes
    cases found : f.op? x with
    | none => simp [found] at defined
    | some op =>
      rw [found] at defined escapes
      refine ⟨op, rfl, ?_, ?_⟩
      · cases op <;> first | rfl | simp_all
      · rintro bytes rfl
        cases escapes
  · obtain ⟨same, kept⟩ := List.mem_filter.mp materialized
    obtain rfl := List.mem_singleton.mp same
    have comparison : f.isComparison x = true := (Bool.and_eq_true_iff.mp kept).1
    unfold Function.isComparison at comparison
    cases found : f.op? x with
    | none => simp [found] at comparison
    | some op =>
      rw [found] at comparison
      cases op <;> simp_all [Op.isComparison, Op.hasResult]

/-- A value that has a home is listed. -/
theorem Placed.placed_of_escaping {pl : Placement} (h : Placed f pl) {x : ValueId}
    (mem : x ∈ escaping f (fusedComparisons f pl)) : x ∈ f.placed := by
  obtain ⟨⟨v, segment⟩, listed, mem⟩ := List.mem_flatMap.mp mem
  have placed : v ∈ f.placed := mem_segments listed
  rcases List.mem_append.mp mem with read | materialized
  · obtain ⟨read, escapes⟩ := List.mem_filter.mp read
    have defined := h.uses x (h.uses_of_readsAt placed read)
    unfold isDefined at defined
    unfold escapesTo at escapes
    split at defined
    · rename_i param
      simp [param] at escapes
    · exact h.mem.mp (lookup_isSome.mp (Bool.and_eq_true_iff.mp defined).2)
    · cases defined
  · obtain ⟨same, -⟩ := List.mem_filter.mp materialized
    exact List.mem_singleton.mp same ▸ placed

theorem Plan.ofFunction_ok {plan : Plan} (h : Plan.ofFunction f = .ok plan) :
    ∃ pl, Planned f plan pl := by
  unfold Plan.ofFunction at h
  cases checked : placement f with
  | error e => simp [checked, bind, Except.bind] at h
  | ok pl =>
    simp only [checked, bind, Except.bind, pure, Except.pure, Except.ok.injEq] at h
    have placed := placement_ok checked
    obtain ⟨keys, homes, size⟩ := reserveHomes_spec (show ({} : Frame).words.toNat = 0 % 2 ^ 32 from rfl)
      ((List.range f.values.size).filter (escaping f (fusedComparisons f pl)).contains)
    subst h
    have escapes : ∀ {x}, x ∈ (reserveHomes {} ((List.range f.values.size).filter
        (escaping f (fusedComparisons f pl)).contains)).1.map (·.1) → x ∈ escaping f (fusedComparisons f pl) := by
      intro x mem
      rw [keys, List.mem_filter, List.contains_iff_mem] at mem
      exact mem.2
    refine ⟨pl, placed, rfl, ?_, homes, ?_, fun x mem => placed.hasResult_of_escaping (escapes mem),
      fun x mem => placed.placed_of_escaping (escapes mem)⟩
    · rw [keys]
      exact List.nodup_range.filter _
    · have count := congrArg List.length keys
      rw [List.length_map] at count
      rw [size, Nat.zero_add, ← count]

end Codegen86.Selection
