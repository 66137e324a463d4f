import Codegen86.Proofs.IR.Comparisons
import Codegen86.Proofs.Selection.Discovery
import Codegen86.Proofs.Selection.Steps
/-!
# Reads before definitions

A block is lowered from its first value to its last, and no register holds a value before the value is lowered.  So an
operation that reads its own value, or one that comes later in its block, is refused, unless the value is in the frame
anyway (`select_rejects_early_read`).  Parameters and values with a home are; for the latter the read is accepted
(`early_read_accepted`), and finds what the home happens to hold.  What a fused comparison reads is read where its
branch stands, so that a read in between is none too early (`fused_read_accepted`).
-/

set_option autoImplicit false

namespace Codegen86.Selection

open Target IR

variable {c : Context} {s s' s'' : Lowering} {v w : ValueId} {x : OperandRef}

/-- A parameter, or a value with a home: read from the frame where no register holds it. -/
def InFrame (f : IR.Function) (plan : Plan) (v : ValueId) : Prop :=
  (∃ i, f.op? v = some (.arg i)) ∨ v ∈ plan.homes.map (·.1)

theorem sourceOf_inFrame {o : Operand} (ok : Lowering.sourceOf c v = .ok o) : InFrame c.function c.plan v := by
  unfold Lowering.sourceOf at ok
  split at ok
  · rename_i index param
    exact .inl ⟨index, param⟩
  · cases ok
  · split at ok
    · rename_i offset home
      exact .inr (List.mem_map_of_mem (f := (·.1)) (mem_of_lookup home))
    · cases ok

/-! ## What steps see -/

/-- Registers hold, and slots are for, values among `earlier`, or such from the frame. -/
structure Ready (c : Context) (earlier : List ValueId) (s : Lowering) : Prop where
  held : ∀ v ∈ s.held.map (·.1), v ∈ earlier ∨ InFrame c.function c.plan v
  slots : ∀ v ∈ s.slots.map (·.1), v ∈ earlier

namespace Ready

variable {earlier : List ValueId}

theorem adds (h : Ready c earlier s) (adds : Adds s s') : Ready c earlier s' := by
  cases adds <;> exact ⟨h.held, h.slots⟩

/-- What an event sees was made earlier, or is in the frame. -/
theorem seen {e : Event} (h : Ready c earlier s) (step : Step c s e s') :
    ∀ w ∈ e.seen, w ∈ earlier ∨ InFrame c.function c.plan w := by
  intro w mem
  cases step with
  | held found =>
    obtain rfl := List.mem_singleton.mp mem
    exact h.held w (List.mem_map_of_mem (f := (·.1)) (mem_of_lookup found))
  | loaded source =>
    obtain rfl := List.mem_singleton.mp mem
    exact .inr (sourceOf_inFrame source)
  | slot found =>
    obtain rfl := List.mem_singleton.mp mem
    exact .inl (h.slots w (List.mem_map_of_mem (f := (·.1)) (mem_of_lookup found)))
  | define | reserve | lead | call | next => cases mem

theorem step {e : Event} (h : Ready c earlier s) (step : Step c s e s') : Ready c (earlier ++ e.made) s' := by
  have more : Ready c (earlier ++ e.made) s :=
    ⟨fun v mem => (h.held v mem).imp_left (List.mem_append_left _), fun v mem =>
      List.mem_append_left _ (h.slots v mem)⟩
  cases step with
  | held | slot | call => exact ⟨more.held, more.slots⟩
  | loaded source =>
    refine ⟨fun w mem => ?_, more.slots⟩
    rcases List.mem_cons.mp mem with rfl | before
    · exact .inr (sourceOf_inFrame source)
    · exact more.held w before
  | define =>
    refine ⟨fun w mem => ?_, more.slots⟩
    rcases List.mem_cons.mp mem with rfl | before
    · exact .inl (List.mem_append_right _ (List.mem_singleton_self _))
    · exact more.held w before
  | reserve found reserved =>
    refine ⟨more.held, fun w mem => ?_⟩
    rcases List.mem_cons.mp mem with rfl | before
    · exact List.mem_append_right _ (List.mem_singleton_self _)
    · exact more.slots w before
  | lead labels =>
    cases labels with
    | known found same => exact same ▸ more
    | new absent block name same => exact same ▸ ⟨more.held, more.slots⟩
  | next name => exact ⟨nofun, more.slots⟩

/-- Every event sees what the events before it have made, or what the state was ready for. -/
theorem steps {events before after : List Event} {e : Event} (h : Ready c earlier s)
    (steps : Steps c s events s') (split : events = before ++ e :: after) :
    ∀ w ∈ e.seen, w ∈ earlier ++ before.flatMap Event.made ∨ InFrame c.function c.plan w := by
  induction steps generalizing earlier before with
  | refl => cases before <;> cases split
  | adds first _ ih => exact ih (h.adds first) split
  | event first _ ih =>
    cases before with
    | nil =>
      cases split
      rw [List.flatMap_nil, List.append_nil]
      exact h.seen first
    | cons e' before =>
      cases split
      rw [List.flatMap_cons, ← List.append_assoc]
      exact ih (h.step first) rfl

end Ready

/-! ## What operations see -/

/-- The test in front of a branch reads what the plan takes it to read. -/
theorem testReads_eq (comparisons : ∀ v ∈ c.plan.fused, c.function.isComparison v = true) (cond : ValueId) :
    testReads c cond = if c.plan.fused.contains cond then c.function.operandsOf cond else [cond] := by
  unfold testReads
  split
  · rename_i found fused
    rw [if_pos fused, Function.operandsOf, found]
    rfl
  · rename_i other
    split
    · rename_i fused
      obtain ⟨op, l, r, found⟩ := Function.compare_of_isComparison (comparisons cond (List.contains_iff_mem.mp fused))
      exact absurd fused (other op l r found)
    · rfl

/-- What a value reads is seen before anything is made. -/
theorem eventsAt_sees (comparisons : ∀ v ∈ c.plan.fused, c.function.isComparison v = true)
    (read : w ∈ readsAt c.function c.plan.fused v) :
    ∃ looks makes, eventsAt c v = looks ++ makes ∧ looks.flatMap Event.made = [] ∧ ∃ e ∈ looks, w ∈ e.seen := by
  have reads := flatMap_reads (f := Event.made) fun _ => rfl
  have sees : ∀ {values : List ValueId}, w ∈ values → ∃ e ∈ values.map Event.reads, w ∈ e.seen := fun mem =>
    ⟨_, List.mem_map_of_mem mem, List.mem_singleton_self w⟩
  unfold readsAt at read
  split at read
  · cases read
  · rename_i kept
    split at read
    · rename_i cond onTrue onFalse found
      rw [← testReads_eq comparisons] at read
      obtain ⟨e, mem, seen⟩ := sees read
      refine ⟨_, [], by rw [eventsAt, found, List.append_nil]; rfl, ?_, e, List.mem_append_right _ mem, seen⟩
      rw [List.flatMap_append, reads]
      rfl
    · rename_i op other found
      have here : eventsAt c v = eventsOf c v op := by rw [eventsAt, found]; rfl
      rw [here]
      cases op with
      | load addr => exact ⟨[.addresses addr], [.defines v], rfl, rfl, _, List.mem_singleton_self _, read⟩
      | store addr value =>
        refine ⟨[.addresses addr, .reads value], [], rfl, rfl, ?_⟩
        rcases List.mem_pair.mp read with rfl | rfl
        · exact ⟨.addresses w, List.mem_cons_self, List.mem_singleton_self w⟩
        · exact ⟨.reads w, List.mem_cons_of_mem _ List.mem_cons_self, List.mem_singleton_self w⟩
      | binary op l r =>
        cases op with
        | arith => exact ⟨[l, r].map .reads, [.defines v], rfl, rfl, sees read⟩
        | compare =>
          refine ⟨[l, r].map .reads, [.begins, .begins], ?_, rfl, sees read⟩
          simp only [eventsOf]
          rw [if_neg kept]
          rfl
      | call callee args =>
        obtain ⟨e, mem, seen⟩ := sees read
        refine ⟨_, _, rfl, ?_, e, List.mem_append_right _ mem, seen⟩
        rw [List.flatMap_append, reads, List.append_nil]
        exact List.flatMap_eq_nil_iff.mpr (List.forall_mem_map.mpr fun _ _ => rfl)
      | retValue value => exact ⟨[value].map .reads, [], rfl, rfl, sees read⟩
      | branch cond onTrue onFalse => exact (other cond onTrue onFalse rfl).elim
      | arg | imm | float | alloca | symbol | jump | ret => cases read
    · cases read

/-- An operation reads what is earlier in its block, or what the state was ready for. -/
theorem Ready.operations (comparisons : ∀ v ∈ c.plan.fused, c.function.isComparison v = true)
    {earlier body : List ValueId} (h : Ready c earlier s) (ok : s.operations c body = .ok s')
    {before after : List ValueId} (split : body = before ++ v :: after) :
    ∀ w ∈ readsAt c.function c.plan.fused v, w ∈ earlier ++ before ∨ InFrame c.function c.plan w := by
  intro w read
  obtain ⟨looks, makes, here, blind, e, mem, seen⟩ := eventsAt_sees comparisons read
  obtain ⟨first, rest, looks⟩ := List.append_of_mem mem
  have events : body.flatMap (eventsAt c) =
      (before.flatMap (eventsAt c) ++ first) ++ e :: (rest ++ makes ++ after.flatMap (eventsAt c)) := by
    rw [split, List.flatMap_append, List.flatMap_cons, here, looks]
    simp only [List.append_assoc, List.cons_append]
  refine (h.steps (operations_steps ok) events w seen).imp_left fun known => ?_
  have none : first.flatMap Event.made = [] := by
    rw [looks, List.flatMap_append] at blind
    exact (List.append_eq_nil_iff.mp blind).1
  rw [List.flatMap_append, none, List.append_nil] at known
  exact (List.mem_append.mp known).elim (List.mem_append_left _) fun made =>
    List.mem_append_right _ ((made_eventsAll c before).subset made)

theorem Planned.comparisons {f : IR.Function} {plan : Plan} {pl : Placement} (h : Planned f plan pl) :
    ∀ v ∈ plan.fused, f.isComparison v = true := by
  intro v mem
  rw [h.fused] at mem
  obtain ⟨⟨b, id⟩, numbered, found⟩ := List.mem_filterMap.mp mem
  unfold fusedIn? at found
  split at found
  · split at found
    · rename_i test
      cases found
      simp only [Bool.and_eq_true] at test
      exact test.1.1
    · cases found
  · cases found

/-- A block in which a value is read where it stands, or earlier, is refused unless the value is in the frame. -/
theorem block_reads {pl : Placement} {position : Nat} {id : BlockId} {label : String}
    (planned : Planned c.function c.plan pl) (slotted : Slotted c position s) (labelled : Labelled c s)
    (here : s.labels[position]? = some (id, label)) (ok : s.block c id label = .ok s')
    {before after : List ValueId} (split : listed c.function id = before ++ v :: after)
    (read : w ∈ readsAt c.function c.plan.fused v) (early : w ∈ v :: after) : InFrame c.function c.plan w := by
  obtain ⟨t, all, ok⟩ := bind_ok.mp ok
  let earlier := (s.labels.take position).flatMap fun entry => listed c.function entry.1
  have ready : Ready c earlier (s.beginBlock label) :=
    ⟨nofun, fun w mem => slotted.listed.subset mem⟩
  rcases ready.operations planned.comparisons all split w read with known | stored
  · -- no value is listed twice in the blocks found
    obtain ⟨inside, this⟩ := List.getElem?_eq_some_iff.mp here
    have taken : s.labels.take (position + 1) = s.labels.take position ++ [(id, label)] := by
      rw [List.take_succ_eq_append_getElem inside, this]
    have sub := listed_subperm (((List.take_sublist (position + 1) s.labels).map (·.1)).nodup labelled.distinct)
      fun id mem => by
        obtain ⟨entry, there, rfl⟩ := List.mem_map.mp mem
        exact labelled.known entry (List.mem_of_mem_take there)
    have distinct := nodup_of_subperm sub planned.placed.distinct
    rw [taken, List.map_append, List.flatMap_append, List.map_singleton, List.flatMap_singleton, List.flatMap_map,
      split, ← List.append_assoc] at distinct
    exact absurd rfl ((List.nodup_append.mp distinct).2.2 w known w early)
  · exact stored

/-! ## Values with a home -/

/-- Only a comparison that is kept has a home, or a value that is read outside the segment it is defined in. -/
theorem mem_homes {f : IR.Function} {plan : Plan} (h : Plan.ofFunction f = .ok plan)
    (home : w ∈ plan.homes.map (·.1)) :
    isMaterialized f plan.fused w = true ∨
      ∃ u segment, (u, segment) ∈ segments f plan.fused ∧ w ∈ readsAt f plan.fused u ∧
        (segments f plan.fused).lookup w ≠ some segment := by
  have escapes : w ∈ escaping f plan.fused := by
    unfold Plan.ofFunction at h
    cases checked : placement f with
    | error defect => simp [checked, bind, Except.bind] at h
    | ok pl =>
      simp only [checked, bind, Except.bind, pure, Except.pure, Except.ok.injEq] at h
      subst h
      obtain ⟨keys, -⟩ := reserveHomes_spec (show ({} : Frame).words.toNat = 0 % 2 ^ 32 from rfl)
        ((List.range f.values.size).filter (escaping f (fusedComparisons f pl)).contains)
      rw [keys, List.mem_filter, List.contains_iff_mem] at home
      exact home.2
  obtain ⟨⟨u, segment⟩, listed, mem⟩ := List.mem_flatMap.mp escapes
  rcases List.mem_append.mp mem with read | materialized
  · obtain ⟨read, escapes⟩ := List.mem_filter.mp read
    unfold escapesTo at escapes
    split at escapes
    · cases escapes
    · cases escapes
    · rcases Bool.or_eq_true_iff.mp escapes with kept | outside
      · exact .inl kept
      · exact .inr ⟨u, segment, listed, read, bne_iff_ne.mp outside⟩
  · obtain ⟨same, kept⟩ := List.mem_filter.mp materialized
    obtain rfl := List.mem_singleton.mp same
    exact .inl kept

/-! ## Programs -/

variable {source : IR.Program} {entry : String} {journal journal' : Journal} {f : IR.Function} {id : BlockId}

/-- Where selection succeeds, what is read too early in a block that control can reach is in the frame. -/
theorem select_reads {p : Target.Program} (ok : select source entry journal = .ok (p, journal'))
    (called : Called source entry f) (reached : Reached f id) {before after : List ValueId}
    (split : listed f id = before ++ v :: after) (early : w ∈ v :: after) :
    ∃ plan, Plan.ofFunction f = .ok plan ∧ (w ∈ readsAt f plan.fused v → InFrame f plan w) := by
  obtain ⟨c, frame, u, s, s', t, u', lowers⟩ := select_lowers ok called
  obtain ⟨pl, planned⟩ := Plan.ofFunction_ok lowers.plan
  obtain ⟨position, label, r, r', between, here, made, -⟩ := lowers.reached reached
  refine ⟨c.plan, lowers.plan, fun read => ?_⟩
  have function := lowers.function
  subst function
  exact block_reads planned between.slotted between.labelled here made split read early

/-- An operation reads its own value, or one that comes later in its block.  Selection fails if control can reach the
block, and if the value is no parameter, no comparison that is kept, and read only in the segment it is defined in. -/
theorem select_rejects_early_read (called : Called source entry f) (reached : Reached f id)
    {before after : List ValueId} (split : listed f id = before ++ v :: after) (early : w ∈ v :: after)
    (other : ∀ i, f.op? w ≠ some (.arg i))
    (inside : ∀ plan, Plan.ofFunction f = .ok plan →
      w ∈ readsAt f plan.fused v ∧ isMaterialized f plan.fused w = false ∧
        ∀ u segment, (u, segment) ∈ segments f plan.fused → w ∈ readsAt f plan.fused u →
          (segments f plan.fused).lookup w = some segment) :
    ∃ e, select source entry journal = .error e := by
  cases selected : select source entry journal with
  | error e => exact ⟨e, rfl⟩
  | ok result =>
    obtain ⟨plan, planned, stored⟩ := select_reads selected called reached split early
    obtain ⟨read, dropped, here⟩ := inside plan planned
    rcases stored read with ⟨i, param⟩ | home
    · exact absurd param (other i)
    · rcases mem_homes planned home with kept | ⟨u, segment, listed, elsewhere, outside⟩
      · rw [dropped] at kept
        cases kept
      · exact absurd (here u segment listed elsewhere) outside

/-- A sum of a value that is defined right after it, and returned by the next block. -/
def earlyRead : IR.Program where
  functions := [{
    name := "main"
    arity := 0
    blocks := [{ name := "entry", body := [0, 1, 2] }, { name := "next", body := [3] }]
    values := #[{ op := .binary (.arith .add) 1 1 }, { op := .imm 5 }, { op := .jump 1 }, { op := .retValue 1 }] }]

/-- The value has a home, from which the sum reads it before anything is stored there. -/
theorem early_read_accepted : (select earlyRead "main" {}).toBool = true := by decide +kernel

/-- A comparison of a value that is defined between the comparison and the branch on it. -/
def fusedRead : IR.Program where
  functions := [{
    name := "main"
    arity := 0
    blocks := [{ name := "entry", body := [0, 1, 2] }, { name := "yes", body := [3] }, { name := "no", body := [4] }]
    values := #[{ op := .binary (.compare .lt) 1 1 }, { op := .imm 5 }, { op := .branch 0 1 2 }, { op := .ret },
      { op := .ret }] }]

/-- The comparison is made by the branch, which finds the value defined. -/
theorem fused_read_accepted : (select fusedRead "main" {}).toBool = true := by decide +kernel

end Codegen86.Selection
