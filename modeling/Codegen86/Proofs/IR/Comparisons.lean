import Codegen86.Proofs.IR.Semantics
import Mathlib.Data.List.Nodup
import Mathlib.Data.List.Pairwise
/-!
# Comparisons that are computed later

A comparison may be computed as late as its block's end: what it reads does not change in between.  That
a block lists an operand behind the comparison does not harm, because the comparison then reads a value
that no pass through the block has computed yet, and the evaluation has no outcome.

`Settled` is the invariant: the values listed behind a comparison that reads them were never computed,
and the comparisons evaluated in this pass have the values that they would have now.
-/

set_option autoImplicit false

namespace Codegen86.IR

variable {calls : Calls} {f : Function} {a a' : Activation} {v : ValueId}

theorem Function.op?_bind {α : Type} {o : α} {k : Op → Option α} (h : (f.op? v).bind k = some o) :
    ∃ op, f.op? v = some op ∧ k op = some o := Option.bind_eq_some_iff.mp h

/-- An operation changes no value but its own. -/
theorem Activation.operation_values (step : a.operation calls f v = some (.next a')) {x : ValueId}
    (ne : x ≠ v) : a'.values x = a.values x := by
  have same : ∀ w, (a.define v w).values x = a.values x := fun w => if_neg ne
  obtain ⟨op, -, step⟩ := Function.op?_bind step
  cases op with
  | arg i => cases step; rfl
  | imm w => cases step; exact same _
  | float w => cases step
  | alloca bytes => cases step; rfl
  | load addr =>
    obtain ⟨w, -, step⟩ := Option.bind_eq_some_iff.mp step
    cases step
    exact same _
  | store addr value =>
    obtain ⟨w, -, step⟩ := Option.bind_eq_some_iff.mp step
    cases step
    rfl
  | binary op lhs rhs =>
    cases op with
    | arith op =>
      obtain ⟨l, -, step⟩ := Option.bind_eq_some_iff.mp step
      obtain ⟨r, -, step⟩ := Option.bind_eq_some_iff.mp step
      split at step
      · cases step
        exact same _
      · cases step
    | compare op =>
      obtain ⟨l, -, step⟩ := Option.bind_eq_some_iff.mp step
      obtain ⟨r, -, step⟩ := Option.bind_eq_some_iff.mp step
      cases step
      exact same _
  | symbol name => cases step
  | call callee args =>
    cases callee with
    | direct name =>
      obtain ⟨words, -, step⟩ := Option.bind_eq_some_iff.mp step
      obtain ⟨r, -, step⟩ := Option.bind_eq_some_iff.mp step
      cases r <;> cases step
      · exact same _
      · exact same _
    | indirect target => cases step
  | branch cond onTrue onFalse =>
    obtain ⟨w, -, step⟩ := Option.bind_eq_some_iff.mp step
    cases step
  | jump target => cases step
  | ret => cases step
  | retValue value =>
    obtain ⟨w, -, step⟩ := Option.bind_eq_some_iff.mp step
    cases step

/-- A comparison reads two values. -/
theorem Activation.operation_compare {op : Comparison} {l r : ValueId}
    (found : f.op? v = some (.binary (.compare op) l r))
    (step : a.operation calls f v = some (.next a')) :
    ∃ x y, a.values l = some x ∧ a.values r = some y ∧
      a' = a.define v (some (truth (op.holds (compare x y)))) := by
  obtain ⟨_, same, step⟩ := Function.op?_bind step
  rw [found] at same
  cases same
  obtain ⟨x, left, step⟩ := Option.bind_eq_some_iff.mp step
  obtain ⟨y, right, step⟩ := Option.bind_eq_some_iff.mp step
  cases step
  exact ⟨x, y, left, right, rfl⟩

/-- The comparison `c` reads `y`, which its block does not list before it. -/
def Late (f : Function) (c y : ValueId) : Prop :=
  f.isComparison c = true ∧ y ∈ f.operandsOf c ∧
    ∃ b ∈ f.blocks, ∃ before after, b.body = before ++ c :: after ∧ y ∈ c :: after

theorem Function.operands_compare {op : Comparison} {c l r : ValueId}
    (found : f.op? c = some (.binary (.compare op) l r)) :
    f.isComparison c = true ∧ f.operandsOf c = [l, r] := by
  simp [isComparison, operandsOf, found, Op.isComparison, BinaryOp.isComparison, Op.operands]

theorem Function.compare_of_isComparison {c : ValueId} (comparison : f.isComparison c = true) :
    ∃ op l r, f.op? c = some (.binary (.compare op) l r) := by
  unfold Function.isComparison at comparison
  cases found : f.op? c with
  | none => simp [found] at comparison
  | some op =>
    rw [found] at comparison
    match op with
    | .binary (.compare op) l r => exact ⟨op, l, r, rfl⟩
    | .binary (.arith _) _ _ | .arg _ | .imm _ | .float _ | .alloca _ | .load _ | .store _ _ | .symbol _
    | .call _ _ | .branch _ _ _ | .jump _ | .ret | .retValue _ => cases comparison

theorem Late.operands {c y : ValueId} (h : Late f c y) :
    ∃ op l r, f.op? c = some (.binary (.compare op) l r) ∧ (y = l ∨ y = r) := by
  obtain ⟨comparison, read, -⟩ := h
  obtain ⟨op, l, r, found⟩ := Function.compare_of_isComparison comparison
  refine ⟨op, l, r, found, ?_⟩
  rw [(Function.operands_compare found).2] at read
  exact List.mem_pair.mp read

/-- A value is listed in one block. -/
theorem Function.block_unique (distinct : f.placed.Nodup) {b b' : Block} (mem : b ∈ f.blocks)
    (mem' : b' ∈ f.blocks) (inside : v ∈ b.body) (inside' : v ∈ b'.body) : b = b' := by
  refine Decidable.byContradiction fun ne => ?_
  have apart := (List.nodup_flatMap.mp distinct).2
  have : Std.Symm (Function.onFun List.Disjoint fun b : Block => b.body) :=
    ⟨fun _ _ disjoint _ left right => disjoint right left⟩
  exact apart.forall mem mem' ne inside inside'

/-- In a pass through a block that has come past the values `past`, comparisons can wait. -/
structure Settled (f : Function) (past : List ValueId) (a : Activation) : Prop where
  late : ∀ c y, Late f c y → a.values y = none
  compared : ∀ c ∈ past, ∀ op l r, f.op? c = some (.binary (.compare op) l r) →
    ¬ Late f c l ∧ ¬ Late f c r ∧ ∃ x y, a.values l = some x ∧ a.values r = some y ∧
      a.values c = some (truth (op.holds (compare x y)))

namespace Settled

variable {past rest : List ValueId} {b : Block}

/-- Before a pass there is nothing to wait. -/
theorem restart (h : Settled f past a) : Settled f [] a := ⟨h.late, nofun⟩

theorem start (args : List Word) (noArg : ∀ v ∈ f.placed, ∀ i, f.op? v ≠ some (.arg i)) :
    Settled f [] (.start f args) := by
  refine ⟨fun c y late => ?_, nofun⟩
  obtain ⟨-, -, b, mem, before, after, split, within⟩ := late
  have placed : y ∈ f.placed :=
    List.mem_flatMap.mpr ⟨b, mem, by rw [split]; exact List.mem_append_right _ within⟩
  have noArg := noArg y placed
  simp only [Activation.start]

/-- A late reading of the value that is evaluated next is its own, or that of a comparison come past. -/
theorem of_late (distinct : f.placed.Nodup) (mem : b ∈ f.blocks) (split : b.body = past ++ v :: rest)
    {c : ValueId} (late : Late f c v) : c = v ∨ c ∈ past := by
  obtain ⟨-, -, b', mem', before, after, split', within⟩ := late
  obtain rfl : b = b' := Function.block_unique distinct mem mem' (v := v) (by simp [split])
    (by rw [split']; exact List.mem_append_right _ within)
  rcases List.mem_cons.mp within with rfl | behind
  · exact .inl rfl
  have own : b.body.Nodup := (List.nodup_flatMap.mp distinct).1 b mem
  have unique : v ∉ rest := (List.nodup_cons.mp (List.nodup_append.mp (split ▸ own)).2.1).1
  have same : past ++ v :: rest = before ++ c :: after := split.symm.trans split'
  rcases List.append_eq_append_iff.mp same with ⟨more, rfl, eq⟩ | ⟨more, rfl, eq⟩
  · cases more with
    | nil => exact .inl (List.cons.inj eq).1.symm
    | cons first others =>
      rw [List.cons_append] at eq
      exact absurd (by rw [(List.cons.inj eq).2]; simp [behind]) unique
  · cases more with
    | nil => exact .inl (List.cons.inj eq).1
    | cons first others =>
      obtain ⟨rfl, -⟩ := List.cons.inj eq
      exact .inr (by simp)

/-- No comparison reads too late what an operation computes. -/
theorem not_late (h : Settled f past a) (distinct : f.placed.Nodup) (mem : b ∈ f.blocks)
    (split : b.body = past ++ v :: rest) (step : a.operation calls f v = some (.next a'))
    (c : ValueId) : ¬ Late f c v := by
  intro late
  obtain ⟨op, l, r, found, reads⟩ := late.operands
  rcases of_late distinct mem split late with rfl | before
  · -- the comparison reads its own value, which has none yet
    obtain ⟨x, y, left, right, -⟩ := Activation.operation_compare found step
    have unknown := h.late c c late
    rcases reads with rfl | rfl
    · rw [left] at unknown
      cases unknown
    · rw [right] at unknown
      cases unknown
  · obtain ⟨left, right, -⟩ := h.compared c before op l r found
    rcases reads with rfl | rfl
    · exact left late
    · exact right late

/-- What an operation computes is not read by the comparisons come past. -/
theorem ne_of_past (mem : b ∈ f.blocks) (split : b.body = past ++ v :: rest) {c y : ValueId}
    (before : c ∈ past) (early : ¬ Late f c y) (comparison : f.isComparison c = true)
    (read : y ∈ f.operandsOf c) : y ≠ v := by
  rintro rfl
  obtain ⟨first, others, rfl⟩ := List.append_of_mem before
  exact early ⟨comparison, read, b, mem, first, others ++ y :: rest, by simp [split], by simp⟩

/-- Evaluating the next operation. -/
theorem step (h : Settled f past a) (distinct : f.placed.Nodup) (mem : b ∈ f.blocks)
    (split : b.body = past ++ v :: rest) (step : a.operation calls f v = some (.next a')) :
    Settled f (past ++ [v]) a' := by
  have own : b.body.Nodup := (List.nodup_flatMap.mp distinct).1 b mem
  have fresh : v ∉ past := fun before =>
    (List.nodup_append.mp (split ▸ own)).2.2 v before v List.mem_cons_self rfl
  have stays : ∀ {x}, x ≠ v → a'.values x = a.values x := Activation.operation_values step
  refine ⟨fun c y late => ?_, fun c within op l r found => ?_⟩
  · by_cases same : y = v
    · exact absurd (same ▸ late) (h.not_late distinct mem split step c)
    · rw [stays same]
      exact h.late c y late
  obtain ⟨comparison, reads⟩ := Function.operands_compare found
  rcases List.mem_append.mp within with before | now
  · obtain ⟨left, right, x, y, known, known', result⟩ := h.compared c before op l r found
    have apart : c ≠ v := fun same => fresh (same ▸ before)
    have first : l ≠ v := ne_of_past mem split before left comparison (by simp [reads])
    have second : r ≠ v := ne_of_past mem split before right comparison (by simp [reads])
    exact ⟨left, right, x, y, by rw [stays first, known], by rw [stays second, known'],
      by rw [stays apart, result]⟩
  · obtain rfl := List.mem_singleton.mp now
    obtain ⟨x, y, known, known', rfl⟩ := Activation.operation_compare found step
    have early : ∀ {z w}, a.values z = some w → ¬ Late f c z := by
      intro z w known late
      rw [h.late c z late] at known
      cases known
    have self : ∀ {z w}, z ∈ f.operandsOf c → a.values z = some w → z ≠ c := by
      rintro z w read known rfl
      exact early known ⟨comparison, read, b, mem, past, rest, split, List.mem_cons_self⟩
    refine ⟨early known, early known', x, y, ?_, ?_, if_pos rfl⟩
    · rw [stays (self (by simp [reads]) known), known]
    · rw [stays (self (by simp [reads]) known'), known']

end Settled

end Codegen86.IR
