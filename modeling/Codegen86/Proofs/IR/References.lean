import Codegen86.Proofs.IR.Outlined
import Codegen86.Proofs.IR.Resolved
import Codegen86.Proofs.Lookup
/-!
# References of statements

A statement refers to values as `%name`, and a branch or jump to blocks by their names.  The operation that the
statement denotes has what the tables of its function have for these names, in the same order
(`Statement.op_refers`).
-/

set_option autoImplicit false

namespace Codegen86.IR

open Text

/-- The name of a value, if a word is written as one. -/
def reference? (word : List Char) : Option String := (dropFirst? '%' word).map String.ofList

namespace Statement

/-- The names of the values that a statement refers to. -/
def references (s : Statement) : List String := s.operands.filterMap reference?

/-- The names of the blocks that a statement refers to: all behind the condition of a branch, or the only operand of a
jump. -/
def targets (s : Statement) : List String :=
  match s.mnemonic with
  | "br" => (s.operands.drop 1).map String.ofList
  | "jmp" => s.operands.map String.ofList
  | _ => []

end Statement

/-- The blocks that a scope knows have identifiers for names. -/
def Scope.Tidy (scope : Scope) : Prop := ∀ name id, scope.blocks.lookup name = some id → isName name.toList = true

/-! ## Words -/

section

variable {scope : Scope} {line : Nat} {word cs : List Char} {id : Nat}

theorem reference?_percent : reference? ('%' :: cs) = some (String.ofList cs) := rfl

theorem reference?_eq_none (other : ∀ cs, word ≠ '%' :: cs) : reference? word = none := by
  cases word with
  | nil => rfl
  | cons c cs =>
    have ne : c ≠ '%' := by
      rintro rfl
      exact other cs rfl
    simp [reference?, dropFirst?, ne]

theorem not_percent_of_isName (named : isName word = true) : reference? word = none := by
  refine reference?_eq_none fun cs same => ?_
  subst same
  have percent : isNameChar '%' = false := by decide
  simp [isName, percent] at named

/-- Numbers are not written with a `%`. -/
theorem reference?_of_word {w : Word} (read : word? word = some w) : reference? word = none := by
  refine reference?_eq_none fun cs same => ?_
  subst same
  simp [word?, integer?, natural?, digits?] at read

theorem reference?_of_unsigned {n : Nat} (read : unsigned64? word = some n) : reference? word = none := by
  refine reference?_eq_none fun cs same => ?_
  subst same
  simp [unsigned64?, natural?, digits?] at read

theorem reference?_of_double {x : Binary64} (read : Binary64.read? word = some x) : reference? word = none := by
  refine reference?_eq_none fun cs same => ?_
  subst same
  simp [Binary64.read?, Binary64.unsigned?, Binary64.magnitude?] at read

theorem reference?_of_symbol (found : dropFirst? '@' word = some cs) : reference? word = none := by
  refine reference?_eq_none fun cs' same => ?_
  subst same
  cases found

/-- A value is the one that the table has for the name of the word. -/
theorem Scope.value_ok (ok : scope.value line word = .ok id) :
    ∃ name, reference? word = some name ∧ scope.values.lookup name = some id := by
  obtain ⟨name, read, ok⟩ := bind_ok.mp ok
  obtain ⟨written, -⟩ := valueName_ok read
  refine ⟨name, by rw [written, reference?_percent, String.ofList_toList], ?_⟩
  split at ok
  · rename_i found
    cases ok
    exact found
  · cases ok

theorem Scope.block_ok (ok : scope.block line word = .ok id) :
    scope.blocks.lookup (String.ofList word) = some id := by
  unfold block at ok
  split at ok
  · rename_i found
    cases ok
    exact found
  · cases ok

theorem Scope.Tidy.not_reference (tidy : scope.Tidy) (ok : scope.block line word = .ok id) :
    reference? word = none :=
  not_percent_of_isName (by simpa using tidy _ _ (block_ok ok))

/-- A callee is a name, or else a value. -/
theorem Scope.callee_ok {callee : Callee} (ok : scope.callee line word = .ok callee) :
    (∃ name, callee = .direct name ∧ reference? word = none) ∨
      ∃ id, callee = .indirect id ∧ scope.value line word = .ok id := by
  unfold Scope.callee at ok
  split at ok
  · rename_i name found
    cases ok
    exact .inl ⟨_, rfl, reference?_of_symbol (Option.filter_eq_some_iff.mp found).1⟩
  · obtain ⟨id, value, ok⟩ := bind_ok.mp ok
    cases ok
    exact .inr ⟨id, rfl, value⟩

/-- All words of a list are values. -/
theorem Scope.values_ok {words : List (List Char)} {ids : List ValueId}
    (ok : words.mapM (scope.value line) = .ok ids) :
    ((words.filterMap reference?).map fun name => scope.values.lookup name) = ids.map some := by
  induction words generalizing ids with
  | nil =>
    cases ok
    rfl
  | cons word words ih =>
    rw [List.mapM_cons] at ok
    obtain ⟨id, one, ok⟩ := bind_ok.mp ok
    obtain ⟨rest, others, ok⟩ := bind_ok.mp ok
    cases ok
    obtain ⟨name, written, found⟩ := value_ok one
    rw [List.filterMap_cons_some written, List.map_cons, List.map_cons, found, ih others]

end

/-! ## Operations -/

namespace Statement

variable {s : Statement} {scope : Scope} {op : Op} {a b c : List Char}

theorem one_ok (ok : s.one = .ok a) : s.operands = [a] := by
  unfold one at ok
  split at ok
  · rename_i operands
    cases ok
    exact operands
  · cases ok

theorem two_ok (ok : s.two = .ok (a, b)) : s.operands = [a, b] := by
  unfold two at ok
  split at ok
  · rename_i operands
    cases ok
    exact operands
  · cases ok

theorem three_ok (ok : s.three = .ok (a, b, c)) : s.operands = [a, b, c] := by
  unfold three at ok
  split at ok
  · rename_i operands
    cases ok
    exact operands
  · cases ok

theorem number_ok {α : Type} {read : List Char → Option α} {n : α} (ok : s.number read = .ok n) :
    ∃ a, s.operands = [a] ∧ read a = some n := by
  obtain ⟨a, one, ok⟩ := bind_ok.mp ok
  refine ⟨a, one_ok one, ?_⟩
  split at ok
  · rename_i found
    cases ok
    exact found
  · cases ok

theorem targets_of {mnemonic : String} (same : s.mnemonic = mnemonic) (branch : mnemonic ≠ "br")
    (jump : mnemonic ≠ "jmp") : s.targets = [] := by
  unfold targets
  rw [same]
  split
  · exact absurd rfl branch
  · exact absurd rfl jump
  · rfl

/-- The operation has the values and blocks of the names that the statement refers to, and it is no argument. -/
structure Refers (s : Statement) (scope : Scope) (op : Op) : Prop where
  values : (s.references.map fun name => scope.values.lookup name) = op.operands.map some
  blocks : (s.targets.map fun name => scope.blocks.lookup name) = op.successors.map some
  noArg : ∀ i, op ≠ .arg i

/-- A statement with one word that is no reference. -/
theorem Refers.constant (operands : s.operands = [a]) (other : reference? a = none) (targets : s.targets = [])
    (reads : op.operands = []) (goes : op.successors = []) (noArg : ∀ i, op ≠ .arg i) : s.Refers scope op := by
  refine ⟨?_, ?_, noArg⟩
  · simp [references, operands, other, reads]
  · simp [targets, goes]

/-- A statement with values for operands. -/
theorem Refers.values_only {ids : List ValueId} (ok : s.operands.mapM (scope.value s.line) = .ok ids)
    (targets : s.targets = []) (reads : op.operands = ids) (goes : op.successors = []) (noArg : ∀ i, op ≠ .arg i) :
    s.Refers scope op := by
  refine ⟨?_, ?_, noArg⟩
  · rw [reads]
    exact Scope.values_ok ok
  · simp [targets, goes]

theorem mapM_one {line : Nat} {x : ValueId} (ok : scope.value line a = .ok x) :
    [a].mapM (scope.value line) = .ok [x] := by
  rw [List.mapM_cons, ok]
  rfl

theorem mapM_two {line : Nat} {x y : ValueId} (ok : scope.value line a = .ok x) (ok' : scope.value line b = .ok y) :
    [a, b].mapM (scope.value line) = .ok [x, y] := by
  rw [List.mapM_cons, ok, mapM_one ok']
  rfl

theorem op_refers (tidy : scope.Tidy) (ok : s.op scope = .ok op) : s.Refers scope op := by
  unfold Statement.op at ok
  split at ok
  · -- `ldi`
    rename_i mnemonic
    obtain ⟨w, number, ok⟩ := bind_ok.mp ok
    obtain ⟨a, operands, read⟩ := number_ok number
    cases ok
    exact .constant operands (reference?_of_word read) (targets_of mnemonic (by decide) (by decide)) rfl rfl (by simp)
  · -- `ldf`
    rename_i mnemonic
    obtain ⟨x, number, ok⟩ := bind_ok.mp ok
    obtain ⟨a, operands, read⟩ := number_ok number
    cases ok
    exact .constant operands (reference?_of_double read) (targets_of mnemonic (by decide) (by decide)) rfl rfl (by simp)
  · -- `alloca`
    rename_i mnemonic
    obtain ⟨n, number, ok⟩ := bind_ok.mp ok
    obtain ⟨a, operands, read⟩ := number_ok number
    cases ok
    exact .constant operands (reference?_of_unsigned read) (targets_of mnemonic (by decide) (by decide)) rfl rfl
      (by simp)
  · -- `ld`
    rename_i mnemonic
    obtain ⟨a, one, ok⟩ := bind_ok.mp ok
    obtain ⟨x, addr, ok⟩ := bind_ok.mp ok
    cases ok
    exact .values_only (one_ok one ▸ mapM_one addr) (targets_of mnemonic (by decide) (by decide)) rfl rfl (by simp)
  · -- `st`
    rename_i mnemonic
    obtain ⟨⟨a, b⟩, two, ok⟩ := bind_ok.mp ok
    obtain ⟨x, addr, ok⟩ := bind_ok.mp ok
    obtain ⟨y, value, ok⟩ := bind_ok.mp ok
    cases ok
    exact .values_only (two_ok two ▸ mapM_two addr value) (targets_of mnemonic (by decide) (by decide)) rfl rfl
      (by simp)
  · -- `sym`
    rename_i mnemonic
    obtain ⟨a, one, ok⟩ := bind_ok.mp ok
    split at ok
    · rename_i name found
      cases ok
      exact .constant (one_ok one) (reference?_of_symbol found) (targets_of mnemonic (by decide) (by decide)) rfl rfl
        (by simp)
    · cases ok
  · -- `call`
    rename_i mnemonic
    split at ok
    · cases ok
    · rename_i target args operands
      obtain ⟨callee, called, ok⟩ := bind_ok.mp ok
      obtain ⟨ids, passed, ok⟩ := bind_ok.mp ok
      cases ok
      have targets := targets_of mnemonic (by decide) (by decide)
      have found := Scope.values_ok passed
      rcases Scope.callee_ok called with ⟨name, rfl, other⟩ | ⟨x, rfl, value⟩
      · refine ⟨?_, by simp [targets, Op.successors], by simp⟩
        rw [references, operands, List.filterMap_cons_none other, found, Op.operands]
      · have all : s.operands.mapM (scope.value s.line) = .ok (x :: ids) := by
          rw [operands, List.mapM_cons, value, passed]
          rfl
        exact .values_only all targets rfl rfl (by simp)
  · -- `br`
    rename_i mnemonic
    obtain ⟨⟨a, b, c⟩, three, ok⟩ := bind_ok.mp ok
    obtain ⟨x, cond, ok⟩ := bind_ok.mp ok
    obtain ⟨y, onTrue, ok⟩ := bind_ok.mp ok
    obtain ⟨z, onFalse, ok⟩ := bind_ok.mp ok
    cases ok
    have operands := three_ok three
    obtain ⟨name, written, found⟩ := Scope.value_ok cond
    refine ⟨?_, ?_, by simp⟩
    · simp [references, operands, written, found, tidy.not_reference onTrue, tidy.not_reference onFalse, Op.operands]
    · simp [targets, mnemonic, operands, Scope.block_ok onTrue, Scope.block_ok onFalse, Op.successors]
  · -- `jmp`
    rename_i mnemonic
    obtain ⟨a, one, ok⟩ := bind_ok.mp ok
    obtain ⟨x, target, ok⟩ := bind_ok.mp ok
    cases ok
    have operands := one_ok one
    refine ⟨?_, ?_, by simp⟩
    · simp [references, operands, tidy.not_reference target, Op.operands]
    · simp [targets, mnemonic, operands, Scope.block_ok target, Op.successors]
  · -- `ret`
    rename_i mnemonic
    split at ok
    · rename_i none
      cases ok
      have operands := List.isEmpty_iff.mp none
      exact .values_only (by rw [operands]; rfl) (targets_of mnemonic (by decide) (by decide)) rfl rfl (by simp)
    · cases ok
  · -- `retr`
    rename_i mnemonic
    obtain ⟨a, one, ok⟩ := bind_ok.mp ok
    obtain ⟨x, value, ok⟩ := bind_ok.mp ok
    cases ok
    exact .values_only (one_ok one ▸ mapM_one value) (targets_of mnemonic (by decide) (by decide)) rfl rfl (by simp)
  · -- operators
    rename_i branch jump _ _
    split at ok
    · obtain ⟨⟨a, b⟩, two, ok⟩ := bind_ok.mp ok
      obtain ⟨x, left, ok⟩ := bind_ok.mp ok
      obtain ⟨y, right, ok⟩ := bind_ok.mp ok
      cases ok
      exact .values_only (two_ok two ▸ mapM_two left right) (targets_of rfl branch jump) rfl rfl (by simp)
    · cases ok

end Statement

end Codegen86.IR
