import Codegen86.Proofs.IR.Reread
/-!
# Canonical programs

A canonical program names everything that print shows, and numbers its values in the order of its lines.
Printing and parsing give such a program back (`Program.parse_text_of_canonical`).
-/

set_option autoImplicit false

namespace Codegen86.IR

/-- Results are named by identifiers, and nothing else is named. -/
def Value.Named (x : Value) : Prop :=
  if x.op.hasResult then x.name.any (fun name => isName name.toList) = true else x.name = none

instance (x : Value) : Decidable x.Named := inferInstanceAs (Decidable (ite _ _ _))

/-- What an operation of a canonical function with so many blocks carries: names are identifiers, branches
go to blocks of the function, and the size of a local variable has 64 bits.  Doubles are left out. -/
def Op.Canonical (op : Op) (blocks : Nat) : Prop :=
  (∀ b ∈ op.successors, b < blocks) ∧
    match op with
    | .arg _ | .float _ => False
    | .alloca bytes => bytes < UInt64.size
    | .symbol name | .call (.direct name) _ => isName name.toList = true
    | _ => True

instance (op : Op) (blocks : Nat) : Decidable (op.Canonical blocks) := by
  unfold Op.Canonical
  refine @instDecidableAnd _ _ inferInstance ?_
  split <;> infer_instance

/-- A function whose names are identifiers that tell its blocks and its values apart, and whose operations
have the numbers behind its parameters in the order in which they are listed. -/
structure Function.Canonical (f : Function) : Prop where
  name : isName f.name.toList = true
  blocks : ∀ b ∈ f.blocks, isName b.name.toList = true
  distinct_blocks : (f.blocks.map (·.name)).Nodup
  arity : f.arity ≤ f.values.size
  args : ∀ i < f.arity, f.op? i = some (.arg i)
  named : ∀ x ∈ f.values, x.Named
  distinct_names : (f.values.toList.filterMap (·.name)).Nodup
  consecutive : f.placed = List.range' f.arity (f.values.size - f.arity)
  operands : ∀ v ∈ f.placed, ∀ u ∈ f.operandsOf v, (f.op? u).any Op.hasResult = true
  ops : ∀ v ∈ f.placed, ∀ op ∈ f.op? v, op.Canonical f.blocks.length

instance (f : Function) : Decidable f.Canonical :=
  decidable_of_iff (isName f.name.toList = true ∧ (∀ b ∈ f.blocks, isName b.name.toList = true) ∧
      (f.blocks.map (·.name)).Nodup ∧ f.arity ≤ f.values.size ∧ (∀ i < f.arity, f.op? i = some (.arg i)) ∧
      (∀ x ∈ f.values, x.Named) ∧ (f.values.toList.filterMap (·.name)).Nodup ∧
      f.placed = List.range' f.arity (f.values.size - f.arity) ∧
      (∀ v ∈ f.placed, ∀ u ∈ f.operandsOf v, (f.op? u).any Op.hasResult = true) ∧
      ∀ v ∈ f.placed, ∀ op ∈ f.op? v, op.Canonical f.blocks.length)
    ⟨fun ⟨name, blocks, distinct, arity, args, named, names, consecutive, operands, ops⟩ =>
      ⟨name, blocks, distinct, arity, args, named, names, consecutive, operands, ops⟩,
    fun h => ⟨h.name, h.blocks, h.distinct_blocks, h.arity, h.args, h.named, h.distinct_names, h.consecutive,
      h.operands, h.ops⟩⟩

/-- A program of canonical functions with distinct names. -/
structure Program.Canonical (p : Program) : Prop where
  functions : ∀ f ∈ p.functions, f.Canonical
  distinct : (p.functions.map (·.name)).Nodup

instance (p : Program) : Decidable p.Canonical :=
  decidable_of_iff ((∀ f ∈ p.functions, f.Canonical) ∧ (p.functions.map (·.name)).Nodup)
    ⟨fun ⟨functions, distinct⟩ => ⟨functions, distinct⟩, fun h => ⟨h.functions, h.distinct⟩⟩

theorem Op.Canonical.spellable {op : Op} {blocks : Nat} (h : op.Canonical blocks) : op.Spellable := by
  have carried := h.2
  cases op with
  | symbol name =>
    have spelled := spelled_of_isName carried
    exact ⟨spelled.solid, spelled.last⟩
  | call callee args =>
    cases callee with
    | direct name => exact carried
    | indirect target => trivial
  | arg index | float x => exact carried.elim
  | alloca bytes => exact carried
  | _ => trivial

/-- A name that occurs once belongs to one value. -/
theorem eq_of_name {f : Function} (distinct : (f.values.toList.filterMap (·.name)).Nodup) {v w : ValueId}
    {name : String} (first : f.nameOf? v = some name) (second : f.nameOf? w = some name) : v = w := by
  have apart := List.pairwise_iff_getElem.mp (List.pairwise_filterMap.mp distinct)
  obtain ⟨x, here, named⟩ := Option.bind_eq_some_iff.mp first
  obtain ⟨y, here', named'⟩ := Option.bind_eq_some_iff.mp second
  obtain ⟨inside, rfl⟩ := Array.getElem?_eq_some_iff.mp here
  obtain ⟨inside', rfl⟩ := Array.getElem?_eq_some_iff.mp here'
  rcases Nat.lt_trichotomy v w with less | same | less
  · exact absurd rfl (apart v w inside inside' less name named name named')
  · exact same
  · exact absurd rfl (apart w v inside' inside less name named' name named)

namespace Function.Canonical

variable {f : Function} {v : ValueId} {op : Op}

/-- A result shows its own name. -/
theorem nameOf? (h : f.Canonical) (results : f.Results v) :
    f.nameOf? v = some (f.label v) ∧ isName (f.label v).toList = true := by
  obtain ⟨op, found, result⟩ := results
  obtain ⟨x, here, rfl⟩ := Option.map_eq_some_iff.mp found
  have named := h.named x (Array.mem_of_getElem? here)
  rw [Value.Named, if_pos result] at named
  cases name : x.name with
  | none =>
    rw [name] at named
    cases named
  | some n =>
    have own : f.nameOf? v = some n := by rw [Function.nameOf?, here, Option.bind_some, name]
    have shown : f.label v = n := by rw [Function.label, own]; rfl
    rw [name] at named
    rw [shown]
    exact ⟨own, named⟩

theorem readable (h : f.Canonical) : f.Readable where
  name := h.name
  blocks := h.blocks
  distinct := h.distinct_blocks
  arity := h.arity
  args := h.args
  consecutive := h.consecutive
  label := fun v results => (h.nameOf? results).2
  injective := by
    intro v w results results' same
    have own := (h.nameOf? results).1
    rw [same] at own
    exact eq_of_name h.distinct_names own (h.nameOf? results').1
  prints := by
    intro v mem
    have inside : v < f.values.size := by
      rw [h.consecutive, List.mem_range'_1, Nat.add_sub_cancel' h.arity] at mem
      exact mem.2
    obtain ⟨op, found⟩ : ∃ op, f.op? v = some op := by simp [Function.op?, inside]
    have canonical := h.ops v mem op found
    refine ⟨op, found, canonical.spellable, fun u read => ?_, canonical.1⟩
    have read : u ∈ f.operandsOf v := by rw [Function.operandsOf, found]; exact read
    have result := h.operands v mem u read
    cases found' : f.op? u with
    | none =>
      rw [found'] at result
      cases result
    | some op' =>
      rw [found'] at result
      exact ⟨op', found', result⟩

theorem reread_op (h : f.Canonical) (inside : v < f.values.size) : f.values[v].op.reread = f.values[v].op := by
  have found : f.op? v = some f.values[v].op := by simp [Function.op?, inside]
  have exact_ : ∀ x, f.values[v].op ≠ .float x := by
    intro x same
    rw [same] at found
    have mem : v ∈ f.args ++ f.placed := by
      rw [h.readable.numbered]
      exact List.mem_range.mpr inside
    rcases List.mem_append.mp mem with mem | mem
    · rw [h.args v (List.mem_range.mp mem)] at found
      cases found
    · exact (h.ops v mem _ found).2
  cases op : f.values[v].op with
  | float x => exact absurd op (exact_ x)
  | _ => rfl

theorem reread (h : f.Canonical) : f.reread = f := by
  have values : (Array.range f.values.size).map f.rereadValue = f.values := by
    refine Array.ext (by simp) fun v _ inside => ?_
    have here : f.values[v]? = some f.values[v] := Array.getElem?_eq_getElem inside
    have found : f.op? v = some f.values[v].op := by rw [Function.op?, here]; rfl
    have named := h.named f.values[v] (Array.getElem_mem inside)
    have op : f.values[v].op.reread = f.values[v].op := h.reread_op inside
    have name : (if f.values[v].op.hasResult then some (f.label v) else none) = f.values[v].name := by
      split
      · rename_i result
        have own := (h.nameOf? ⟨_, found, result⟩).1
        rw [Function.nameOf?, here, Option.bind_some] at own
        exact own.symm
      · rename_i result
        rw [Value.Named, if_neg result] at named
        exact named.symm
    rw [Array.getElem_map, Array.getElem_range, Function.rereadValue, found, Option.getD_some]
    simp only [op, name]
  rw [Function.reread, values]

end Function.Canonical

/-- **Parsing undoes printing.**  The text of a canonical program is read as the program itself. -/
theorem Program.parse_text_of_canonical {p : Program} (canonical : p.Canonical) : parse p.text = .ok p := by
  have readable : p.Readable := ⟨fun f mem => (canonical.functions f mem).readable, canonical.distinct⟩
  have same : p.reread = p := by
    have all : p.functions.map Function.reread = p.functions :=
      (List.map_congr_left fun f mem => (canonical.functions f mem).reread).trans (List.map_id _)
    rw [Program.reread, all]
  rw [readable.parse, same]

/-- A program with an operation of every kind, the extreme numbers, and uses before definitions. -/
def tour : Program where
  functions := [{
    name := "main"
    arity := 2
    blocks := [{ name := "entry", body := [2, 3, 4, 5, 6, 7, 8] }, { name := "again", body := [9, 10, 11, 12, 13] },
      { name := "done", body := [14] }]
    values := #[
      { op := .arg 0, name := some "a" }, { op := .arg 1, name := some "b" },
      { op := .alloca 18446744073709551615, name := some "room" },
      { op := .imm (-9223372036854775808), name := some "least" },
      { op := .imm 9223372036854775807, name := some "greatest" },
      { op := .binary (.arith .add) 0 9, name := some "sum" },
      { op := .store 2 5 }, { op := .binary (.compare .lt) 3 5, name := some "test" }, { op := .branch 7 2 1 },
      { op := .load 2, name := some "later" }, { op := .symbol "helper.1", name := some "code" },
      { op := .call (.direct "helper.1") [9, 0], name := some "direct" },
      { op := .call (.indirect 10) [], name := some "indirect" }, { op := .jump 2 }, { op := .retValue 5 }] }, {
    name := "helper.1"
    arity := 2
    blocks := [{ name := "entry", body := [2] }]
    values := #[{ op := .arg 0, name := some "_" }, { op := .arg 1, name := some "1" }, { op := .ret }] }]

theorem tour_parsed : tour.Canonical ∧ parse tour.text = .ok tour :=
  ⟨by decide +kernel, Program.parse_text_of_canonical (by decide +kernel)⟩

end Codegen86.IR
