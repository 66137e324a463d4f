import Codegen86.Proofs.Selection.Functions
/-!
# Selecting programs

The functions found from the entry function on are lowered one after another, each found once and each a
function of the source (`Known`).  Each uses operands and abstract registers of its own, and calls
functions that are found (`Functions`); `select_spec` says so of the selected program.
-/

set_option autoImplicit false

namespace Codegen86.Selection

open Target

variable {source : IR.Program}

/-- Lowered functions one after another, with operands between `low` and `high`, and with the abstract
registers from `first` up to `next`.  They are part of a program with the pool `pool` and functions with
the names `found`; the slots reserved for each are listed. -/
inductive Functions (source : IR.Program) (pool : Pool) (found : List String) :
    (low high : OperandRef) → (first next : Nat) → List Target.Function → List Slots → Prop
  | nil {low high : OperandRef} {first : Nat} (le : low ≤ high) :
      Functions source pool found low high first first [] []
  | cons {low high : OperandRef} {first middle next : Nat} {E : Site} {f : IR.Function}
      {frame : OperandRef} {t : Target.Function} {rest : List Target.Function} {slots : Slots}
      {others : List Slots} (head : Lowered E f frame first middle t slots) (origin : source.function? f.name = some f)
      (above : low ≤ frame) (grows : E.pool.Grows pool) (known : E.found ⊆ found)
      (tail : Functions source pool found E.pool.operands.size high middle next rest others) :
      Functions source pool found low high first next (t :: rest) (slots :: others)

namespace Functions

variable {pool pool' : Pool} {found found' : List String} {low high : OperandRef} {first next : Nat}
  {functions : List Target.Function} {reserved : List Slots}

theorem mono (grows : pool.Grows pool') (more : found ⊆ found')
    (h : Functions source pool found low high first next functions reserved) :
    Functions source pool' found' low high first next functions reserved := by
  induction h with
  | nil le => exact .nil le
  | cons head origin above grows' known _ ih =>
    exact .cons head origin above (grows'.trans grows) (fun _ mem => more (known mem)) ih

theorem snoc {E : Site} {f : IR.Function} {frame : OperandRef} {t : Target.Function} {last : Nat}
    {slots : Slots} (h : Functions source pool found low high first next functions reserved)
    (made : Lowered E f frame next last t slots)
    (origin : source.function? f.name = some f) (above : high ≤ frame) (grows : E.pool.Grows pool)
    (known : E.found ⊆ found) :
    Functions source pool found low E.pool.operands.size first last (functions ++ [t])
      (reserved ++ [slots]) := by
  induction h with
  | nil le =>
    exact .cons made origin (Nat.le_trans le above) grows known (.nil (Nat.le_refl _))
  | cons head origin' above' grows' known' _ ih =>
    exact .cons head origin' above' grows' known' (ih made above)

end Functions

/-- What holds when the functions found before `position` are lowered. -/
structure Selecting (source : IR.Program) (position : Nat) (s : Selector) (reserved : List Slots) :
    Prop where
  inside : position ≤ s.found.length
  known : Known source s.found
  names : s.program.functions.map (·.name) = s.found.take position
  functions : Functions source s.program.pool s.found 0 s.program.pool.operands.size 1 s.registers
    s.program.functions reserved

/-- A function is added under a new name only. -/
theorem add_iff {p p' : Program} {t : Target.Function} :
    p.add t = .ok p' ↔
      t.name ∉ p.functions.map (·.name) ∧ p' = { p with functions := p.functions ++ [t] } := by
  have found : (p.function? t.name).isSome = true ↔ t.name ∈ p.functions.map (·.name) := by
    unfold Program.function?
    simp
  unfold Program.add
  split
  · rename_i old
    exact ⟨nofun, fun ⟨new, _⟩ => absurd (found.mp old) new⟩
  · rename_i new
    exact ⟨fun ok => ⟨mt found.mpr new, (Except.ok.inj ok).symm⟩, fun ⟨_, same⟩ => same ▸ rfl⟩

theorem selecting_next {position : Nat} {s s' : Selector} {name : String} {f : IR.Function}
    {t : Target.Function} {slots : List Slots} (h : Selecting source position s slots)
    (here : s.found[position]? = some name) (origin : source.function? name = some f)
    {c : Context} {frame : OperandRef} {u u' : Lowering} (lowers : Lowers source s f c frame u u' t s') :
    t.name ∉ s'.program.functions.map (·.name) ∧
      Selecting source (position + 1)
        { s' with program := { s'.program with functions := s'.program.functions ++ [t] } }
        (slots ++ [reserved c u']) := by
  obtain ⟨E, lowered, pool, found, place, grows⟩ := lowers.lowered
  have named : t.name = name := lowered.name.trans (IR.Program.name_of_function? origin)
  obtain ⟨inside, here⟩ := List.getElem?_eq_some_iff.mp here
  obtain ⟨more, eq⟩ := grows.found
  have known := grows.known h.known
  have take : s'.found.take (position + 1) = s.found.take position ++ [name] := by
    rw [← eq, List.take_append_of_le_length inside, List.take_succ_eq_append_getElem inside, here]
  constructor
  · rw [grows.functions, h.names, named]
    have distinct := (List.take_sublist (position + 1) s'.found).nodup known.distinct
    rw [take, List.nodup_append] at distinct
    exact fun mem => distinct.2.2 name mem name (List.mem_singleton_self name) rfl
  · refine ⟨?_, known, ?_, ?_⟩
    · exact Nat.le_trans inside grows.found.length_le
    · rw [take, List.map_append, grows.functions, h.names, List.map_singleton, named]
    · rw [grows.functions]
      have before := h.functions.mono grows.pool grows.found.subset
      have all := before.snoc lowered (by rw [IR.Program.name_of_function? origin]; exact origin)
        (Nat.le_of_eq place.symm) (pool ▸ .refl _) (found ▸ fun _ mem => mem)
      rw [pool] at all
      exact all

/-- A function found is a function of the source, and none is found twice. -/
theorem Known.length_le {found : List String} (h : Known source found) :
    found.length ≤ source.functions.length := by
  have names : found ⊆ source.functions.map (·.name) := by
    intro name mem
    obtain ⟨f, origin⟩ := Option.isSome_iff_exists.mp (h.known name mem)
    rw [← IR.Program.name_of_function? origin]
    exact List.mem_map_of_mem (IR.Program.mem_of_function? origin)
  have := (List.subperm_of_subset h.distinct names).length_le
  simpa using this

/-- The functions found are lowered, with those found on the way. -/
theorem lowerFound_spec {fuel position : Nat} {s s' : Selector} {slots : List Slots}
    (enough : position + fuel = source.functions.length) (h : Selecting source position s slots)
    (ok : lowerFound source fuel position s = .ok s') :
    s.found <+: s'.found ∧ s'.program.entry = s.program.entry ∧
      ∃ more, foundSlots source fuel position s = .ok more ∧
        Selecting source s'.found.length s' (slots ++ more) := by
  have finished : ∀ {u : Selector} {p : Nat} {done : List Slots}, Selecting source p u done →
      u.found.length ≤ p → Selecting source u.found.length u (done ++ []) := by
    intro u p done selecting most
    obtain rfl : p = u.found.length := Nat.le_antisymm selecting.inside most
    rwa [List.append_nil]
  induction fuel generalizing position s slots with
  | zero =>
    obtain rfl := Except.ok.inj ok
    have most := h.known.length_le
    exact ⟨List.prefix_refl _, rfl, [], rfl, finished h (by omega)⟩
  | succ fuel ih =>
    unfold lowerFound at ok
    split at ok
    · rename_i none
      obtain rfl := Except.ok.inj ok
      exact ⟨List.prefix_refl _, rfl, [], by rw [foundSlots, none], finished h (List.getElem?_eq_none_iff.mp none)⟩
    · rename_i name here
      split at ok
      · cases ok
      · rename_i f origin
        obtain ⟨⟨t, u⟩, one, ok⟩ := bind_ok.mp ok
        obtain ⟨p, added, ok⟩ := bind_ok.mp ok
        have added' := added
        obtain ⟨-, rfl⟩ := add_iff.mp added
        obtain ⟨c, frame, v, v', lowers⟩ := lowerFunction_cases one
        obtain ⟨E, -, -, -, -, grows⟩ := lowers.lowered
        obtain ⟨args, body⟩ := lowers.body
        obtain ⟨prefixes, entry, more, found, selecting⟩ :=
          ih (by omega) (selecting_next h here origin lowers).2 ok
        refine ⟨grows.found.trans prefixes, entry.trans grows.entry, reserved c v' :: more, ?_, ?_⟩
        · simp only [foundSlots, here, origin]
          exact bind_ok.mpr ⟨_, body, bind_ok.mpr ⟨_, one, bind_ok.mpr ⟨_, added', bind_ok.mpr ⟨_, found, rfl⟩⟩⟩⟩
        · rwa [List.append_assoc] at selecting

/-- A selected program: its functions are the ones found from the entry on. -/
structure Selected (source : IR.Program) (entry : String) (p : Program) (reserved : List Slots) : Prop where
  designated : p.entry = some entry
  starts : entry ∈ p.functions.map (·.name)
  distinct : (p.functions.map (·.name)).Nodup
  functions : ∃ next, Functions source p.pool (p.functions.map (·.name)) 0 p.pool.operands.size 1 next
    p.functions reserved

theorem selecting_start {entry : String} {journal : Journal}
    (there : (source.function? entry).isSome = true) :
    Selecting source 0
      (({ journal, program := ({} : Program).setEntry entry } : Selector).find entry) [] where
  inside := Nat.zero_le _
  known := by
    have none : Known source ([] : List String) := ⟨List.nodup_nil, nofun⟩
    exact none.find there
  names := rfl
  functions := .nil (Nat.le_refl _)

theorem select_spec {entry : String} {journal journal' : Journal} {p : Program}
    (ok : select source entry journal = .ok (p, journal')) :
    ∃ slots, selectSlots source entry journal = .ok slots ∧ Selected source entry p slots := by
  unfold select at ok
  split at ok
  · cases ok
  · rename_i there
    have there : (source.function? entry).isSome = true := by simpa [Option.isSome_iff_ne_none] using there
    obtain ⟨s, all, ok⟩ := bind_ok.mp ok
    obtain ⟨rfl, -⟩ := Prod.mk.inj (Except.ok.inj ok)
    obtain ⟨prefixes, same, slots, listed, selecting⟩ :=
      lowerFound_spec (Nat.zero_add _) (selecting_start there) all
    have names : s.program.functions.map (·.name) = s.found := by
      rw [selecting.names, List.take_length]
    refine ⟨slots, listed, same, ?_, ?_, s.registers, ?_⟩
    · rw [names]
      exact prefixes.subset (List.mem_singleton_self entry)
    · rw [names]
      exact selecting.known.distinct
    · rw [names]
      exact selecting.functions

end Codegen86.Selection
