/-!
# Looking up keys in lists
-/

set_option autoImplicit false

namespace Codegen86

variable {κ α : Type} [BEq κ] [LawfulBEq κ] {table : List (κ × α)} {key first : κ} {a : α}

/-- Exactly the keys that occur are looked up. -/
theorem lookup_isSome : (table.lookup key).isSome = true ↔ key ∈ table.map (·.1) := by
  induction table with
  | nil => simp
  | cons entry rest ih =>
    obtain ⟨first, a⟩ := entry
    rw [List.lookup_cons, List.map_cons, List.mem_cons, ← ih]
    by_cases same : key = first
    · simp [same]
    · simp [beq_false_of_ne same, same]

theorem lookup_eq_none : table.lookup key = none ↔ key ∉ table.map (·.1) := by
  rw [← lookup_isSome]
  exact Option.not_isSome_iff_eq_none.symm

theorem mem_of_lookup (h : table.lookup key = some a) : (key, a) ∈ table := by
  obtain ⟨before, after, rfl, -⟩ := List.lookup_eq_some_iff.mp h
  simp

/-- A key that occurs once is looked up. -/
theorem lookup_of_mem (distinct : (table.map (·.1)).Nodup) (mem : (key, a) ∈ table) :
    table.lookup key = some a := by
  obtain ⟨before, after, rfl⟩ := List.append_of_mem mem
  refine List.lookup_eq_some_iff.mpr ⟨before, after, rfl, fun entry other => ?_⟩
  rw [List.map_append, List.map_cons] at distinct
  have ne := (List.nodup_append.mp distinct).2.2 entry.1 (List.mem_map_of_mem other) key
    List.mem_cons_self
  exact bne_iff_ne.mpr (Ne.symm ne)

theorem lookup_cons_ite [DecidableEq κ] (first key : κ) (a : α) :
    ((first, a) :: table).lookup key = if key = first then some a else table.lookup key := by
  rw [List.lookup_cons]
  by_cases same : key = first
  · simp [same]
  · rw [beq_false_of_ne same, if_neg same]

/-- A new key hides none. -/
theorem lookup_cons_of_some {b : α} (absent : table.lookup first = none) (found : table.lookup key = some a) :
    ((first, b) :: table).lookup key = some a := by
  classical
  rw [lookup_cons_ite, if_neg]
  · exact found
  · rintro rfl
    rw [absent] at found
    cases found

end Codegen86
