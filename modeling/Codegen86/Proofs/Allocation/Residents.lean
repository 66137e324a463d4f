import Codegen86.Allocation.Residents
/-!
# Bindings, counts and free registers in step

`Residents.Consistent` says that the three tables of the residents tell one story: no resident is bound
twice, every register in use is one of `1` to `n`, the count of a register is the number of its
residents, and the free registers are those without residents.  Binding and unbinding keep it.
-/

set_option autoImplicit false

namespace Codegen86.Allocation.Residents

open Target

structure Consistent (r : Residents) (n : Nat) : Prop where
  nodup : (r.bindings.map (·.1)).Nodup
  inside : ∀ {key : Operand} {reg : Nat}, (key, reg) ∈ r.bindings → 1 ≤ reg ∧ reg ≤ n
  size : r.occupancy.size = n + 1
  counts : ∀ reg, r.occupants reg = r.bindings.countP (·.2 == reg)
  free : ∀ reg, r.free.contains reg = true ↔ 1 ≤ reg ∧ reg ≤ n ∧ r.occupants reg = 0

/-! ## Association lists without repeated keys -/

theorem lookup_eq_some_iff {entries : List (Operand × Nat)} (nodup : (entries.map (·.1)).Nodup)
    {key : Operand} {reg : Nat} : entries.lookup key = some reg ↔ (key, reg) ∈ entries := by
  induction entries with
  | nil => simp
  | cons entry rest ih =>
    obtain ⟨name, value⟩ := entry
    simp only [List.map_cons, List.nodup_cons] at nodup
    rw [List.lookup_cons, List.mem_cons]
    by_cases same : key = name
    · subst same
      have absent : (key, reg) ∉ rest := fun mem => nodup.1 (List.mem_map_of_mem (f := (·.1)) mem)
      simp [absent, eq_comm]
    · simp [beq_false_of_ne same, same, ih nodup.2]

theorem filter_ne_of_lookup_eq_none {entries : List (Operand × Nat)} {key : Operand}
    (absent : entries.lookup key = none) :
    entries.filter (fun entry => entry.1 != key) = entries := by
  rw [List.filter_eq_self]
  intro entry mem
  have := List.lookup_eq_none_iff.mp absent entry mem
  simpa [bne, BEq.comm] using this

theorem countP_filter_ne {entries : List (Operand × Nat)} (nodup : (entries.map (·.1)).Nodup)
    {key : Operand} {old : Nat} (held : (key, old) ∈ entries) (reg : Nat) :
    (entries.filter fun entry => entry.1 != key).countP (·.2 == reg) +
      (if reg = old then 1 else 0) = entries.countP (·.2 == reg) := by
  induction entries with
  | nil => cases held
  | cons entry rest ih =>
    obtain ⟨name, value⟩ := entry
    simp only [List.map_cons, List.nodup_cons] at nodup
    rw [List.filter_cons, List.countP_cons]
    by_cases same : name = key
    · subst same
      have absent : rest.lookup name = none := by
        rw [List.lookup_eq_none_iff]
        intro entry mem
        have ne : entry.1 ≠ name := fun e => nodup.1 (e ▸ List.mem_map_of_mem (f := (·.1)) mem)
        simpa using Ne.symm ne
      have value_eq : value = old := by
        rcases List.mem_cons.mp held with e | mem
        · exact (Prod.mk.inj e).2.symm
        · exact absurd (List.mem_map_of_mem (f := (·.1)) mem) nodup.1
      subst value_eq
      simp only [bne_self_eq_false, Bool.false_eq_true, ↓reduceIte,
        filter_ne_of_lookup_eq_none absent]
      by_cases e : reg = value
      · simp [e]
      · simp [e, Ne.symm e]
    · have held' : (key, old) ∈ rest := by
        rcases List.mem_cons.mp held with e | mem
        · exact absurd (Prod.mk.inj e).1.symm same
        · exact mem
      have := ih nodup.2 held'
      have keep : (name != key) = true := by simpa using same
      simp only [keep, ↓reduceIte, List.countP_cons]
      omega

namespace Consistent

variable {r : Residents} {n : Nat}

theorem register?_eq_some_iff (h : r.Consistent n) {key : Operand} {reg : Nat} :
    r.register? key = some reg ↔ (key, reg) ∈ r.bindings := lookup_eq_some_iff h.nodup

theorem bounds (h : r.Consistent n) {key : Operand} {reg : Nat} (held : r.register? key = some reg) :
    1 ≤ reg ∧ reg ≤ n := h.inside (h.register?_eq_some_iff.mp held)

theorem mem_of_iff (h : r.Consistent n) {key : Operand} {reg : Nat} :
    key ∈ r.of reg ↔ r.register? key = some reg := mem_of.trans h.register?_eq_some_iff.symm

theorem mem_all_iff (h : r.Consistent n) {key : Operand} :
    key ∈ r.all ↔ ∃ reg, r.register? key = some reg := by
  simp only [all, sorted, List.mem_mergeSort, List.mem_map, h.register?_eq_some_iff]
  constructor
  · rintro ⟨⟨name, reg⟩, mem, rfl⟩
    exact ⟨reg, mem⟩
  · rintro ⟨reg, mem⟩
    exact ⟨(key, reg), mem, rfl⟩

/-- A register without residents is the register of nothing. -/
theorem occupants_eq_zero_iff (h : r.Consistent n) {reg : Nat} :
    r.occupants reg = 0 ↔ ∀ key, r.register? key ≠ some reg := by
  rw [h.counts, List.countP_eq_zero]
  constructor
  · intro none key held
    exact none (key, reg) (h.register?_eq_some_iff.mp held) (by simp)
  · rintro none ⟨key, other⟩ mem e
    obtain rfl : other = reg := by simpa using e
    exact none key (h.register?_eq_some_iff.mpr mem)

theorem free_iff (h : r.Consistent n) {reg : Nat} :
    r.free.contains reg = true ↔ 1 ≤ reg ∧ reg ≤ n ∧ ∀ key, r.register? key ≠ some reg := by
  rw [h.free, h.occupants_eq_zero_iff]

theorem start (few : n ≤ RegisterSet.largest) : (start n).Consistent n := by
  refine ⟨by simp [Residents.start], by simp [Residents.start], by simp [Residents.start], ?_, ?_⟩
  · intro reg
    simp only [occupants, Residents.start, List.countP_nil, Array.getD_eq_getD_getElem?,
      Array.getElem?_replicate]
    split <;> rfl
  · intro reg
    have empty : (Residents.start n).occupants reg = 0 := by
      simp only [occupants, Residents.start, Array.getD_eq_getD_getElem?, Array.getElem?_replicate]
      split <;> rfl
    rw [empty, Residents.start, RegisterSet.contains_range]
    omega

/-! ### Binding and unbinding -/

theorem occupants_occupy (r : Residents) {reg : Nat} (other : Nat) (h : reg < r.occupancy.size) :
    (r.occupy reg).occupants other = r.occupants other + if other = reg then 1 else 0 := by
  simp only [occupy, occupants, Array.getD_eq_getD_getElem?, Array.getElem?_modify]
  by_cases e : other = reg
  · subst e
    simp [h]
  · simp [e, Ne.symm e]

theorem occupants_release (r : Residents) (reg other : Nat) :
    (r.release reg).occupants other = r.occupants other - if other = reg then 1 else 0 := by
  have modified : ({ r with occupancy := r.occupancy.modify reg (· - 1) } : Residents).occupants other =
      r.occupants other - if other = reg then 1 else 0 := by
    simp only [occupants, Array.getD_eq_getD_getElem?, Array.getElem?_modify]
    by_cases e : other = reg
    · subst e
      cases r.occupancy[other]? <;> simp
    · simp [e, Ne.symm e]
  unfold release
  dsimp only
  split <;> exact modified

theorem contains_free_release (r : Residents) (reg other : Nat) :
    (r.release reg).free.contains other = true ↔
      r.free.contains other = true ∨
        other = reg ∧ other ≤ RegisterSet.largest ∧ (r.release reg).occupants reg = 0 := by
  unfold release
  dsimp only
  split
  · rename_i empty
    have same : ∀ free, ({ r with occupancy := r.occupancy.modify reg (· - 1), free } :
        Residents).occupants reg = 0 := fun _ => empty
    simp only [RegisterSet.contains_insert, same, and_true, Bool.or_eq_true, Bool.and_eq_true,
      beq_iff_eq, decide_eq_true_eq]
  · rename_i occupied
    simp only [occupied, and_false, or_false]

/-- Taking out one resident of a register. -/
theorem release_erase (few : n ≤ RegisterSet.largest) (h : r.Consistent n) {key : Operand} {old : Nat}
    (held : r.register? key = some old) : ((r.erase key).release old).Consistent n := by
  have mem := h.register?_eq_some_iff.mp held
  have counted := countP_filter_ne h.nodup mem
  have bounds := h.inside mem
  have bindings : ((r.erase key).release old).bindings =
      r.bindings.filter fun entry => entry.1 != key := by
    unfold release
    dsimp only
    split <;> rfl
  have counts : ∀ reg, ((r.erase key).release old).occupants reg =
      (r.bindings.filter fun entry => entry.1 != key).countP (·.2 == reg) := by
    intro reg
    have erased : (r.erase key).occupants reg = r.occupants reg := rfl
    have := counted reg
    rw [occupants_release, erased, h.counts]
    omega
  refine ⟨?_, ?_, ?_, ?_, ?_⟩
  · rw [bindings]
    exact h.nodup.sublist (List.filter_sublist.map _)
  · intro k reg mem
    rw [bindings] at mem
    exact h.inside (List.mem_filter.mp mem).1
  · have : ((r.erase key).release old).occupancy.size = r.occupancy.size := by
      unfold release
      dsimp only
      split <;> simp [erase]
    rw [this, h.size]
  · intro reg
    rw [counts, bindings]
  · intro reg
    have after := occupants_release (r.erase key) old reg
    have erased : (r.erase key).occupants reg = r.occupants reg := rfl
    have free : (r.erase key).free.contains reg = true ↔ _ := h.free reg
    have there : r.occupants old ≠ 0 := fun none => h.occupants_eq_zero_iff.mp none key held
    rw [contains_free_release, free]
    by_cases e : reg = old
    · subst e
      omega
    · rw [if_neg e] at after
      rw [after, erased, Nat.sub_zero]
      simp only [e, false_and, or_false]

theorem unbind (few : n ≤ RegisterSet.largest) (h : r.Consistent n) (key : Operand) :
    (r.unbind key).Consistent n := by
  unfold Residents.unbind
  split
  · exact h
  · rename_i reg held
    exact h.release_erase few held

/-- Putting in a resident that no register holds. -/
theorem occupy_cons (h : r.Consistent n) {key : Operand} {reg : Nat}
    (absent : r.register? key = none) (bounds : 1 ≤ reg ∧ reg ≤ n) :
    ({ r with bindings := (key, reg) :: r.bindings } : Residents).occupy reg |>.Consistent n := by
  have inRange : reg < r.occupancy.size := by rw [h.size]; omega
  have count : ∀ other, (({ r with bindings := (key, reg) :: r.bindings } :
      Residents).occupy reg).occupants other = r.occupants other + if other = reg then 1 else 0 :=
    fun other => occupants_occupy { r with bindings := (key, reg) :: r.bindings } other inRange
  refine ⟨?_, ?_, ?_, ?_, ?_⟩
  · refine List.nodup_cons.mpr ⟨fun mem => ?_, h.nodup⟩
    obtain ⟨⟨name, other⟩, held, same⟩ := List.mem_map.mp mem
    obtain rfl : name = key := same
    rw [h.register?_eq_some_iff.mpr held] at absent
    cases absent
  · intro name other mem
    rcases List.mem_cons.mp mem with e | mem
    · obtain rfl := (Prod.mk.inj e).2
      exact bounds
    · exact h.inside mem
  · simpa [occupy] using h.size
  · intro other
    have := h.counts other
    rw [count, occupy, List.countP_cons]
    rw [this]
    by_cases e : other = reg
    · simp [e]
    · simp [e, Ne.symm e]
  · intro other
    have free := h.free other
    rw [count]
    simp only [occupy, RegisterSet.contains_remove, Bool.and_eq_true, free, bne_iff_ne, ne_eq]
    by_cases e : other = reg
    · simp [e]
    · simp [e]

theorem bind (few : n ≤ RegisterSet.largest) (h : r.Consistent n) (key : Operand) {reg : Nat}
    (bounds : 1 ≤ reg ∧ reg ≤ n) : (r.bind key reg).Consistent n := by
  unfold Residents.bind
  dsimp only
  split
  · rename_i absent
    have same : r.erase key = r := by
      simp only [erase, filter_ne_of_lookup_eq_none absent]
    rw [same]
    exact h.occupy_cons absent bounds
  · rename_i old held
    split
    · exact h
    · have erased := h.release_erase few held
      have absent : ((r.erase key).release old).register? key = none := by
        rw [register?_release, register?_erase, if_pos rfl]
      have swap : ({ r.erase key with bindings := (key, reg) :: (r.erase key).bindings } :
          Residents).release old =
          { (r.erase key).release old with
            bindings := (key, reg) :: ((r.erase key).release old).bindings } := by
        unfold release occupants
        dsimp only
        split <;> rfl
      rw [swap]
      exact erased.occupy_cons absent bounds

/-- With nothing bound, all registers are free. -/
theorem size_free_of_empty (few : n ≤ RegisterSet.largest) (h : r.Consistent n)
    (empty : r.bindings = []) : r.free.size = n := by
  have free : ∀ reg, r.free.contains reg = true ↔ 1 ≤ reg ∧ reg ≤ n := by
    intro reg
    have : r.occupants reg = 0 := by rw [h.counts, empty]; rfl
    simp [h.free, this]
  rw [RegisterSet.size_eq_countP]
  have counted : ∀ m, (List.range m).countP r.free.contains = min (m - 1) n := by
    intro m
    induction m with
    | zero => simp
    | succ m ih =>
      rw [List.range_succ, List.countP_append, ih, List.countP_singleton]
      by_cases e : r.free.contains m = true
      · have := (free m).mp e
        rw [if_pos e]
        omega
      · have := mt (free m).mpr e
        rw [if_neg e]
        omega
  rw [counted]
  omega

end Consistent

end Codegen86.Allocation.Residents
