import Codegen86.Text.Blank
import Codegen86.Text.Split
/-!
# Taking text apart

What the pieces of a text are made of, and that pieces put together with separators are found again:
`fields_append` for the words of a line, `lines_unlines` for the lines of a text, `trim_between` for a text
between blanks.
-/

set_option autoImplicit false

namespace Codegen86.Text

variable {c : Char} {cs rest before after : List Char} {p : Char → Bool}

/-! ## Dropping -/

theorem dropFirst?_eq : dropFirst? c cs = some rest ↔ cs = c :: rest := by
  cases cs with
  | nil => simp [dropFirst?]
  | cons d cs =>
    by_cases same : d = c
    · simp [dropFirst?, same]
    · simp [dropFirst?, same]

theorem dropLast?_eq : dropLast? c cs = some rest ↔ cs = rest ++ [c] := by
  unfold dropLast?
  constructor
  · intro h
    split at h
    · rename_i last
      cases h
      obtain ⟨front, rfl⟩ := List.getLast?_eq_some_iff.mp last
      simp
    · cases h
  · rintro rfl
    simp

theorem dropLead?_eq {lead : List Char} : dropLead? lead cs = some rest ↔ cs = lead ++ rest := by
  induction lead generalizing cs with
  | nil => simp [dropLead?]
  | cons l lead ih =>
    cases cs with
    | nil => simp [dropLead?]
    | cons d cs =>
      by_cases same : d = l
      · simp [dropLead?, same, ih]
      · simp [dropLead?, same, Ne.symm same]

/-! ## Trimming -/

theorem mem_of_mem_trim (mem : c ∈ trim cs) : c ∈ cs := by
  have inner := List.mem_reverse.mp mem
  have := List.mem_reverse.mp ((List.dropWhile_sublist _).subset inner)
  exact (List.dropWhile_sublist _).subset this

/-- A text whose ends are no blanks is what trimming leaves of it, with blanks before and after. -/
theorem trim_between (blank : ∀ d ∈ before, isBlank d = true) (blank' : ∀ d ∈ after, isBlank d = true)
    (first : ∀ d, cs.head? = some d → isBlank d = false)
    (last : ∀ d, cs.getLast? = some d → isBlank d = false) :
    trim (before ++ cs ++ after) = cs := by
  have front : trim (before ++ cs ++ after) = trimEnd (cs ++ after) ∨ cs = [] := by
    cases cs with
    | nil => exact .inr rfl
    | cons d cs =>
      left
      rw [trim, List.append_assoc, List.dropWhile_append_of_pos blank, List.cons_append,
        List.dropWhile_cons_of_neg (by simp [first d rfl])]
  have back : trimEnd (cs ++ after) = cs := by
    rw [trimEnd, List.reverse_append, List.dropWhile_append_of_pos (by simpa using blank')]
    cases same : cs.reverse with
    | nil => simpa using same
    | cons d others =>
      have end_ : cs.getLast? = some d := by rw [List.getLast?_eq_head?_reverse, same]; rfl
      rw [List.dropWhile_cons_of_neg (by simp [last d end_]), ← same, List.reverse_reverse]
  rcases front with front | rfl
  · rw [front, back]
  · have all : ∀ d ∈ before ++ [] ++ after, isBlank d = true := by
      intro d mem
      rcases List.mem_append.mp (by simpa using mem) with mem | mem
      · exact blank d mem
      · exact blank' d mem
    have none : (before ++ [] ++ after ++ []).dropWhile isBlank = [] := List.dropWhile_append_of_pos all
    rw [List.append_nil] at none
    rw [trim, none]
    rfl

/-- A text without blanks at its ends is trimmed. -/
theorem trim_self (first : ∀ d, cs.head? = some d → isBlank d = false)
    (last : ∀ d, cs.getLast? = some d → isBlank d = false) : trim cs = cs := by
  have : trim ([] ++ cs ++ []) = cs := trim_between (by simp) (by simp) first last
  simpa using this

theorem trim_of_plain (plain : ∀ d ∈ cs, isBlank d = false) : trim cs = cs :=
  trim_self (fun d is => plain d (List.mem_of_head? is)) fun d is => plain d (List.mem_of_getLast? is)

/-! ## Cutting -/

theorem cutAt_eq : cutAt c cs = some (before, after) ↔ cs = before ++ c :: after ∧ c ∉ before := by
  unfold cutAt
  constructor
  · intro h
    split at h
    · cases h
    · rename_i d tail dropped
      cases h
      have here : d = c := by
        have := List.head?_dropWhile_not (· != c) cs
        rw [dropped] at this
        simpa using this
      refine ⟨?_, fun mem => ?_⟩
      · subst here
        rw [← dropped, List.takeWhile_append_dropWhile]
      · simpa using List.all_eq_true.mp List.all_takeWhile c mem
  · rintro ⟨rfl, off⟩
    have all : ∀ d ∈ before, (d != c) = true := fun d mem => bne_iff_ne.mpr fun same => off (same ▸ mem)
    rw [List.dropWhile_append_of_pos all, List.dropWhile_cons_of_neg (by simp),
      List.takeWhile_append_of_pos all, List.takeWhile_cons_of_neg (by simp), List.append_nil]

theorem cutAt_none (off : c ∉ cs) : cutAt c cs = none := by
  have all : ∀ d ∈ cs, (d != c) = true := fun d mem => bne_iff_ne.mpr fun same => off (same ▸ mem)
  have none : (cs ++ []).dropWhile (· != c) = [] := List.dropWhile_append_of_pos all
  rw [List.append_nil] at none
  rw [cutAt, none]

/-! ## Pieces -/

theorem split_ne_nil (cs : List Char) : split p cs ≠ [] := by
  cases cs with
  | nil => simp
  | cons d cs =>
    rw [split_cons]
    split
    · simp
    · cases split p cs with
      | nil => simp [consFirst]
      | cons piece pieces => simp [consFirst]

/-- A piece is made of characters of the text that do not separate. -/
theorem mem_split {piece : List Char} (mem : piece ∈ split p cs) (char : c ∈ piece) :
    c ∈ cs ∧ p c = false := by
  induction cs generalizing piece with
  | nil =>
    obtain rfl := List.mem_singleton.mp mem
    cases char
  | cons d cs ih =>
    rw [split_cons] at mem
    split at mem
    · rcases List.mem_cons.mp mem with rfl | mem
      · cases char
      · exact (ih mem char).imp_left (List.mem_cons_of_mem d)
    · rename_i plain
      cases pieces : split p cs with
      | nil => exact absurd pieces (split_ne_nil cs)
      | cons first others =>
        rw [pieces] at mem ih
        rcases List.mem_cons.mp mem with rfl | mem
        · rcases List.mem_cons.mp char with rfl | char
          · exact ⟨List.mem_cons_self, by simpa using plain⟩
          · exact (ih List.mem_cons_self char).imp_left (List.mem_cons_of_mem d)
        · exact (ih (List.mem_cons_of_mem _ mem) char).imp_left (List.mem_cons_of_mem d)

/-- The pieces before and after a separator are found apart. -/
theorem split_append (separates : p c = true) (before after : List Char) :
    split p (before ++ c :: after) = split p before ++ split p after := by
  induction before with
  | nil => rw [List.nil_append, split_cons, if_pos separates]; rfl
  | cons d before ih =>
    rw [List.cons_append, split_cons, split_cons, ih]
    split
    · rfl
    · cases pieces : split p before with
      | nil => exact absurd pieces (split_ne_nil before)
      | cons first others => rfl

theorem split_plain (plain : ∀ d ∈ cs, p d = false) : split p cs = [cs] := by
  induction cs with
  | nil => rfl
  | cons d cs ih =>
    rw [split_cons, if_neg (by simp [plain d List.mem_cons_self]),
      ih fun d mem => plain d (List.mem_cons_of_mem _ mem)]
    rfl

/-! ## Words -/

theorem mem_fields {piece : List Char} (mem : piece ∈ fields p cs) (char : c ∈ piece) :
    c ∈ cs ∧ p c = false := mem_split (List.mem_filter.mp mem).1 char

/-- A separator alone makes no word. -/
theorem fields_cons (separates : p c = true) : fields p (c :: cs) = fields p cs := by
  rw [fields, split_cons, if_pos separates]
  rfl

/-- Separators in a row make no words. -/
theorem fields_gap {gap : List Char} (separate : ∀ d ∈ gap, p d = true) (cs : List Char) :
    fields p (gap ++ cs) = fields p cs := by
  induction gap with
  | nil => rfl
  | cons d gap ih =>
    rw [List.cons_append, fields_cons (separate d List.mem_cons_self)]
    exact ih fun d mem => separate d (List.mem_cons_of_mem _ mem)

/-- The words before and after separators are found apart. -/
theorem fields_append {gap : List Char} (some : gap ≠ []) (separate : ∀ d ∈ gap, p d = true)
    (before after : List Char) : fields p (before ++ gap ++ after) = fields p before ++ fields p after := by
  cases gap with
  | nil => exact absurd rfl some
  | cons d gap =>
    rw [List.append_assoc, List.cons_append, fields, split_append (separate d List.mem_cons_self),
      List.filter_append]
    exact congrArg (fields p before ++ ·) (fields_gap (fun d mem => separate d (List.mem_cons_of_mem _ mem)) after)

theorem fields_plain (plain : ∀ d ∈ cs, p d = false) (some : cs ≠ []) : fields p cs = [cs] := by
  rw [fields, split_plain plain, List.filter_cons_of_pos (by simpa using some)]
  rfl

/-! ## Lines -/

theorem not_mem_lines {line : List Char} (mem : line ∈ lines cs) : '\n' ∉ line := by
  have piece : line ∈ split (· == '\n') cs := by
    unfold lines at mem
    dsimp only at mem
    split at mem
    · exact (List.dropLast_sublist _).subset mem
    · exact mem
  intro char
  simpa using (mem_split piece char).2

/-- Lines, each with a line feed, are the lines of the text. -/
theorem lines_unlines {all : List (List Char)} (plain : ∀ line ∈ all, '\n' ∉ line) :
    lines (all.flatMap (· ++ ['\n'])) = all := by
  have pieces : split (· == '\n') (all.flatMap (· ++ ['\n'])) = all ++ [[]] := by
    induction all with
    | nil => rfl
    | cons line rest ih =>
      rw [List.flatMap_cons, List.append_assoc, List.singleton_append,
        split_append (by rfl), ih fun line mem => plain line (List.mem_cons_of_mem _ mem), split_plain]
      · rfl
      · intro d mem
        exact beq_false_of_ne fun same => plain line List.mem_cons_self (same ▸ mem)
  rw [lines, pieces]
  simp

end Codegen86.Text
