/-!
# Compilation journal

What a compilation has done so far: the function it works on, how much it selected and of what, what
the allocator inserted and removed, and what each peephole rule removed.  Stages add to a journal while
they work; `Journal.text` is the report.
-/

set_option autoImplicit false

namespace Codegen86

/-- How often each name occurred, in the order of first occurrence. -/
abbrev Tally := List (String × Nat)

namespace Tally

/-- Count one more occurrence. -/
def bump (name : String) : Tally → Tally
  | [] => [(name, 1)]
  | (key, n) :: rest => if key = name then (key, n + 1) :: rest else (key, n) :: bump name rest

def count (t : Tally) (name : String) : Nat := (t.lookup name).getD 0

/-- Sum over all names. -/
def total (t : Tally) : Nat := t.foldr (fun entry sum => entry.2 + sum) 0

theorem total_bump (name : String) (t : Tally) : total (bump name t) = total t + 1 := by
  induction t with
  | nil => rfl
  | cons entry rest ih =>
    obtain ⟨key, n⟩ := entry
    simp only [total] at ih
    by_cases h : key = name <;> simp [bump, total, h, ih] <;> omega

theorem count_bump (name other : String) (t : Tally) :
    count (bump name t) other = count t other + if other = name then 1 else 0 := by
  induction t with
  | nil =>
    by_cases h : other = name
    · simp [bump, count, h]
    · simp [bump, count, h, List.lookup_cons, beq_false_of_ne h]
  | cons entry rest ih =>
    obtain ⟨key, n⟩ := entry
    simp only [count] at ih
    by_cases h : key = name <;> by_cases e : other = key
    · subst e; simp [bump, count, h]
    · subst h; simp [bump, count, List.lookup_cons, beq_false_of_ne e, e]
    · subst e; simp [bump, count, h]
    · simp [bump, count, h, List.lookup_cons, beq_false_of_ne e, ih]

/-- Most frequent first, equally frequent ones by name. -/
def byFrequency (t : Tally) : Tally :=
  t.mergeSort fun a b => b.2 < a.2 || (a.2 == b.2 && !(b.1 < a.1))

def byName (t : Tally) : Tally := t.mergeSort fun a b => !(b.1 < a.1)

def lines (t : Tally) : List String := t.map fun (name, n) => "    " ++ name ++ ": " ++ toString n

end Tally

structure Journal where
  current : Option String := none
  functions : Nat := 0
  blocks : Nat := 0
  instructions : Nat := 0
  mnemonics : Tally := []
  largestName : String := ""
  largestSize : Nat := 0
  spills : Nat := 0
  reloads : Nat := 0
  eliminated : Nat := 0
  removals : Nat := 0
  rules : Tally := []
  deriving DecidableEq, Repr

namespace Journal

/-- Work on function `name` begins. -/
def enter (j : Journal) (name : String) : Journal := { j with current := some name }

/-- A function of `size` instructions was selected; the first of the largest ones is kept. -/
def recordFunction (j : Journal) (name : String) (size : Nat) : Journal :=
  let j := { j with functions := j.functions + 1 }
  if j.largestSize < size then { j with largestName := name, largestSize := size } else j

def recordBlock (j : Journal) : Journal := { j with blocks := j.blocks + 1 }

def recordInstruction (j : Journal) (mnemonic : String) : Journal :=
  { j with instructions := j.instructions + 1, mnemonics := j.mnemonics.bump mnemonic }

def recordSpill (j : Journal) : Journal := { j with spills := j.spills + 1 }

def recordReload (j : Journal) : Journal := { j with reloads := j.reloads + 1 }

def recordEliminated (j : Journal) : Journal := { j with eliminated := j.eliminated + 1 }

/-- A peephole rule removed an instruction. -/
def recordRemoval (j : Journal) (rule : String) : Journal :=
  { j with removals := j.removals + 1, rules := j.rules.bump rule }

/-- How many mnemonics a report breaks down. -/
def shownMnemonics : Nat := 10

def lines (j : Journal) : List String :=
  ["Compilation Session Statistics:",
   "  Functions lowered: " ++ toString j.functions,
   "  Blocks lowered: " ++ toString j.blocks,
   "  Instructions selected: " ++ toString j.instructions,
   "  Spills: " ++ toString j.spills,
   "  Reloads: " ++ toString j.reloads,
   "  Moves eliminated: " ++ toString j.eliminated,
   "  Peephole removals: " ++ toString j.removals] ++
  (if j.largestName.isEmpty then []
   else ["  Largest function: " ++ j.largestName ++ " (" ++ toString j.largestSize ++
     " instructions)"]) ++
  (if j.mnemonics.isEmpty then []
   else "  Instruction breakdown:" :: Tally.lines (j.mnemonics.byFrequency.take shownMnemonics)) ++
  (if j.rules.isEmpty then [] else "  Peephole rules:" :: j.rules.byName.lines)

/-- The report. -/
def text (j : Journal) : String := String.join (j.lines.map (· ++ "\n"))

end Journal

end Codegen86
