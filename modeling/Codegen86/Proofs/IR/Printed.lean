import Codegen86.IR.Printer
import Codegen86.IR.Resolve
import Codegen86.Proofs.IR.Spelling
import Mathlib.Data.List.TakeWhile
/-!
# Reading printed functions line by line

What a printed line is read as.  The outline of a printed function is known (`Function.outlined`): reading
the lines of a function that can be read again adds exactly this outline (`Reader.feed_function`).
-/

set_option autoImplicit false

namespace Codegen86.IR

open Text

namespace Function

/-- The name that a value has in print, without its sign. -/
def label (f : Function) (v : ValueId) : String := (f.nameOf? v).getD (toString v)

/-- The words of an operation behind its mnemonic. -/
def wordsOf (f : Function) : Op → List String
  | .arg index => [toString index]
  | .imm value => [value.text]
  | .float value => [value.text]
  | .alloca bytes => [toString bytes]
  | .load addr => [f.display addr]
  | .store addr value => [f.display addr, f.display value]
  | .binary _ lhs rhs => [f.display lhs, f.display rhs]
  | .symbol name => ["@" ++ name]
  | .call (.direct name) args => ("@" ++ name) :: args.map f.display
  | .call (.indirect target) args => f.display target :: args.map f.display
  | .branch cond onTrue onFalse => [f.display cond, f.displayBlock onTrue, f.displayBlock onFalse]
  | .jump target => [f.displayBlock target]
  | .ret => []
  | .retValue value => [f.display value]

end Function

/-- What an operation carries besides operands and successors can be read again. -/
def Op.Spellable : Op → Prop
  | .arg _ => False
  | .float value => (Binary64.read? value.text.toList).isSome = true
  | .alloca bytes => bytes < UInt64.size
  | .symbol name => (∀ c ∈ name.toList, Solid c) ∧ name.toList.getLast? ≠ some ':'
  | .call (.direct name) _ => isName name.toList = true
  | _ => True

/-- A value that can be read. -/
def Function.Results (f : Function) (v : ValueId) : Prop := ∃ op, f.op? v = some op ∧ op.hasResult = true

/-- An operation of a function that can be read again. -/
structure Function.Prints (f : Function) (op : Op) : Prop where
  spellable : op.Spellable
  operands : ∀ v ∈ op.operands, f.Results v
  successors : ∀ b ∈ op.successors, b < f.blocks.length

/-- A function that can be read again: names are identifiers, values are numbered as they are read, and no
two values have one name in print. -/
structure Function.Readable (f : Function) : Prop where
  name : isName f.name.toList = true
  blocks : ∀ b ∈ f.blocks, isName b.name.toList = true
  distinct : (f.blocks.map (·.name)).Nodup
  arity : f.arity ≤ f.values.size
  args : ∀ i < f.arity, f.op? i = some (.arg i)
  consecutive : f.placed = List.range' f.arity (f.values.size - f.arity)
  label : ∀ v, f.Results v → isName (f.label v).toList = true
  injective : ∀ v w, f.Results v → f.Results w → f.label v = f.label w → v = w
  prints : ∀ v ∈ f.placed, ∃ op, f.op? v = some op ∧ f.Prints op

/-! ## Words of operations -/

section

variable {f : Function} {op : Op} {v : ValueId}

theorem spelled_display (named : isName (f.label v).toList = true) : Spelled (f.display v).toList := by
  have : f.display v = "%" ++ f.label v := rfl
  rw [this, String.toList_append]
  exact spelled_cons (by decide) named

theorem isBlank_space : isBlank ' ' = true := by decide

theorem space_gap : IsGap [' '] := .of_all (by simp) (by decide)

theorem comma_gap : IsGap [',', ' '] := .of_all (by simp) (by decide)

theorem open_gap : IsGap ['('] := .of_all (by simp) (by decide)

theorem spelled_symbol {name : String}
    (spellable : (∀ c ∈ name.toList, Solid c) ∧ name.toList.getLast? ≠ some ':') : Spelled ('@' :: name.toList) where
  some := List.cons_ne_nil _ _
  solid := by
    intro c mem
    rcases List.mem_cons.mp mem with rfl | mem
    · exact (solid_of_isWordChar (by decide)).1
    · exact spellable.1 c mem
  last := by
    cases last : name.toList.getLast? with
    | none => simp [List.getLast?_cons, last]
    | some c =>
      rw [last] at spellable
      simpa [List.getLast?_cons, last] using spellable.2

theorem isName_mnemonic (op : Op) : isName op.mnemonic.toList = true := by
  have all : ∀ name ∈ ["arg", "ldi", "ldf", "alloca", "ld", "st", "sym", "call", "br", "jmp", "ret", "retr"],
      isName name.toList = true := by decide
  have binary : ∀ op ∈ BinaryOp.all, isName op.mnemonic.toList = true := by decide
  cases op with
  | binary op l r => exact binary op (BinaryOp.mem_all op)
  | _ => exact all _ (by simp [Op.mnemonic])

theorem written_mnemonic (op : Op) : Written op.mnemonic.toList [op.mnemonic.toList] :=
  (spelled_of_isName (isName_mnemonic op)).written

theorem written_displayAll {first : ValueId} {values : List ValueId}
    (named : ∀ v ∈ first :: values, isName (f.label v).toList = true) :
    Written (f.displayAll (first :: values)).toList ((first :: values).map fun v => (f.display v).toList) := by
  induction values generalizing first with
  | nil => 
    have := (spelled_display (named first List.mem_cons_self)).written
    simpa [Function.displayAll] using this
  | cons second values ih =>
    have one := (spelled_display (named first List.mem_cons_self)).written
    have all := one.append comma_gap (ih fun v mem => named v (List.mem_cons_of_mem _ mem))
    have split : (f.displayAll (first :: second :: values)).toList =
        (f.display first).toList ++ [',', ' '] ++ (f.displayAll (second :: values)).toList := by
      simp [Function.displayAll, String.toList_intercalate]
    rw [split]
    exact all

/-- Arguments of a call, with the parenthesis that closes them. -/
theorem written_arguments {values : List ValueId} (named : ∀ v ∈ values, isName (f.label v).toList = true) :
    Written ((f.displayAll values).toList ++ [')']) (values.map fun v => (f.display v).toList) := by
  cases values with
  | nil =>
    have alone : Written [')'] [] := ⟨by decide, by simp, ')', rfl, by decide, by decide⟩
    simpa [Function.displayAll] using alone
  | cons first values => exact (written_displayAll named).close

theorem displayBlock_of_lt {id : BlockId} (inside : id < f.blocks.length) :
    ∃ b ∈ f.blocks, f.displayBlock id = b.name := by
  refine ⟨f.blocks[id], List.getElem_mem inside, ?_⟩
  rw [Function.displayBlock, List.getElem?_eq_getElem inside]

theorem Function.Readable.written (h : f.Readable) (prints : f.Prints op) :
    Written (f.displayOp op).toList ((op.mnemonic :: f.wordsOf op).map String.toList) := by
  have value : ∀ v ∈ op.operands, Written (f.display v).toList [(f.display v).toList] := fun v mem =>
    (spelled_display (h.label v (prints.operands v mem))).written
  have target : ∀ b ∈ op.successors, Written (f.displayBlock b).toList [(f.displayBlock b).toList] := by
    intro b mem
    obtain ⟨block, mem, same⟩ := displayBlock_of_lt (prints.successors b mem)
    rw [same]
    exact (spelled_of_isName (h.blocks block mem)).written
  have written {text : List Char} {words : List (List Char)} (rest : Written text words) :=
    (written_mnemonic op).append space_gap rest
  have spellable := prints.spellable
  cases op with
  | arg index => cases spellable
  | imm w => simpa [Function.displayOp, Function.wordsOf, Op.mnemonic] using written (spelled_word w).written
  | float x => simpa [Function.displayOp, Function.wordsOf, Op.mnemonic] using written (spelled_float x).written
  | alloca bytes =>
    simpa [Function.displayOp, Function.wordsOf, Op.mnemonic] using written (spelled_toString bytes).written
  | load addr =>
    simpa [Function.displayOp, Function.wordsOf, Op.mnemonic] using written (value addr List.mem_cons_self)
  | store addr v =>
    have := written ((value addr List.mem_cons_self).append comma_gap (value v (by simp [Op.operands])))
    simpa [Function.displayOp, Function.wordsOf, Op.mnemonic, Function.displayAll] using this
  | binary op lhs rhs =>
    have := written ((value lhs List.mem_cons_self).append comma_gap (value rhs (by simp [Op.operands])))
    simpa [Function.displayOp, Function.wordsOf, Op.mnemonic, Function.displayAll] using this
  | symbol name =>
    have := written (spelled_symbol spellable).written
    simpa [Function.displayOp, Function.wordsOf, Op.mnemonic] using this
  | call callee args =>
    cases callee with
    | direct name =>
      have arguments : Written ((f.displayAll args).toList ++ [')']) (args.map fun v => (f.display v).toList) :=
        written_arguments fun v mem => h.label v (prints.operands v mem)
      have := written ((spelled_cons (c := '@') (by decide) spellable).written.append open_gap arguments)
      simpa [Function.displayOp, Function.wordsOf, Op.mnemonic, Function.comp_def] using this
    | indirect callee =>
      have arguments : Written ((f.displayAll args).toList ++ [')']) (args.map fun v => (f.display v).toList) :=
        written_arguments fun v mem => h.label v (prints.operands v (List.mem_cons_of_mem _ mem))
      have := written ((value callee List.mem_cons_self).append open_gap arguments)
      simpa [Function.displayOp, Function.wordsOf, Op.mnemonic, Function.comp_def] using this
  | branch cond onTrue onFalse =>
    have := written (((value cond List.mem_cons_self).append comma_gap (target onTrue List.mem_cons_self)).append
      comma_gap (target onFalse (by simp [Op.successors])))
    simpa [Function.displayOp, Function.wordsOf, Op.mnemonic] using this
  | jump b =>
    simpa [Function.displayOp, Function.wordsOf, Op.mnemonic] using written (target b List.mem_cons_self)
  | ret => simpa [Function.displayOp, Function.wordsOf, Op.mnemonic] using written_mnemonic .ret
  | retValue v =>
    simpa [Function.displayOp, Function.wordsOf, Op.mnemonic] using written (value v List.mem_cons_self)

end

/-! ## Outlines of printed functions -/

namespace Function

/-- What the line of a value is read as. -/
def statement (f : Function) (line : Nat) (v : ValueId) : Statement :=
  let op := (f.op? v).getD .ret
  { line
    result := if op.hasResult then some (f.label v) else none
    mnemonic := op.mnemonic
    operands := (f.wordsOf op).map String.toList }

def statements (f : Function) (line : Nat) : List ValueId → List Statement
  | [] => []
  | v :: rest => f.statement line v :: f.statements (line + 1) rest

/-- What the lines of blocks are read as. -/
def outlinedBlocks (f : Function) (line : Nat) : List Block → List BlockOutline
  | [] => []
  | block :: rest =>
    { name := block.name, line, body := f.statements (line + 1) block.body } ::
      f.outlinedBlocks (line + 1 + block.body.length) rest

/-- What the lines of a function are read as. -/
def outlined (f : Function) (line : Nat) : FunctionOutline where
  name := f.name
  line
  params := f.args.map f.label
  blocks := f.outlinedBlocks (line + 1) f.blocks

end Function

/-- An indented text that neither opens nor closes a function and is no label is a statement. -/
theorem Line.of_statement {indent content : List Char} (blank : ∀ c ∈ indent, isBlank c = true ∧ c ≠ ';')
    (clean : ∀ c ∈ content, c ≠ ';')
    (first : ∃ c, content.head? = some c ∧ isBlank c = false ∧ c ≠ 'f' ∧ c ≠ '\x7d')
    (last : ∃ c, content.getLast? = some c ∧ isBlank c = false ∧ c ≠ ':') :
    Line.of (indent ++ content) = .statement content := by
  obtain ⟨c, head, solid, open_, close⟩ := first
  obtain ⟨d, last, solid', label⟩ := last
  have whole : (indent ++ content).takeWhile (· != ';') = indent ++ content := by
    refine List.takeWhile_eq_self_iff.mpr fun e mem => ?_
    rcases List.mem_append.mp mem with mem | mem
    · exact bne_iff_ne.mpr (blank e mem).2
    · exact bne_iff_ne.mpr (clean e mem)
  have trimmed : trim (indent ++ content) = content := by
    have : trim (indent ++ content ++ []) = content := trim_between (fun e mem => (blank e mem).1) (by simp)
      (fun e is => by rw [head] at is; cases is; exact solid) fun e is => by rw [last] at is; cases is; exact solid'
    rwa [List.append_nil] at this
  obtain ⟨rest, rfl⟩ : ∃ rest, content = c :: rest := by
    cases content with
    | nil => cases head
    | cons e rest => cases head; exact ⟨rest, rfl⟩
  unfold Line.of
  rw [whole, trimmed]
  have header : dropLead? ['f', 'n', ' '] (c :: rest) = none := by simp [dropLead?, Ne.symm open_]
  have closing : c :: rest ≠ ['\x7d'] := fun same => close (List.cons.inj same).1
  have colon : dropLast? ':' (c :: rest) = none := by simp [dropLast?, last, label]
  simp [header, closing, colon]

section

variable {f : Function} {op : Op} {v : ValueId} {line : Nat}

/-- The line of a value without its indentation. -/
def Function.content (f : Function) (v : ValueId) (op : Op) : List Char :=
  (if op.hasResult then (f.display v).toList ++ [' ', '=', ' '] else []) ++ (f.displayOp op).toList

theorem toList_display (f : Function) (v : ValueId) : (f.display v).toList = '%' :: (f.label v).toList := by
  have : f.display v = "%" ++ f.label v := rfl
  rw [this, String.toList_append]
  rfl

theorem equals_not_mem_display (named : isName (f.label v).toList = true) : '=' ∉ (f.display v).toList := by
  rw [toList_display]
  intro mem
  rcases List.mem_cons.mp mem with same | mem
  · cases same
  · exact not_mem_of_isName named (by decide) mem

theorem Function.Readable.equals_not_mem (h : f.Readable) (prints : f.Prints op) (result : op.hasResult = false) :
    '=' ∉ (f.displayOp op).toList := by
  have value : ∀ v ∈ op.operands, '=' ∉ (f.display v).toList := fun v mem =>
    equals_not_mem_display (h.label v (prints.operands v mem))
  have target : ∀ b ∈ op.successors, '=' ∉ (f.displayBlock b).toList := by
    intro b mem
    obtain ⟨block, mem, same⟩ := displayBlock_of_lt (prints.successors b mem)
    rw [same]
    exact not_mem_of_isName (h.blocks block mem) (by decide)
  cases op with
  | store addr v =>
    simpa [Function.displayOp, Function.displayAll] using
      And.intro (value addr List.mem_cons_self) (value v (by simp [Op.operands]))
  | branch cond onTrue onFalse =>
    simpa [Function.displayOp] using And.intro (value cond List.mem_cons_self)
      (And.intro (target onTrue List.mem_cons_self) (target onFalse (by simp [Op.successors])))
  | jump b => simpa [Function.displayOp] using target b List.mem_cons_self
  | ret => simp [Function.displayOp]
  | retValue v => simpa [Function.displayOp] using value v List.mem_cons_self
  | _ => cases result

theorem Function.Readable.content_clean (h : f.Readable) (found : f.op? v = some op) (prints : f.Prints op) :
    ∀ c ∈ f.content v op, c ≠ ';' ∧ c ≠ '\n' := by
  intro c mem
  unfold Function.content at mem
  rcases List.mem_append.mp mem with mem | mem
  · split at mem
    · rename_i result
      rcases List.mem_append.mp mem with mem | mem
      · exact ((spelled_display (h.label v ⟨op, found, result⟩)).solid c mem).2
      · have plain : ∀ c ∈ [' ', '=', ' '], c ≠ ';' ∧ c ≠ '\n' := by simp
        exact plain c mem
    · cases mem
  · exact (h.written prints).clean c mem

/-- The content of a statement's line is a statement. -/
theorem Function.Readable.stated (h : f.Readable) (found : f.op? v = some op) (prints : f.Prints op) :
    Line.of ([' ', ' ', ' ', ' '] ++ f.content v op) = .statement (f.content v op) := by
  have written := h.written prints
  obtain ⟨c, last, good⟩ := written.last
  refine Line.of_statement (by simp [isBlank_space]) (fun d mem => (h.content_clean found prints d mem).1) ?_ ⟨c, ?_, good⟩
  · unfold Function.content
    cases result : op.hasResult with
    | true => exact ⟨'%', by simp [toList_display], by decide, by decide, by decide⟩
    | false =>
      cases op with
      | store addr v => exact ⟨'s', by simp [Function.displayOp], by decide, by decide, by decide⟩
      | branch cond onTrue onFalse => exact ⟨'b', by simp [Function.displayOp], by decide, by decide, by decide⟩
      | jump b => exact ⟨'j', by simp [Function.displayOp], by decide, by decide, by decide⟩
      | ret | retValue v => exact ⟨'r', by simp [Function.displayOp], by decide, by decide, by decide⟩
      | _ => cases result
  · rw [Function.content, List.getLast?_append, last]
    rfl

theorem Function.Readable.reads (h : f.Readable) (found : f.op? v = some op) (prints : f.Prints op) :
    Statement.read line (f.content v op) = .ok (f.statement line v) := by
  have written := h.written prints
  unfold Function.content Function.statement
  rw [found, Option.getD_some]
  dsimp only
  cases result : op.hasResult with
  | true =>
    have named := h.label v ⟨op, found, result⟩
    have plain := equals_not_mem_display named
    have cut : cutAt '=' ((f.display v).toList ++ [' ', '=', ' '] ++ (f.displayOp op).toList) =
        some ((f.display v).toList ++ [' '], ' ' :: (f.displayOp op).toList) :=
      cutAt_eq.mpr ⟨by simp, by simp [plain]⟩
    have trimmed : trim ((f.display v).toList ++ [' ']) = '%' :: (f.label v).toList := by
      have spelled := spelled_display named
      have between : trim ([] ++ (f.display v).toList ++ [' ']) = (f.display v).toList := trim_between (by simp)
        (by simp [isBlank_space]) (fun d is => isBlank_of_solid (spelled.solid d (List.mem_of_head? is)))
        fun d is => isBlank_of_solid (spelled.solid d (List.mem_of_getLast? is))
      rw [List.nil_append] at between
      rw [between, toList_display]
    rw [if_pos rfl, if_pos rfl, Statement.read_cut cut, trimmed, valueName_of named]
    have words := fields_gap (p := isSeparator) (show ∀ c ∈ [' '], isSeparator c = true from List.all_eq_true.mp (by decide)) (f.displayOp op).toList
    rw [List.singleton_append, written.words] at words
    rw [words]
    simp [bind, Except.bind, Statement.ofWords]
  | false =>
    have uncut := cutAt_none (h.equals_not_mem prints result)
    rw [if_neg (by simp), if_neg (by simp), List.nil_append, Statement.read_uncut uncut, written.words]
    simp [Statement.ofWords]

/-! ## Lines that are no statements -/

theorem Line.of_label {name : List Char} (named : isName name = true) : Line.of (name ++ [':']) = .label name := by
  have plain : ∀ c ∈ name, Solid c := (spelled_of_isName named).solid
  obtain ⟨first, rest, rfl⟩ := List.exists_cons_of_ne_nil (ne_nil_of_isName named)
  have whole : (first :: rest ++ [':']).takeWhile (· != ';') = first :: rest ++ [':'] := by
    refine List.takeWhile_eq_self_iff.mpr fun c mem => ?_
    rcases List.mem_append.mp mem with mem | mem
    · exact bne_iff_ne.mpr (plain c mem).2.1
    · obtain rfl := List.mem_singleton.mp mem
      decide
  have trimmed : trim (first :: rest ++ [':']) = first :: rest ++ [':'] := trim_of_plain fun c mem => by
    rcases List.mem_append.mp mem with mem | mem
    · exact isBlank_of_solid (plain c mem)
    · obtain rfl := List.mem_singleton.mp mem
      decide
  have header : dropLead? ['f', 'n', ' '] (first :: rest ++ [':']) = none := by
    cases lead : dropLead? ['f', 'n', ' '] (first :: rest ++ [':']) with
    | none => rfl
    | some text =>
      have space : ' ' ∈ first :: rest ++ [':'] := by
        rw [dropLead?_eq.mp lead]
        simp
      rcases List.mem_append.mp space with mem | mem
      · exact absurd (isBlank_of_solid (plain _ mem)) (by decide)
      · simp at mem
  have closing : first :: rest ++ [':'] ≠ ['\x7d'] := by simp
  have label : dropLast? ':' (first :: rest ++ [':']) = some (first :: rest) := dropLast?_eq.mpr rfl
  unfold Line.of
  rw [whole, trimmed]
  simp only [header, label]
  simp

/-- A blank in front of a text is trimmed off its first piece. -/
theorem map_trim_split {p : Char → Bool} {c : Char} (plain : p c = false) (blank : isBlank c = true) (cs : List Char) :
    (split p (c :: cs)).map trim = (split p cs).map trim := by
  rw [split_cons, if_neg (by simp [plain])]
  cases pieces : split p cs with
  | nil => exact absurd pieces (split_ne_nil cs)
  | cons first others =>
    have : trim (c :: first) = trim first := by rw [trim, List.dropWhile_cons_of_pos blank, trim]
    rw [consFirst, List.map_cons, List.map_cons, this]

/-- A value alone is one parameter. -/
theorem trimmed_param (named : isName (f.label v).toList = true) :
    (split (· == ',') (f.display v).toList).map trim = [(f.display v).toList] := by
  have spelled := spelled_display named
  have plain : ∀ c ∈ (f.display v).toList, (c == ',') = false := fun c mem => by
    have solid := (spelled.solid c mem).1
    simp only [isSeparator, Bool.or_eq_false_iff] at solid
    exact solid.1.1.2
  have whole : trim (f.display v).toList = (f.display v).toList :=
    trim_of_plain fun c mem => isBlank_of_solid (spelled.solid c mem)
  rw [split_plain plain, List.map_singleton, whole]

theorem trimmed_params {first : ValueId} {values : List ValueId}
    (named : ∀ v ∈ first :: values, isName (f.label v).toList = true) :
    (split (· == ',') (f.displayAll (first :: values)).toList).map trim =
      (first :: values).map fun v => (f.display v).toList := by
  induction values generalizing first with
  | nil =>
    have alone : (f.displayAll [first]).toList = (f.display first).toList := by simp [Function.displayAll]
    rw [alone, trimmed_param (named first List.mem_cons_self)]
    rfl
  | cons second values ih =>
    have apart : (f.displayAll (first :: second :: values)).toList =
        (f.display first).toList ++ ',' :: ' ' :: (f.displayAll (second :: values)).toList := by
      simp [Function.displayAll, String.toList_intercalate]
    rw [apart, split_append rfl, List.map_append, trimmed_param (named first List.mem_cons_self),
      map_trim_split rfl (by decide), ih fun v mem => named v (List.mem_cons_of_mem first mem)]
    rfl

theorem readParams_displayAll {values : List ValueId} (named : ∀ v ∈ values, isName (f.label v).toList = true) :
    readParams line (f.displayAll values).toList = .ok (values.map f.label) := by
  have words : ((split (· == ',') (f.displayAll values).toList).map trim).filter (fun p => !p.isEmpty) =
      values.map fun v => (f.display v).toList := by
    cases values with
    | nil => rfl
    | cons first values =>
      rw [trimmed_params named]
      refine List.filter_eq_self.mpr fun word mem => ?_
      obtain ⟨v, mem, rfl⟩ := List.mem_map.mp mem
      simp [toList_display]
  rw [readParams, words]
  clear words
  induction values with
  | nil => rfl
  | cons v values ih =>
    rw [List.map_cons, List.mapM_cons, toList_display, valueName_of (named v List.mem_cons_self),
      ih fun v mem => named v (List.mem_cons_of_mem _ mem)]
    rfl

/-- The text of a header behind `fn`. -/
def Function.signature (f : Function) : List Char :=
  f.name.toList ++ '(' :: (f.displayAll f.args).toList ++ [')', ' ', '\x7b']

theorem Function.Readable.results_arg (h : f.Readable) (arg : v ∈ f.args) : f.Results v :=
  ⟨.arg v, h.args v (List.mem_range.mp arg), rfl⟩

theorem Function.Readable.read_signature (h : f.Readable) :
    FunctionOutline.read line f.signature = .ok { name := f.name, line, params := f.args.map f.label } := by
  have named := h.name
  have plain : ∀ c ∈ f.name.toList, Solid c := (spelled_of_isName named).solid
  have front : ∀ rest c, (f.name.toList ++ rest).head? = some c → isBlank c = false := by
    intro rest c is
    obtain ⟨first, others, same⟩ := List.exists_cons_of_ne_nil (ne_nil_of_isName named)
    rw [same] at is plain
    cases is
    exact isBlank_of_solid (plain _ List.mem_cons_self)
  have trimmed : trim f.signature = f.signature := by
    refine trim_self (fun c is => ?_) fun c is => ?_
    · rw [Function.signature, List.append_assoc] at is
      exact front _ c is
    · rw [Function.signature, List.getLast?_append] at is
      cases is
      decide
  have brace : dropLast? '\x7b' f.signature =
      some (f.name.toList ++ '(' :: (f.displayAll f.args).toList ++ [')'] ++ [' ']) :=
    dropLast?_eq.mpr (by simp [Function.signature])
  have inner : trim (f.name.toList ++ '(' :: (f.displayAll f.args).toList ++ [')'] ++ [' ']) =
      f.name.toList ++ '(' :: (f.displayAll f.args).toList ++ [')'] := by
    have between : trim ([] ++ (f.name.toList ++ '(' :: (f.displayAll f.args).toList ++ [')']) ++ [' ']) =
        f.name.toList ++ '(' :: (f.displayAll f.args).toList ++ [')'] :=
      trim_between (by simp) (by simp [isBlank_space]) (fun c is => by
          rw [List.append_assoc] at is
          exact front _ c is)
        fun c is => by
          rw [List.getLast?_append] at is
          cases is
          decide
    rwa [List.nil_append] at between
  have opening : cutAt '(' (f.name.toList ++ '(' :: (f.displayAll f.args).toList ++ [')']) =
      some (f.name.toList, (f.displayAll f.args).toList ++ [')']) :=
    cutAt_eq.mpr ⟨by simp, not_mem_of_isName named (by decide)⟩
  have closing : dropLast? ')' ((f.displayAll f.args).toList ++ [')']) = some (f.displayAll f.args).toList :=
    dropLast?_eq.mpr rfl
  have name : trim f.name.toList = f.name.toList := trim_of_plain fun c mem => isBlank_of_solid (plain c mem)
  have params : readParams line (f.displayAll f.args).toList = .ok (f.args.map f.label) :=
    readParams_displayAll fun v mem => h.label v (h.results_arg mem)
  rw [FunctionOutline.read, trimmed, brace]
  simp only [inner, opening, closing, name, named, params, if_true, String.ofList_toList]
  rfl

theorem Line.of_header {text : List Char} (clean : ∀ c ∈ text, c ≠ ';') (last : text.getLast? = some '\x7b') :
    Line.of ('f' :: 'n' :: ' ' :: text) = .header text := by
  have whole : ('f' :: 'n' :: ' ' :: text).takeWhile (· != ';') = 'f' :: 'n' :: ' ' :: text := by
    refine List.takeWhile_eq_self_iff.mpr fun c mem => ?_
    rcases List.mem_append.mp (show c ∈ ['f', 'n', ' '] ++ text from mem) with mem | mem
    · have lead : ∀ c ∈ ['f', 'n', ' '], (c != ';') = true := by simp
      exact lead c mem
    · exact bne_iff_ne.mpr (clean c mem)
  have trimmed : trim ('f' :: 'n' :: ' ' :: text) = 'f' :: 'n' :: ' ' :: text := by
    refine trim_self (fun c is => ?_) fun c is => ?_
    · cases is
      decide
    · have whole_last : (['f', 'n', ' '] ++ text).getLast? = some c := is
      rw [List.getLast?_append, last] at whole_last
      cases whole_last
      decide
  unfold Line.of
  rw [whole, trimmed]
  simp [dropLead?]

theorem Function.Readable.signature_clean (h : f.Readable) : ∀ c ∈ f.signature, c ≠ ';' ∧ c ≠ '\n' := by
  have params : ∀ c ∈ (f.displayAll f.args).toList, c ≠ ';' ∧ c ≠ '\n' := by
    cases args : f.args with
    | nil => exact fun c mem => by cases mem
    | cons first rest =>
      exact (written_displayAll fun v mem => h.label v (h.results_arg (args ▸ mem))).clean
  have close : ∀ c ∈ [')', ' ', '\x7b'], c ≠ ';' ∧ c ≠ '\n' := by simp
  intro c mem
  rcases List.mem_append.mp mem with mem | mem
  · rcases List.mem_append.mp mem with mem | mem
    · exact ((spelled_of_isName h.name).solid c mem).2
    · rcases List.mem_cons.mp mem with rfl | mem
      · decide
      · exact params c mem
  · exact close c mem

/-! ## Reading a function -/

theorem Reader.feedAll_append (r : Reader) (first : Nat) (before after : List (List Char)) :
    r.feedAll first (before ++ after) =
      r.feedAll first before >>= fun r => r.feedAll (first + before.length) after := by
  induction before generalizing r first with
  | nil => rfl
  | cons raw before ih =>
    rw [List.cons_append, Reader.feedAll, Reader.feedAll]
    cases r.feed first (Line.of raw) with
    | error e => rfl
    | ok r =>
      have next := ih r (first + 1)
      rw [Nat.add_assoc, Nat.add_comm 1] at next
      exact next

/-- A reader inside a function that has these blocks so far. -/
def Reader.inside (closed : List FunctionOutline) (f : FunctionOutline) (blocks : List BlockOutline) : Reader where
  closed
  opened := some { f with blocks }

variable {closed : List FunctionOutline} {o : FunctionOutline} {before : List BlockOutline}

theorem Function.displayLine (found : f.op? v = some op) :
    (f.displayLine? v).map String.toList = some ([' ', ' ', ' ', ' '] ++ f.content v op) := by
  rw [Function.displayLine?, found, Function.content]
  cases result : op.hasResult <;> simp [result]

theorem Function.Readable.feed_statements (h : f.Readable) {values : List ValueId}
    (listed : ∀ v ∈ values, v ∈ f.placed) (b : BlockOutline) :
    (Reader.inside closed o (before ++ [b])).feedAll line ((values.filterMap f.displayLine?).map String.toList) =
      .ok (.inside closed o (before ++ [{ b with body := b.body ++ f.statements line values }])) := by
  induction values generalizing line b with
  | nil =>
    simp [Reader.feedAll, Function.statements]
  | cons v values ih =>
    obtain ⟨op, found, prints⟩ := h.prints v (listed v List.mem_cons_self)
    obtain ⟨text, shown, same⟩ := Option.map_eq_some_iff.mp (Function.displayLine found)
    rw [List.filterMap_cons_some shown, List.map_cons, same, Reader.feedAll, h.stated found prints, Reader.feed,
      h.reads found prints]
    have added : (Reader.inside closed o (before ++ [b])).opened.bind (·.addStatement? (f.statement line v)) =
        some { o with blocks := before ++ [{ b with body := b.body ++ [f.statement line v] }] } := by
      simp [Reader.inside, FunctionOutline.addStatement?]
    have rest := @ih (line + 1) (fun v mem => listed v (List.mem_cons_of_mem _ mem))
      { b with body := b.body ++ [f.statement line v] }
    rw [List.append_assoc] at rest
    simp only [bind, Except.bind, added]
    exact rest

theorem Function.Readable.length_displayBody (h : f.Readable) {block : Block} (mem : block ∈ f.blocks) :
    (f.displayBody block).length = block.body.length + 1 := by
  have all : ∀ v ∈ block.body, (f.displayLine? v).isSome = true := by
    intro v body
    obtain ⟨op, found, -⟩ := h.prints v (List.mem_flatMap.mpr ⟨block, mem, body⟩)
    simp [Function.displayLine?, found]
  rw [Function.displayBody, List.length_cons, List.length_filterMap_eq_countP, List.countP_eq_length.mpr all]

theorem Function.Readable.feed_block (h : f.Readable) {block : Block} (mem : block ∈ f.blocks) :
    (Reader.inside closed o before).feedAll line ((f.displayBody block).map String.toList) =
      .ok (.inside closed o (before ++ [{
        name := block.name, line, body := f.statements (line + 1) block.body }])) := by
  have named := h.blocks block mem
  have label : (block.name ++ ":").toList = block.name.toList ++ [':'] := by rw [String.toList_append]; rfl
  rw [Function.displayBody, List.map_cons, label, Reader.feedAll, Line.of_label named]
  have opened : (Reader.inside closed o before).feed line (.label block.name.toList) =
      .ok (.inside closed o (before ++ [{ name := block.name, line }])) := by
    simp [Reader.inside, Reader.feed, named]
  rw [opened]
  exact h.feed_statements (fun v body => List.mem_flatMap.mpr ⟨block, mem, body⟩) _

theorem Function.Readable.feed_blocks (h : f.Readable) {blocks : List Block} (sub : ∀ b ∈ blocks, b ∈ f.blocks) :
    (Reader.inside closed o before).feedAll line ((blocks.flatMap f.displayBody).map String.toList) =
      .ok (.inside closed o (before ++ f.outlinedBlocks line blocks)) := by
  induction blocks generalizing line before with
  | nil => simp [Reader.feedAll, Function.outlinedBlocks]
  | cons block blocks ih =>
    have mem := sub block List.mem_cons_self
    rw [List.flatMap_cons, List.map_append, Reader.feedAll_append, h.feed_block mem, List.length_map,
      h.length_displayBody mem]
    have next : line + (block.body.length + 1) = line + 1 + block.body.length := by omega
    have rest := @ih (line + 1 + block.body.length) (before ++ [{
      name := block.name, line, body := f.statements (line + 1) block.body }])
      fun b mem => sub b (List.mem_cons_of_mem _ mem)
    rw [List.append_assoc] at rest
    rw [next]
    exact rest

theorem Function.Readable.lines_clean (h : f.Readable) : ∀ text ∈ f.lines, '\n' ∉ text.toList := by
  intro text mem
  rcases List.mem_append.mp mem with mem | mem
  · rcases List.mem_cons.mp mem with rfl | mem
    · have header : ("fn " ++ f.name ++ "(" ++ f.displayAll f.args ++ ") \x7b").toList = ['f', 'n', ' '] ++ f.signature := by
        simp [Function.signature]
      rw [header]
      intro mem
      rcases List.mem_append.mp mem with mem | mem
      · revert mem
        decide
      · exact (h.signature_clean _ mem).2 rfl
    · obtain ⟨block, listed, mem⟩ := List.mem_flatMap.mp mem
      rcases List.mem_cons.mp mem with rfl | mem
      · rw [String.toList_append]
        intro mem
        rcases List.mem_append.mp mem with mem | mem
        · exact not_mem_of_isName (h.blocks block listed) (by decide) mem
        · revert mem
          decide
      · obtain ⟨v, body, shown⟩ := List.mem_filterMap.mp mem
        obtain ⟨op, found, prints⟩ := h.prints v (List.mem_flatMap.mpr ⟨block, listed, body⟩)
        have text_eq := Function.displayLine found
        rw [shown] at text_eq
        rw [Option.some.inj text_eq]
        intro mem
        rcases List.mem_append.mp mem with mem | mem
        · revert mem
          decide
        · exact (h.content_clean found prints _ mem).2 rfl
  · obtain rfl := List.mem_singleton.mp mem
    decide

/-- Reading the lines of a function that can be read again adds its outline. -/
theorem Function.Readable.feed (h : f.Readable) :
    ({ closed } : Reader).feedAll line (f.lines.map String.toList) =
      .ok { closed := closed ++ [f.outlined line] } := by
  have header : Line.of ("fn " ++ f.name ++ "(" ++ f.displayAll f.args ++ ") \x7b").toList = .header f.signature := by
    have text : ("fn " ++ f.name ++ "(" ++ f.displayAll f.args ++ ") \x7b").toList = 'f' :: 'n' :: ' ' :: f.signature := by
      simp [Function.signature]
    rw [text]
    refine Line.of_header (fun c mem => (h.signature_clean c mem).1) ?_
    rw [Function.signature, List.getLast?_append]
    rfl
  have opened : ({ closed } : Reader).feed line (.header f.signature) =
      .ok (.inside closed { name := f.name, line, params := f.args.map f.label } []) := by
    simp only [Reader.feed, h.read_signature]
    rfl
  have blocks : (Reader.inside closed { name := f.name, line, params := f.args.map f.label } []).feedAll (line + 1)
      ((f.blocks.flatMap f.displayBody).map String.toList) =
        .ok (.inside closed { name := f.name, line, params := f.args.map f.label } (f.outlinedBlocks (line + 1) f.blocks)) :=
    h.feed_blocks fun b mem => mem
  have close : Line.of "\x7d".toList = .close := by decide
  rw [Function.lines, List.cons_append, List.map_cons, Reader.feedAll, header, opened, List.map_append]
  simp only [bind, Except.bind]
  rw [Reader.feedAll_append, blocks, List.map_singleton]
  simp only [bind, Except.bind, Reader.feedAll, close]
  rfl


end

end Codegen86.IR
