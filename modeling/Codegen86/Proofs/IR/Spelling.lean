import Codegen86.Binary64.Read
import Codegen86.Binary64.Shortest
import Codegen86.Proofs.IR.Outlined
/-!
# How parts of a line are spelled

A word of a printed line is a name, a number or a symbol, and holds nothing that ends words or lines
(`Spelled`).  `Written` is a text that is printed from words: it is read as these words, and is no label.

Numbers are read as they are printed: `word?_text`, `unsigned64?_toString`.
-/

set_option autoImplicit false

namespace Codegen86.IR

open Text

/-! ## Characters -/

/-- Characters of names, and those that a number or a reference has besides. -/
def isWordChar (c : Char) : Bool := isNameChar c || c == '%' || c == '@' || c == '-'

theorem toNat_of_isWordChar {c : Char} (h : isWordChar c = true) : c.toNat < 128 := by
  simp only [isWordChar, isNameChar, Bool.or_eq_true, beq_iff_eq, or_assoc] at h
  rcases h with h | rfl | rfl | rfl | rfl | rfl
  · have ranges : c.isAlphanum = ((decide ('A'.val ≤ c.val ∧ c.val ≤ 'Z'.val) || 'a'.val ≤ c.val && c.val ≤ 'z'.val) ||
        '0'.val ≤ c.val && c.val ≤ '9'.val) := rfl
    simp only [ranges, Bool.or_eq_true, Bool.and_eq_true, decide_eq_true_eq, UInt32.le_iff_toNat_le] at h
    have : c.toNat = c.val.toNat := rfl
    have : 'Z'.val.toNat = 90 := rfl
    have : 'z'.val.toNat = 122 := rfl
    have : '9'.val.toNat = 57 := rfl
    omega
  all_goals decide

theorem solid_of_isWordChar {c : Char} (h : isWordChar c = true) : Solid c ∧ c ≠ ':' ∧ c ≠ '=' := by
  have ascii : ∀ n : Fin 128, isWordChar (Char.ofNat n) = true → (isSeparator (Char.ofNat n) = false ∧
      Char.ofNat n ≠ ';' ∧ Char.ofNat n ≠ '\n') ∧ Char.ofNat n ≠ ':' ∧ Char.ofNat n ≠ '=' := by decide +kernel
  have here := ascii ⟨c.toNat, toNat_of_isWordChar h⟩
  simp only [Char.ofNat_toNat] at here
  exact here h

theorem isWordChar_of_isNameChar {c : Char} (h : isNameChar c = true) : isWordChar c = true := by
  simp [isWordChar, h]

theorem isWordChar_of_isDigit {c : Char} (h : c.isDigit = true) : isWordChar c = true :=
  isWordChar_of_isNameChar (by simp [isNameChar, Char.isAlphanum, h])

theorem isBlank_of_solid {c : Char} (h : Solid c) : isBlank c = false := by
  have := h.1
  simp only [isSeparator, Bool.or_eq_false_iff] at this
  exact this.1.1.1

/-! ## Words -/

/-- A word of a printed line. -/
structure Spelled (word : List Char) : Prop where
  some : word ≠ []
  solid : ∀ c ∈ word, Solid c
  last : word.getLast? ≠ Option.some ':'

theorem spelled_of_isWordChar {word : List Char} (some : word ≠ []) (chars : ∀ c ∈ word, isWordChar c = true) :
    Spelled word where
  some := some
  solid := fun c mem => (solid_of_isWordChar (chars c mem)).1
  last := fun last => (solid_of_isWordChar (chars _ (List.mem_of_getLast? last))).2.1 rfl

theorem ne_nil_of_isName {name : List Char} (named : isName name = true) : name ≠ [] := by
  simpa using (Bool.and_eq_true_iff.mp named).1

theorem isNameChar_of_mem {name : List Char} (named : isName name = true) {c : Char} (mem : c ∈ name) :
    isNameChar c = true := List.all_eq_true.mp (Bool.and_eq_true_iff.mp named).2 c mem

theorem not_mem_of_isName {c : Char} {name : List Char} (named : isName name = true)
    (strange : isNameChar c = false) : c ∉ name := by
  intro mem
  rw [isNameChar_of_mem named mem] at strange
  cases strange

theorem spelled_of_isName {name : List Char} (named : isName name = true) : Spelled name :=
  spelled_of_isWordChar (ne_nil_of_isName named) fun _ mem =>
    isWordChar_of_isNameChar (isNameChar_of_mem named mem)

/-- A name behind a sign. -/
theorem spelled_cons {c : Char} (sign : isWordChar c = true) {name : List Char} (named : isName name = true) :
    Spelled (c :: name) :=
  spelled_of_isWordChar (List.cons_ne_nil c name) fun d mem => by
    rcases List.mem_cons.mp mem with rfl | mem
    · exact sign
    · exact isWordChar_of_isNameChar (isNameChar_of_mem named mem)

/-! ## Numbers -/

theorem digits?_toDigits (n : Nat) : digits? (Nat.toDigits 10 n) = some n := by
  have digits : (Nat.toDigits 10 n).all Char.isDigit = true :=
    List.all_eq_true.mpr fun c mem => Nat.isDigit_of_mem_toDigits (by omega) (by omega) mem
  have value : digitsValue (Nat.toDigits 10 n) = n := Nat.ofDigitChars_toDigits (by omega) (by omega)
  have some : (!(Nat.toDigits 10 n).isEmpty) = true := by simp [Nat.toDigits_ne_nil]
  rw [digits?, digits, some, value]
  rfl

theorem natural?_toDigits (n : Nat) : natural? (Nat.toDigits 10 n) = some n := by
  unfold natural?
  split
  · rename_i cs sign
    have := Nat.isDigit_of_mem_toDigits (b := 10) (n := n) (c := '+') (by omega) (by omega) (by simp [sign])
    cases this
  · exact digits?_toDigits n

theorem toList_toString (n : Nat) : (toString n).toList = Nat.toDigits 10 n := by
  rw [Nat.toString_eq_repr, Nat.repr, String.toList_ofList]

/-- A natural number below `2 ^ 64` is read as it is printed. -/
theorem unsigned64?_toString {n : Nat} (small : n < UInt64.size) : unsigned64? (toString n).toList = some n := by
  rw [toList_toString, unsigned64?, natural?_toDigits]
  simp [small]

theorem integer?_toString (i : Int) : integer? (toString i).toList = some i := by
  cases i with
  | ofNat n =>
    have text : (toString (Int.ofNat n)).toList = Nat.toDigits 10 n := toList_toString n
    rw [text]
    unfold integer?
    split
    · rename_i cs sign
      have := Nat.isDigit_of_mem_toDigits (b := 10) (n := n) (c := '-') (by omega) (by omega) (by simp [sign])
      cases this
    · rw [natural?_toDigits]
      rfl
  | negSucc n =>
    have text : (toString (Int.negSucc n)).toList = '-' :: Nat.toDigits 10 (n + 1) := by
      have : toString (Int.negSucc n) = "-" ++ toString (n + 1) := rfl
      rw [this, String.toList_append, toList_toString]
      rfl
    rw [text, integer?, digits?_toDigits]
    rfl

/-- A machine word is read as it is printed. -/
theorem word?_text (w : Word) : word? w.text.toList = some w := by
  rw [Word.text, word?, integer?_toString, Option.bind_some, Word.ofInt?,
    if_pos ⟨w.minValue_le_toInt, w.toInt_le⟩, Int64.ofInt_toInt]

theorem spelled_toString (n : Nat) : Spelled (toString n).toList := by
  rw [toList_toString]
  exact spelled_of_isWordChar Nat.toDigits_ne_nil fun c mem =>
    isWordChar_of_isDigit (Nat.isDigit_of_mem_toDigits (by omega) (by omega) mem)

theorem isName_toString (n : Nat) : isName (toString n).toList = true := by
  rw [toList_toString, isName, Bool.and_eq_true_iff]
  refine ⟨by simp [Nat.toDigits_ne_nil], List.all_eq_true.mpr fun c mem => ?_⟩
  simp [isNameChar, Char.isAlphanum, Nat.isDigit_of_mem_toDigits (b := 10) (by omega) (by omega) mem]

theorem spelled_word (w : Word) : Spelled w.text.toList := by
  rw [Word.text]
  generalize w.toInt = i
  cases i with
  | ofNat n => exact spelled_toString n
  | negSucc n =>
    have : toString (Int.negSucc n) = "-" ++ toString (n + 1) := rfl
    rw [this, String.toList_append]
    exact spelled_cons (by decide) (isName_toString (n + 1))

theorem isWordChar_positional {c : Nat} {k : Int} {d : Char} (mem : d ∈ Binary64.positional c k) :
    isWordChar d = true := by
  have digit : ∀ d ∈ Binary64.decimalDigits c, isWordChar d = true := fun d mem =>
    isWordChar_of_isDigit (Nat.isDigit_of_mem_toDigits (by omega) (by omega) mem)
  unfold Binary64.positional at mem
  dsimp only at mem
  split at mem
  · rcases List.mem_append.mp mem with mem | mem
    · exact digit d mem
    · rw [(List.mem_replicate.mp mem).2]
      rfl
  · split at mem
    · rcases List.mem_append.mp mem with mem | mem
      · exact digit d ((List.take_sublist _ _).subset mem)
      · rcases List.mem_cons.mp mem with rfl | mem
        · rfl
        · exact digit d ((List.drop_sublist _ _).subset mem)
    · rcases List.mem_cons.mp mem with rfl | mem
      · rfl
      rcases List.mem_cons.mp mem with rfl | mem
      · rfl
      rcases List.mem_append.mp mem with mem | mem
      · rw [(List.mem_replicate.mp mem).2]
        rfl
      · exact digit d mem

theorem positional_ne_nil (c : Nat) (k : Int) : Binary64.positional c k ≠ [] := by
  unfold Binary64.positional
  dsimp only
  split
  · simp [Binary64.decimalDigits, Nat.toDigits_ne_nil]
  · split <;> simp

theorem spelled_float (x : Binary64) : Spelled x.text.toList := by
  cases x with
  | nan => exact spelled_of_isName (by decide)
  | infinity negative =>
    cases negative with
    | false => exact spelled_of_isName (by decide)
    | true =>
      have signed : Spelled ('-' :: ['i', 'n', 'f']) := spelled_cons (by decide) (by decide)
      exact signed
  | finite negative significand exponent =>
    have magnitude : ∀ cs : List Char, (cs = ['0'] ∨ ∃ c k, cs = Binary64.positional c k) →
        Spelled (if negative then '-' :: cs else cs) := by
      intro cs is
      have chars : ∀ d ∈ cs, isWordChar d = true := by
        rcases is with rfl | ⟨c, k, rfl⟩
        · exact List.all_eq_true.mp (by decide)
        · exact fun d mem => isWordChar_positional mem
      have some : cs ≠ [] := by
        rcases is with rfl | ⟨c, k, rfl⟩
        · decide
        · exact positional_ne_nil c k
      split
      · refine spelled_of_isWordChar (List.cons_ne_nil _ _) fun d mem => ?_
        rcases List.mem_cons.mp mem with rfl | mem
        · rfl
        · exact chars d mem
      · exact spelled_of_isWordChar some chars
    rw [Binary64.text]
    dsimp only
    rw [String.toList_ofList]
    apply magnitude
    split
    · exact .inl rfl
    · exact .inr ⟨_, _, rfl⟩

/-! ## Texts printed from words -/

/-- A text that is read as these words, stays on its line, and is no label. -/
structure Written (text : List Char) (words : List (List Char)) : Prop where
  words : fields isSeparator text = words
  clean : ∀ c ∈ text, c ≠ ';' ∧ c ≠ '\n'
  last : ∃ c, text.getLast? = some c ∧ isBlank c = false ∧ c ≠ ':'

/-- What stands between words. -/
def IsGap (gap : List Char) : Prop := gap ≠ [] ∧ ∀ c ∈ gap, isSeparator c = true ∧ c ≠ ';' ∧ c ≠ '\n'

theorem IsGap.of_all {gap : List Char} (some : gap ≠ [])
    (all : (gap.all fun c => isSeparator c && (c != ';' && c != '\n')) = true) : IsGap gap := by
  simpa [IsGap, some] using all

theorem Spelled.written {word : List Char} (h : Spelled word) : Written word [word] where
  words := fields_plain (fun c mem => (h.solid c mem).1) h.some
  clean := fun c mem => (h.solid c mem).2
  last := by
    cases last : word.getLast? with
    | none => exact absurd (List.getLast?_eq_none_iff.mp last) h.some
    | some c =>
      refine ⟨c, rfl, isBlank_of_solid (h.solid c (List.mem_of_getLast? last)), fun same => h.last ?_⟩
      rw [last, same]

namespace Written

variable {text text' gap : List Char} {words words' : List (List Char)}

theorem append (h : Written text words) (between : IsGap gap) (h' : Written text' words') :
    Written (text ++ gap ++ text') (words ++ words') where
  words := by
    rw [fields_append between.1 fun c mem => (between.2 c mem).1, h.words, h'.words]
  clean := by
    intro c mem
    rcases List.mem_append.mp mem with mem | mem
    · rcases List.mem_append.mp mem with mem | mem
      · exact h.clean c mem
      · exact (between.2 c mem).2
    · exact h'.clean c mem
  last := by
    obtain ⟨c, last, good⟩ := h'.last
    exact ⟨c, by rw [List.getLast?_append, last]; rfl, good⟩

/-- Words in parentheses. -/
theorem close (h : Written text words) : Written (text ++ [')']) words where
  words := by
    have split : fields isSeparator (text ++ [')'] ++ []) = fields isSeparator text ++ fields isSeparator [] :=
      fields_append (by simp) (by simp [isSeparator]) text []
    rw [List.append_nil] at split
    rw [split, h.words]
    simp [fields]
  clean := by
    intro c mem
    rcases List.mem_append.mp mem with mem | mem
    · exact h.clean c mem
    · obtain rfl := List.mem_singleton.mp mem
      decide
  last := ⟨')', by simp, by decide, by decide⟩

end Written

end Codegen86.IR
