import GameData.Proofs.Script.Precedence

/-!
Formulas as text.

The lexer goes through the characters with what it has of the current token. A sign goes on as long as it is one of the
signs of C, so that `<<` is one token. Numbers are written in decimal without leading zeros, operators between two
operands have blanks around them, and a unary operator stands directly before an operand that starts with no sign.
-/
namespace GameData.Script

def isWordChar (c : Char) : Bool := c.isAlphanum || c == '_'

/-- The name is one of C: a word that starts with no digit. -/
def isIdentifier (s : String) : Bool := (s.toList.head?.any fun c => !c.isDigit) && s.toList.all isWordChar

/-- The signs of C that are made of the characters of operators, with those that start a comment. -/
def signs : List (List Char) :=
  [['+'], ['-'], ['*'], ['/'], ['%'], ['~'], ['!'], ['<'], ['>'], ['='], ['&'], ['|'], ['^'],
   ['+', '+'], ['-', '-'], ['-', '>'], ['<', '<'], ['>', '>'], ['&', '&'], ['|', '|'], ['<', '='], ['>', '='],
   ['=', '='], ['!', '='], ['+', '='], ['-', '='], ['*', '='], ['/', '='], ['%', '='], ['&', '='], ['|', '='],
   ['^', '='], ['<', '<', '='], ['>', '>', '='], ['/', '/'], ['/', '*']]

/-- A word is a name, or the decimal digits of a number. -/
def wordToken? (cs : List Char) : Option Token :=
  if cs.head?.any Char.isDigit then
    let n := Nat.ofDigitChars 10 cs 0
    if Nat.toDigits 10 n = cs then some (.number n) else none
  else some (.name (String.ofList cs))

/-- What there is of the current token. -/
inductive Pending where
  | blank
  | word (cs : List Char)
  | sign (cs : List Char)

namespace Pending

def flush : Pending → Option (List Token)
  | .blank => some []
  | .word cs => (wordToken? cs).map fun t => [t]
  | .sign cs => some [.sign (String.ofList cs)]

/-- What the token becomes with the next character, if it goes on. -/
def extend? (c : Char) : Pending → Option Pending
  | .blank => none
  | .word cs => if isWordChar c then some (.word (cs ++ [c])) else none
  | .sign cs => if cs ++ [c] ∈ signs then some (.sign (cs ++ [c])) else none

/-- The token that starts with a character, with those that end there. -/
def start? (c : Char) : Option (List Token × Pending) :=
  if isWordChar c then some ([], .word [c])
  else if [c] ∈ signs then some ([], .sign [c])
  else if c = '(' then some ([.opening], .blank)
  else if c = ')' then some ([.closing], .blank)
  else if c ∈ [' ', '\t', '\n', '\r'] then some ([], .blank)
  else none

end Pending

def lex : Pending → List Char → Option (List Token)
  | p, [] => p.flush
  | p, c :: cs =>
    match p.extend? c with
    | some q => lex q cs
    | none =>
      p.flush.bind fun before => (Pending.start? c).bind fun (ts, q) =>
        (lex q cs).map fun more => before ++ (ts ++ more)

namespace Formula

def text : Formula → List Char
  | .number n => Nat.toDigits 10 n
  | .name s => s.toList
  | .unary op argument => op.symbol.toList ++ argument.text
  | .binary op left right => left.text ++ ' ' :: (op.symbol.toList ++ ' ' :: right.text)
  | .paren body => '(' :: (body.text ++ [')'])

/-- The formula starts with no operator. -/
def IsPrimary : Formula → Prop
  | .number _ | .name _ | .paren _ => True
  | _ => False

/-- Names are those of C, and unary operators stand before operands that start with no operator. -/
def Spelled : Formula → Prop
  | .number _ => True
  | .name s => isIdentifier s = true
  | .unary _ argument => argument.IsPrimary ∧ argument.Spelled
  | .binary _ left right => left.Spelled ∧ right.Spelled
  | .paren body => body.Spelled

end Formula

def signChars : List Char := ['+', '-', '*', '/', '%', '~', '!', '<', '>', '=', '&', '|', '^']

theorem mem_signChars {cs : List Char} {c : Char} (sign : cs ++ [c] ∈ signs) : c ∈ signChars := by
  have all : (signs.all fun s => s.all fun c => signChars.contains c) = true := by decide
  have each := List.all_eq_true.mp (List.all_eq_true.mp all _ sign) c (List.mem_append_right cs List.mem_cons_self)
  exact List.contains_iff_mem.mp each

theorem not_mem_signChars {c : Char} (word : isWordChar c = true) : c ∉ signChars := by
  have none : (signChars.all fun c => !isWordChar c) = true := by decide
  intro mem
  have other := List.all_eq_true.mp none c mem
  rw [word] at other
  cases other

namespace Pending

def isWord : Pending → Bool
  | .word _ => true
  | _ => false

theorem extend?_eq_none {p : Pending} {c : Char} (noWord : p.isWord = true → isWordChar c = false)
    (noSign : c ∉ signChars) : p.extend? c = none := by
  cases p with
  | blank => rfl
  | word cs => simp [extend?, noWord rfl]
  | sign cs => exact if_neg fun sign => noSign (mem_signChars sign)

theorem start?_word {c : Char} (word : isWordChar c = true) : start? c = some ([], .word [c]) := if_pos word

end Pending

section Pieces

variable {p : Pending} {rest : List Char} {before : List Token}

theorem lex_cons {q : Pending} {c : Char} {ts : List Token} (ends : p.extend? c = none)
    (flushed : p.flush = some before) (starts : Pending.start? c = some (ts, q)) :
    lex p (c :: rest) = (lex q rest).map fun more => before ++ (ts ++ more) := by
  simp only [lex, ends, flushed, starts, Option.bind_some]

/-- The characters end the token before them. -/
def Breaks (rest : List Char) : Prop := ∀ c, rest.head? = some c → c = ' ' ∨ c = ')'

theorem lex_of_breaks (breaks : Breaks rest) (flushed : p.flush = some before) :
    lex p rest = (lex .blank rest).map fun more => before ++ more := by
  cases rest with
  | nil =>
      rw [lex, flushed]
      exact congrArg some (List.append_nil before).symm
  | cons c rest =>
      have split : ∀ {ts}, Pending.start? c = some (ts, .blank) → c ∉ signChars → isWordChar c = false →
          lex p (c :: rest) = (lex .blank (c :: rest)).map fun more => before ++ more := by
        intro ts starts noSign noWord
        rw [lex_cons (Pending.extend?_eq_none (fun _ => noWord) noSign) flushed starts,
          lex_cons (p := .blank) rfl rfl starts, Option.map_map]
        rfl
      rcases breaks c rfl with rfl | rfl
      · exact split rfl (by decide) (by decide)
      · exact split rfl (by decide) (by decide)

theorem lex_word_append {w : List Char} (word : ∀ c ∈ w, isWordChar c = true) (cs : List Char) :
    lex (.word cs) (w ++ rest) = lex (.word (cs ++ w)) rest := by
  induction w generalizing cs with
  | nil => rw [List.append_nil, List.nil_append]
  | cons c w ih =>
      obtain ⟨first, others⟩ := List.forall_mem_cons.mp word
      have goes : (Pending.word cs).extend? c = some (.word (cs ++ [c])) := if_pos first
      rw [List.cons_append, lex, goes]
      simp only
      rw [ih others, List.append_assoc, List.singleton_append]

theorem lex_word {w : List Char} {t : Token} (known : wordToken? w = some t) (nonempty : w ≠ [])
    (word : ∀ c ∈ w, isWordChar c = true) (fresh : p.isWord = false) (flushed : p.flush = some before)
    (breaks : Breaks rest) : lex p (w ++ rest) = (lex .blank rest).map fun more => before ++ ([t] ++ more) := by
  cases w with
  | nil => exact absurd rfl nonempty
  | cons c w =>
      obtain ⟨first, others⟩ := List.forall_mem_cons.mp word
      have ends : p.extend? c = none := by
        apply Pending.extend?_eq_none
        · intro isWord
          rw [fresh] at isWord
          cases isWord
        · exact not_mem_signChars first
      have whole : (Pending.word ([c] ++ w)).flush = some [t] := by
        simp only [Pending.flush, List.singleton_append, known, Option.map_some]
      rw [List.cons_append, lex_cons ends flushed (Pending.start?_word first), lex_word_append others,
        lex_of_breaks breaks whole, Option.map_map]
      rfl

-- nothing was pending, so the sign is what there is of the current token
theorem lex_unary (op : UnaryOp) : lex .blank (op.symbol.toList ++ rest) = lex (.sign op.symbol.toList) rest := by
  cases op <;> exact (lex_cons rfl rfl rfl).trans Option.map_id'

-- a sign of two characters starts with one that is a sign as well
theorem lex_binary (op : BinaryOp) : lex .blank (op.symbol.toList ++ rest) = lex (.sign op.symbol.toList) rest := by
  cases op <;> exact (lex_cons rfl rfl rfl).trans Option.map_id'

theorem lex_between (op : BinaryOp) : lex .blank (' ' :: (op.symbol.toList ++ ' ' :: rest)) =
    (lex .blank rest).map fun more => [.sign op.symbol] ++ more := by
  have flushed : (Pending.sign op.symbol.toList).flush = some [.sign op.symbol] := by
    rw [Pending.flush, String.ofList_toList]
  have ends : (Pending.sign op.symbol.toList).extend? ' ' = none := by
    apply Pending.extend?_eq_none
    · rintro ⟨⟩
    · decide
  have skips : lex .blank (' ' :: (op.symbol.toList ++ ' ' :: rest)) = lex .blank (op.symbol.toList ++ ' ' :: rest) :=
    (lex_cons rfl rfl rfl).trans Option.map_id'
  rw [skips, lex_binary, lex_cons ends flushed rfl]
  rfl

end Pieces

theorem isWordChar_of_isDigit {c : Char} (digit : c.isDigit = true) : isWordChar c = true := by
  simp [isWordChar, Char.isAlphanum, digit]

theorem wordToken?_number (n : Nat) : wordToken? (Nat.toDigits 10 n) = some (.number n) := by
  cases digits : Nat.toDigits 10 n with
  | nil => exact absurd digits Nat.toDigits_ne_nil
  | cons c cs =>
      have first : c.isDigit = true := by
        apply Nat.isDigit_of_mem_toDigits (b := 10) (n := n) (by decide) (by decide)
        rw [digits]
        exact List.mem_cons_self
      have value : Nat.ofDigitChars 10 (c :: cs) 0 = n := by
        rw [← digits]
        exact Nat.ofDigitChars_toDigits (by decide) (by decide)
      simp only [wordToken?, List.head?_cons, Option.any_some, first, if_true, value, digits]

theorem eq_cons_of_isIdentifier {s : String} (name : isIdentifier s = true) :
    ∃ c cs, s.toList = c :: cs ∧ c.isDigit = false ∧ ∀ d ∈ s.toList, isWordChar d = true := by
  obtain ⟨first, word⟩ := Bool.and_eq_true_iff.mp name
  cases whole : s.toList with
  | nil =>
      rw [whole] at first
      cases first
  | cons c cs =>
      rw [whole] at first word
      exact ⟨c, cs, rfl, Bool.not_eq_true' _ ▸ first, List.all_eq_true.mp word⟩

theorem wordToken?_name {s : String} (name : isIdentifier s = true) : wordToken? s.toList = some (.name s) := by
  obtain ⟨c, cs, whole, first, -⟩ := eq_cons_of_isIdentifier name
  have notDigit : s.toList.head?.any Char.isDigit = false := by
    rw [whole]
    exact first
  simp only [wordToken?, notDigit, Bool.false_eq_true, if_false, String.ofList_toList]

/-- The text of a formula is read as its tokens, behind a blank or directly behind a unary operator. -/
theorem lex_text {t : Formula} (spelled : t.Spelled) {p : Pending} {before : List Token} (fresh : p.isWord = false)
    (flushed : p.flush = some before) (place : p = .blank ∨ t.IsPrimary) {rest : List Char} (breaks : Breaks rest) :
    lex p (t.text ++ rest) = (lex .blank rest).map fun more => before ++ (t.tokens ++ more) := by
  induction t generalizing p before rest with
  | number n =>
      apply lex_word (wordToken?_number n) Nat.toDigits_ne_nil _ fresh flushed breaks
      intro c mem
      exact isWordChar_of_isDigit (Nat.isDigit_of_mem_toDigits (by decide) (by decide) mem)
  | name s =>
      obtain ⟨c, cs, whole, -, word⟩ := eq_cons_of_isIdentifier spelled
      apply lex_word (wordToken?_name spelled) _ word fresh flushed breaks
      rw [whole]
      exact List.cons_ne_nil c cs
  | unary op argument ih =>
      obtain ⟨primary, spelled⟩ := spelled
      obtain rfl : p = .blank := place.resolve_right id
      cases flushed
      have sign : (Pending.sign op.symbol.toList).flush = some [.sign op.symbol] := by
        rw [Pending.flush, String.ofList_toList]
      rw [Formula.text, List.append_assoc, lex_unary, ih spelled rfl sign (.inr primary) breaks]
      rfl
  | binary op left right ihl ihr =>
      obtain ⟨inLeft, inRight⟩ := spelled
      obtain rfl : p = .blank := place.resolve_right id
      cases flushed
      have between : Breaks (' ' :: (op.symbol.toList ++ ' ' :: (right.text ++ rest))) := by
        rintro c ⟨⟩
        exact .inl rfl
      have shape : (Formula.binary op left right).text ++ rest =
          left.text ++ ' ' :: (op.symbol.toList ++ ' ' :: (right.text ++ rest)) := by
        simp [Formula.text]
      rw [shape, ihl inLeft rfl rfl (.inl rfl) between, lex_between, ihr inRight rfl rfl (.inl rfl) breaks,
        Option.map_map, Option.map_map]
      congr 1
      funext more
      simp [Formula.tokens]
  | paren body ih =>
      have closes : Breaks (')' :: rest) := by
        rintro c ⟨⟩
        exact .inr rfl
      have shape : (Formula.paren body).text ++ rest = '(' :: (body.text ++ ')' :: rest) := by
        simp [Formula.text]
      have opens : p.extend? '(' = none := by
        apply Pending.extend?_eq_none
        · intro isWord
          rw [fresh] at isWord
          cases isWord
        · decide
      have closing : lex .blank (')' :: rest) = (lex .blank rest).map fun more => [] ++ ([.closing] ++ more) :=
        lex_cons rfl rfl rfl
      rw [shape, lex_cons opens flushed rfl, ih spelled rfl rfl (.inl rfl) closes, closing, Option.map_map,
        Option.map_map]
      congr 1
      funext more
      simp [Formula.tokens]

theorem lex_text_eq {t : Formula} (spelled : t.Spelled) : lex .blank t.text = some t.tokens := by
  have whole : lex .blank (t.text ++ []) = (lex .blank []).map fun more => [] ++ (t.tokens ++ more) :=
    lex_text spelled rfl rfl (.inl rfl) (by rintro c ⟨⟩)
  rw [List.append_nil] at whole
  rw [whole]
  exact congrArg some (List.append_nil t.tokens)

end GameData.Script
