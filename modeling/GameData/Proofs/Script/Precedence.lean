import GameData.Proofs.Script.Formula

/-!
Reading formulas from tokens, by precedence.

The parser goes through the tokens with a stack of what waits for its right end: parentheses, unary operators, and
binary operators with their left operands. An operator that comes next settles those that bind the operand before it
more tightly. What the parser reads from a list of tokens is the one grammatical formula that is written with them.
-/
namespace GameData.Script

def UnaryOp.ofSymbol? : String → Option UnaryOp
  | "+" => some .plus
  | "-" => some .minus
  | "~" => some .inv
  | "!" => some .not
  | _ => none

def BinaryOp.ofSymbol? : String → Option BinaryOp
  | "+" => some .add
  | "-" => some .sub
  | "*" => some .mul
  | "/" => some .div
  | "<<" => some .shl
  | ">>" => some .shr
  | "&" => some .and
  | "|" => some .or
  | "^" => some .xor
  | "&&" => some .land
  | "||" => some .lor
  | "==" => some .eq
  | "!=" => some .ne
  | "<" => some .lt
  | "<=" => some .le
  | ">" => some .gt
  | ">=" => some .ge
  | "=" => some .assign
  | _ => none

theorem UnaryOp.ofSymbol?_symbol (op : UnaryOp) : ofSymbol? op.symbol = some op := by
  cases op <;> rfl

theorem BinaryOp.ofSymbol?_symbol (op : BinaryOp) : ofSymbol? op.symbol = some op := by
  cases op <;> rfl

theorem UnaryOp.symbol_of_ofSymbol? {s : String} {op : UnaryOp} (h : ofSymbol? s = some op) : op.symbol = s := by
  unfold ofSymbol? at h
  split at h <;> cases h <;> rfl

theorem BinaryOp.symbol_of_ofSymbol? {s : String} {op : BinaryOp} (h : ofSymbol? s = some op) : op.symbol = s := by
  unfold ofSymbol? at h
  split at h <;> cases h <;> rfl

/-- What waits for its right end. -/
inductive Waiting where
  | opening
  | unary (op : UnaryOp)
  | binary (op : BinaryOp) (left : Formula)

namespace Waiting

/-- How tightly an operand has to bind to be the right end. -/
def bound : List Waiting → Nat
  | .unary _ :: _ => 11
  | .binary op _ :: _ => op.rightLevel
  | _ => 0

/-- The operators that end before the next operator, or before the end of what is enclosed, take the operand. -/
def settle (next : Option BinaryOp) : List Waiting → Formula → List Waiting × Formula
  | .unary op :: stack, t => settle next stack (.unary op t)
  | .binary op left :: stack, t =>
    if next.all fun following => following.level < op.rightLevel then settle next stack (.binary op left t)
    else (.binary op left :: stack, t)
  | stack, t => (stack, t)

end Waiting

/-- Reads on behind an operand, or where an operand has to follow. -/
def parse : List Waiting → Option Formula → List Token → Option Formula
  | stack, none, .number n :: ts => parse stack (some (.number n)) ts
  | stack, none, .name s :: ts => parse stack (some (.name s)) ts
  | stack, none, .opening :: ts => parse (.opening :: stack) none ts
  | stack, none, .sign s :: ts => (UnaryOp.ofSymbol? s).bind fun op => parse (.unary op :: stack) none ts
  | stack, some t, .sign s :: ts =>
    (BinaryOp.ofSymbol? s).bind fun op =>
      let (stack, left) := Waiting.settle (some op) stack t
      parse (.binary op left :: stack) none ts
  | stack, some t, .closing :: ts =>
    match Waiting.settle none stack t with
    | (.opening :: stack, body) => parse stack (some (.paren body)) ts
    | _ => none
  | stack, some t, [] =>
    match Waiting.settle none stack t with
    | ([], whole) => some whole
    | _ => none
  | _, _, _ => none

theorem BinaryOp.level_le_leftLevel (op : BinaryOp) : op.level ≤ op.leftLevel := by
  cases op <;> decide

theorem BinaryOp.leftLevel_le_succ (op : BinaryOp) : op.leftLevel ≤ op.level + 1 := by
  cases op <;> decide

theorem BinaryOp.level_le (op : BinaryOp) : op.level ≤ 10 := by
  cases op <;> decide

theorem BinaryOp.level_pos {op : BinaryOp} (other : op ≠ .assign) : 0 < op.level := by
  cases op with
  | assign => exact absurd rfl other
  | _ => decide

theorem BinaryOp.leftLevel_le (op : BinaryOp) : op.leftLevel ≤ 11 :=
  Nat.le_trans op.leftLevel_le_succ (Nat.succ_le_succ op.level_le)

theorem BinaryOp.rightLevel_le (op : BinaryOp) : op.rightLevel ≤ 11 := by
  cases op <;> decide

/-- An operator that cannot stand in the right operand of the one before it can have that one as its left operand, and
the other way around. -/
theorem BinaryOp.level_lt_rightLevel_iff (op next : BinaryOp) :
    next.level < op.rightLevel ↔ next.leftLevel ≤ op.level := by
  unfold rightLevel leftLevel
  split <;> rename_i outer <;> split <;> rename_i inner
  · exact Nat.succ_le_iff.symm
  · have lowest : op.level = 0 := outer ▸ rfl
    have := level_pos inner
    omega
  · have lowest : next.level = 0 := inner ▸ rfl
    have := level_pos outer
    omega
  · exact Nat.lt_succ_iff

section Complete

/-- The tokens end the formula: there are none, a parenthesis closes, or an operator follows that can have the formula
as its left operand. -/
def Ends (t : Formula) : List Token → Prop
  | [] | .closing :: _ => True
  | .sign s :: _ => ∃ op, BinaryOp.ofSymbol? s = some op ∧ op.leftLevel ≤ t.level
  | _ => False

theorem Ends.mono {t t' : Formula} {rest : List Token} (ends : Ends t rest)
    (le : ∀ op : BinaryOp, op.leftLevel ≤ t.level → op.leftLevel ≤ t'.level) : Ends t' rest := by
  unfold Ends at *
  split at ends
  · trivial
  · trivial
  · obtain ⟨op, known, binds⟩ := ends
    exact ⟨op, known, le op binds⟩
  · exact ends

variable {stack : List Waiting} {rest : List Token}

theorem parse_unary (op : UnaryOp) (argument : Formula) :
    parse (.unary op :: stack) (some argument) rest = parse stack (some (.unary op argument)) rest := by
  cases rest with
  | nil => rfl
  | cons token rest => cases token <;> rfl

theorem parse_binary {op : BinaryOp} {left right : Formula} (ends : Ends (.binary op left right) rest) :
    parse (.binary op left :: stack) (some right) rest = parse stack (some (.binary op left right)) rest := by
  cases rest with
  | nil => rfl
  | cons token rest =>
      cases token with
      | sign s =>
          obtain ⟨next, known, binds⟩ := ends
          have settled : (some next).all (fun following => following.level < op.rightLevel) = true :=
            decide_eq_true ((op.level_lt_rightLevel_iff next).mpr binds)
          simp only [parse, known, Option.bind_some, Waiting.settle, settled, if_true]
      | closing => rfl
      | _ => cases ends

theorem settle_of_le {next : BinaryOp} (le : Waiting.bound stack ≤ next.level) (t : Formula) :
    Waiting.settle (some next) stack t = (stack, t) := by
  rcases stack with _ | ⟨_ | op | ⟨op, left⟩, stack⟩
  · rfl
  · rfl
  · have := next.level_le
    have : 11 ≤ next.level := le
    omega
  · have waits : (some next).all (fun following => following.level < op.rightLevel) = false :=
      decide_eq_false (Nat.not_lt.mpr le)
    simp only [Waiting.settle, waits, Bool.false_eq_true, if_false]

/-- The parser reads a grammatical formula as the right end of what waits for one. -/
theorem parse_tokens {t : Formula} (grammatical : t.Grammatical) (fits : Waiting.bound stack ≤ t.level)
    (ends : Ends t rest) : parse stack none (t.tokens ++ rest) = parse stack (some t) rest := by
  induction t generalizing stack rest with
  | number n => rfl
  | name s => rfl
  | unary op argument ih =>
      obtain ⟨inner, tight⟩ := grammatical
      have ended : Ends argument rest := by
        apply ends.mono
        intro next _
        exact Nat.le_trans next.leftLevel_le tight
      have reads : parse (.unary op :: stack) none (argument.tokens ++ rest) =
          parse (.unary op :: stack) (some argument) rest := ih inner tight ended
      simp only [Formula.tokens, List.cons_append, parse, op.ofSymbol?_symbol, Option.bind_some]
      rw [reads, parse_unary]
  | binary op left right ihl ihr =>
      obtain ⟨inLeft, inRight, tightLeft, tightRight⟩ := grammatical
      have fits : Waiting.bound stack ≤ op.level := fits
      have ended : Ends right rest := by
        apply ends.mono
        intro next binds
        have := (op.level_lt_rightLevel_iff next).mpr binds
        have := next.leftLevel_le_succ
        omega
      have first : parse stack none (left.tokens ++ .sign op.symbol :: (right.tokens ++ rest)) =
          parse stack (some left) (.sign op.symbol :: (right.tokens ++ rest)) :=
        ihl inLeft (Nat.le_trans fits (Nat.le_trans op.level_le_leftLevel tightLeft))
          ⟨op, op.ofSymbol?_symbol, tightLeft⟩
      have second : parse (.binary op left :: stack) none (right.tokens ++ rest) =
          parse (.binary op left :: stack) (some right) rest := ihr inRight tightRight ended
      -- between its operands the operator settles nothing: what waits below binds less tightly
      rw [Formula.tokens, List.append_assoc, List.cons_append, first]
      simp only [parse, op.ofSymbol?_symbol, Option.bind_some, settle_of_le fits]
      rw [second, parse_binary ends]
  | paren body ih =>
      have reads : parse (.opening :: stack) none (body.tokens ++ .closing :: rest) =
          parse (.opening :: stack) (some body) (.closing :: rest) := ih grammatical (Nat.zero_le _) trivial
      rw [Formula.tokens, List.cons_append, List.cons_append, List.append_assoc, List.singleton_append, parse, reads]
      rfl

end Complete

section Sound

namespace Waiting

def tokens : List Waiting → List Token
  | [] => []
  | .opening :: stack => tokens stack ++ [.opening]
  | .unary op :: stack => tokens stack ++ [.sign op.symbol]
  | .binary op left :: stack => tokens stack ++ (left.tokens ++ [.sign op.symbol])

/-- Left operands are grammatical and bind as tightly as they have to, and each operator binds tightly enough for what
waits below it. -/
def Valid : List Waiting → Prop
  | [] => True
  | .opening :: stack | .unary _ :: stack => Valid stack
  | .binary op left :: stack => Valid stack ∧ left.Grammatical ∧ op.leftLevel ≤ left.level ∧ bound stack ≤ op.level

theorem bound_le (stack : List Waiting) : bound stack ≤ 11 := by
  rcases stack with _ | ⟨_ | op | ⟨op, left⟩, stack⟩
  · exact Nat.zero_le _
  · exact Nat.zero_le _
  · exact Nat.le_refl _
  · exact op.rightLevel_le

structure Stands (next : Option BinaryOp) (read : List Token) (stack : List Waiting) (t : Formula) : Prop where
  valid : Valid stack
  grammatical : t.Grammatical
  fits : bound stack ≤ t.level
  tokens : tokens stack ++ t.tokens = read
  left : ∀ op, next = some op → op.leftLevel ≤ t.level

/-- Settling keeps an operand in its place and stops where the next operator can take it as its left operand, or at the
parenthesis that encloses it. -/
theorem Stands.settle {next : Option BinaryOp} {read : List Token} {stack : List Waiting} {t : Formula}
    (stands : Stands next read stack t) :
    Stands next read (Waiting.settle next stack t).1 (Waiting.settle next stack t).2 ∧
      ∀ op, next = some op → bound (Waiting.settle next stack t).1 ≤ op.level := by
  fun_induction Waiting.settle next stack t with
  | case1 op stack t ih =>
      apply ih
      refine ⟨stands.valid, ⟨stands.grammatical, stands.fits⟩, bound_le stack, ?_, ?_⟩
      · rw [← stands.tokens]
        simp [Waiting.tokens, Formula.tokens]
      · intro next _
        exact next.leftLevel_le
  | case2 op left stack t settled ih =>
      obtain ⟨valid, grammatical, tight, fits⟩ := stands.valid
      apply ih
      refine ⟨valid, ⟨grammatical, stands.grammatical, tight, stands.fits⟩, fits, ?_, ?_⟩
      · rw [← stands.tokens]
        simp [Waiting.tokens, Formula.tokens]
      · rintro next rfl
        exact (op.level_lt_rightLevel_iff next).mp (of_decide_eq_true settled)
  | case3 op left stack t waits =>
      refine ⟨stands, ?_⟩
      rintro next rfl
      exact Nat.not_lt.mp fun lt => waits (decide_eq_true lt)
  | case4 stack t notUnary notBinary =>
      refine ⟨stands, ?_⟩
      intro next _
      rcases stack with _ | ⟨_ | op | ⟨op, left⟩, stack⟩
      · exact Nat.zero_le _
      · exact Nat.zero_le _
      · exact absurd rfl (notUnary op stack)
      · exact absurd rfl (notBinary op left stack)

end Waiting

/-- An operand without operators outside parentheses. -/
def Formula.Atomic (t : Formula) : Prop := t.Grammatical ∧ t.level = 11

theorem Waiting.Valid.stands {stack : List Waiting} {t : Formula} (valid : Valid stack) (atom : t.Atomic)
    (next : Option BinaryOp) : Stands next (tokens stack ++ t.tokens) stack t := by
  refine ⟨valid, atom.1, ?_, rfl, ?_⟩
  · rw [atom.2]
    exact bound_le stack
  · intro op _
    rw [atom.2]
    exact op.leftLevel_le

/-- Whatever the parser reads is grammatical and written with the tokens it has read. -/
theorem grammatical_of_parse {stack : List Waiting} {current : Option Formula} {ts : List Token} {t : Formula}
    (reads : parse stack current ts = some t) (valid : Waiting.Valid stack)
    (atom : ∀ a, current = some a → a.Atomic) :
    t.Grammatical ∧ t.tokens = Waiting.tokens stack ++ ((current.elim [] Formula.tokens) ++ ts) := by
  fun_induction parse stack current ts with
  | case1 stack n ts ih =>
      apply ih reads valid
      rintro _ ⟨⟩
      exact ⟨trivial, rfl⟩
  | case2 stack s ts ih =>
      apply ih reads valid
      rintro _ ⟨⟩
      exact ⟨trivial, rfl⟩
  | case3 stack ts ih =>
      obtain ⟨grammatical, written⟩ := ih reads valid atom
      exact ⟨grammatical, by simp [written, Waiting.tokens]⟩
  | case4 stack s ts ih =>
      obtain ⟨op, known, reads⟩ := Option.bind_eq_some_iff.mp reads
      obtain ⟨grammatical, written⟩ := ih op reads valid atom
      exact ⟨grammatical, by simp [written, Waiting.tokens, UnaryOp.symbol_of_ofSymbol? known]⟩
  | case5 stack a s ts ih =>
      -- the operator takes what settling leaves as its left operand
      obtain ⟨op, known, reads⟩ := Option.bind_eq_some_iff.mp reads
      obtain ⟨stands, below⟩ := (valid.stands (atom a rfl) (some op)).settle
      have placed : Waiting.Valid
          (.binary op (Waiting.settle (some op) stack a).2 :: (Waiting.settle (some op) stack a).1) :=
        ⟨stands.valid, stands.grammatical, stands.left op rfl, below op rfl⟩
      obtain ⟨grammatical, written⟩ := ih op _ _ reads placed (by rintro _ ⟨⟩)
      refine ⟨grammatical, ?_⟩
      rw [written, Waiting.tokens, BinaryOp.symbol_of_ofSymbol? known, ← List.append_assoc (Waiting.tokens _),
        stands.tokens]
      simp
  | case6 stack a ts below body settled ih =>
      -- settling went down to the parenthesis that is closed
      obtain ⟨stands, -⟩ := (valid.stands (atom a rfl) none).settle
      rw [settled] at stands
      obtain ⟨grammatical, written⟩ := ih reads stands.valid (by
        rintro _ ⟨⟩
        exact ⟨stands.grammatical, rfl⟩)
      refine ⟨grammatical, ?_⟩
      have read := stands.tokens
      simp only [Waiting.tokens, List.append_assoc, List.singleton_append] at read
      simp only [written, Option.elim_some, Formula.tokens, List.cons_append, List.append_assoc]
      rw [← List.append_assoc (Waiting.tokens stack), ← read]
      simp
  | case8 stack a whole settled =>
      obtain ⟨stands, -⟩ := (valid.stands (atom a rfl) none).settle
      rw [settled] at stands
      cases reads
      exact ⟨stands.grammatical, by simpa [Waiting.tokens] using stands.tokens⟩
  | case7 => cases reads
  | case9 => cases reads
  | case10 => cases reads

end Sound

/-- The parser reads from a list of tokens the grammatical formula that is written with them, and nothing else. -/
theorem parse_eq_some_iff {ts : List Token} {t : Formula} :
    parse [] none ts = some t ↔ t.Grammatical ∧ t.tokens = ts := by
  constructor
  · intro reads
    exact grammatical_of_parse reads trivial (by rintro _ ⟨⟩)
  · rintro ⟨grammatical, rfl⟩
    have reads : parse [] none (t.tokens ++ []) = parse [] (some t) [] :=
      parse_tokens grammatical (Nat.zero_le _) trivial
    rw [List.append_nil] at reads
    exact reads

end GameData.Script
