import GameData.Script.Node

/-!
Expressions as they are written, in the order of precedence of C.

A formula keeps its parentheses. It is grammatical if every operand binds at least as tightly as its place asks for:
operators of one level group to the left, assignments to the right, and unary operators bind tighter than all binary
ones. The tokens of a formula and the formula without parentheses together determine it, since an operand holds as many
operators as its bare form, and the parenthesis that starts an operand is closed before the operand ends.
-/
namespace GameData.Script

/-- How tightly an operator of C binds. -/
def BinaryOp.level : BinaryOp → Nat
  | .mul | .div => 10
  | .add | .sub => 9
  | .shl | .shr => 8
  | .lt | .le | .gt | .ge => 7
  | .eq | .ne => 6
  | .and => 5
  | .xor => 4
  | .or => 3
  | .land => 2
  | .lor => 1
  | .assign => 0

def BinaryOp.leftLevel (op : BinaryOp) : Nat := if op = .assign then op.level + 1 else op.level

def BinaryOp.rightLevel (op : BinaryOp) : Nat := if op = .assign then op.level else op.level + 1

inductive Formula where
  | number (n : Nat)
  | name (s : String)
  | unary (op : UnaryOp) (argument : Formula)
  | binary (op : BinaryOp) (left right : Formula)
  | paren (body : Formula)
  deriving DecidableEq

inductive Token where
  | number (n : Nat)
  | name (s : String)
  | sign (symbol : String)
  | opening
  | closing
  deriving DecidableEq

namespace Formula

def level : Formula → Nat
  | .binary op _ _ => op.level
  | _ => 11

def Grammatical : Formula → Prop
  | .number _ | .name _ => True
  | .unary _ argument => argument.Grammatical ∧ 11 ≤ argument.level
  | .binary op left right =>
    left.Grammatical ∧ right.Grammatical ∧ op.leftLevel ≤ left.level ∧ op.rightLevel ≤ right.level
  | .paren body => body.Grammatical

def tokens : Formula → List Token
  | .number n => [.number n]
  | .name s => [.name s]
  | .unary op argument => .sign op.symbol :: argument.tokens
  | .binary op left right => left.tokens ++ .sign op.symbol :: right.tokens
  | .paren body => .opening :: body.tokens ++ [.closing]

def bare : Formula → Formula
  | .number n => .number n
  | .name s => .name s
  | .unary op argument => .unary op argument.bare
  | .binary op left right => .binary op left.bare right.bare
  | .paren body => body.bare

end Formula

/-- Literals and operators count, parentheses do not. -/
def Token.counts : Token → Bool
  | .opening | .closing => false
  | _ => true

namespace Formula

theorem countP_tokens_bare (t : Formula) : t.bare.tokens.countP Token.counts = t.tokens.countP Token.counts := by
  induction t with
  | number n => rfl
  | name s => rfl
  | unary op argument ih => simp only [bare, tokens, List.countP_cons, ih]
  | binary op left right ihl ihr => simp only [bare, tokens, List.countP_append, List.countP_cons, ihl, ihr]
  | paren body ih =>
      simp only [bare, tokens, List.countP_append, List.countP_cons, List.cons_append, ih, List.countP_nil]
      rfl

theorem balanced (t : Formula) : t.tokens.count .closing = t.tokens.count .opening := by
  induction t with
  | number n => rfl
  | name s => rfl
  | unary op argument ih => simp [tokens, ih]
  | binary op left right ihl ihr => simp [tokens, ihl, ihr]
  | paren body ih => simp [tokens, ih]

/-- No token of a formula is preceded by more closing than opening parentheses. -/
theorem count_closing_le (t : Formula) {us vs : List Token} (split : t.tokens = us ++ vs) :
    us.count .closing ≤ us.count .opening := by
  induction t generalizing us vs with
  | number n | name s =>
      rcases List.cons_eq_append_iff.mp split with ⟨rfl, -⟩ | ⟨us, rfl, last⟩
      · exact Nat.le_refl _
      · cases (List.append_eq_nil_iff.mp last.symm).1
        exact Nat.le_refl _
  | unary op argument ih =>
      rcases List.cons_eq_append_iff.mp split with ⟨rfl, -⟩ | ⟨us, rfl, rest⟩
      · exact Nat.le_refl _
      · simpa using ih rest
  | binary op left right ihl ihr =>
      rcases List.append_eq_append_iff.mp split with ⟨more, rfl, rest⟩ | ⟨more, whole, -⟩
      · have same := left.balanced
        rcases List.cons_eq_append_iff.mp rest with ⟨rfl, -⟩ | ⟨more, rfl, behind⟩
        · simp [same]
        · simpa [same] using ihr behind
      · exact ihl whole
  | paren body ih =>
      rcases List.cons_eq_append_iff.mp split with ⟨rfl, -⟩ | ⟨us, rfl, rest⟩
      · exact Nat.le_refl _
      · rcases List.append_eq_append_iff.mp rest with ⟨more, rfl, last⟩ | ⟨more, whole, -⟩
        · have same := body.balanced
          rcases List.cons_eq_append_iff.mp last with ⟨rfl, -⟩ | ⟨more, rfl, behind⟩
          · simp [same]
          · cases (List.append_eq_nil_iff.mp behind.symm).1
            simp [same]
        · have := ih whole
          simpa using Nat.le_succ_of_le this

theorem tokens_ne_nil (t : Formula) : t.tokens ≠ [] := by
  cases t <;> simp [tokens]

/-- What stands in parentheses is not an operator between two operands: the first parenthesis is closed by the last
one. -/
theorem paren_tokens_ne (body left right : Formula) (op : BinaryOp) :
    (paren body).tokens ≠ (binary op left right).tokens := by
  intro same
  have balance := left.balanced
  rcases List.cons_eq_append_iff.mp same with ⟨empty, -⟩ | ⟨us, whole, rest⟩
  · exact left.tokens_ne_nil empty
  · rcases List.append_eq_append_iff.mp rest with ⟨more, rfl, last⟩ | ⟨more, inside, -⟩
    · -- the operator would have to be the closing parenthesis
      rcases List.cons_eq_append_iff.mp last with ⟨-, other⟩ | ⟨more, -, last⟩
      · cases other
      · cases (List.append_eq_nil_iff.mp last.symm).2
    · have := body.count_closing_le inside
      simp [whole] at balance
      omega

/-- Of two ways to split one list of tokens at an operator, those with as many literals and operators on the left are
the same. -/
theorem split_unique {us us' vs vs' : List Token} {symbol : String}
    (same : us ++ .sign symbol :: vs = us' ++ .sign symbol :: vs')
    (count : us.countP Token.counts = us'.countP Token.counts) : us = us' ∧ vs = vs' := by
  rcases List.append_eq_append_iff.mp same with ⟨more, rfl, rest⟩ | ⟨more, rfl, rest⟩ <;>
    rcases List.cons_eq_append_iff.mp rest with ⟨rfl, last⟩ | ⟨more, rfl, -⟩
  · simp_all
  · simp [Token.counts] at count
  · simp_all
  · simp [Token.counts] at count

theorem eq_of_tokens_of_bare {t t' : Formula} (written : t.tokens = t'.tokens) (meant : t.bare = t'.bare) : t = t' := by
  induction t generalizing t' with
  | number n =>
      cases t' with
      | number n' => exact meant
      | paren body => cases written
      | _ => cases meant
  | name s =>
      cases t' with
      | name s' => exact meant
      | paren body => cases written
      | _ => cases meant
  | unary op argument ih =>
      cases t' with
      | unary op' argument' =>
          obtain ⟨rfl, inner⟩ := Formula.unary.inj meant
          rw [ih (List.cons.inj written).2 inner]
      | paren body => cases written
      | _ => cases meant
  | binary op left right ihl ihr =>
      cases t' with
      | binary op' left' right' =>
          obtain ⟨rfl, meantLeft, meantRight⟩ := Formula.binary.inj meant
          have count : left.tokens.countP Token.counts = left'.tokens.countP Token.counts := by
            rw [← left.countP_tokens_bare, meantLeft, countP_tokens_bare]
          obtain ⟨first, second⟩ := split_unique written count
          rw [ihl first meantLeft, ihr second meantRight]
      | paren body => exact absurd written.symm (paren_tokens_ne body left right op)
      | _ => cases meant
  | paren body ih =>
      cases t' with
      | paren body' => rw [ih (List.append_cancel_right (List.cons.inj written).2) meant]
      | binary op left right => exact absurd written (paren_tokens_ne body left right op)
      | _ => cases written

end Formula

end GameData.Script
