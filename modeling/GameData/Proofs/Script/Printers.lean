import GameData.Proofs.Script.Walk
import GameData.Script.Source
import GameData.Script.Tasks

/-!
Expressions in source text and in markup.

Both printers write literals and operators alike. What stands in parentheses has no rendering of its own and is written
as the word for nothing, so that the two texts are the same up to the first parenthesis and differ there.
-/
namespace GameData.Script

namespace Node

/-- The tree is made of numbers, names and operators, some of them in parentheses. -/
def IsExpression : Node → Prop
  | .number _ | .const _ | .identifier _ => True
  | .unary _ argument => argument.IsExpression
  | .binary _ left right => left.IsExpression ∧ right.IsExpression
  | .paren body => body.IsExpression
  | .string _ | .call .. | .loop .. | .branch .. => False

def HasParen : Node → Prop
  | .unary _ argument => argument.HasParen
  | .binary _ left right => left.HasParen ∨ right.HasParen
  | .paren _ => True
  | _ => False

end Node

@[simp] theorem Rendering.inText_text (s : String) : (Rendering.text s).inText = s := rfl

/-- The texts are the same up to a place where one opens a parenthesis and the other has the word for nothing. -/
def PartAtParen (source rendered : List Char) : Prop :=
  ∃ front rest rest', source = front ++ '(' :: rest ∧ rendered = front ++ 'N' :: rest'

namespace PartAtParen

variable {source rendered : List Char}

theorem after (parted : PartAtParen source rendered) (front : List Char) :
    PartAtParen (front ++ source) (front ++ rendered) := by
  obtain ⟨same, rest, rest', rfl, rfl⟩ := parted
  exact ⟨front ++ same, rest, rest', (List.append_assoc ..).symm, (List.append_assoc ..).symm⟩

theorem before (parted : PartAtParen source rendered) (back back' : List Char) :
    PartAtParen (source ++ back) (rendered ++ back') := by
  obtain ⟨same, rest, rest', rfl, rfl⟩ := parted
  exact ⟨same, rest ++ back, rest' ++ back', List.append_assoc .., List.append_assoc ..⟩

theorem ne (parted : PartAtParen source rendered) : source ≠ rendered := by
  obtain ⟨same, rest, rest', rfl, rfl⟩ := parted
  intro equal
  cases List.append_cancel_left equal

end PartAtParen

structure Compared (t : Node) (source : String) (r : Rendering) : Prop where
  printed : ∀ depth, t.source depth = .ok source
  rendered : t.render = .ok r
  same : ¬ t.HasParen → r = .text source
  parted : t.HasParen → PartAtParen source.toList r.inText.toList

namespace Compared

variable {t left right : Node} {s s' : String} {r r' : Rendering}

theorem inText (compared : Compared t s r) (plain : ¬ t.HasParen) : r.inText = s := by
  rw [compared.same plain, Rendering.inText_text]

theorem unary (op : UnaryOp) (argument : Compared t s r) :
    Compared (.unary op t) (op.symbol ++ s) (.text (op.symbol ++ r.inText)) where
  printed depth := by rw [Node.source, argument.printed, ok_bind]
  rendered := by rw [Node.render, argument.rendered, ok_bind]
  same plain := by rw [argument.inText plain]
  parted paren := by
    rw [Rendering.inText_text, String.toList_append, String.toList_append]
    exact (argument.parted paren).after _

theorem binary (op : BinaryOp) (first : Compared left s r) (second : Compared right s' r') :
    Compared (.binary op left right) (s ++ " " ++ op.symbol ++ " " ++ s')
      (.text (r.inText ++ " " ++ op.symbol ++ " " ++ r'.inText)) where
  printed depth := by rw [Node.source, first.printed, second.printed, ok_bind, ok_bind]
  rendered := by rw [Node.render, first.rendered, second.rendered, ok_bind, ok_bind]
  same plain := by
    rw [first.inText fun paren => plain (.inl paren), second.inText fun paren => plain (.inr paren)]
  parted paren := by
    simp only [Rendering.inText_text, String.toList_append]
    -- The first parenthesis counts: a left operand without one is the same text in both.
    by_cases early : left.HasParen
    · simp only [List.append_assoc]
      exact (first.parted early).before _ _
    · rw [first.inText early]
      exact (second.parted (paren.resolve_left early)).after _

theorem paren (body : Compared t s r) : Compared (.paren t) ("(" ++ s ++ ")") .nothing where
  printed depth := by rw [Node.source, body.printed, ok_bind]
  rendered := by rw [Node.render]
  same plain := absurd trivial plain
  parted _ := ⟨[], s.toList ++ [')'], ['o', 'n', 'e'], by simp, by simp [Rendering.inText]⟩

theorem eq_text_iff (compared : Compared t s r) : r = .text s ↔ ¬ t.HasParen := by
  refine ⟨fun equal paren => ?_, compared.same⟩
  have parted := compared.parted paren
  rw [equal] at parted
  exact parted.ne rfl

end Compared

theorem Node.IsExpression.exists_compared {t : Node} (expression : t.IsExpression) : ∃ s r, Compared t s r := by
  cases t with
  | number value => exact ⟨_, _, fun _ => by rw [source], by rw [render], fun _ => rfl, False.elim⟩
  | const value => exact ⟨_, _, fun _ => by rw [source], by rw [render], fun _ => rfl, False.elim⟩
  | identifier name => exact ⟨_, _, fun _ => by rw [source], by rw [render], fun _ => rfl, False.elim⟩
  | unary op argument =>
      have inner : argument.IsExpression := expression
      obtain ⟨s, r, compared⟩ := inner.exists_compared
      exact ⟨_, _, compared.unary op⟩
  | binary op left right =>
      have inner : left.IsExpression ∧ right.IsExpression := expression
      obtain ⟨s, r, first⟩ := inner.1.exists_compared
      obtain ⟨s', r', second⟩ := inner.2.exists_compared
      exact ⟨_, _, first.binary op second⟩
  | paren body =>
      have inner : body.IsExpression := expression
      obtain ⟨s, r, compared⟩ := inner.exists_compared
      exact ⟨_, _, compared.paren⟩
  | string text => exact expression.elim
  | call callee arguments => exact expression.elim
  | loop test body => exact expression.elim
  | branch test yes no => exact expression.elim
termination_by structural t

/-- The rendering of an expression is its source text, at one depth and then at every depth, exactly when nothing in it
stands in parentheses. Neither printer fails on an expression, whatever its names are. -/
theorem rendered_as_source_iff {t : Node} (expression : t.IsExpression) :
    ∃ r, t.render = .ok r ∧ ∀ depth, ∃ source, t.source depth = .ok source ∧ (r = .text source ↔ ¬ t.HasParen) := by
  obtain ⟨s, r, compared⟩ := expression.exists_compared
  exact ⟨r, compared.rendered, fun depth => ⟨s, compared.printed depth, compared.eq_text_iff⟩⟩

section Samples

/-- Names that look like what the printers write around them. -/
abbrev oddNames : List String := ["None", "(None)"]

def oddName (i : Fin 2) : Expr [] oddNames := .literal (.identifier .byte i (Nat.lt_trans i.isLt (by decide)))

/-- The sum of the two names under a sign, which the walk puts in parentheses. -/
def enclosedSample : Expr [] oddNames := .unary .minus (.binary .add (oddName 0) (oddName 1))

/-- A name that brings its own parentheses. -/
def bracketedSample : Expr [] oddNames := .unary .minus (oddName 1)

theorem rendered_as_source_samples :
    (∃ t, decompile [] oddNames (programCode [.expression enclosedSample]) = .ok [t] ∧ t.IsExpression ∧ t.HasParen ∧
      t.source 0 = .ok "-(None + (None))" ∧ t.render = .ok (.text "-None") ∧
      ∀ depth source, t.source depth = .ok source → t.render ≠ .ok (.text source)) ∧
    ∃ t, decompile [] oddNames (programCode [.expression bracketedSample]) = .ok [t] ∧ t.IsExpression ∧ ¬ t.HasParen ∧
      ∀ depth, ∃ source, t.source depth = .ok source ∧ t.render = .ok (.text source) := by
  have enclosed : enclosedSample.node.IsExpression := ⟨trivial, trivial⟩
  have bracketed : bracketedSample.node.IsExpression := trivial
  refine ⟨⟨enclosedSample.node, decompile_programCode _, enclosed, trivial, rfl, rfl, ?_⟩,
    bracketedSample.node, decompile_programCode _, bracketed, id, ?_⟩
  · intro depth source printed rendered
    obtain ⟨r, rendered', each⟩ := rendered_as_source_iff enclosed
    obtain ⟨source', printed', agree⟩ := each depth
    rw [printed'] at printed
    cases printed
    rw [rendered] at rendered'
    cases rendered'
    exact agree.mp rfl trivial
  · intro depth
    obtain ⟨r, rendered, each⟩ := rendered_as_source_iff bracketed
    obtain ⟨source, printed, agree⟩ := each depth
    exact ⟨source, printed, by rw [rendered, agree.mpr id]⟩

end Samples

end GameData.Script
