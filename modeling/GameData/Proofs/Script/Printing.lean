import GameData.Proofs.Script.Lexing
import GameData.Proofs.Script.Straight
import GameData.Script.Source

/-!
Printed expressions read back.

The walk encloses an operand whose operator ranks higher than the one above it. A sum ranks below a product, and an
operator does not rank above another one of its level. So a sum in a product is not enclosed, nor is a right operand of
the same level, nor an assignment to the left of another one; read by the precedence of C the printed text groups these
differently. All other expressions are read back as they were.
-/
namespace GameData.Script

variable {strings identifiers : List String}

namespace Formula

/-- The formula that a text is read as, without its parentheses. -/
def read (s : String) : Option Formula := ((lex .blank s.toList).bind (parse [] none)).map bare

def operator? : Formula → Option BinaryOp
  | .binary op _ _ => some op
  | _ => none

def Plain : Formula → Prop
  | .number _ => True
  | .name s => isIdentifier s = true
  | .unary _ argument => argument.Plain
  | .binary _ left right => left.Plain ∧ right.Plain
  | .paren body => body.Plain

end Formula

/-- A sum inside a product, which the walk does not enclose. -/
def BinaryOp.SumInProduct (op inner : BinaryOp) : Prop := (op = .mul ∨ op = .div) ∧ (inner = .add ∨ inner = .sub)

/-- Every left operand is enclosed if it has to be, except for a sum in a product and an assignment. -/
def BinaryOp.KeepsLeft (op inner : BinaryOp) : Prop := ¬ op.SumInProduct inner ∧ ¬ (op = .assign ∧ inner = .assign)

/-- Every right operand is enclosed if it has to be, except for a sum in a product and an operator of the same level
that groups to the left. -/
def BinaryOp.KeepsRight (op inner : BinaryOp) : Prop :=
  ¬ op.SumInProduct inner ∧ (op.level = inner.level → op = .assign)

instance (op inner : BinaryOp) : Decidable (op.SumInProduct inner) := inferInstanceAs (Decidable (_ ∧ _))

instance (op inner : BinaryOp) : Decidable (op.KeepsLeft inner) := inferInstanceAs (Decidable (_ ∧ _))

instance (op inner : BinaryOp) : Decidable (op.KeepsRight inner) := inferInstanceAs (Decidable (_ ∧ _))

/-- No operand is one that the walk fails to enclose. -/
def Formula.Kept : Formula → Prop
  | .number _ | .name _ => True
  | .unary _ argument => argument.Kept
  | .binary op left right => left.Kept ∧ right.Kept ∧ (∀ inner, left.operator? = some inner → op.KeepsLeft inner) ∧
      ∀ inner, right.operator? = some inner → op.KeepsRight inner
  | .paren body => body.Kept

namespace Formula

def underUnary : Formula → Formula
  | .unary op argument => .paren (.unary op argument)
  | .binary op left right => .paren (.binary op left right)
  | t => t

def underBinary (op : BinaryOp) : Formula → Formula
  | .binary inner left right =>
    if op.rank < inner.rank then .paren (.binary inner left right) else .binary inner left right
  | t => t

def enclosed : Formula → Formula
  | .unary op argument => .unary op argument.enclosed.underUnary
  | .binary op left right => .binary op (left.enclosed.underBinary op) (right.enclosed.underBinary op)
  | .paren body => .paren body.enclosed
  | t => t

end Formula

theorem BinaryOp.keepsLeft_iff (op inner : BinaryOp) :
    op.leftLevel ≤ (if op.rank < inner.rank then 11 else inner.level) ↔ op.KeepsLeft inner := by
  -- ranks and levels are two tables, compared for each pair of operators
  cases op <;> cases inner <;> decide

theorem BinaryOp.keepsRight_iff (op inner : BinaryOp) :
    op.rightLevel ≤ (if op.rank < inner.rank then 11 else inner.level) ↔ op.KeepsRight inner := by
  cases op <;> cases inner <;> decide

/-- The expression that a tree without calls and texts is; constants and other numbers are written alike. -/
def Node.formula? : Node → Option Formula
  | .number v => (index? v).map .number
  | .const n => some (.number n)
  | .identifier name => some (.name name)
  | .unary op argument => argument.formula?.map (.unary op)
  | .binary op left right => left.formula?.bind fun l => right.formula?.map (.binary op l)
  | .paren body => body.formula?.map .paren
  | .string _ | .call .. | .loop .. | .branch .. => none

namespace Formula

theorem operator?_enclosed (f : Formula) : f.enclosed.operator? = f.operator? := by
  cases f <;> rfl

theorem level_underBinary (op : BinaryOp) (t : Formula) :
    (t.underBinary op).level = t.operator?.elim 11 fun inner => if op.rank < inner.rank then 11 else inner.level := by
  cases t with
  | binary inner left right =>
      simp only [underBinary, operator?, Option.elim_some]
      split <;> rfl
  | _ => rfl

theorem leftLevel_le_iff (op : BinaryOp) (t : Formula) : op.leftLevel ≤ (t.underBinary op).level ↔
    ∀ inner, t.operator? = some inner → op.KeepsLeft inner := by
  rw [level_underBinary]
  cases t.operator? with
  | none => simp [op.leftLevel_le]
  | some inner => simp [op.keepsLeft_iff]

theorem rightLevel_le_iff (op : BinaryOp) (t : Formula) : op.rightLevel ≤ (t.underBinary op).level ↔
    ∀ inner, t.operator? = some inner → op.KeepsRight inner := by
  rw [level_underBinary]
  cases t.operator? with
  | none => simp [op.rightLevel_le]
  | some inner => simp [op.keepsRight_iff]

theorem grammatical_underBinary (op : BinaryOp) (t : Formula) : (t.underBinary op).Grammatical ↔ t.Grammatical := by
  cases t with
  | binary inner left right =>
      simp only [underBinary]
      split <;> rfl
  | _ => rfl

theorem grammatical_underUnary (t : Formula) : t.underUnary.Grammatical ∧ 11 ≤ t.underUnary.level ↔ t.Grammatical := by
  cases t <;> simp [underUnary, Grammatical, level]

/-- The parentheses that the walk puts in make a formula grammatical exactly when it encloses all that it has to. -/
theorem grammatical_enclosed_iff (f : Formula) : f.enclosed.Grammatical ↔ f.Kept := by
  induction f with
  | number n => rfl
  | name s => rfl
  | unary op argument ih => simp only [enclosed, Grammatical, Kept, grammatical_underUnary, ih]
  | binary op left right ihl ihr =>
      simp only [enclosed, Grammatical, Kept, grammatical_underBinary, leftLevel_le_iff, rightLevel_le_iff,
        operator?_enclosed, ihl, ihr]
  | paren body ih => exact ih

theorem bare_underUnary (t : Formula) : t.underUnary.bare = t.bare := by
  cases t <;> rfl

theorem bare_underBinary (op : BinaryOp) (t : Formula) : (t.underBinary op).bare = t.bare := by
  cases t with
  | binary inner left right =>
      simp only [underBinary]
      split <;> rfl
  | _ => rfl

theorem bare_enclosed (f : Formula) : f.enclosed.bare = f.bare := by
  induction f with
  | number n => rfl
  | name s => rfl
  | unary op argument ih => simp only [enclosed, bare, bare_underUnary, ih]
  | binary op left right ihl ihr => simp only [enclosed, bare, bare_underBinary, ihl, ihr]
  | paren body ih => exact ih

theorem spelled_underUnary {t : Formula} (spelled : t.Spelled) : t.underUnary.IsPrimary ∧ t.underUnary.Spelled := by
  cases t with
  | _ => exact ⟨trivial, spelled⟩

theorem spelled_underBinary {t : Formula} (op : BinaryOp) (spelled : t.Spelled) : (t.underBinary op).Spelled := by
  cases t with
  | binary inner left right =>
      simp only [underBinary]
      split <;> exact spelled
  | _ => exact spelled

theorem Plain.spelled {f : Formula} (plain : f.Plain) : f.enclosed.Spelled := by
  induction f with
  | number n => trivial
  | name s => exact plain
  | unary op argument ih => exact spelled_underUnary (ih plain)
  | binary op left right ihl ihr =>
      exact ⟨spelled_underBinary op (ihl plain.1), spelled_underBinary op (ihr plain.2)⟩
  | paren body ih => exact ih plain

/-- A text is read as a formula without parentheses exactly when that is how its tokens group. -/
theorem read_text_iff {t : Formula} (spelled : t.Spelled) :
    read (String.ofList t.text) = some t.bare ↔ t.Grammatical := by
  have tokens : lex .blank (String.ofList t.text).toList = some t.tokens := by
    rw [String.toList_ofList]
    exact lex_text_eq spelled
  rw [read, tokens, Option.bind_some, Option.map_eq_some_iff]
  constructor
  · rintro ⟨other, reads, same⟩
    obtain ⟨grammatical, written⟩ := parse_eq_some_iff.mp reads
    rwa [← eq_of_tokens_of_bare written same]
  · intro grammatical
    exact ⟨t, parse_eq_some_iff.mpr ⟨grammatical, rfl⟩, rfl⟩

end Formula

section Trees

theorem Node.formula?_underUnary (n : Node) : n.underUnary.formula? = n.formula?.map Formula.underUnary := by
  cases n with
  | number v => simp only [underUnary, formula?]; cases index? v <;> rfl
  | unary op argument => simp only [underUnary, formula?]; cases argument.formula? <;> rfl
  | binary op left right =>
      simp only [underUnary, formula?]
      cases left.formula? <;> cases right.formula? <;> rfl
  | paren body => simp only [underUnary, formula?]; cases body.formula? <;> rfl
  | _ => rfl

theorem Node.formula?_underBinary (op : BinaryOp) (n : Node) :
    (n.underBinary op).formula? = n.formula?.map (Formula.underBinary op) := by
  cases n with
  | number v => simp only [underBinary, formula?]; cases index? v <;> rfl
  | unary op argument => simp only [underBinary, formula?]; cases argument.formula? <;> rfl
  | binary inner left right =>
      simp only [underBinary]
      by_cases higher : op.rank < inner.rank
      · simp only [higher, if_true, formula?]
        cases left.formula? <;> cases right.formula? <;> simp [Formula.underBinary, higher]
      · simp only [higher, if_false, formula?]
        cases left.formula? <;> cases right.formula? <;> simp [Formula.underBinary, higher]
  | paren body => simp only [underBinary, formula?]; cases body.formula? <;> rfl
  | _ => rfl

theorem Literal.formula?_node (l : Literal strings identifiers) :
    l.node.formula? = l.node.formula?.map Formula.enclosed := by
  cases l with
  | constant c => cases c <;> rfl
  | _ => rfl

/-- The tree that the walk makes of the code of an expression is the expression with the parentheses put in. -/
theorem Expr.formula?_node (e : Expr strings identifiers) :
    e.node.formula? = e.tree.formula?.map Formula.enclosed := by
  cases e with
  | literal l => exact l.formula?_node
  | unary op argument =>
      simp only [node, tree, Node.formula?, Node.formula?_underUnary, argument.formula?_node, Option.map_map]
      rfl
  | binary op left right =>
      simp only [node, tree, Node.formula?, Node.formula?_underBinary, left.formula?_node, right.formula?_node]
      cases left.tree.formula? <;> cases right.tree.formula? <;> rfl
  | call callee arguments => rfl

theorem Expr.bare_of_formula? (e : Expr strings identifiers) {f : Formula} (h : e.tree.formula? = some f) :
    f.bare = f := by
  cases e with
  | literal l =>
      cases l with
      | number w n fits =>
          cases h
          rfl
      | constant c =>
          cases c <;> cases h <;> rfl
      | identifier w i fits =>
          cases h
          rfl
      | real x => cases h
      | string w i fits => cases h
  | unary op argument =>
      obtain ⟨a, inner, rfl⟩ := Option.map_eq_some_iff.mp h
      rw [Formula.bare, argument.bare_of_formula? inner]
  | binary op left right =>
      obtain ⟨l, first, h⟩ := Option.bind_eq_some_iff.mp h
      obtain ⟨r, second, rfl⟩ := Option.map_eq_some_iff.mp h
      rw [Formula.bare, left.bare_of_formula? first, right.bare_of_formula? second]
  | call callee arguments => cases h

/-- Trees are printed as the formulas they are. -/
theorem Node.source_of_formula? (n : Node) {t : Formula} (h : n.formula? = some t) (depth : Nat) :
    n.source depth = .ok (String.ofList t.text) := by
  cases n with
  | number v =>
      obtain ⟨k, index, rfl⟩ := Option.map_eq_some_iff.mp h
      cases eq_int_of_index? index
      rfl
  | const k =>
      cases h
      rfl
  | identifier name =>
      cases h
      rw [source, Formula.text, String.ofList_toList]
  | unary op argument =>
      obtain ⟨a, inner, rfl⟩ := Option.map_eq_some_iff.mp h
      rw [source, argument.source_of_formula? inner, ok_bind, Formula.text, String.ofList_append, String.ofList_toList]
  | binary op left right =>
      obtain ⟨l, first, h⟩ := Option.bind_eq_some_iff.mp h
      obtain ⟨r, second, rfl⟩ := Option.map_eq_some_iff.mp h
      rw [source, left.source_of_formula? first, right.source_of_formula? second, ok_bind, ok_bind]
      apply congrArg Except.ok
      apply String.toList_inj.mp
      simp [Formula.text]
  | paren body =>
      obtain ⟨b, inner, rfl⟩ := Option.map_eq_some_iff.mp h
      rw [source, body.source_of_formula? inner, ok_bind]
      apply congrArg Except.ok
      apply String.toList_inj.mp
      simp [Formula.text]
  | string _ | call _ _ | loop _ _ | branch _ _ _ => cases h

end Trees

/-- An expression over numbers, names and operators is compiled, walked and printed. By the precedence of C the printed
text is read as the same expression exactly when nothing in it is left without the parentheses it needs: no sum is an
operand of a product, no right operand has an operator of the same level unless it is an assignment, and no assignment
is the left operand of another one. -/
theorem printed_reads_back_iff (e : Expr strings identifiers) {f : Formula} (meant : e.tree.formula? = some f)
    (plain : f.Plain) (depth : Nat) :
    ∃ n text, decompile strings identifiers (programCode [.expression e]) = .ok [n] ∧ n.source depth = .ok text ∧
      (Formula.read text = some f ↔ f.Kept) := by
  have printed : e.node.formula? = some f.enclosed := by
    rw [e.formula?_node, meant, Option.map_some]
  refine ⟨e.node, String.ofList f.enclosed.text, decompile_programCode _, e.node.source_of_formula? printed depth, ?_⟩
  have same : f.enclosed.bare = f := f.bare_enclosed.trans (e.bare_of_formula? meant)
  have reads := Formula.read_text_iff plain.spelled
  rw [same] at reads
  rw [reads, Formula.grammatical_enclosed_iff]

section Samples

def nameSample (i : Fin 3) : Expr [] ["a", "b", "c"] := .literal (.identifier .byte i (Nat.lt_trans i.isLt (by decide)))

def numberSample : Expr [] ["a", "b", "c"] := .literal (.number .short 300 (by decide))

/-- `a = b - 300 - -(b + c)` -/
def keptSample : Expr [] ["a", "b", "c"] :=
  .binary .assign (nameSample 0) (.binary .sub (.binary .sub (nameSample 1) numberSample)
    (.unary .minus (.binary .add (nameSample 1) (nameSample 2))))

def keptFormula : Formula :=
  .binary .assign (.name "a") (.binary .sub (.binary .sub (.name "b") (.number 300))
    (.unary .minus (.binary .add (.name "b") (.name "c"))))

theorem printed_reads_back_keptSample :
    keptSample.tree.formula? = some keptFormula ∧ ∃ n text,
      decompile [] ["a", "b", "c"] (programCode [.expression keptSample]) = .ok [n] ∧ n.source 0 = .ok text ∧
        Formula.read text = some keptFormula := by
  have meant : keptSample.tree.formula? = some keptFormula := by decide +kernel
  have a : isIdentifier "a" = true := by decide +kernel
  have b : isIdentifier "b" = true := by decide +kernel
  have c : isIdentifier "c" = true := by decide +kernel
  have kept : keptFormula.Kept := by
    simp [keptFormula, Formula.Kept, Formula.operator?, BinaryOp.KeepsLeft, BinaryOp.KeepsRight, BinaryOp.SumInProduct,
      BinaryOp.level]
  obtain ⟨n, text, walked, printed, reads⟩ := printed_reads_back_iff keptSample meant ⟨a, ⟨b, trivial⟩, b, c⟩ 0
  exact ⟨meant, n, text, walked, printed, reads.mpr kept⟩

/-- `a * (b + c)` -/
def productSample : Expr [] ["a", "b", "c"] :=
  .binary .mul (nameSample 0) (.binary .add (nameSample 1) (nameSample 2))

/-- `a - (b - c)` -/
def differenceSample : Expr [] ["a", "b", "c"] :=
  .binary .sub (nameSample 0) (.binary .sub (nameSample 1) (nameSample 2))

/-- Printed without parentheses, a sum in a product and a difference on the right of another one are read as different
expressions. -/
theorem printed_without_parentheses :
    (∃ n, decompile [] ["a", "b", "c"] (programCode [.expression productSample]) = .ok [n] ∧
      n.source 0 = .ok "a * b + c" ∧ productSample.tree.formula? = some
        (.binary .mul (.name "a") (.binary .add (.name "b") (.name "c"))) ∧
      Formula.read "a * b + c" = some (.binary .add (.binary .mul (.name "a") (.name "b")) (.name "c"))) ∧
    ∃ n, decompile [] ["a", "b", "c"] (programCode [.expression differenceSample]) = .ok [n] ∧
      n.source 0 = .ok "a - b - c" ∧ differenceSample.tree.formula? = some
        (.binary .sub (.name "a") (.binary .sub (.name "b") (.name "c"))) ∧
      Formula.read "a - b - c" = some (.binary .sub (.binary .sub (.name "a") (.name "b")) (.name "c")) :=
  ⟨⟨_, decompile_programCode _, rfl, by decide +kernel, by decide +kernel⟩,
    _, decompile_programCode _, rfl, by decide +kernel, by decide +kernel⟩

end Samples

end GameData.Script
