import Mathlib
import GameData.Proofs.Script.Breaks

/-!
Semicolons in source text.

Four loops print statements: over the script, the body of a loop, and the two parts of a branch. Each decides for every
statement whether a semicolon ends it. In the body of a loop none is written, and in a branch one is written after
everything but another branch. Main statement: the semicolons are as many as the expression statements, less those in
the body of a loop, and more by the loops in a branch.
-/
namespace GameData.Script

/-- The list that a statement stands in. -/
inductive Place where
  | top | loop | branch
  deriving DecidableEq

namespace Node

mutual

/-- The statements inside a statement, at any depth, each with its place. -/
def nested : Node → List (Place × Node)
  | .loop _ body => statements .loop body
  | .branch _ yes none => statements .branch yes
  | .branch _ yes (some no) => statements .branch yes ++ statements .branch no
  | _ => []

def statements (place : Place) : List Node → List (Place × Node)
  | [] => []
  | s :: rest => (place, s) :: (s.nested ++ statements place rest)

end

/-- An expression whose literals meet a condition, each argument of a call leaving a value. -/
inductive ExpressionOver (P : String → Prop) : Node → Prop
  | number (value : Value) (text : P value.display) : ExpressionOver P (.number value)
  | const (value : Nat) (text : P (toString value)) : ExpressionOver P (.const value)
  | string (text : String) (holds : P text) : ExpressionOver P (.string text)
  | identifier (name : String) (holds : P name) : ExpressionOver P (.identifier name)
  | unary (op : UnaryOp) {argument : Node} (under : ExpressionOver P argument) : ExpressionOver P (.unary op argument)
  | binary (op : BinaryOp) {left right : Node} (first : ExpressionOver P left) (second : ExpressionOver P right) :
      ExpressionOver P (.binary op left right)
  | call {callee : Node} {arguments : List (List Node)} (function : ExpressionOver P callee) (supplied : [] ∉ arguments)
      (each : ∀ argument ∈ arguments, ∀ n ∈ argument, ExpressionOver P n) : ExpressionOver P (.call callee arguments)
  | paren {body : Node} (under : ExpressionOver P body) : ExpressionOver P (.paren body)

/-- A statement whose literals meet a condition: an expression, a loop, or a branch with or without an `else`. -/
inductive StatementOver (P : String → Prop) : Node → Prop
  | expression {n : Node} (holds : ExpressionOver P n) : StatementOver P n
  | loop {test : Node} {body : List Node} (condition : ExpressionOver P test) (each : ∀ s ∈ body, StatementOver P s) :
      StatementOver P (.loop test body)
  | branch {test : Node} {yes : List Node} (condition : ExpressionOver P test) (each : ∀ s ∈ yes, StatementOver P s) :
      StatementOver P (.branch test yes none)
  | branchElse {test : Node} {yes no : List Node} (condition : ExpressionOver P test)
      (eachYes : ∀ s ∈ yes, StatementOver P s) (eachNo : ∀ s ∈ no, StatementOver P s) :
      StatementOver P (.branch test yes (some no))

end Node

open Node

section Counting

/-- A statement that is no loop and no branch. -/
def isExpression (x : Place × Node) : Bool := !(x.2.isBranch || x.2.isLoop)

/-- An expression statement that no semicolon ends. -/
def isUnended (x : Place × Node) : Bool := x.1 = .loop && isExpression x

/-- A loop that a semicolon ends. -/
def isOverended (x : Place × Node) : Bool := x.1 = .branch && x.2.isLoop

def isEnded (x : Place × Node) : Bool :=
  match x.1 with
  | .top => isExpression x
  | .loop => false
  | .branch => !x.2.isBranch

theorem countP_isEnded (xs : List (Place × Node)) :
    xs.countP isEnded + xs.countP isUnended = xs.countP isExpression + xs.countP isOverended := by
  induction xs with
  | nil => rfl
  | cons x xs ih =>
      have here : (if isEnded x = true then 1 else 0) + (if isUnended x = true then 1 else 0) =
          (if isExpression x = true then 1 else 0) + (if isOverended x = true then 1 else 0) := by
        obtain ⟨place, s⟩ := x
        cases place <;> cases s <;> rfl
      simp only [List.countP_cons]
      omega

end Counting

section Texts

def Quiet (text : String) : Prop := ';' ∉ text.toList

instance (text : String) : Decidable (Quiet text) := inferInstanceAs (Decidable (';' ∉ text.toList))

def semicolons (text : String) : Nat := text.toList.count ';'

@[simp] theorem quiet_append (a b : String) : Quiet (a ++ b) ↔ Quiet a ∧ Quiet b := by
  simp [Quiet]

@[simp] theorem quiet_tabs (n : Nat) : Quiet (tabs n) := by
  simp [Quiet, tabs, List.mem_replicate]

@[simp] theorem semicolons_append (a b : String) : semicolons (a ++ b) = semicolons a + semicolons b := by
  simp [semicolons]

theorem Quiet.semicolons {text : String} (quiet : Quiet text) : semicolons text = 0 := List.count_eq_zero.mpr quiet

@[simp] theorem semicolons_newline : semicolons "\n" = 0 := by decide

@[simp] theorem semicolons_terminator : semicolons ";\n" = 1 := by decide

@[simp] theorem semicolons_tabs (n : Nat) : semicolons (tabs n) = 0 := (quiet_tabs n).semicolons

theorem quiet_intercalate {between : String} (quiet : Quiet between) {parts : List String}
    (each : ∀ part ∈ parts, Quiet part) : Quiet (between.intercalate parts) := by
  rw [Quiet, String.toList_intercalate]
  induction parts with
  | nil => exact List.not_mem_nil
  | cons part parts ih =>
      obtain ⟨first, others⟩ := List.forall_mem_cons.mp each
      cases parts with
      | nil => simpa [Quiet] using first
      | cons next parts =>
          rw [List.map_cons, List.map_cons, List.intercalate_cons_cons, List.mem_append, List.mem_append, not_or, not_or]
          exact ⟨⟨first, quiet⟩, ih others⟩

theorem quiet_unary (op : UnaryOp) : Quiet op.symbol := by
  cases op <;> decide

theorem quiet_binary (op : BinaryOp) : Quiet op.symbol := by
  cases op <;> decide

end Texts

section Expressions

theorem quiet_breakBefore (depth length : Nat) (first : Node) (s : String) :
    Quiet (breakBefore depth length first s) := by
  have newline : Quiet "\n" := by decide
  unfold breakBefore
  split
  · simp [newline]
  · split
    · exact newline
    · decide

theorem argumentSources_quiet {arguments : List (List Node)} (supplied : [] ∉ arguments)
    (each : ∀ argument ∈ arguments, ∀ n ∈ argument, ∀ depth, ∃ text, n.source depth = .ok text ∧ Quiet text)
    (depth length : Nat) :
    ∃ parts, argumentSources depth length arguments = .ok parts ∧ ∀ part ∈ parts, Quiet part := by
  induction arguments generalizing length with
  | nil => exact ⟨[], rfl, List.forall_mem_nil _⟩
  | cons argument arguments ih =>
      obtain ⟨here, later⟩ := List.forall_mem_cons.mp each
      obtain ⟨filled, others⟩ := not_or.mp (mt List.mem_cons.mpr supplied)
      cases argument with
      | nil => exact absurd rfl filled
      | cons first more =>
          obtain ⟨s, inside, quiet⟩ := here first List.mem_cons_self (depth + 1)
          obtain ⟨parts, printed, all⟩ := ih others later (lengthAfter depth length first s)
          refine ⟨_, by rw [argumentSources_cons, inside, ok_bind, printed, ok_bind], ?_⟩
          exact List.forall_mem_cons.mpr ⟨(quiet_append _ s).mpr ⟨quiet_breakBefore depth length first s, quiet⟩, all⟩

/-- An expression prints, and what it prints has no semicolon outside its literals. -/
theorem source_quiet {n : Node} (expression : n.ExpressionOver Quiet) (depth : Nat) :
    ∃ text, n.source depth = .ok text ∧ Quiet text := by
  have parens : Quiet "(" ∧ Quiet ")" := by decide
  induction expression generalizing depth with
  | number value quiet => exact ⟨_, rfl, quiet⟩
  | const value quiet => exact ⟨_, rfl, quiet⟩
  | string text quiet => exact ⟨_, rfl, quiet⟩
  | identifier name quiet => exact ⟨_, rfl, quiet⟩
  | unary op _ ih =>
      obtain ⟨a, inside, quiet⟩ := ih (depth + 1)
      exact ⟨op.symbol ++ a, by rw [source, inside, ok_bind], by simp [quiet_unary, quiet]⟩
  | binary op _ _ left right =>
      obtain ⟨l, printedLeft, quietLeft⟩ := left (depth + 1)
      obtain ⟨r, printedRight, quietRight⟩ := right (depth + 1)
      refine ⟨l ++ " " ++ op.symbol ++ " " ++ r, by rw [source, printedLeft, ok_bind, printedRight, ok_bind], ?_⟩
      have space : Quiet " " := by decide
      simp [quietLeft, quietRight, quiet_binary, space]
  | call _ supplied _ function arguments =>
      obtain ⟨c, printed, quiet⟩ := function (depth + 1)
      obtain ⟨parts, listed, all⟩ := argumentSources_quiet supplied arguments depth c.length
      refine ⟨c ++ "(" ++ ", ".intercalate parts ++ ")", by rw [source, printed, ok_bind, listed, ok_bind], ?_⟩
      have comma : Quiet (", ".intercalate parts) := quiet_intercalate (by decide) all
      simp [quiet, comma, parens]
  | paren _ ih =>
      obtain ⟨b, inside, quiet⟩ := ih (depth + 1)
      exact ⟨"(" ++ b ++ ")", by rw [source, inside, ok_bind], by simp [quiet, parens]⟩

theorem nested_expression {P : String → Prop} {n : Node} (expression : n.ExpressionOver P) : n.nested = [] := by
  cases expression <;> rw [nested] <;> simp

end Expressions

section Bodies

/-- A statement prints at every depth, with a semicolon for each ended statement inside it. -/
def PrintsEnded (s : Node) : Prop :=
  ∀ depth, ∃ text, s.source depth = .ok text ∧ semicolons text = s.nested.countP isEnded

theorem PrintsEach.semicolons {place : Place} {depth : Nat} {ending : Node → String → String}
    {body : List Node → Except Fault String} (prints : PrintsEach depth ending body)
    (ends : ∀ s t, semicolons (ending s t) = semicolons t + if isEnded (place, s) then 1 else 0)
    {ss : List Node} (each : ∀ s ∈ ss, PrintsEnded s) :
    ∃ text, body ss = .ok text ∧ semicolons text = (statements place ss).countP isEnded := by
  induction ss with
  | nil => exact ⟨"", prints.nil, by rw [statements]; decide⟩
  | cons s rest ih =>
      obtain ⟨here, later⟩ := List.forall_mem_cons.mp each
      obtain ⟨t, printed, inside⟩ := here depth
      obtain ⟨more, printedRest, behind⟩ := ih later
      refine ⟨ending s t ++ more, by rw [prints.cons, printed, ok_bind, printedRest, ok_bind], ?_⟩
      rw [statements, semicolons_append, ends, inside, behind, List.countP_cons, List.countP_append]
      omega

variable {ss : List Node} (each : ∀ s ∈ ss, PrintsEnded s)
include each

theorem loopBody_semicolons (depth : Nat) :
    ∃ text, loopBody depth ss = .ok text ∧ semicolons text = (statements .loop ss).countP isEnded := by
  refine (prints_loopBody depth).semicolons (fun s t => ?_) each
  simp [isEnded]

theorem yesBody_semicolons (depth : Nat) :
    ∃ text, yesBody depth ss = .ok text ∧ semicolons text = (statements .branch ss).countP isEnded := by
  refine (prints_yesBody depth).semicolons (fun s t => ?_) each
  by_cases branch : s.isBranch <;> simp [isEnded, branch]

theorem noBody_semicolons (depth : Nat) :
    ∃ text, noBody depth ss = .ok text ∧ semicolons text = (statements .branch ss).countP isEnded := by
  refine (prints_noBody depth).semicolons (fun s t => ?_) each
  by_cases branch : s.isBranch <;> simp [isEnded, branch]

theorem sourceText_semicolons :
    ∃ text, sourceText ss = .ok text ∧ semicolons text = (statements .top ss).countP isEnded := by
  have prints : PrintsEach 0 (fun s t => if s.isBranch || s.isLoop then t else t ++ ";\n") sourceText :=
    ⟨by rw [sourceText], fun s rest => by rw [sourceText]⟩
  refine prints.semicolons (fun s t => ?_) each
  by_cases block : s.isBranch || s.isLoop <;> simp [isEnded, isExpression, block]

end Bodies

section Statements

/-- Before the body of a block stands a head, and behind it a brace. -/
theorem semicolons_block {head : String} (quiet : Quiet head) (body : String) (depth : Nat) :
    semicolons (head ++ body ++ tabs depth ++ "\x7d\n") = semicolons body := by
  have brace : semicolons "\x7d\n" = 0 := by decide
  simp [quiet.semicolons, brace]

theorem quiet_head {word test : String} (opens : Quiet word) (quiet : Quiet test) (depth : Nat) :
    Quiet (tabs depth ++ word ++ test ++ ")\n" ++ tabs depth ++ "\x7b\n") := by
  have braces : Quiet ")\n" ∧ Quiet "\x7b\n" := by decide
  simp [opens, quiet, braces]

theorem printsEnded_statement {s : Node} (statement : s.StatementOver Quiet) : PrintsEnded s := by
  induction statement with
  | expression expression =>
      intro depth
      obtain ⟨text, printed, quiet⟩ := source_quiet expression depth
      exact ⟨text, printed, by rw [nested_expression expression, quiet.semicolons, List.countP_nil]⟩
  | loop condition _ ih =>
      intro depth
      obtain ⟨t, tested, quiet⟩ := source_quiet condition (depth + 1)
      obtain ⟨b, printed, counted⟩ := loopBody_semicolons ih depth
      refine ⟨_, by rw [source, tested, ok_bind, printed, ok_bind], ?_⟩
      rw [semicolons_block (quiet_head (by decide) quiet depth), counted, nested]
  | branch condition _ ih =>
      intro depth
      obtain ⟨t, tested, quiet⟩ := source_quiet condition (depth + 1)
      obtain ⟨y, printed, counted⟩ := yesBody_semicolons ih depth
      refine ⟨_, by rw [source, tested, ok_bind, printed, ok_bind, noPart, ok_bind], ?_⟩
      rw [String.append_empty, semicolons_block (quiet_head (by decide) quiet depth), counted, nested]
  | branchElse condition _ _ ihYes ihNo =>
      intro depth
      obtain ⟨t, tested, quiet⟩ := source_quiet condition (depth + 1)
      obtain ⟨y, printedYes, countedYes⟩ := yesBody_semicolons ihYes depth
      obtain ⟨n, printedNo, countedNo⟩ := noBody_semicolons ihNo depth
      have head : Quiet (tabs depth ++ "else\n" ++ tabs depth ++ "\x7b\n") := by
        simp
        decide
      refine ⟨_, by rw [source, tested, ok_bind, printedYes, ok_bind, noPart, printedNo, ok_bind, ok_bind], ?_⟩
      rw [semicolons_append, semicolons_block (quiet_head (by decide) quiet depth), semicolons_block head, countedYes,
        countedNo, nested, List.countP_append]

/-- Statements print, and the semicolons are their expression statements, less those in the body of a loop, and more by
the loops in a branch. -/
theorem semicolons_of_statements {trees : List Node} (quiet : ∀ s ∈ trees, s.StatementOver Quiet) :
    ∃ text, sourceText trees = .ok text ∧
      semicolons text + (statements .top trees).countP isUnended =
        (statements .top trees).countP isExpression + (statements .top trees).countP isOverended ∧
      (semicolons text = (statements .top trees).countP isExpression ↔
        (statements .top trees).countP isUnended = (statements .top trees).countP isOverended) := by
  obtain ⟨text, printed, counted⟩ := sourceText_semicolons fun s member => printsEnded_statement (quiet s member)
  have balance := countP_isEnded (statements .top trees)
  refine ⟨text, printed, by rw [counted, balance], ?_⟩
  constructor <;> intro equal <;> omega

/-- A call, then a branch with a loop in its first part, and in the loop two expressions and a branch. -/
def blockSample : List Node :=
  [.call (.identifier "f") [[.identifier "a"], [.string "\"s\""]],
    .branch (.identifier "a")
      [.identifier "b", .loop (.identifier "c")
        [.identifier "d", .unary .minus (.const 1), .branch (.identifier "e") [.identifier "g"] none]]
      (some [.identifier "h"])]

theorem semicolons_of_blockSample :
    (∀ s ∈ blockSample, s.StatementOver Quiet) ∧ ∃ text, sourceText blockSample = .ok text ∧
      semicolons text + 2 = 6 + 1 ∧ (semicolons text = 6 ↔ 2 = 1) := by
  have name : ∀ text, Quiet text → ExpressionOver Quiet (.identifier text) := fun text quiet => .identifier text quiet
  have call : ExpressionOver Quiet (.call (.identifier "f") [[.identifier "a"], [.string "\"s\""]]) := by
    refine .call (name "f" (by decide)) (by simp) (List.forall_mem_cons.mpr ⟨?_, List.forall_mem_singleton.mpr ?_⟩)
    · exact List.forall_mem_singleton.mpr (name "a" (by decide))
    · exact List.forall_mem_singleton.mpr (.string _ (by decide))
  have body : ∀ s ∈ [.identifier "d", .unary .minus (.const 1), .branch (.identifier "e") [.identifier "g"] none],
      StatementOver Quiet s := by
    refine List.forall_mem_cons.mpr ⟨.expression (name "d" (by decide)), List.forall_mem_cons.mpr ⟨?_, ?_⟩⟩
    · exact .expression (.unary _ (.const _ (by decide)))
    · refine List.forall_mem_singleton.mpr (.branch (name "e" (by decide)) (List.forall_mem_singleton.mpr ?_))
      exact .expression (name "g" (by decide))
  have holds : ∀ s ∈ blockSample, s.StatementOver Quiet := by
    refine List.forall_mem_cons.mpr ⟨.expression call, List.forall_mem_singleton.mpr ?_⟩
    refine .branchElse (name "a" (by decide)) (List.forall_mem_cons.mpr ⟨.expression (name "b" (by decide)), ?_⟩) ?_
    · exact List.forall_mem_singleton.mpr (.loop (name "c" (by decide)) body)
    · exact List.forall_mem_singleton.mpr (.expression (name "h" (by decide)))
  have counts : (statements .top blockSample).countP isUnended = 2 ∧
      (statements .top blockSample).countP isExpression = 6 ∧
      (statements .top blockSample).countP isOverended = 1 := by decide +kernel
  obtain ⟨unended, expressions, overended⟩ := counts
  have printed := semicolons_of_statements holds
  rw [unended, expressions, overended] at printed
  exact ⟨holds, printed⟩

/-- A loop around an expression prints no semicolon, and a branch around a loop prints one. -/
theorem semicolons_of_loops :
    sourceText [.loop (.identifier "a") [.identifier "b"]] = .ok "while(a)\n\x7b\nb\n\x7d\n" ∧
      (statements .top [.loop (.identifier "a") [.identifier "b"]]).countP isExpression = 1 ∧
      semicolons "while(a)\n\x7b\nb\n\x7d\n" = 0 ∧
      sourceText [.branch (.identifier "a") [.loop (.identifier "b") []] none] =
        .ok "if(a)\n\x7b\n\t\twhile(b)\n\t\x7b\n\t\x7d\n;\n\x7d\n" ∧
      (statements .top [.branch (.identifier "a") [.loop (.identifier "b") []] none]).countP isExpression = 0 ∧
      semicolons "if(a)\n\x7b\n\t\twhile(b)\n\t\x7b\n\t\x7d\n;\n\x7d\n" = 1 := by
  refine ⟨?_, ?_, ?_, ?_, ?_, ?_⟩ <;> decide +kernel

end Statements

end GameData.Script
