import Mathlib
import GameData.Proofs.Loading
import GameData.Script.Source

/-!
Line breaks and tabs in source text.

A line is broken before a call among arguments, before an argument that would make it too long, and around statements.
How long a line is depends on the breaks before, and how far it is indented on the depth. Main statement: without its
line breaks and tabs the text of a tree is that of a printer that has neither lines nor depths.
-/
namespace GameData.Script

namespace Node

/-- Induction over trees, where the parts of a tree are also those in lists. -/
@[elab_as_elim]
theorem parts_induction {P : Node → Prop} (number : ∀ value, P (.number value)) (const : ∀ value, P (.const value))
    (string : ∀ text, P (.string text)) (identifier : ∀ name, P (.identifier name))
    (unary : ∀ op argument, P argument → P (.unary op argument))
    (binary : ∀ op left right, P left → P right → P (.binary op left right))
    (call : ∀ callee arguments, P callee → (∀ argument ∈ arguments, ∀ n ∈ argument, P n) → P (.call callee arguments))
    (paren : ∀ body, P body → P (.paren body))
    (loop : ∀ test body, P test → (∀ n ∈ body, P n) → P (.loop test body))
    (branch : ∀ test yes no, P test → (∀ n ∈ yes, P n) → (∀ part, no = some part → ∀ n ∈ part, P n) →
      P (.branch test yes no))
    (t : Node) : P t := by
  refine @Node.rec P (fun arguments => ∀ argument ∈ arguments, ∀ n ∈ argument, P n) (fun body => ∀ n ∈ body, P n)
    (fun no => ∀ part, no = some part → ∀ n ∈ part, P n)
    number const string identifier unary binary call paren loop branch ?_ ?_ ?_ ?_ ?_ ?_ t
  · exact List.forall_mem_nil _
  · intro argument arguments first others
    exact List.forall_mem_cons.mpr ⟨first, others⟩
  · exact List.forall_mem_nil _
  · intro n body first others
    exact List.forall_mem_cons.mpr ⟨first, others⟩
  · intro part none
    cases none
  · intro body each part same
    cases same
    exact each

mutual

def oneLine : Node → Except Fault String
  | .number value => .ok value.display
  | .const value => .ok (toString value)
  | .string text => .ok text
  | .identifier name => .ok name
  | .unary op argument => do
    let a ← argument.oneLine
    .ok (op.symbol ++ a)
  | .binary op left right => do
    let l ← left.oneLine
    let r ← right.oneLine
    .ok (l ++ " " ++ op.symbol ++ " " ++ r)
  | .call callee arguments => do
    let c ← callee.oneLine
    let parts ← argumentsOneLine arguments
    .ok (c ++ "(" ++ ", ".intercalate parts ++ ")")
  | .paren body => do
    let b ← body.oneLine
    .ok ("(" ++ b ++ ")")
  | .loop test body => do
    let t ← test.oneLine
    let b ← bodyOneLine (fun _ => false) body
    .ok ("while(" ++ t ++ ")" ++ "\x7b" ++ b ++ "\x7d")
  | .branch test yes no => do
    let t ← test.oneLine
    let y ← bodyOneLine (fun s => !s.isBranch) yes
    let n ← noOneLine no
    .ok ("if(" ++ t ++ ")" ++ "\x7b" ++ y ++ "\x7d" ++ n)

def argumentsOneLine : List (List Node) → Except Fault (List String)
  | [] => .ok []
  | [] :: _ => .error (.index .list)
  | (first :: _) :: rest => do
    let s ← first.oneLine
    let more ← argumentsOneLine rest
    .ok (s :: more)

/-- The texts of statements, those that are `ended` with a semicolon. -/
def bodyOneLine (ended : Node → Bool) : List Node → Except Fault String
  | [] => .ok ""
  | s :: rest => do
    let t ← s.oneLine
    let more ← bodyOneLine ended rest
    .ok (t ++ (if ended s then ";" else "") ++ more)

def noOneLine : Option (List Node) → Except Fault String
  | none => .ok ""
  | some body => do
    let b ← bodyOneLine (fun s => !s.isBranch) body
    .ok ("else\x7b" ++ b ++ "\x7d")

end

mutual

/-- The texts of the literals that are printed, in their order. -/
def literals : Node → List String
  | .number value => [value.display]
  | .const value => [toString value]
  | .string text => [text]
  | .identifier name => [name]
  | .unary _ argument => argument.literals
  | .binary _ left right => left.literals ++ right.literals
  | .call callee arguments => callee.literals ++ argumentLiterals arguments
  | .paren body => body.literals
  | .loop test body => test.literals ++ bodyLiterals body
  | .branch test yes no => test.literals ++ bodyLiterals yes ++ noLiterals no

def argumentLiterals : List (List Node) → List String
  | [] => []
  | [] :: rest => argumentLiterals rest
  | (first :: _) :: rest => first.literals ++ argumentLiterals rest

def bodyLiterals : List Node → List String
  | [] => []
  | s :: rest => s.literals ++ bodyLiterals rest

def noLiterals : Option (List Node) → List String
  | none => []
  | some body => bodyLiterals body

end

end Node

section Texts

def isBreak (c : Char) : Bool := c == '\n' || c == '\t'

def withoutBreaks (s : String) : String := String.ofList (s.toList.filter fun c => !isBreak c)

def breaks (s : String) : List Char := s.toList.filter isBreak

@[simp] theorem withoutBreaks_append (a b : String) : withoutBreaks (a ++ b) = withoutBreaks a ++ withoutBreaks b := by
  simp [withoutBreaks]

@[simp] theorem breaks_append (a b : String) : breaks (a ++ b) = breaks a ++ breaks b := by
  simp [breaks]

@[simp] theorem withoutBreaks_tabs (n : Nat) : withoutBreaks (tabs n) = "" := by
  simp [withoutBreaks, tabs, isBreak]

theorem filter_intercalate (p : Char → Bool) (between : List Char) (parts : List (List Char)) :
    (between.intercalate parts).filter p = (between.filter p).intercalate (parts.map (List.filter p)) := by
  induction parts with
  | nil => rfl
  | cons part parts ih =>
      cases parts with
      | nil => simp
      | cons next parts =>
          rw [List.intercalate_cons_cons, List.filter_append, List.filter_append, ih]
          simp [List.intercalate_cons_cons]

theorem withoutBreaks_intercalate (between : String) (parts : List String) :
    withoutBreaks (between.intercalate parts) = (withoutBreaks between).intercalate (parts.map withoutBreaks) := by
  rw [← String.toList_inj, withoutBreaks, String.toList_ofList, String.toList_intercalate, filter_intercalate,
    String.toList_intercalate, List.map_map, List.map_map]
  simp [withoutBreaks, Function.comp_def]

theorem breaks_intercalate {between : String} (none : breaks between = []) (parts : List String) :
    breaks (between.intercalate parts) = parts.flatMap breaks := by
  have inside : between.toList.filter isBreak = [] := none
  rw [breaks, String.toList_intercalate, filter_intercalate, inside, List.map_map]
  induction parts with
  | nil => rfl
  | cons part parts ih =>
      cases parts with
      | nil => simp [breaks]
      | cons next parts =>
          rw [List.map_cons] at ih ⊢
          rw [List.map_cons, List.intercalate_cons_cons, ih, List.append_nil, List.flatMap_cons]
          rfl

end Texts

/-- Two computations in step: they fail alike, or their results are the same to `p`, and to `q` after one more step. -/
theorem map_bind_congr {α β γ δ : Type} {p : α → γ} {q : β → δ} {x y : Except Fault α} {f g : α → Except Fault β}
    (same : x.map p = y.map p) (next : ∀ a b, p a = p b → (f a).map q = (g b).map q) :
    (x >>= f).map q = (y >>= g).map q := by
  cases x with
  | error e =>
      cases y with
      | error e' =>
          cases same
          rfl
      | ok b => cases same
  | ok a =>
      cases y with
      | error e' => cases same
      | ok b => exact next a b (Except.ok.inj same)

open Node

section Arguments

/-- What is put in front of an argument on a line that holds `length` characters. -/
def breakBefore (depth length : Nat) (first : Node) (s : String) : String :=
  if first.isCall then "\n" ++ tabs (depth + 1) else if 300 < length + s.length then "\n" else ""

def lengthAfter (depth length : Nat) (first : Node) (s : String) : Nat :=
  if first.isCall ∨ 300 < length + s.length then (breakBefore depth length first s ++ s).length + 2
  else length + (s.length + 2)

theorem argumentSources_cons (depth length : Nat) (first : Node) (more : List Node) (rest : List (List Node)) :
    argumentSources depth length ((first :: more) :: rest) = (do
      let s ← first.source (depth + 1)
      let others ← argumentSources depth (lengthAfter depth length first s) rest
      .ok ((breakBefore depth length first s ++ s) :: others)) := by
  rw [argumentSources]
  congr 1
  funext s
  by_cases call : first.isCall
  · simp [breakBefore, lengthAfter, call]
  · by_cases long : 300 < length + s.length
    · simp [breakBefore, lengthAfter, call, long]
    · simp [breakBefore, lengthAfter, call, long]

theorem withoutBreaks_breakBefore (depth length : Nat) (first : Node) (s : String) :
    withoutBreaks (breakBefore depth length first s) = "" := by
  have newline : withoutBreaks "\n" = "" := by decide
  unfold breakBefore
  split
  · simp [newline]
  · split
    · exact newline
    · decide

/-- The text of a tree is at each depth the same without breaks as on one line. -/
def SameCode (n : Node) : Prop := ∀ depth, (n.source depth).map withoutBreaks = n.oneLine.map withoutBreaks

theorem argumentSources_code {arguments : List (List Node)} (each : ∀ argument ∈ arguments, ∀ n ∈ argument, SameCode n)
    (depth length : Nat) : (argumentSources depth length arguments).map (List.map withoutBreaks) =
      (argumentsOneLine arguments).map (List.map withoutBreaks) := by
  -- The length of the line runs along, so this is said for all lengths.
  induction arguments generalizing length with
  | nil => rw [argumentSources, argumentsOneLine]
  | cons argument arguments ih =>
      obtain ⟨here, later⟩ := List.forall_mem_cons.mp each
      cases argument with
      | nil => rw [argumentSources, argumentsOneLine]
      | cons first more =>
          rw [argumentSources_cons, argumentsOneLine]
          refine map_bind_congr (here first List.mem_cons_self (depth + 1)) fun s line same => ?_
          refine map_bind_congr (ih later _) fun others lines equal => ?_
          simp [Except.map, withoutBreaks_breakBefore, same, equal]

end Arguments

section Bodies

/-- A loop over statements that prints each at a depth and passes it through `ending`. -/
structure PrintsEach (depth : Nat) (ending : Node → String → String) (body : List Node → Except Fault String) :
    Prop where
  nil : body [] = .ok ""
  cons : ∀ s rest, body (s :: rest) = do
    let t ← s.source depth
    let more ← body rest
    .ok (ending s t ++ more)

theorem prints_loopBody (depth : Nat) : PrintsEach (depth + 1) (fun _ t => t ++ "\n") (loopBody depth) :=
  ⟨by rw [loopBody], fun s rest => by rw [loopBody]⟩

theorem prints_yesBody (depth : Nat) :
    PrintsEach (depth + 1) (fun s t => if s.isBranch then t else tabs (depth + 1) ++ t ++ ";\n") (yesBody depth) :=
  ⟨by rw [yesBody], fun s rest => by rw [yesBody]⟩

theorem prints_noBody (depth : Nat) :
    PrintsEach (depth + 1) (fun s t => if s.isBranch then t ++ "\n" else tabs (depth + 1) ++ t ++ ";\n")
      (noBody depth) :=
  ⟨by rw [noBody], fun s rest => by rw [noBody]⟩

theorem PrintsEach.code {depth : Nat} {ending : Node → String → String} {body : List Node → Except Fault String}
    (prints : PrintsEach depth ending body) {ended : Node → Bool}
    (ends : ∀ s t, withoutBreaks (ending s t) = withoutBreaks t ++ if ended s then ";" else "")
    {ss : List Node} (each : ∀ s ∈ ss, SameCode s) :
    (body ss).map withoutBreaks = (bodyOneLine ended ss).map withoutBreaks := by
  induction ss with
  | nil => rw [prints.nil, bodyOneLine]
  | cons s rest ih =>
      obtain ⟨here, later⟩ := List.forall_mem_cons.mp each
      have mark : withoutBreaks (if ended s then ";" else "") = if ended s then ";" else "" := by
        split <;> decide
      rw [prints.cons, bodyOneLine]
      refine map_bind_congr (here depth) fun t line same => ?_
      refine map_bind_congr (ih later) fun more lines equal => ?_
      simp [Except.map, ends, same, equal, mark]

/-- The ends of lines without their breaks. -/
theorem withoutBreaks_ends : withoutBreaks "\n" = "" ∧ withoutBreaks ";\n" = ";" ∧ withoutBreaks ")\n" = ")" ∧
    withoutBreaks "\x7b\n" = "\x7b" ∧ withoutBreaks "\x7d\n" = "\x7d" ∧ withoutBreaks "else\n" = "else" := by
  decide

theorem withoutBreaks_marks : withoutBreaks ")" = ")" ∧ withoutBreaks "\x7b" = "\x7b" ∧ withoutBreaks "\x7d" = "\x7d" ∧
    withoutBreaks "else\x7b" = "else\x7b" := by
  decide

variable {ss : List Node} (each : ∀ s ∈ ss, SameCode s) (depth : Nat)
include each

theorem loopBody_code :
    (loopBody depth ss).map withoutBreaks = (bodyOneLine (fun _ => false) ss).map withoutBreaks := by
  refine (prints_loopBody depth).code (fun s t => ?_) each
  simp [withoutBreaks_ends]

theorem yesBody_code :
    (yesBody depth ss).map withoutBreaks = (bodyOneLine (fun s => !s.isBranch) ss).map withoutBreaks := by
  refine (prints_yesBody depth).code (fun s t => ?_) each
  by_cases branch : s.isBranch <;> simp [branch, withoutBreaks_ends]

theorem noBody_code :
    (noBody depth ss).map withoutBreaks = (bodyOneLine (fun s => !s.isBranch) ss).map withoutBreaks := by
  refine (prints_noBody depth).code (fun s t => ?_) each
  by_cases branch : s.isBranch <;> simp [branch, withoutBreaks_ends]

end Bodies

theorem noPart_code {no : Option (List Node)} (each : ∀ part, no = some part → ∀ s ∈ part, SameCode s) (depth : Nat) :
    (noPart depth no).map withoutBreaks = (noOneLine no).map withoutBreaks := by
  cases no with
  | none => rw [noPart, noOneLine]
  | some body =>
      rw [noPart, noOneLine]
      refine map_bind_congr (noBody_code (each body rfl) depth) fun b line same => ?_
      simp [Except.map, same, withoutBreaks_ends, withoutBreaks_marks]

theorem sameCode (t : Node) : SameCode t := by
  induction t using Node.parts_induction with
  | number value => exact fun depth => by rw [source, oneLine]
  | const value => exact fun depth => by rw [source, oneLine]
  | string text => exact fun depth => by rw [source, oneLine]
  | identifier name => exact fun depth => by rw [source, oneLine]
  | unary op argument ih =>
      intro depth
      rw [source, oneLine]
      refine map_bind_congr (ih _) fun a line same => ?_
      simp [Except.map, same]
  | binary op left right first second =>
      intro depth
      rw [source, oneLine]
      refine map_bind_congr (first _) fun l line same => ?_
      refine map_bind_congr (second _) fun r line' equal => ?_
      simp [Except.map, same, equal]
  | call callee arguments function each =>
      intro depth
      rw [source, oneLine]
      refine map_bind_congr (function _) fun c line same => ?_
      refine map_bind_congr (argumentSources_code each depth _) fun parts lines equal => ?_
      simp [Except.map, same, equal, withoutBreaks_intercalate]
  | paren body ih =>
      intro depth
      rw [source, oneLine]
      refine map_bind_congr (ih _) fun b line same => ?_
      simp [Except.map, same]
  | loop test body condition each =>
      intro depth
      rw [source, oneLine]
      refine map_bind_congr (condition _) fun t line same => ?_
      refine map_bind_congr (loopBody_code each depth) fun b lines equal => ?_
      simp [Except.map, same, equal, withoutBreaks_ends, withoutBreaks_marks]
  | branch test yes no condition eachYes eachNo =>
      intro depth
      rw [source, oneLine]
      refine map_bind_congr (condition _) fun t line same => ?_
      refine map_bind_congr (yesBody_code eachYes depth) fun y lines equal => ?_
      refine map_bind_congr (noPart_code eachNo depth) fun n lines' alike => ?_
      simp [Except.map, same, equal, alike, withoutBreaks_ends, withoutBreaks_marks]

section Literals

theorem breaks_symbol (op : UnaryOp) : breaks op.symbol = [] := by
  cases op <;> decide

theorem breaks_binarySymbol (op : BinaryOp) : breaks op.symbol = [] := by
  cases op <;> decide

theorem breaks_marks : breaks " " = [] ∧ breaks "(" = [] ∧ breaks ")" = [] ∧ breaks ", " = [] ∧ breaks "\x7b" = [] ∧
    breaks "\x7d" = [] ∧ breaks "while(" = [] ∧ breaks "if(" = [] ∧ breaks "else\x7b" = [] := by
  decide

def BrokenInLiterals (n : Node) : Prop := ∀ line, n.oneLine = .ok line → breaks line = n.literals.flatMap breaks

theorem argumentsOneLine_breaks {arguments : List (List Node)}
    (each : ∀ argument ∈ arguments, ∀ n ∈ argument, BrokenInLiterals n) {lines : List String}
    (printed : argumentsOneLine arguments = .ok lines) :
    lines.flatMap breaks = (argumentLiterals arguments).flatMap breaks := by
  induction arguments generalizing lines with
  | nil =>
      rw [argumentsOneLine] at printed
      cases printed
      rw [argumentLiterals, List.flatMap_nil]
  | cons argument arguments ih =>
      obtain ⟨here, later⟩ := List.forall_mem_cons.mp each
      cases argument with
      | nil =>
          rw [argumentsOneLine] at printed
          cases printed
      | cons first more =>
          rw [argumentsOneLine] at printed
          obtain ⟨s, inside, printed⟩ := bind_eq_ok.mp printed
          obtain ⟨others, behind, printed⟩ := bind_eq_ok.mp printed
          cases printed
          rw [argumentLiterals, List.flatMap_cons, List.flatMap_append, here first List.mem_cons_self s inside,
            ih later behind]

theorem bodyOneLine_breaks {ended : Node → Bool} {ss : List Node} (each : ∀ s ∈ ss, BrokenInLiterals s) {line : String}
    (printed : bodyOneLine ended ss = .ok line) : breaks line = (bodyLiterals ss).flatMap breaks := by
  induction ss generalizing line with
  | nil =>
      rw [bodyOneLine] at printed
      cases printed
      rw [bodyLiterals, List.flatMap_nil]
      rfl
  | cons s rest ih =>
      obtain ⟨here, later⟩ := List.forall_mem_cons.mp each
      rw [bodyOneLine] at printed
      obtain ⟨t, inside, printed⟩ := bind_eq_ok.mp printed
      obtain ⟨more, behind, printed⟩ := bind_eq_ok.mp printed
      cases printed
      have mark : breaks (if ended s then ";" else "") = [] := by
        split <;> decide
      rw [bodyLiterals, breaks_append, breaks_append, mark, List.append_nil, here t inside, ih later behind,
        List.flatMap_append]

theorem noOneLine_breaks {no : Option (List Node)} (each : ∀ part, no = some part → ∀ s ∈ part, BrokenInLiterals s)
    {line : String} (printed : noOneLine no = .ok line) : breaks line = (noLiterals no).flatMap breaks := by
  cases no with
  | none =>
      rw [noOneLine] at printed
      cases printed
      rw [noLiterals]
      rfl
  | some body =>
      rw [noOneLine] at printed
      obtain ⟨b, inside, printed⟩ := bind_eq_ok.mp printed
      cases printed
      simp [breaks_marks, noLiterals, bodyOneLine_breaks (each body rfl) inside]

theorem brokenInLiterals (t : Node) : BrokenInLiterals t := by
  induction t using Node.parts_induction with
  | number value =>
      rintro line ⟨⟩
      simp [literals]
  | const value =>
      rintro line ⟨⟩
      simp [literals]
  | string text =>
      rintro line ⟨⟩
      simp [literals]
  | identifier name =>
      rintro line ⟨⟩
      simp [literals]
  | unary op argument ih =>
      intro line printed
      rw [oneLine] at printed
      obtain ⟨a, inside, printed⟩ := bind_eq_ok.mp printed
      cases printed
      simp [literals, breaks_symbol, ih a inside]
  | binary op left right first second =>
      intro line printed
      rw [oneLine] at printed
      obtain ⟨l, before, printed⟩ := bind_eq_ok.mp printed
      obtain ⟨r, behind, printed⟩ := bind_eq_ok.mp printed
      cases printed
      simp [literals, breaks_marks, breaks_binarySymbol, first l before, second r behind]
  | call callee arguments function each =>
      intro line printed
      rw [oneLine] at printed
      obtain ⟨c, before, printed⟩ := bind_eq_ok.mp printed
      obtain ⟨lines, inside, printed⟩ := bind_eq_ok.mp printed
      cases printed
      simp [literals, breaks_marks, breaks_intercalate, function c before, argumentsOneLine_breaks each inside]
  | paren body ih =>
      intro line printed
      rw [oneLine] at printed
      obtain ⟨b, inside, printed⟩ := bind_eq_ok.mp printed
      cases printed
      simp [literals, breaks_marks, ih b inside]
  | loop test body condition each =>
      intro line printed
      rw [oneLine] at printed
      obtain ⟨t, before, printed⟩ := bind_eq_ok.mp printed
      obtain ⟨b, inside, printed⟩ := bind_eq_ok.mp printed
      cases printed
      simp [literals, breaks_marks, condition t before, bodyOneLine_breaks each inside]
  | branch test yes no condition eachYes eachNo =>
      intro line printed
      rw [oneLine] at printed
      obtain ⟨t, before, printed⟩ := bind_eq_ok.mp printed
      obtain ⟨y, inside, printed⟩ := bind_eq_ok.mp printed
      obtain ⟨n, behind, printed⟩ := bind_eq_ok.mp printed
      cases printed
      simp [literals, breaks_marks, condition t before, bodyOneLine_breaks eachYes inside,
        noOneLine_breaks eachNo behind]

end Literals

/-- Deleting line breaks and tabs from the text of a tree leaves what it leaves of the text on one line, which has none
but those in literals; so the text is at every depth the same up to line breaks and tabs. -/
theorem source_breaks_no_code {t : Node} {depth : Nat} {text : String} (printed : t.source depth = .ok text) :
    ∃ line, t.oneLine = .ok line ∧ withoutBreaks text = withoutBreaks line ∧
      breaks line = t.literals.flatMap breaks ∧
      ∀ other, ∃ text', t.source other = .ok text' ∧ withoutBreaks text' = withoutBreaks text := by
  have same := sameCode t depth
  rw [printed] at same
  obtain ⟨line, oneLine, equal⟩ := map_eq_ok.mp same.symm
  refine ⟨line, oneLine, equal.symm, brokenInLiterals t line oneLine, fun other => ?_⟩
  have elsewhere := sameCode t other
  rw [oneLine] at elsewhere
  obtain ⟨text', printed', equal'⟩ := map_eq_ok.mp elsewhere
  exact ⟨text', printed', equal'.trans equal⟩

section Samples

def longName (n : Nat) : String := String.ofList (List.replicate n 'x')

theorem length_longName (n : Nat) : (longName n).length = n := by
  simp [longName]

theorem breaks_longName (n : Nat) : breaks (longName n) = [] := by
  simp [longName, breaks, isBreak]

/-- A branch on a call, with a tab in the first argument, a call as the second, and a third one that fills a line. -/
def brokenSample : Node :=
  .branch (.call (.identifier "f")
      [[.string "\"a\tb\""], [.call (.identifier "g") [[.identifier "a"]]], [.identifier (longName 300)]])
    [.loop (.identifier "c") [.identifier "d"]] (some [.branch (.identifier "e") [.identifier "h"] none])

def brokenText : String :=
  "\tif(f(\"a\tb\", \n\t\t\tg(a), \n" ++ longName 300 ++ "))\n\t\x7b\n\t\t\t\twhile(c)\n\t\t\x7b\nd\n\t\t\x7d\n;\n\t\x7d\n" ++
    "\telse\n\t\x7b\n\t\tif(e)\n\t\t\x7b\n\t\t\th;\n\t\t\x7d\n\n\t\x7d\n"

theorem source_brokenSample : brokenSample.source 1 = .ok brokenText := by
  have lengths : "f".length = 1 ∧ "\"a\tb\"".length = 5 ∧ "g".length = 1 ∧ "a".length = 1 := by decide
  simp only [brokenSample, source, argumentSources, loopBody, yesBody, noBody, noPart, lengths, length_longName, ok_bind,
    isCall, isBranch, tabs, Bool.false_eq_true, ↓reduceIte, String.length_append, Order.lt_add_one_iff,
    String.reduceAppend, Nat.reduceAdd, String.intercalate_singleton, String.intercalate_cons_cons, Nat.not_ofNat_le_one,
    ↓Char.isValue, List.reduceReplicate, List.replicate_one, String.ofList_cons, String.reduceSingleton,
    String.ofList_nil, String.append_empty, lt_add_iff_pos_left, add_pos_iff, Order.lt_two_iff, zero_le, or_true,
    Nat.reduceLT, Except.ok.injEq]
  -- The long name is left as it is; the texts on both sides of it are joined.
  unfold brokenText
  simp only [← String.append_assoc, String.reduceAppend]
  simp only [String.append_assoc, String.reduceAppend]

theorem literals_brokenSample : brokenSample.literals.flatMap breaks = ['\t'] := by
  have names : breaks "f" = [] ∧ breaks "\"a\tb\"" = ['\t'] ∧ breaks "g" = [] ∧ breaks "a" = [] ∧ breaks "c" = [] ∧
      breaks "d" = [] ∧ breaks "e" = [] ∧ breaks "h" = [] := by decide
  simp [brokenSample, literals, argumentLiterals, bodyLiterals, noLiterals, names, breaks_longName]

theorem source_breaks_no_code_brokenSample :
    brokenSample.source 1 = .ok brokenText ∧
      ∃ line, brokenSample.oneLine = .ok line ∧ withoutBreaks brokenText = withoutBreaks line ∧ breaks line = ['\t'] ∧
        ∀ other, ∃ text', brokenSample.source other = .ok text' ∧ withoutBreaks text' = withoutBreaks brokenText := by
  obtain ⟨line, oneLine, same, inside, others⟩ := source_breaks_no_code source_brokenSample
  exact ⟨source_brokenSample, line, oneLine, same, inside.trans literals_brokenSample, others⟩

end Samples

end GameData.Script
