import GameData.Proofs.Script.Walk

/-!
What holds of all trees that a walk leaves.

A walk makes its trees of literals, operators, calls, loops and branches, each over trees that it or another walk has
made before. So a condition that literals meet, and that passes from parts to the whole, holds of every tree in the end.
In particular the texts in the trees of a program come from its table of strings.
-/
namespace GameData.Script

/-- A condition on trees that literals meet, and that holds of a tree if it holds of the parts. -/
structure Grown (names : Names) (P : Node → Prop) : Prop where
  number : ∀ value, P (.number value)
  const : ∀ value, P (.const value)
  string : ∀ s ∈ names.strings, P (.string ("\"" ++ s ++ "\""))
  identifier : ∀ s ∈ names.identifiers, P (.identifier s)
  unary : ∀ op argument, P argument → P (.unary op argument)
  binary : ∀ op left right, P left → P right → P (.binary op left right)
  paren : ∀ body, P body → P (.paren body)
  call : ∀ callee arguments, P callee → (∀ argument ∈ arguments, ∀ n ∈ argument, P n) → P (.call callee arguments)
  loop : ∀ test body, P test → (∀ n ∈ body, P n) → P (.loop test body)
  branch : ∀ test yes no, P test → (∀ n ∈ yes, P n) → (∀ part, no = some part → ∀ n ∈ part, P n) →
    P (.branch test yes no)

theorem mem_of_pick {items : List String} {n : Int} {s : String} (h : item.pick items n = .ok s) : s ∈ items := by
  rw [item.pick] at h
  generalize (if n < 0 then n + (items.length : Int) else n) = place at h
  split at h
  · cases h
  · split at h
    case h_1 found =>
      cases h
      exact List.mem_of_getElem? found
    case h_2 => cases h

theorem mem_of_item {items : List String} {v : Value} {s : String} (h : item items v = .ok s) : s ∈ items := by
  cases v with
  | int n => exact mem_of_pick h
  | bool b => exact mem_of_pick h
  | _ => cases h

namespace Grown

variable {names : Names} {P : Node → Prop} (grown : Grown names P)
include grown

theorem literal {op : Opcode} {n : Node} (h : literal? names op = some (.ok n)) : P n := by
  obtain ⟨m, operand, size, addr⟩ := op
  cases m
  case push | pushb | pushw | pushf =>
    cases h
    exact grown.number operand
  case push0 | push1 | pushm =>
    cases h
    exact grown.const _
  case pushsi | pushsib | pushsiw =>
    obtain ⟨s, found, rfl⟩ := map_eq_ok.mp (Option.some.inj h)
    exact grown.string s (mem_of_item found)
  case pushii | pushiib | pushiiw =>
    obtain ⟨s, found, rfl⟩ := map_eq_ok.mp (Option.some.inj h)
    exact grown.identifier s (mem_of_item found)
  all_goals cases h

theorem underUnary {n : Node} (holds : P n) : P n.underUnary := by
  cases n with
  | unary op argument => exact grown.paren _ holds
  | binary op left right => exact grown.paren _ holds
  | _ => exact holds

theorem underBinary (op : BinaryOp) {n : Node} (holds : P n) : P (n.underBinary op) := by
  cases n with
  | binary inner left right =>
      rw [Node.underBinary]
      split
      · exact grown.paren _ holds
      · exact holds
  | _ => exact holds

/-- Walks with this fuel leave trees that meet the condition if those on the stack do. -/
def Leaves (names : Names) (P : Node → Prop) (code : List Opcode) (fuel : Nat) : Prop :=
  ∀ v until_ stack trees, (∀ n ∈ stack, P n) → walk names code fuel v until_ stack = .ok trees → ∀ n ∈ trees, P n

/-- The same for the walks of the arguments of a call. -/
def LeavesAll (names : Names) (P : Node → Prop) (code : List Opcode) (fuel : Nat) : Prop :=
  ∀ jumps arguments, walkAll names code fuel jumps = .ok arguments → ∀ argument ∈ arguments, ∀ n ∈ argument, P n

section Leaves

variable {code : List Opcode} {fuel : Nat} {v until_ : Value} {stack trees : List Node}

omit grown in
theorem of_pop {rest : List Node} {n : Node} (before : ∀ m ∈ stack, P m) (popped : pop stack = .ok (n, rest)) :
    P n ∧ ∀ m ∈ rest, P m := by
  cases stack with
  | nil => cases popped
  | cons m stack =>
      cases popped
      exact List.forall_mem_cons.mp before

omit grown in
theorem Leaves.fresh (walks : Leaves names P code fuel) (h : walk names code fuel v until_ [] = .ok trees) :
    ∀ n ∈ trees.reverse, P n := by
  intro n mem
  exact walks v until_ [] trees (List.forall_mem_nil _) h n (List.mem_reverse.mp mem)

omit grown in
theorem Leaves.push (walks : Leaves names P code fuel) {n : Node} (first : P n) (before : ∀ m ∈ stack, P m)
    (h : walk names code fuel v until_ (n :: stack) = .ok trees) : ∀ m ∈ trees, P m :=
  walks v until_ (n :: stack) trees (List.forall_mem_cons.mpr ⟨first, before⟩) h

theorem leaves_succ (walks : Leaves names P code fuel) (walksAll : LeavesAll names P code fuel) :
    Leaves names P code (fuel + 1) := by
  intro v until_ stack trees before h
  rw [walk] at h
  obtain ⟨op, _, h⟩ := bind_eq_ok.mp h
  split at h
  · cases h
    exact before
  · split at h
    case h_1 | h_2 =>
      cases h
      exact before
    case h_3 => exact walks _ _ _ _ before h
    case h_4 =>
      obtain ⟨⟨callee, rest⟩, popped, h⟩ := bind_eq_ok.mp h
      obtain ⟨jumps, _, h⟩ := bind_eq_ok.mp h
      obtain ⟨arguments, walked, h⟩ := bind_eq_ok.mp h
      obtain ⟨skip, _, h⟩ := bind_eq_ok.mp h
      obtain ⟨address, _, h⟩ := bind_eq_ok.mp h
      obtain ⟨first, others⟩ := of_pop before popped
      exact walks.push (grown.call _ _ first (walksAll _ _ walked)) others h
    case h_5 =>
      obtain ⟨after, _, h⟩ := bind_eq_ok.mp h
      obtain ⟨place, _, h⟩ := bind_eq_ok.mp h
      obtain ⟨skip, _, h⟩ := bind_eq_ok.mp h
      obtain ⟨way, _, h⟩ := bind_eq_ok.mp h
      cases way with
      | lt =>
          obtain ⟨⟨test, rest⟩, popped, h⟩ := bind_eq_ok.mp h
          obtain ⟨body, walked, h⟩ := bind_eq_ok.mp h
          obtain ⟨first, others⟩ := of_pop before popped
          exact walks.push (grown.loop _ _ first (walks.fresh walked)) others h
      | eq =>
          obtain ⟨⟨test, rest⟩, popped, h⟩ := bind_eq_ok.mp h
          obtain ⟨yes, walked, h⟩ := bind_eq_ok.mp h
          obtain ⟨first, others⟩ := of_pop before popped
          refine walks.push (grown.branch _ _ _ first (walks.fresh walked) ?_) others h
          intro part absent
          cases absent
      | gt =>
          obtain ⟨⟨test, rest⟩, popped, h⟩ := bind_eq_ok.mp h
          obtain ⟨yes, walked, h⟩ := bind_eq_ok.mp h
          obtain ⟨last, _, h⟩ := bind_eq_ok.mp h
          obtain ⟨no, walkedNo, h⟩ := bind_eq_ok.mp h
          obtain ⟨first, others⟩ := of_pop before popped
          refine walks.push (grown.branch _ _ _ first (walks.fresh walked) ?_) others h
          intro part present
          cases present
          exact walks.fresh walkedNo
    case h_6 =>
      split at h
      case h_1 outcome literal =>
        obtain ⟨n, rfl, h⟩ := bind_eq_ok.mp h
        exact walks.push (grown.literal literal) before h
      case h_2 u _ =>
        obtain ⟨⟨argument, rest⟩, popped, h⟩ := bind_eq_ok.mp h
        obtain ⟨first, others⟩ := of_pop before popped
        exact walks.push (grown.unary _ _ (grown.underUnary first)) others h
      case h_3 b _ =>
        obtain ⟨⟨right, rest⟩, popped, h⟩ := bind_eq_ok.mp h
        obtain ⟨⟨left, others⟩, poppedLeft, h⟩ := bind_eq_ok.mp h
        obtain ⟨onRight, later⟩ := of_pop before popped
        obtain ⟨onLeft, before⟩ := of_pop later poppedLeft
        exact walks.push (grown.binary _ _ _ (grown.underBinary _ onLeft) (grown.underBinary _ onRight)) before h
      case h_4 => cases h

omit grown in
theorem leavesAll_succ (walks : Leaves names P code fuel) (walksAll : LeavesAll names P code fuel) :
    LeavesAll names P code (fuel + 1) := by
  intro jumps arguments h
  cases jumps with
  | nil =>
      cases h
      exact List.forall_mem_nil _
  | cons jump jumps =>
      rw [walkAll] at h
      obtain ⟨argument, walked, h⟩ := bind_eq_ok.mp h
      obtain ⟨rest, others, h⟩ := bind_eq_ok.mp h
      cases h
      exact List.forall_mem_cons.mpr ⟨walks.fresh walked, walksAll _ _ others⟩

theorem leaves (code : List Opcode) (fuel : Nat) : Leaves names P code fuel ∧ LeavesAll names P code fuel := by
  induction fuel with
  | zero =>
      constructor
      · intro v until_ stack trees _ h
        cases h
      · intro jumps arguments h
        cases h
  | succ fuel ih => exact ⟨grown.leaves_succ ih.1 ih.2, leavesAll_succ ih.1 ih.2⟩

end Leaves

end Grown

theorem Grown.decompile {strings identifiers : List String} {P : Node → Prop}
    (grown : Grown (tables strings identifiers) P) {code : List Opcode} {trees : List Node}
    (h : decompile strings identifiers code = .ok trees) : ∀ n ∈ trees, P n := by
  obtain ⟨stack, walked, rfl⟩ := map_eq_ok.mp h
  exact (grown.leaves code _).1.fresh walked

inductive Node.Within (m : Node) : Node → Prop
  | self : Within m m
  | unary {op : UnaryOp} {argument : Node} : Within m argument → Within m (.unary op argument)
  | left {op : BinaryOp} {left right : Node} : Within m left → Within m (.binary op left right)
  | right {op : BinaryOp} {left right : Node} : Within m right → Within m (.binary op left right)
  | paren {body : Node} : Within m body → Within m (.paren body)
  | callee {callee : Node} {arguments : List (List Node)} : Within m callee → Within m (.call callee arguments)
  | argument {callee n : Node} {arguments : List (List Node)} {argument : List Node} :
      argument ∈ arguments → n ∈ argument → Within m n → Within m (.call callee arguments)
  | loopTest {test : Node} {body : List Node} : Within m test → Within m (.loop test body)
  | loopBody {test n : Node} {body : List Node} : n ∈ body → Within m n → Within m (.loop test body)
  | test {test : Node} {yes : List Node} {no : Option (List Node)} : Within m test → Within m (.branch test yes no)
  | yes {test n : Node} {yes : List Node} {no : Option (List Node)} :
      n ∈ yes → Within m n → Within m (.branch test yes no)
  | no {test n : Node} {yes no : List Node} : n ∈ no → Within m n → Within m (.branch test yes (some no))

/-- The text of a string in a program: its escaped characters in quotes. -/
def quoted (s : String) : String := "\"" ++ escape s ++ "\""

/-- All that the trees of a program say about strings comes from its table. -/
def FromTable (strings : List String) (n : Node) : Prop :=
  ∀ text, Node.Within (.string text) n → ∃ s ∈ strings, text = quoted s

theorem grown_fromTable (strings identifiers : List String) :
    Grown (tables strings identifiers) (FromTable strings) where
  number value := by
    rintro text ⟨⟩
  const value := by
    rintro text ⟨⟩
  string s mem := by
    rintro text ⟨⟩
    obtain ⟨original, listed, rfl⟩ := List.mem_map.mp mem
    exact ⟨original, listed, rfl⟩
  identifier s mem := by
    rintro text ⟨⟩
  unary op argument holds := by
    intro text inside
    cases inside with
    | unary inside => exact holds text inside
  binary op left right onLeft onRight := by
    intro text inside
    cases inside with
    | left inside => exact onLeft text inside
    | right inside => exact onRight text inside
  paren body holds := by
    intro text inside
    cases inside with
    | paren inside => exact holds text inside
  call callee arguments onCallee onArguments := by
    intro text inside
    cases inside with
    | callee inside => exact onCallee text inside
    | argument among mem inside => exact onArguments _ among _ mem text inside
  loop test body onTest onBody := by
    intro text inside
    cases inside with
    | loopTest inside => exact onTest text inside
    | loopBody mem inside => exact onBody _ mem text inside
  branch test yes no onTest onYes onNo := by
    intro text inside
    cases inside with
    | test inside => exact onTest text inside
    | yes mem inside => exact onYes _ mem text inside
    | no mem inside => exact onNo _ rfl _ mem text inside

end GameData.Script
