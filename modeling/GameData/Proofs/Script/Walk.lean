import GameData.Proofs.Script.Readback

/-!
The walk through the code of a source program.

A step lemma for each kind of instruction says where the walk goes next and with which stack. `Runs` chains steps:
the code of an expression or a statement takes the walk from its first address to its last one and puts one tree
on the stack. Over a whole program this makes the walk the inverse of the layout, up to parentheses.
-/
namespace GameData.Script

variable {strings identifiers : List String}

def tables (strings identifiers : List String) : Names := ⟨strings.map escape, identifiers.map escape⟩

theorem item_map (items : List String) (i : Fin items.length) :
    item (items.map escape) (.int i.val) = .ok (spelled (items.get i)) := by
  have inside : (items.map escape)[(i.val : Int).toNat]? = some (spelled (items.get i)) := by
    simp only [Int.toNat_natCast, List.getElem?_map, List.getElem?_eq_getElem i.isLt, Option.map_some, escape_eq_spelled]
    rfl
  have notBelow : ¬ (i.val : Int) < 0 := by omega
  simp only [item, item.pick, if_neg notBelow, inside]

theorem Literal.literal?_opcode (l : Literal strings identifiers) (start : Nat) :
    literal? (tables strings identifiers) (l.opcode start) = some (.ok l.node) := by
  cases l with
  | number w n fits => cases w <;> rfl
  | real x => rfl
  | constant c => cases c <;> rfl
  | string w i fits =>
      cases w <;> simp only [literal?, opcode, mnemonic, operand, tables, item_map] <;> rfl
  | identifier w i fits =>
      cases w <;> simp only [literal?, opcode, mnemonic, operand, tables, item_map] <;> rfl

section Steps

variable {names : Names} {code : List Opcode} {fuel start : Nat} {until_ : Value} {stack : List Node}

theorem walk_literal {op : Opcode} {n : Node} (reads : fetch code (.int start) = .ok op)
    (clear : reached until_ op.addr = false) (literal : literal? names op = some (.ok n)) :
    walk names code (fuel + 1) (.int start) until_ stack =
      walk names code fuel (.int (op.addr + op.size)) until_ (n :: stack) := by
  rw [walk, reads, ok_bind]
  simp only [clear, Bool.false_eq_true, if_false]
  split
  case h_1 m | h_2 m | h_3 m | h_4 m | h_5 m => simp [literal?, m] at literal
  case h_6 => simp only [literal]; rfl

theorem walk_unary {op : UnaryOp} {argument : Node}
    (reads : fetch code (.int start) = .ok (.plain op.mnemonic start)) (clear : reached until_ start = false) :
    walk names code (fuel + 1) (.int start) until_ (argument :: stack) =
      walk names code fuel (.int (start + 1 : Nat)) until_ (.unary op argument.underUnary :: stack) := by
  rw [walk, reads, ok_bind]
  simp only [Opcode.plain, clear, Bool.false_eq_true, if_false]
  cases op <;> rfl

theorem walk_binary {op : BinaryOp} {left right : Node}
    (reads : fetch code (.int start) = .ok (.plain op.mnemonic start)) (clear : reached until_ start = false) :
    walk names code (fuel + 1) (.int start) until_ (right :: left :: stack) =
      walk names code fuel (.int (start + 1 : Nat)) until_
        (.binary op (left.underBinary op) (right.underBinary op) :: stack) := by
  rw [walk, reads, ok_bind]
  simp only [Opcode.plain, clear, Bool.false_eq_true, if_false]
  cases op <;> rfl

theorem walk_pop (reads : fetch code (.int start) = .ok (.plain .pop start))
    (clear : reached until_ start = false) :
    walk names code (fuel + 1) (.int start) until_ stack =
      walk names code fuel (.int (start + 1 : Nat)) until_ stack := by
  rw [walk, reads, ok_bind]
  simp only [Opcode.plain, clear, Bool.false_eq_true, if_false]
  rfl

theorem walk_call {starts : List Nat} {callee : Node} {arguments : List (List Node)} {distance : Int} {skipAt : Nat}
    (reads : fetch code (.int start) = .ok (.callTo starts start)) (clear : reached until_ start = false)
    (walked : walkAll names code fuel (starts.map fun (n : Nat) => .int n) = .ok arguments)
    (next : (start : Int) + (5 + 4 * (starts.length : Int)) = skipAt)
    (skips : fetch code (.int skipAt) = .ok (.jump .bra distance skipAt)) :
    walk names code (fuel + 1) (.int start) until_ (callee :: stack) =
      walk names code fuel (.int (skipAt + 5 + distance)) until_ (.call callee arguments :: stack) := by
  rw [walk, reads, ok_bind]
  simp only [Opcode.callTo, clear, Bool.false_eq_true, if_false, next, pop, targets, walked, ok_bind, skips]
  rfl

/-- At a conditional jump the walk looks at the jump that ends the body. -/
theorem walk_bf {distance skip : Int} {endAt : Nat} {test : Node} {body : List Node}
    (reads : fetch code (.int start) = .ok (.jump .bf distance start)) (clear : reached until_ start = false)
    (ends : (start : Int) + 5 + distance = (endAt + 5 : Nat))
    (skips : fetch code (.int endAt) = .ok (.jump .bra skip endAt))
    (walked : walk names code fuel (.int (start + 5 : Nat)) .null [] = .ok body) :
    walk names code (fuel + 1) (.int start) until_ (test :: stack) =
      (match compare skip 0 with
      | .lt => walk names code fuel (.int (endAt + 5 : Nat)) until_ (.loop test body.reverse :: stack)
      | .eq => walk names code fuel (.int (endAt + 5 : Nat)) until_ (.branch test body.reverse none :: stack)
      | .gt => do
        let no ← walk names code fuel (.int (endAt + 5 : Nat)) (.int ((endAt + 5 : Nat) + skip)) []
        walk names code fuel (.int ((endAt + 5 : Nat) + skip)) until_
          (.branch test body.reverse (some no.reverse) :: stack)) := by
  have before : -5 + ((endAt + 5 : Nat) : Int) = endAt := by omega
  rw [walk, reads, ok_bind]
  simp only [Opcode.jump, clear, Bool.false_eq_true, if_false, offset, ok_bind, ends, before]
  rw [skips, ok_bind]
  simp only [Opcode.jump, direction, ok_bind, pop]
  rw [show (start : Int) + 5 = (start + 5 : Nat) from rfl, walked]
  cases compare skip 0 <;> rfl

end Steps

/-- With `cost` units of fuel or more the walk gets from one address and stack to another, and uses no more than
that of them. -/
def Runs (names : Names) (code : List Opcode) (until_ : Value) (cost start stop : Nat) (before after : List Node) :
    Prop :=
  ∀ fuel, cost ≤ fuel → ∃ rest, fuel ≤ rest + cost ∧
    walk names code fuel (.int start) until_ before = walk names code rest (.int stop) until_ after

namespace Runs

variable {names : Names} {code : List Opcode} {until_ : Value} {c d start middle stop : Nat}
  {before between after : List Node}

theorem refl : Runs names code until_ 0 start start before before := fun fuel _ => ⟨fuel, Nat.le_refl _, rfl⟩

theorem trans (h : Runs names code until_ c start middle before between)
    (k : Runs names code until_ d middle stop between after) :
    Runs names code until_ (c + d) start stop before after := by
  intro fuel enough
  obtain ⟨rest, used, first⟩ := h fuel (by omega)
  obtain ⟨last, usedThen, second⟩ := k rest (by omega)
  exact ⟨last, by omega, first.trans second⟩

/-- A step of the walk, if it succeeds whenever `c` units of fuel are left after it. -/
theorem step {next : Int} (lands : next = stop)
    (h : ∀ fuel, c ≤ fuel → walk names code (fuel + 1) (.int start) until_ before =
      walk names code fuel (.int next) until_ after) : Runs names code until_ (c + 1) start stop before after := by
  intro fuel enough
  obtain ⟨fuel, rfl⟩ := Nat.exists_eq_add_of_le' (Nat.le_trans (Nat.le_add_left 1 c) enough)
  exact ⟨fuel, by omega, lands ▸ h fuel (by omega)⟩

/-- A run that reaches a place where the walk stops gives its result. -/
theorem halt (h : Runs names code until_ c start stop before after)
    (readable : Readable code) (stops : Stops code until_ stop) (fuel : Nat)
    (enough : c < fuel) : walk names code fuel (.int start) until_ before = .ok after := by
  obtain ⟨rest, used, run⟩ := h fuel (Nat.le_of_lt enough)
  obtain ⟨rest, rfl⟩ : ∃ n, rest = n + 1 := ⟨rest - 1, by omega⟩
  rw [run, walk_stops readable stops]

end Runs

theorem Statement.size_pos (s : Statement strings identifiers) : 0 < s.size := by
  cases s <;> simp only [size] <;> omega

/-- No address from the first one up to the last one ends the walk. -/
def Clear (until_ : Value) (start stop : Nat) : Prop := ∀ a : Nat, start ≤ a → a < stop → reached until_ a = false

theorem clear_null (start stop : Nat) : Clear .null start stop := fun _ _ _ => rfl

theorem Clear.part {until_ : Value} {start stop a b : Nat} (h : Clear until_ start stop) (low : start ≤ a)
    (high : b ≤ stop) : Clear until_ a b := fun x hx hy => h x (Nat.le_trans low hx) (Nat.lt_of_lt_of_le hy high)

theorem clear_int (start stop : Nat) : Clear (.int stop) start stop := by
  intro a _ below
  have other : ((a : Int) == stop) = false := beq_eq_false_iff_ne.mpr (by omega)
  simp only [reached, other, Bool.and_false]

theorem stops_int {code : List Opcode} {stop : Nat} (pos : 0 < stop) (occupied : ∃ op ∈ code, op.addr = stop) :
    Stops code (.int stop) stop := by
  obtain ⟨op, mem, addr⟩ := occupied
  have positive : ((stop : Int) != 0) = true := bne_iff_ne.mpr (by omega)
  exact ⟨op, mem, addr, .inl (by simp only [reached, positive, beq_self_eq_true, Bool.and_true])⟩

section Runs

variable {code : List Opcode}

mutual

theorem Expr.runs (readable : Readable code) (e : Expr strings identifiers) (start : Nat) (until_ : Value) (stack : List Node)
    (placed : e.code start ⊆ code) (clear : Clear until_ start (start + e.size)) :
    Runs (tables strings identifiers) code until_ (e.code start).length start (start + e.size) stack
      (e.node :: stack) := by
  cases e with
  | literal l =>
      have mem : l.opcode start ∈ code := placed (List.mem_singleton.mpr rfl)
      have pos := l.size_pos
      simp only [Expr.size] at clear ⊢
      refine Runs.step (c := 0) rfl fun fuel _ => ?_
      exact walk_literal (readable _ mem) (clear start (Nat.le_refl _) (by omega)) (l.literal?_opcode start)
  | unary op argument =>
      simp only [Expr.code, List.append_subset, List.cons_subset] at placed
      simp only [Expr.size] at clear
      have inner := Expr.runs readable argument start until_ stack placed.1 (clear.part (Nat.le_refl _) (by omega))
      rw [Expr.code, List.length_append]
      refine inner.trans (Runs.step (c := 0) rfl fun fuel _ => ?_)
      exact walk_unary (readable _ placed.2.1) (clear _ (by omega) (by omega))
  | binary op left right =>
      simp only [Expr.code, List.append_subset, List.cons_subset] at placed
      simp only [Expr.size] at clear ⊢
      have first := Expr.runs readable left start until_ stack placed.1.1 (clear.part (Nat.le_refl _) (by omega))
      have second := Expr.runs readable right (start + left.size) until_ (left.node :: stack) placed.1.2
        (clear.part (by omega) (by omega))
      rw [Expr.code, List.length_append, List.length_append]
      refine (first.trans second).trans (Runs.step (c := 0) ?_ fun fuel _ =>
        walk_binary (readable _ placed.2.1) (clear _ (by omega) (by omega)))
      omega
  | call callee arguments =>
      simp only [Expr.code, List.append_subset, List.cons_subset] at placed
      simp only [Expr.size] at clear ⊢
      have first := Expr.runs readable callee start until_ stack placed.1.1 (clear.part (Nat.le_refl _) (by omega))
      have blocks := fun fuel => Expr.walkAll_blocks readable arguments _ fuel placed.2
      have length : (Expr.code start (.call callee arguments)).length = (callee.code start).length +
          ((Expr.blocksCode (start + callee.size + (5 + 4 * arguments.length) + 5) arguments).length + 1 + 1) := by
        simp only [Expr.code, List.length_append, List.length_cons, List.length_nil]
        omega
      rw [length]
      refine first.trans (Runs.step ?_ fun fuel enough => walk_call (readable _ placed.1.2.1)
        (clear _ (by omega) (by omega)) (blocks fuel (by omega)) (by rw [Expr.length_blockStarts]; omega)
        (readable _ placed.1.2.2.1))
      omega

theorem Expr.walkAll_blocks (readable : Readable code) (arguments : List (Expr strings identifiers)) (start fuel : Nat)
    (placed : Expr.blocksCode start arguments ⊆ code) (enough : (Expr.blocksCode start arguments).length < fuel) :
    walkAll (tables strings identifiers) code fuel ((Expr.blockStarts start arguments).map fun (n : Nat) => .int n) =
      .ok (Expr.argumentNodes arguments) := by
  obtain ⟨fuel, rfl⟩ := Nat.exists_eq_add_of_le' (Nat.succ_le_of_lt (Nat.lt_of_le_of_lt (Nat.zero_le _) enough))
  cases arguments with
  | nil => rfl
  | cons a rest =>
      simp only [Expr.blocksCode, List.append_subset, List.cons_subset] at placed
      simp only [Expr.blocksCode, List.length_append, List.length_cons, List.length_nil] at enough
      have block := Expr.runs readable a start .null [] placed.1.1 (clear_null _ _)
      have ends : Stops code .null (start + a.size) := ⟨_, placed.1.2.1, rfl, .inr (.inl rfl)⟩
      have first := block.halt readable ends fuel (by omega)
      have others := Expr.walkAll_blocks readable rest (start + a.size + 1) fuel placed.2 (by omega)
      simp only [Expr.blockStarts, List.map_cons, walkAll, first, ok_bind, others]
      rfl

end

mutual

theorem Statement.runs (readable : Readable code) (s : Statement strings identifiers) (start : Nat) (until_ : Value) (stack : List Node)
    (placed : s.code start ⊆ code) (clear : Clear until_ start (start + s.size))
    (next : ∃ op ∈ code, op.addr = (start + s.size : Nat)) :
    Runs (tables strings identifiers) code until_ (s.code start).length start (start + s.size) stack
      (s.node :: stack) := by
  cases s with
  | expression e =>
      simp only [Statement.code, List.append_subset, List.cons_subset] at placed
      simp only [Statement.size] at clear ⊢
      have value := e.runs readable start until_ stack placed.1 (clear.part (Nat.le_refl _) (by omega))
      rw [Statement.code, List.length_append]
      refine value.trans (Runs.step (c := 0) rfl fun fuel _ => ?_)
      exact walk_pop (readable _ placed.2.1) (clear _ (by omega) (by omega))
  | loop test body =>
      have length : (Statement.code start (.loop test body)).length = (test.code start).length +
          ((Statement.bodyCode (start + test.size + 5) body).length + 1 + 1) := by
        simp only [Statement.code, List.length_append, List.length_cons, List.length_nil]
        omega
      simp only [Statement.code, List.append_subset, List.cons_subset] at placed
      simp only [Statement.size, length] at clear ⊢
      generalize bodyEnd_eq : start + test.size + 5 + Statement.bodySize body = bodyEnd at placed
      have value := test.runs readable start until_ stack placed.1.1.1 (clear.part (Nat.le_refl _) (by omega))
      have inner := (Statement.body_runs readable body (start + test.size + 5) .null [] placed.1.2 (clear_null _ _)
        ⟨_, placed.2.1, by rw [bodyEnd_eq]; rfl⟩).halt readable ⟨_, placed.2.1, by rw [bodyEnd_eq]; rfl, .inr (.inr rfl)⟩
      have backward : compare ((start : Int) - (bodyEnd + 5)) 0 = .lt := Int.compare_eq_lt.mpr (by omega)
      have lands : ((bodyEnd + 5 : Nat) : Int) = (start + (test.size + 5 + Statement.bodySize body + 5) : Nat) := by
        omega
      refine value.trans (Runs.step lands fun fuel enough => ?_)
      rw [walk_bf (readable _ placed.1.1.2.1) (clear _ (by omega) (by omega)) (by omega) (readable _ placed.2.1)
        (inner fuel (by omega)), backward]
      simp only [List.append_nil, List.reverse_reverse, Statement.node]
  | branch test yes no =>
      have length : (Statement.code start (.branch test yes no)).length = (test.code start).length +
          ((Statement.bodyCode (start + test.size + 5) yes).length + 1 +
            (Statement.bodyCode (start + test.size + 5 + Statement.bodySize yes + 5) no).length + 1) := by
        simp only [Statement.code, List.length_append, List.length_cons, List.length_nil]
        omega
      simp only [Statement.code, List.append_subset, List.cons_subset] at placed
      simp only [Statement.size, length] at clear next ⊢
      generalize yesEnd_eq : start + test.size + 5 + Statement.bodySize yes = yesEnd at placed ⊢
      generalize stop_eq : start + (test.size + 5 + Statement.bodySize yes + 5 + Statement.bodySize no) = stop at *
      have value := test.runs readable start until_ stack placed.1.1.1.1 (clear.part (Nat.le_refl _) (by omega))
      have yesWalk := (Statement.body_runs readable yes (start + test.size + 5) .null [] placed.1.1.2 (clear_null _ _)
        ⟨_, placed.1.2.1, by rw [yesEnd_eq]; rfl⟩).halt readable
        ⟨_, placed.1.2.1, by rw [yesEnd_eq]; rfl, .inr (.inr rfl)⟩
      have noStop : yesEnd + 5 + Statement.bodySize no = stop := by omega
      have noRuns := Statement.body_runs readable no (yesEnd + 5) (.int stop) [] placed.2
      rw [noStop] at noRuns
      have noWalk := (noRuns (clear_int _ _) next).halt readable (stops_int (by omega) next)
      have last : ((yesEnd + 5 : Nat) : Int) + Statement.bodySize no = stop := by omega
      refine value.trans (Runs.step (Eq.refl (stop : Int)) fun fuel enough => ?_)
      rw [walk_bf (readable _ placed.1.1.1.2.1) (clear _ (by omega) (by omega)) (by omega) (readable _ placed.1.2.1)
        (yesWalk fuel (by omega)), last, noWalk fuel (by omega)]
      cases no with
      | nil =>
          have : yesEnd + 5 = stop := noStop
          simp only [List.append_nil, List.reverse_reverse, Statement.node, this]
          rfl
      | cons s no =>
          have pos := s.size_pos
          have forward : compare (Statement.bodySize (s :: no) : Int) 0 = .gt :=
            Int.compare_eq_gt.mpr (by simp only [Statement.bodySize]; omega)
          rw [forward, ok_bind]
          simp only [List.append_nil, List.reverse_reverse, Statement.node]
          rfl

theorem Statement.body_runs (readable : Readable code) (body : List (Statement strings identifiers)) (start : Nat) (until_ : Value)
    (stack : List Node) (placed : Statement.bodyCode start body ⊆ code)
    (clear : Clear until_ start (start + Statement.bodySize body))
    (next : ∃ op ∈ code, op.addr = (start + Statement.bodySize body : Nat)) :
    Runs (tables strings identifiers) code until_ (Statement.bodyCode start body).length start
      (start + Statement.bodySize body) stack ((Statement.nodes body).reverse ++ stack) := by
  cases body with
  | nil => exact .refl
  | cons s rest =>
      simp only [Statement.bodyCode, List.append_subset] at placed
      simp only [Statement.bodySize, ← Nat.add_assoc] at clear next ⊢
      have between : ∃ op ∈ code, op.addr = (start + s.size : Nat) := by
        rcases Nat.eq_zero_or_pos (Statement.bodySize rest) with empty | pos
        · rwa [empty] at next
        · obtain ⟨op, mem, addr⟩ := (Statement.body_tiled rest (start + s.size)).first (by omega)
          exact ⟨op, placed.2 mem, addr⟩
      have first := Statement.runs readable s start until_ stack placed.1 (clear.part (Nat.le_refl _) (by omega)) between
      have others := Statement.body_runs readable rest (start + s.size) until_ (s.node :: stack) placed.2
        (clear.part (by omega) (Nat.le_refl _)) next
      rw [Statement.bodyCode, List.length_append]
      simpa only [Statement.nodes, List.reverse_cons, List.append_assoc, List.singleton_append]
        using first.trans others

end

end Runs

theorem le_fuelFor (code : List Opcode) : code.length + 2 ≤ fuelFor code := by
  have grows : ∀ (ns : List Nat) (n : Nat), n ≤ ns.foldl (· + ·) n := by
    intro ns
    induction ns with
    | nil => exact fun n => Nat.le_refl n
    | cons m ns ih => exact fun n => Nat.le_trans (Nat.le_add_right n m) (ih (n + m))
  exact Nat.le_trans (Nat.add_le_add_left (grows _ 2) _) (Nat.le_self_pow (by decide) _)

/-- The walk over the code of a program gives its trees. -/
theorem decompile_programCode (p : List (Statement strings identifiers)) :
    decompile strings identifiers (programCode p) = .ok (Statement.nodes p) := by
  have readable : Readable (programCode p) := (program_tiled p).readable
  have last : Opcode.plain .brk (Statement.bodySize p) ∈ programCode p :=
    List.mem_append_right _ (List.mem_singleton.mpr rfl)
  have addr : (Opcode.plain .brk (Statement.bodySize p)).addr = (0 + Statement.bodySize p : Nat) := by
    rw [Nat.zero_add]
    rfl
  have run := Statement.body_runs readable p 0 .null [] (List.subset_append_left _ _) (clear_null _ _)
    ⟨_, last, addr⟩
  have enough : (Statement.bodyCode 0 p).length < fuelFor (programCode p) := by
    have := le_fuelFor (programCode p)
    simp only [programCode, List.length_append, List.length_singleton] at this ⊢
    omega
  have walked := run.halt readable ⟨_, last, addr, .inr (.inl rfl)⟩ _ enough
  have unfolded : decompile strings identifiers (programCode p) =
      (walk (tables strings identifiers) (programCode p) (fuelFor (programCode p)) (.int (0 : Nat)) .null []).map
        List.reverse := rfl
  rw [unfolded, walked, List.append_nil, Except.map, List.reverse_reverse]

/-- A source program is read back from its code: the code fills the addresses from zero on, its instructions have
the sizes of their encodings, and the trees that the walk makes of it are the source, apart from parentheses. -/
theorem decompile_inverts_layout (p : List (Statement strings identifiers)) (small : programSize p < 2147483648) :
    Tiled 0 (programCode p) (programSize p) ∧
      (∀ e : Edition, ∀ op ∈ programCode p, ∃ b, op.encode e = .ok b ∧ (b.length : Int) = op.size) ∧
      ∃ trees, decompile strings identifiers (programCode p) = .ok trees ∧
        trees.map Node.erase = Statement.trees p := by
  refine ⟨program_tiled p, fun e op mem => (program_coded p small op mem).encode e, _, decompile_programCode p, ?_⟩
  rw [← Node.eraseList_eq_map, Statement.erase_nodes]

/-- A string of the table that has to be spelled out: the word `on` in quotes, and a line end. -/
abbrev nestedStrings : List String := ["\"on\"\n"]

/-- `if (x == 1) { f(x, "\"on\"\n", 2 * (x + 3)) } else { while (!x) { x = f() } }` -/
def nestedSample : List (Statement nestedStrings ["f", "x"]) :=
  let f : Expr nestedStrings ["f", "x"] := .literal (.identifier .byte ⟨0, by decide⟩ (by decide))
  let x : Expr nestedStrings ["f", "x"] := .literal (.identifier .word ⟨1, by decide⟩ (by decide))
  let on : Expr nestedStrings ["f", "x"] := .literal (.string .short ⟨0, by decide⟩ (by decide))
  let two : Expr nestedStrings ["f", "x"] := .literal (.number .byte 2 (by decide))
  let three : Expr nestedStrings ["f", "x"] := .literal (.number .short 3 (by decide))
  [.branch (.binary .eq x (.literal (.constant .one)))
    [.expression (.call f [x, on, .binary .mul two (.binary .add x three)])]
    [.loop (.unary .not x) [.expression (.binary .assign x (.call f []))]]]

theorem decompile_inverts_layout_nestedSample :
    programSize nestedSample < 2147483648 ∧
      ∃ trees, decompile nestedStrings ["f", "x"] (programCode nestedSample) = .ok trees ∧
        trees.map Node.erase =
          [.branch (.binary .eq (.identifier "x") (.const 1))
            [.call (.identifier "f") [[.identifier "x"], [.string "\"\\\"on\\\"\\n\""],
              [.binary .mul (.number (.int 2)) (.binary .add (.identifier "x") (.number (.int 3)))]]]
            (some [.loop (.unary .not (.identifier "x"))
              [.binary .assign (.identifier "x") (.call (.identifier "f") [])]])] := by
  obtain ⟨trees, walked, source⟩ := (decompile_inverts_layout nestedSample (by decide)).2.2
  refine ⟨by decide, trees, walked, source.trans ?_⟩
  have names : spelled "f" = "f" ∧ spelled "x" = "x" := by decide +kernel
  have string : "\"" ++ spelled "\"on\"\n" ++ "\"" = "\"\\\"on\\\"\\n\"" := by decide +kernel
  simp only [nestedSample, Statement.trees, Statement.tree, Expr.tree, Expr.argumentTrees, Literal.node, List.get, names,
    string]
  rfl

end GameData.Script
