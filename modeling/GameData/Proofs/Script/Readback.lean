import GameData.Proofs.Script.Layout

/-!
Source programs read back from their code.

`Expr.tree` and `Statement.tree` are the source as a tree without parentheses; a table entry is spelled there character
by character (`spelled`). The walk puts parentheses in, which `Expr.node` and `Statement.node` describe; `Node.erase`
takes them out again.
-/
namespace GameData.Script

variable {strings identifiers : List String}

mutual

def Node.erase : Node → Node
  | .number value => .number value
  | .const value => .const value
  | .string text => .string text
  | .identifier name => .identifier name
  | .unary op argument => .unary op argument.erase
  | .binary op left right => .binary op left.erase right.erase
  | .call callee arguments => .call callee.erase (Node.eraseLists arguments)
  | .paren body => body.erase
  | .loop test body => .loop test.erase (Node.eraseList body)
  | .branch test yes none => .branch test.erase (Node.eraseList yes) none
  | .branch test yes (some no) => .branch test.erase (Node.eraseList yes) (some (Node.eraseList no))

def Node.eraseList : List Node → List Node
  | [] => []
  | n :: rest => n.erase :: Node.eraseList rest

def Node.eraseLists : List (List Node) → List (List Node)
  | [] => []
  | ns :: rest => Node.eraseList ns :: Node.eraseLists rest

end

/-- The characters of a table entry in a tree: a line end is a backslash and an `n`, a quote has a backslash in front of
it, and every other character stands for itself. -/
def spelling : List Char → List Char
  | [] => []
  | c :: rest =>
    if c = '\n' then '\\' :: 'n' :: spelling rest
    else if c = '"' then '\\' :: '"' :: spelling rest
    else c :: spelling rest

def spelled (entry : String) : String := String.ofList (spelling entry.toList)

theorem escape_eq_spelled (entry : String) : escape entry = spelled entry := by
  refine congrArg String.ofList ?_
  induction entry.toList with
  | nil => rfl
  | cons c rest ih =>
      rw [List.flatMap_cons, ih, spelling]
      simp only [beq_iff_eq]
      split
      · rfl
      · split <;> rfl

def Literal.node : Literal strings identifiers → Node
  | .number _ n _ => .number (.int n)
  | .real x => .number (.real x.widen)
  | .constant .zero => .const 0
  | .constant .one => .const 1
  | .constant .ones => .const 0xffffffff
  | .string _ i _ => .string ("\"" ++ spelled (strings.get i) ++ "\"")
  | .identifier _ i _ => .identifier (spelled (identifiers.get i))

mutual

def Expr.tree : Expr strings identifiers → Node
  | .literal l => l.node
  | .unary op argument => .unary op argument.tree
  | .binary op left right => .binary op left.tree right.tree
  | .call callee arguments => .call callee.tree (Expr.argumentTrees arguments)

def Expr.argumentTrees : List (Expr strings identifiers) → List (List Node)
  | [] => []
  | a :: rest => [a.tree] :: Expr.argumentTrees rest

end

mutual

def Statement.tree : Statement strings identifiers → Node
  | .expression e => e.tree
  | .loop test body => .loop test.tree (Statement.trees body)
  | .branch test yes [] => .branch test.tree (Statement.trees yes) none
  | .branch test yes (s :: no) => .branch test.tree (Statement.trees yes) (some (s.tree :: Statement.trees no))

def Statement.trees : List (Statement strings identifiers) → List Node
  | [] => []
  | s :: rest => s.tree :: Statement.trees rest

end

mutual

/-- The tree of an expression with the parentheses that the walk puts in. -/
def Expr.node : Expr strings identifiers → Node
  | .literal l => l.node
  | .unary op argument => .unary op argument.node.underUnary
  | .binary op left right => .binary op (left.node.underBinary op) (right.node.underBinary op)
  | .call callee arguments => .call callee.node (Expr.argumentNodes arguments)

def Expr.argumentNodes : List (Expr strings identifiers) → List (List Node)
  | [] => []
  | a :: rest => [a.node] :: Expr.argumentNodes rest

end

mutual

def Statement.node : Statement strings identifiers → Node
  | .expression e => e.node
  | .loop test body => .loop test.node (Statement.nodes body)
  | .branch test yes [] => .branch test.node (Statement.nodes yes) none
  | .branch test yes (s :: no) => .branch test.node (Statement.nodes yes) (some (s.node :: Statement.nodes no))

def Statement.nodes : List (Statement strings identifiers) → List Node
  | [] => []
  | s :: rest => s.node :: Statement.nodes rest

end

theorem Node.eraseList_eq_map (ns : List Node) : Node.eraseList ns = ns.map Node.erase := by
  induction ns with
  | nil => rfl
  | cons n rest ih => exact congrArg _ ih

theorem Node.erase_underUnary (n : Node) : n.underUnary.erase = n.erase := by
  cases n <;> rfl

theorem Node.erase_underBinary (op : BinaryOp) (n : Node) : (n.underBinary op).erase = n.erase := by
  cases n with
  | binary inner left right =>
      simp only [underBinary]
      split <;> rfl
  | _ => rfl

theorem Literal.erase_node (l : Literal strings identifiers) : l.node.erase = l.node := by
  cases l with
  | constant c => cases c <;> rfl
  | _ => rfl

mutual

theorem Expr.erase_node (e : Expr strings identifiers) : e.node.erase = e.tree := by
  cases e with
  | literal l => exact l.erase_node
  | unary op argument =>
      simp only [Expr.node, Expr.tree, Node.erase, Node.erase_underUnary, argument.erase_node]
  | binary op left right =>
      simp only [Expr.node, Expr.tree, Node.erase, Node.erase_underBinary, left.erase_node, right.erase_node]
  | call callee arguments =>
      simp only [Expr.node, Expr.tree, Node.erase, callee.erase_node, Expr.erase_argumentNodes arguments]

theorem Expr.erase_argumentNodes (arguments : List (Expr strings identifiers)) :
    Node.eraseLists (Expr.argumentNodes arguments) = Expr.argumentTrees arguments := by
  cases arguments with
  | nil => rfl
  | cons a rest =>
      simp only [Expr.argumentNodes, Expr.argumentTrees, Node.eraseLists, Node.eraseList, a.erase_node,
        Expr.erase_argumentNodes rest]

end

mutual

theorem Statement.erase_node (s : Statement strings identifiers) : s.node.erase = s.tree := by
  match s with
  | .expression e => exact e.erase_node
  | .loop test body =>
      simp only [Statement.node, Statement.tree, Node.erase, test.erase_node, Statement.erase_nodes body]
  | .branch test yes [] =>
      simp only [Statement.node, Statement.tree, Node.erase, test.erase_node, Statement.erase_nodes yes]
  | .branch test yes (s :: no) =>
      simp only [Statement.node, Statement.tree, Node.erase, Node.eraseList, test.erase_node,
        Statement.erase_nodes yes, s.erase_node, Statement.erase_nodes no]

/-- What the walk adds to the trees of a program is parentheses only. -/
theorem Statement.erase_nodes (body : List (Statement strings identifiers)) :
    Node.eraseList (Statement.nodes body) = Statement.trees body := by
  match body with
  | [] => rfl
  | s :: rest =>
      simp only [Statement.nodes, Statement.trees, Node.eraseList, s.erase_node, Statement.erase_nodes rest]

end

end GameData.Script
