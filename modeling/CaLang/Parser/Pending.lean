import Mathlib.Data.List.Basic

/-! # Pending statements and arguments

The statements of all open blocks stand in `nodelisthead`, the arguments of all open calls and
tuples in `s_actualarglist_stack`.  A list of statements begins with its first statement, that of a
call by an action before its first argument, that of a tuple with its second argument, and where
there is none the action of the empty alternative takes none.  **The productions of `match` have no
action**: the value of the first symbol, which is no node, stands for the statement.

- `Expr`, `Stmt` and the others: the derivations of the grammar, with one constructor `other` for
  the productions whose actions leave the two stacks alone;
- `Action.exec`, `Expr.actions`: the actions of the parser, and their order in a parse;
- `Expr.node`: the node that belongs to a derivation;
- `Expr.excesses`: what outgrows a list, in the order of the parse.
-/

namespace CaLang.Parser.Pending

/-- `MAX_ARGS` -/
def maxArgs : Nat := 16

/-- The largest `int`. -/
def intMax : Nat := 2147483647

/-- The first capacity of a list of statements that an `int` cannot double. -/
def maxStmts : Nat := 1342177280

/-! ### Derivations -/

mutual

inductive Expr
  | other (kind : Nat) (parts : Parts)
  /-- `fn_call_or_tuple`, `fn_method_call` and `fn_domain_call`, with what stands before the
  parenthesis. -/
  | call (kind : Nat) (callee : Parts) (args : FnArgsCall)
  | genTuple (args : GenTupleArgs)
  | ifexpr (cond : Expr) (body remain : StmtexprList)

/-- `fn_args_call_or_tuple` -/
inductive FnArgsCall
  | none
  | some (p : FnArgsCallP)

/-- `fn_args_call_or_tuple_p` -/
inductive FnArgsCallP
  | expr (e : Expr)
  | next (p : FnArgsCallP) (e : Expr)

/-- `gen_tuple_expr_args` -/
inductive GenTupleArgs
  | none
  | some (p : GenTupleArgsP)

/-- `gen_tuple_expr_args_p` -/
inductive GenTupleArgsP
  | two (e e' : Expr)
  | next (p : GenTupleArgsP) (e : Expr)

/-- `stmtexpr_list`, the body of an if-expression. -/
inductive StmtexprList
  | list (l : StmtList) (e : Expr)
  | expr (e : Expr)

/-- `stmt_list` -/
inductive StmtList
  | stmt (s : Stmt)
  | next (l : StmtList) (s : Stmt)

/-- `stmt_list_star`, what stands between the braces of a block. -/
inductive StmtListStar
  | list (l : StmtList)
  | empty

inductive Stmt
  | other (kind : Nat) (parts : Parts)
  | block (body : StmtListStar)
  /-- `match_stmt` -/
  | matchStmt (e : Expr) (patterns : MatchPatterns)

/-- `match_patterns` -/
inductive MatchPatterns
  | one (p : MatchPattern)
  | next (ps : MatchPatterns) (p : MatchPattern)

/-- `match_pattern`, with what stands in the types of its `let_stmt_left`. -/
inductive MatchPattern
  | mk (left : Parts) (body : StmtListStar)

/-- What stands in a production, in order. -/
inductive Parts
  | nil
  | expr (e : Expr) (rest : Parts)
  | stmt (s : Stmt) (rest : Parts)
  | block (body : StmtListStar) (rest : Parts)

end

/-! ### Nodes -/

inductive Tag
  | other (kind : Nat)
  | fnCall (kind : Nat)
  | tuple
  | ifn
  | matchn
  | matchPattern
  | argList
  | stmtList
  | stmtExpr
  | lexicalBody
  | empty

/-- An `ASTNode` with the nodes under it; `noNode` is the value of a symbol that has none, taken for
a node. -/
inductive Node
  | mk (tag : Tag) (nodes : List Node)
  | noNode

/-- The node of a list of statements: that of a single one is the statement itself. -/
def stmtListNode : List Node → Node
  | [p] => p
  | nodes => .mk .stmtList nodes

section

-- what stands for the node of a `match`
variable (m : Node → Node)

mutual

def Expr.nodeWith : Expr → Node
  | .other k parts => .mk (.other k) parts.nodes
  | .call k callee args => .mk (.fnCall k) (callee.nodes ++ [.mk .argList args.nodes])
  | .genTuple args => .mk .tuple [.mk .argList args.nodes]
  | .ifexpr c b b' => .mk .ifn [c.nodeWith, b.nodeWith, b'.nodeWith]

/-- The nodes of the arguments, in order. -/
def FnArgsCall.nodes : FnArgsCall → List Node
  | .none => []
  | .some p => p.nodes

def FnArgsCallP.nodes : FnArgsCallP → List Node
  | .expr e => [e.nodeWith]
  | .next p e => p.nodes ++ [e.nodeWith]

def GenTupleArgs.nodes : GenTupleArgs → List Node
  | .none => []
  | .some p => p.nodes

def GenTupleArgsP.nodes : GenTupleArgsP → List Node
  | .two e e' => [e.nodeWith, e'.nodeWith]
  | .next p e => p.nodes ++ [e.nodeWith]

def StmtexprList.nodeWith : StmtexprList → Node
  | .list l e => .mk .lexicalBody [.mk .stmtExpr [stmtListNode l.nodes, e.nodeWith]]
  | .expr e => .mk .lexicalBody [e.nodeWith]

/-- The nodes of the statements, in order. -/
def StmtList.nodes : StmtList → List Node
  | .stmt s => [s.nodeWith]
  | .next l s => l.nodes ++ [s.nodeWith]

def StmtListStar.nodeWith : StmtListStar → Node
  | .list l => .mk .lexicalBody [stmtListNode l.nodes]
  | .empty => .mk .lexicalBody [.mk .empty []]

def Stmt.nodeWith : Stmt → Node
  | .other k parts => .mk (.other k) parts.nodes
  | .block body => body.nodeWith
  | .matchStmt e patterns => m (.mk .matchn (e.nodeWith :: patterns.nodes))

def MatchPatterns.nodes : MatchPatterns → List Node
  | .one p => [p.nodeWith]
  | .next ps p => ps.nodes ++ [p.nodeWith]

def MatchPattern.nodeWith : MatchPattern → Node
  | .mk left body => .mk .matchPattern (left.nodes ++ [body.nodeWith])

def Parts.nodes : Parts → List Node
  | .nil => []
  | .expr e rest => e.nodeWith :: rest.nodes
  | .stmt s rest => s.nodeWith :: rest.nodes
  | .block body rest => body.nodeWith :: rest.nodes

end

end

/-- The node of an expression, with a node for each `match` in it. -/
def Expr.node (e : Expr) : Node := e.nodeWith id

/-- The node of a block, with a node for each statement. -/
def StmtListStar.node (body : StmtListStar) : Node := body.nodeWith id

/-- What the parser has for a `match`. -/
def noNodeFor : Node → Node := fun _ => .noNode

mutual

/-- No `match` stands in it. -/
def Expr.matchFree : Expr → Bool
  | .other _ parts => parts.matchFree
  | .call _ callee args => callee.matchFree && args.matchFree
  | .genTuple args => args.matchFree
  | .ifexpr c b b' => c.matchFree && (b.matchFree && b'.matchFree)

def FnArgsCall.matchFree : FnArgsCall → Bool
  | .none => true
  | .some p => p.matchFree

def FnArgsCallP.matchFree : FnArgsCallP → Bool
  | .expr e => e.matchFree
  | .next p e => p.matchFree && e.matchFree

def GenTupleArgs.matchFree : GenTupleArgs → Bool
  | .none => true
  | .some p => p.matchFree

def GenTupleArgsP.matchFree : GenTupleArgsP → Bool
  | .two e e' => e.matchFree && e'.matchFree
  | .next p e => p.matchFree && e.matchFree

def StmtexprList.matchFree : StmtexprList → Bool
  | .list l e => l.matchFree && e.matchFree
  | .expr e => e.matchFree

def StmtList.matchFree : StmtList → Bool
  | .stmt s => s.matchFree
  | .next l s => l.matchFree && s.matchFree

def StmtListStar.matchFree : StmtListStar → Bool
  | .list l => l.matchFree
  | .empty => true

def Stmt.matchFree : Stmt → Bool
  | .other _ parts => parts.matchFree
  | .block body => body.matchFree
  | .matchStmt _ _ => false

def Parts.matchFree : Parts → Bool
  | .nil => true
  | .expr e rest => e.matchFree && rest.matchFree
  | .stmt s rest => s.matchFree && rest.matchFree
  | .block body rest => body.matchFree && rest.matchFree

end

/-! ### The actions of the parser -/

inductive Error
  /-- too many args '%s', max args support is %d -/
  | tooManyArgs
  /-- An empty stack, a value that is not there, or a list without room. -/
  | crash
  deriving DecidableEq

/-- An `ASTNodeList`. -/
structure ASTNodeList where
  stmtlist : List Node
  capacity : Nat

/-- A new list. -/
def ASTNodeList.new : ASTNodeList := ⟨[], 10⟩

/-- One more statement: the capacity is an `int`, and what is written must be in the list. -/
def ASTNodeList.put (l : ASTNodeList) (stmt : Node) : Except Error ASTNodeList :=
  let capacity := if l.stmtlist.length = l.capacity then l.capacity * 2 else l.capacity
  if capacity ≤ intMax ∧ l.stmtlist.length < capacity then
    .ok ⟨l.stmtlist ++ [stmt], capacity⟩
  else .error .crash

/-- The values of the parser, the statements and the arguments that are pending. -/
structure State where
  values : List Node
  nodelisthead : List ASTNodeList
  actualarglist : List (List Node)

inductive Action
  /-- A node of the values of its production, the last `n`. -/
  | make (tag : Tag) (n : Nat)
  /-- Nothing: the value of the first symbol, which is no node, stays for the last `n`. -/
  | noAction (n : Nat)
  /-- `put_astnode_into_list` of the last value. -/
  | putAstnodeIntoList (begin : Bool)
  /-- `make_stmt_list_zip`. -/
  | makeStmtListZip
  /-- `make_stmtexpr_list(make_stmt_list_zip(), $2)` -/
  | makeStmtexprList
  | actualarglistNewPush
  /-- `add_fn_args_actual` of the last value. -/
  | addFnArgsActual
  /-- `actualarglist_new_push` and `add_fn_args_actual` of the last two values. -/
  | addTwoArgs
  /-- `make_expr_arglists_actual(actualarglist_current())` -/
  | makeExprArglistsActual

namespace State

/-- `put_astnode_into_list`. -/
def putAstnodeIntoList (σ : State) (stmt : Node) (begin : Bool) : Except Error State :=
  match if begin then .new :: σ.nodelisthead else σ.nodelisthead with
  | [] => .error .crash
  | l :: next => do
      let l ← l.put stmt
      return { σ with nodelisthead := l :: next }

/-- `make_stmt_list_zip`. -/
def makeStmtListZip (σ : State) : Except Error (Node × State) :=
  match σ.nodelisthead with
  | [] => .error .crash
  | oldlist :: next => .ok (stmtListNode oldlist.stmtlist, { σ with nodelisthead := next })

/-- `actualarglist_new_push`. -/
def actualarglistNewPush (σ : State) : State := { σ with actualarglist := [] :: σ.actualarglist }

/-- `add_fn_args_actual`. -/
def addFnArgsActual (σ : State) (arg : Node) : Except Error State :=
  match σ.actualarglist with
  | [] => .error .crash
  | aa :: rest =>
      if maxArgs ≤ aa.length then .error .tooManyArgs
      else .ok { σ with actualarglist := (aa ++ [arg]) :: rest }

/-- `make_expr_arglists_actual` of the current list. -/
def makeExprArglistsActual (σ : State) : Except Error (Node × State) :=
  match σ.actualarglist with
  | [] => .error .crash
  | al :: rest => .ok (.mk .argList al, { σ with actualarglist := rest })

/-- The last value. -/
def pop (σ : State) : Except Error (Node × State) :=
  match σ.values with
  | [] => .error .crash
  | p :: values => .ok (p, { σ with values })

def push (σ : State) (p : Node) : State := { σ with values := p :: σ.values }

end State

def Action.exec (σ : State) : Action → Except Error State
  | .make tag n =>
      if n ≤ σ.values.length then
        .ok { σ with values := .mk tag (σ.values.take n).reverse :: σ.values.drop n }
      else .error .crash
  | .noAction n =>
      if n ≤ σ.values.length then .ok { σ with values := .noNode :: σ.values.drop n }
      else .error .crash
  | .putAstnodeIntoList begin => do
      let (stmt, σ) ← σ.pop
      σ.putAstnodeIntoList stmt begin
  | .makeStmtListZip => do
      let (p, σ) ← σ.makeStmtListZip
      .ok (σ.push p)
  | .makeStmtexprList => do
      let (expr, σ) ← σ.pop
      let (stmts, σ) ← σ.makeStmtListZip
      .ok (σ.push (.mk .stmtExpr [stmts, expr]))
  | .actualarglistNewPush => .ok σ.actualarglistNewPush
  | .addFnArgsActual => do
      let (arg, σ) ← σ.pop
      σ.addFnArgsActual arg
  | .addTwoArgs => do
      let (arg', σ) ← σ.pop
      let (arg, σ) ← σ.pop
      let σ ← σ.actualarglistNewPush.addFnArgsActual arg
      σ.addFnArgsActual arg'
  | .makeExprArglistsActual => do
      let (p, σ) ← σ.makeExprArglistsActual
      .ok (σ.push p)

def run : List Action → State → Except Error State
  | [], σ => .ok σ
  | a :: as, σ => do run as (← a.exec σ)

/-! ### The order of the actions -/

def Parts.length : Parts → Nat
  | .nil => 0
  | .expr _ rest | .stmt _ rest | .block _ rest => rest.length + 1

mutual

def Expr.actions : Expr → List Action
  | .other k parts => parts.actions ++ [.make (.other k) parts.length]
  | .call k callee args =>
      callee.actions ++ (args.actions ++ [.make (.fnCall k) (callee.length + 1)])
  | .genTuple args => args.actions ++ [.make .tuple 1]
  | .ifexpr c b b' => c.actions ++ (b.actions ++ (b'.actions ++ [.make .ifn 3]))

def FnArgsCall.actions : FnArgsCall → List Action
  | .none => [.make .argList 0]
  | .some p => .actualarglistNewPush :: (p.actions ++ [.makeExprArglistsActual])

def FnArgsCallP.actions : FnArgsCallP → List Action
  | .expr e => e.actions ++ [.addFnArgsActual]
  | .next p e => p.actions ++ (e.actions ++ [.addFnArgsActual])

def GenTupleArgs.actions : GenTupleArgs → List Action
  | .none => [.make .argList 0]
  | .some p => p.actions ++ [.makeExprArglistsActual]

def GenTupleArgsP.actions : GenTupleArgsP → List Action
  | .two e e' => e.actions ++ (e'.actions ++ [.addTwoArgs])
  | .next p e => p.actions ++ (e.actions ++ [.addFnArgsActual])

def StmtexprList.actions : StmtexprList → List Action
  | .list l e => l.actions ++ (e.actions ++ [.makeStmtexprList, .make .lexicalBody 1])
  | .expr e => e.actions ++ [.make .lexicalBody 1]

def StmtList.actions : StmtList → List Action
  | .stmt s => s.actions ++ [.putAstnodeIntoList true]
  | .next l s => l.actions ++ (s.actions ++ [.putAstnodeIntoList false])

def StmtListStar.actions : StmtListStar → List Action
  | .list l => l.actions ++ [.makeStmtListZip, .make .lexicalBody 1]
  | .empty => [.make .empty 0, .make .lexicalBody 1]

def Stmt.actions : Stmt → List Action
  | .other k parts => parts.actions ++ [.make (.other k) parts.length]
  | .block body => body.actions
  | .matchStmt e patterns => e.actions ++ (patterns.actions ++ [.noAction 2])

def MatchPatterns.actions : MatchPatterns → List Action
  | .one p => p.actions ++ [.noAction 1]
  | .next ps p => ps.actions ++ (p.actions ++ [.noAction 2])

def MatchPattern.actions : MatchPattern → List Action
  | .mk left body => left.actions ++ (body.actions ++ [.noAction (left.length + 1)])

def Parts.actions : Parts → List Action
  | .nil => []
  | .expr e rest => e.actions ++ rest.actions
  | .stmt s rest => s.actions ++ rest.actions
  | .block body rest => body.actions ++ rest.actions

end

/-! ### What outgrows a list -/

def FnArgsCallP.length : FnArgsCallP → Nat
  | .expr _ => 1
  | .next p _ => p.length + 1

def GenTupleArgsP.length : GenTupleArgsP → Nat
  | .two _ _ => 2
  | .next p _ => p.length + 1

def StmtList.length : StmtList → Nat
  | .stmt _ => 1
  | .next l _ => l.length + 1

/-- One more of what fills a list. -/
def excessOf (max length : Nat) (error : Error) : List Error :=
  if max ≤ length then [error] else []

mutual

/-- The arguments and the statements that are too many, in the order of the parse. -/
def Expr.excesses : Expr → List Error
  | .other _ parts => parts.excesses
  | .call _ callee args => callee.excesses ++ args.excesses
  | .genTuple args => args.excesses
  | .ifexpr c b b' => c.excesses ++ (b.excesses ++ b'.excesses)

def FnArgsCall.excesses : FnArgsCall → List Error
  | .none => []
  | .some p => p.excesses

def FnArgsCallP.excesses : FnArgsCallP → List Error
  | .expr e => e.excesses
  | .next p e => p.excesses ++ (e.excesses ++ excessOf maxArgs p.length .tooManyArgs)

def GenTupleArgs.excesses : GenTupleArgs → List Error
  | .none => []
  | .some p => p.excesses

def GenTupleArgsP.excesses : GenTupleArgsP → List Error
  | .two e e' => e.excesses ++ e'.excesses
  | .next p e => p.excesses ++ (e.excesses ++ excessOf maxArgs p.length .tooManyArgs)

def StmtexprList.excesses : StmtexprList → List Error
  | .list l e => l.excesses ++ e.excesses
  | .expr e => e.excesses

def StmtList.excesses : StmtList → List Error
  | .stmt s => s.excesses
  | .next l s => l.excesses ++ (s.excesses ++ excessOf maxStmts l.length .crash)

def StmtListStar.excesses : StmtListStar → List Error
  | .list l => l.excesses
  | .empty => []

def Stmt.excesses : Stmt → List Error
  | .other _ parts => parts.excesses
  | .block body => body.excesses
  | .matchStmt e patterns => e.excesses ++ patterns.excesses

def MatchPatterns.excesses : MatchPatterns → List Error
  | .one p => p.excesses
  | .next ps p => ps.excesses ++ p.excesses

def MatchPattern.excesses : MatchPattern → List Error
  | .mk left body => left.excesses ++ body.excesses

def Parts.excesses : Parts → List Error
  | .nil => []
  | .expr e rest => e.excesses ++ rest.excesses
  | .stmt s rest => s.excesses ++ rest.excesses
  | .block body rest => body.excesses ++ rest.excesses

end

end CaLang.Parser.Pending
