import Mathlib.Data.List.Basic

/-! # The lexical bodies in the two walks

`walk` goes over the tree twice: **the first walk declares the functions, the second generates
code**.  `walk_lexical_body` numbers the bodies in the order they are walked, and the numbers are
part of the names that functions in blocks get.  Here a walk lists every lexical body of the tree
with its number, and every function with its mangled name, or `none` where it does not come to
them.

The tree has what the two walks tell apart: an expression statement or a `dbgprint`, which the
first walk looks into, and the parts of a statement it leaves out.  Operands stand in the order
they are walked; an expression that is never walked, as under `typeof`, is a `leaf`.
-/

namespace CaLang.Lexical

/-- `walk_pass` -/
inductive Pass
  | first | second
  deriving DecidableEq

/-- A `LexicalScope` above the root: that of a block or of the body of a function. -/
inductive LexicalScope
  | block (lexicalId : Nat)
  | function (lexicalId : Nat) (functionName : String)
  deriving DecidableEq

/-- What a method is mangled with. -/
structure TypeImplInfo where
  /-- How many scopes there are above the root up to that of the type. -/
  pos : Nat
  traitName : Option String
  structName : String
  localName : String
  deriving DecidableEq

/-- The name of a function, as `catype_get_function_name` gives it. -/
structure FnName where
  name : String
  impl : Option TypeImplInfo
  deriving DecidableEq

/-! ### Mangled names -/

/-- A name with its length before it. -/
def sized (name : String) : String := toString name.utf8ByteSize ++ name

/-- What the first loop of `mangling_function_name_nottype` writes for a scope. -/
def LexicalScope.kind : LexicalScope → String
  | block id => "L" ++ toString id
  | function _ _ => "F"

/-- What the second loop writes. -/
def LexicalScope.name : LexicalScope → String
  | block _ => ""
  | function _ name => sized name

/-- `mangling_function_name_nottype` -/
def manglingFunctionNameNottype (scopes : List LexicalScope) (kind name : String) : String :=
  "_CA$" ++ String.join (scopes.map LexicalScope.kind) ++ kind ++
    (String.join (scopes.map LexicalScope.name) ++ name)

/-- `mangling_function_name` -/
def manglingFunctionName (scopes : List LexicalScope) (fn : FnName) : String :=
  match fn.impl with
  | none =>
      match scopes with
      | [] => fn.name
      | _ => manglingFunctionNameNottype scopes "F" (sized fn.name)
  | some impl =>
      match impl.traitName with
      | none =>
          manglingFunctionNameNottype (scopes.take impl.pos) "SF"
            (sized impl.structName ++ sized impl.localName)
      | some traitName =>
          manglingFunctionNameNottype (scopes.take impl.pos) "TSF"
            (sized traitName ++ sized impl.structName ++ sized impl.localName)

/-! ### Trees -/

inductive Symbol
  | expr | exprBlock | conds | bodies | fn | fns | stmt | stmts
  deriving DecidableEq

/-- The nodes of the tree. -/
inductive Node : Symbol → Type
  | leaf : Node .expr
  | operands (left right : Node .expr) : Node .expr
  | ife (cond : Node .expr) (thens elses : Node .exprBlock) : Node .expr
  /-- `{ expr }` -/
  | value (e : Node .expr) : Node .exprBlock
  /-- `{ stmts expr }` -/
  | stmtExpr (stmts : Node .stmts) (e : Node .expr) : Node .exprBlock
  | noConds : Node .conds
  | condThen (cond : Node .expr) (rest : Node .conds) : Node .conds
  | noBodies : Node .bodies
  | bodyThen (body : Node .stmts) (rest : Node .bodies) : Node .bodies
  | fnDefine (name : FnName) (stmts : Node .stmts) : Node .fn
  | noFns : Node .fns
  | fnThen (generic : Bool) (fn : Node .fn) (rest : Node .fns) : Node .fns
  /-- A `let`, an assignment, a `return`, ... -/
  | simple (parts : Node .expr) : Node .stmt
  /-- An expression as a statement, or `dbgprint` of one. -/
  | exprStmt (e : Node .expr) : Node .stmt
  /-- A label, a type definition, a trait, ... -/
  | decl : Node .stmt
  | loop (body : Node .stmts) : Node .stmt
  | whileStmt (cond : Node .expr) (body : Node .stmts) : Node .stmt
  | forStmt (list : Node .expr) (body : Node .stmts) : Node .stmt
  /-- An `if` with its `else if`s; the body of an `else` is the last one. -/
  | ifStmt (conds : Node .conds) (bodies : Node .bodies) : Node .stmt
  | lexicalBody (stmts : Node .stmts) : Node .stmt
  | fnStmt (generic : Bool) (fn : Node .fn) : Node .stmt
  /-- An impl block with its functions and the trait defaults it inherits. -/
  | fnDefineImpl (fns : Node .fns) : Node .stmt
  | noStmt : Node .stmts
  | stmtThen (first : Node .stmt) (rest : Node .stmts) : Node .stmts

/-- A tree as `walk` gets it. -/
abbrev Program := Node .stmts

/-! ### Walks -/

/-- A lexical body or a function, with the number or name that a walk gives it. -/
inductive Visit
  | body (lexicalId : Option Nat)
  | fn (mangledName : Option String)
  deriving DecidableEq

/-- A walk, from `lexical_scope_stack` without its root and `curr_lexical_count`: the visits, and
the count behind it. -/
abbrev Walk := List LexicalScope → Nat → List Visit × Nat

namespace Walk

/-- Nothing is walked. -/
def skip (vs : List Visit) : Walk := fun _ count => (vs, count)

def seq (w w' : Walk) : Walk := fun scopes count =>
  ((w scopes count).1 ++ (w' scopes (w scopes count).2).1, (w' scopes (w scopes count).2).2)

/-- `walk_lexical_body` -/
def lexicalBody (scope : Nat → LexicalScope) (w : Walk) : Walk := fun scopes count =>
  let inner := w (scopes ++ [scope (count + 1)]) (count + 1)
  (.body (some (count + 1)) :: inner.1, inner.2)

/-- A function is declared before its body is walked. -/
def fnDeclare (name : FnName) (w : Walk) : Walk := fun scopes count =>
  (.fn (some (manglingFunctionName scopes name)) :: (w scopes count).1, (w scopes count).2)

end Walk

/-- The bodies and functions of a node that is not walked. -/
def Node.unwalked : {c : Symbol} → Node c → List Visit
  | _, .leaf => []
  | _, .operands left right => left.unwalked ++ right.unwalked
  | _, .ife cond thens elses => cond.unwalked ++ (thens.unwalked ++ elses.unwalked)
  | _, .value e => .body none :: e.unwalked
  | _, .stmtExpr stmts e => .body none :: (stmts.unwalked ++ e.unwalked)
  | _, .noConds => []
  | _, .condThen cond rest => cond.unwalked ++ rest.unwalked
  | _, .noBodies => []
  | _, .bodyThen body rest => .body none :: body.unwalked ++ rest.unwalked
  | _, .fnDefine _ stmts => .fn none :: .body none :: stmts.unwalked
  | _, .noFns => []
  | _, .fnThen _ fn rest => fn.unwalked ++ rest.unwalked
  | _, .simple parts => parts.unwalked
  | _, .exprStmt e => e.unwalked
  | _, .decl => []
  | _, .loop body => .body none :: body.unwalked
  | _, .whileStmt cond body => cond.unwalked ++ .body none :: body.unwalked
  | _, .forStmt list body => .body none :: (list.unwalked ++ .body none :: body.unwalked)
  | _, .ifStmt conds bodies => conds.unwalked ++ bodies.unwalked
  | _, .lexicalBody stmts => .body none :: stmts.unwalked
  | _, .fnStmt _ fn => fn.unwalked
  | _, .fnDefineImpl fns => fns.unwalked
  | _, .noStmt => []
  | _, .stmtThen first rest => first.unwalked ++ rest.unwalked

/-- What a `walk_` function does that looks at `walk_pass` and `curr_fn`: the first walk goes over
the declarations in it, and the second over all of it, in a function only. -/
def Walk.byPass (pass : Pass) (inFn : Bool) (vs : List Visit) (first second : Walk) : Walk :=
  match pass with
  | .first => first
  | .second => if inFn then second else skip vs

variable (pass : Pass) in
/-- The walk of a node, in a function (`curr_fn`) or outside. -/
def Node.walk : {c : Symbol} → Node c → Bool → Walk
  | _, .leaf, _ => .skip []
  | _, .operands left right, inFn =>
      let vs := left.unwalked ++ right.unwalked
      .byPass pass inFn vs (.skip vs) ((left.walk inFn).seq (right.walk inFn))
  | _, .ife cond thens elses, inFn =>
      .byPass pass inFn (cond.unwalked ++ (thens.unwalked ++ elses.unwalked))
        ((Walk.skip cond.unwalked).seq ((thens.walk inFn).seq (elses.walk inFn)))
        ((cond.walk inFn).seq ((thens.walk inFn).seq (elses.walk inFn)))
  | _, .value e, inFn => .lexicalBody .block (e.walk inFn)
  | _, .stmtExpr stmts e, inFn =>
      let vs := stmts.unwalked ++ e.unwalked
      .lexicalBody .block
        (.byPass pass inFn vs (.skip vs) ((stmts.walk inFn).seq (e.walk inFn)))
  | _, .noConds, _ => .skip []
  | _, .condThen cond rest, inFn => (cond.walk inFn).seq (rest.walk inFn)
  | _, .noBodies, _ => .skip []
  | _, .bodyThen body rest, inFn =>
      (Walk.lexicalBody .block (body.walk inFn)).seq (rest.walk inFn)
  | _, .fnDefine name stmts, _ =>
      .fnDeclare name (.lexicalBody (.function · name.name) (stmts.walk true))
  | _, .noFns, _ => .skip []
  | _, .fnThen generic fn rest, inFn =>
      (if generic then .skip fn.unwalked else fn.walk inFn).seq (rest.walk inFn)
  | _, .simple parts, inFn =>
      .byPass pass inFn parts.unwalked (.skip parts.unwalked) (parts.walk inFn)
  | _, .exprStmt e, inFn => e.walk inFn
  | _, .decl, _ => .skip []
  | _, .loop body, inFn =>
      let w := Walk.lexicalBody .block (body.walk inFn)
      .byPass pass inFn (.body none :: body.unwalked) w w
  | _, .whileStmt cond body, inFn =>
      let w := Walk.lexicalBody .block (body.walk inFn)
      .byPass pass inFn (cond.unwalked ++ .body none :: body.unwalked)
        ((Walk.skip cond.unwalked).seq w) ((cond.walk inFn).seq w)
  | _, .forStmt list body, inFn =>
      let w := Walk.lexicalBody .block (body.walk inFn)
      .lexicalBody .block (.byPass pass inFn (list.unwalked ++ .body none :: body.unwalked)
        ((Walk.skip list.unwalked).seq w) ((list.walk inFn).seq w))
  | _, .ifStmt conds bodies, inFn =>
      .byPass pass inFn (conds.unwalked ++ bodies.unwalked)
        ((Walk.skip conds.unwalked).seq (bodies.walk inFn))
        ((conds.walk inFn).seq (bodies.walk inFn))
  | _, .lexicalBody stmts, inFn => .lexicalBody .block (stmts.walk inFn)
  | _, .fnStmt generic fn, inFn => if generic then .skip fn.unwalked else fn.walk inFn
  | _, .fnDefineImpl fns, inFn => fns.walk inFn
  | _, .noStmt, _ => .skip []
  | _, .stmtThen first rest, inFn => (first.walk inFn).seq (rest.walk inFn)

/-- One pass of `walk`: the visits, and `curr_lexical_count` behind it. -/
def Program.pass (emitMain : Bool) (pass : Pass) (p : Program) : List Visit × Nat :=
  p.walk pass emitMain [] 0

/-- **The two walks number the lexical bodies alike**: every body gets the same number, every
function the same name, and the counts that `walk` compares are the same. -/
structure Program.NumberedAlike (emitMain : Bool) (p : Program) : Prop where
  visits : (p.pass emitMain .first).1 = (p.pass emitMain .second).1
  counts : (p.pass emitMain .first).2 = (p.pass emitMain .second).2

end CaLang.Lexical
