import Mathlib.Data.List.Basic

/-! # Parse trees

The trees of `ca.y`, as far as its actions touch the parser's context: the scopes, the function
being parsed, the parameter list under construction, the trait and the impl block.  A `Tree` is
indexed by its grammar symbol, so that **only what the grammar derives can be built**.

* An expression is the `ife` expressions in it, in their order; so is a data type, whose
  expressions stand under `typeof`.
* A statement made of expressions and types only (`let`, an assignment, `dbgprint`, `type`, a
  tuple definition, ...) is a `simple` one.
* `loop`, `while`, `if`, `match` and a plain block are `clauses`: heads and blocks in their order.
-/

namespace CaLang.Parser

/-- A name of the symbol name table, by its offset there. -/
abbrev Id := Nat

/-- The id of the type `void`, the first name that is entered: 0, which also stands for no return
type and for no trait. -/
def voidId : Id := 0

/-- The symbols of the grammar. -/
inductive Symbol
  | expr | params | fnArgs | fnDef | fields | exprBlock | block | clauses | stmt | stmts
  | traitFnDefs | fnImplDefs
  deriving DecidableEq

/-- The parse trees. -/
inductive Tree : Symbol → Type
  /-- An expression or a data type without `ife`. -/
  | atom : Tree .expr
  /-- Operands, from left to right. -/
  | operands (left right : Tree .expr) : Tree .expr
  | ifexpr (cond : Tree .expr) (thens elses : Tree .exprBlock) : Tree .expr
  | stmtexprListBlock (list : Tree .stmts) (value : Tree .expr) : Tree .exprBlock
  | stmtListBlock (list : Tree .stmts) : Tree .block
  /-- The first of `fn_args_p`: `self` or a typed parameter. -/
  | firstParam (name : Id) (type : Tree .expr) : Tree .params
  | nextParam (init : Tree .params) (name : Id) (type : Tree .expr) : Tree .params
  /-- The empty alternative of `fn_args`. -/
  | noArgs : Tree .fnArgs
  /-- `fn_args_p`, with `...` after it if `varg`. -/
  | someArgs (list : Tree .params) (varg : Bool) : Tree .fnArgs
  /-- `fn name(args) -> ret { body }`, where the type `ret` has the id `rettype`. -/
  | fnDefine (name : Id) (args : Tree .fnArgs) (ret : Tree .expr) (rettype : Id)
      (body : Tree .stmts) : Tree .fnDef
  | noFields : Tree .fields
  | someFields (list : Tree .params) : Tree .fields
  | noClause : Tree .clauses
  | clause (head : Tree .expr) (body : Tree .block) (rest : Tree .clauses) : Tree .clauses
  | simple (parts : Tree .expr) : Tree .stmt
  | retVoid : Tree .stmt
  | retExpr (value : Tree .expr) : Tree .stmt
  /-- `label:` or `goto label;`. -/
  | label (name : Id) : Tree .stmt
  | control (list : Tree .clauses) : Tree .stmt
  | forStmt (list : Tree .expr) (body : Tree .block) : Tree .stmt
  | structDef (name : Id) (members : Tree .fields) : Tree .stmt
  /-- `trait name { .. }`, with the id that the trait has as a type. -/
  | traitDef (name : Id) (defs : Tree .traitFnDefs) : Tree .stmt
  /-- `impl class { .. }` or `impl trait for class { .. }`. -/
  | typeImpl (classId : Id) (traitId : Option Id) (defs : Tree .fnImplDefs) : Tree .stmt
  /-- A function definition as a statement (`fn_unit`). -/
  | fnUnit (fn : Tree .fnDef) : Tree .stmt
  /-- `extern fn name(args) -> ret;` -/
  | fnDecl (name : Id) (args : Tree .fnArgs) (ret : Tree .expr) (rettype : Id) : Tree .stmt
  | noStmt : Tree .stmts
  | stmtThen (first : Tree .stmt) (rest : Tree .stmts) : Tree .stmts
  | noTraitFn : Tree .traitFnDefs
  /-- `fn name(args) -> ret;` in a trait. -/
  | traitProto (name : Id) (args : Tree .fnArgs) (ret : Tree .expr) (rettype : Id)
      (rest : Tree .traitFnDefs) : Tree .traitFnDefs
  /-- A method with a default body in a trait. -/
  | traitDefault (fn : Tree .fnDef) (rest : Tree .traitFnDefs) : Tree .traitFnDefs
  | noImplFn : Tree .fnImplDefs
  | implFn (fn : Tree .fnDef) (rest : Tree .fnImplDefs) : Tree .fnImplDefs

/-- A source file (`program`). -/
abbrev Program := Tree .stmts

end CaLang.Parser
