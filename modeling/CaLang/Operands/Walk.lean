import Mathlib.Data.List.Basic

/-! # The operand stack

In the second walk **every expression leaves its operand on one stack, `oprand_stack`**, and who
walked the expression pops it.  Here an operand is known by the expression whose walker pushed it,
and a walk lists what it does with the stack: each expression with the stack before and after it,
and each pop with the expression whose operand it is meant to take.

* Literals and identifiers are pushed anywhere, all other expressions in a function only
  (`curr_fn`): outside of one `walk_expr` and `walk_if_common` return at once.
* All the walkers under `walk_expr` are alike for the stack: they walk the operands in order, pop
  each before the next one is walked, and push the operand of the whole.  What they only pass on,
  as a cast or a boxed value does, is the operand of the whole.
* A statement that needs no value leaves the operand of its expression behind, and an assignment
  pushes one that nobody reads.
-/

namespace CaLang.Operands

inductive Symbol
  | expr | args | exprBlock | conds | bodies | fn | fns | stmt | stmts
  deriving DecidableEq

/-- The nodes of the tree. -/
inductive Node : Symbol → Type
  | literal : Node .expr
  | id : Node .expr
  /-- A node of type `TTE_Expr` with the operands it walks. -/
  | expr (args : Node .args) : Node .expr
  | ife (cond : Node .expr) (thens elses : Node .exprBlock) : Node .expr
  | noArgs : Node .args
  | argThen (arg : Node .expr) (rest : Node .args) : Node .args
  /-- `{ stmts value }` -/
  | block (stmts : Node .stmts) (value : Node .expr) : Node .exprBlock
  | noConds : Node .conds
  | condThen (cond : Node .expr) (rest : Node .conds) : Node .conds
  | noBodies : Node .bodies
  | bodyThen (body : Node .stmts) (rest : Node .bodies) : Node .bodies
  | fnDefine (stmts : Node .stmts) : Node .fn
  | noFns : Node .fns
  | fnThen (generic : Bool) (fn : Node .fn) (rest : Node .fns) : Node .fns
  | letBind (value : Node .expr) : Node .stmt
  /-- An assignment; of the left side the expressions that are walked, which stand behind. -/
  | assign (value : Node .expr) (left : Node .args) : Node .stmt
  | dbgprint (value : Node .expr) : Node .stmt
  | ret (value : Node .expr) : Node .stmt
  | exprStmt (e : Node .expr) : Node .stmt
  /-- A `let` of zeros, a `return` without a value, a jump, a label, a declaration, ... -/
  | other : Node .stmt
  | loop (body : Node .stmts) : Node .stmt
  | whileStmt (cond : Node .expr) (body : Node .stmts) : Node .stmt
  | forStmt (list : Node .expr) (body : Node .stmts) : Node .stmt
  /-- An `if` with its `else if`s; the body of an `else` is the last one. -/
  | ifStmt (conds : Node .conds) (bodies : Node .bodies) : Node .stmt
  | lexicalBody (stmts : Node .stmts) : Node .stmt
  | fnStmt (generic : Bool) (fn : Node .fn) : Node .stmt
  /-- An impl block with its functions and the trait defaults it inherits. -/
  | fnDefineImpl (fns : Node .fns) : Node .stmt
  | noStmt : Node .stmts
  | stmtThen (first : Node .stmt) (rest : Node .stmts) : Node .stmts

/-- A tree as `walk` gets it. -/
abbrev Program := Node .stmts

/-- The value of a block. -/
def Node.blockValue : Node .exprBlock → Node .expr
  | .block _ value => value

/-- A `CalcOperand`, by who pushed it. -/
inductive CalcOperand
  | expr (e : Node .expr)
  | assign

/-- What is done with the stack. -/
inductive Event
  /-- An expression is walked. -/
  | walked (e : Node .expr) (before after : List CalcOperand)
  /-- The operand of an expression is to be popped. -/
  | popped (e : Node .expr) (stack : List CalcOperand)

/-- A walk from a stack, with the stack behind it. -/
abbrev Walk := List CalcOperand → List Event × List CalcOperand

namespace Walk

def skip : Walk := fun stack => ([], stack)

def seq (w w' : Walk) : Walk := fun stack =>
  ((w stack).1 ++ (w' (w stack).2).1, (w' (w stack).2).2)

def push (o : CalcOperand) : Walk := fun stack => ([], o :: stack)

/-- `pop_right_value` or `pop_right_operand`; of an empty stack nothing is known. -/
def pop (e : Node .expr) : Walk := fun stack => ([.popped e stack], stack.tail)

/-- The walk of an expression. -/
def expr (e : Node .expr) (w : Walk) : Walk := fun stack =>
  (.walked e stack (w stack).2 :: (w stack).1, (w stack).2)

/-- In a function. -/
def inside (inFn : Bool) (w : Walk) : Walk := if inFn then w else skip

end Walk

/-- The second walk of a node, in a function or outside. -/
def Node.walk : {c : Symbol} → Node c → Bool → Walk
  | _, .literal, _ => .expr .literal (.push (.expr .literal))
  | _, .id, _ => .expr .id (.push (.expr .id))
  | _, .expr args, inFn =>
      .expr (.expr args) (.inside inFn ((args.walk inFn).seq (.push (.expr (.expr args)))))
  | _, .ife cond thens elses, inFn =>
      .expr (.ife cond thens elses) (.inside inFn
        (((cond.walk inFn).seq (.pop cond)).seq
          (((thens.walk inFn).seq (.pop thens.blockValue)).seq
            (((elses.walk inFn).seq (.pop elses.blockValue)).seq
              (.push (.expr (.ife cond thens elses)))))))
  | _, .noArgs, _ => .skip
  | _, .argThen arg rest, inFn => ((arg.walk inFn).seq (.pop arg)).seq (rest.walk inFn)
  | _, .block stmts value, inFn => (stmts.walk inFn).seq (value.walk inFn)
  | _, .noConds, _ => .skip
  | _, .condThen cond rest, inFn => ((cond.walk inFn).seq (.pop cond)).seq (rest.walk inFn)
  | _, .noBodies, _ => .skip
  | _, .bodyThen body rest, inFn => (body.walk inFn).seq (rest.walk inFn)
  | _, .fnDefine stmts, _ => stmts.walk true
  | _, .noFns, _ => .skip
  | _, .fnThen generic fn rest, inFn =>
      (if generic then .skip else fn.walk inFn).seq (rest.walk inFn)
  | _, .letBind value, inFn => (value.walk inFn).seq (.pop value)
  | _, .assign value left, inFn =>
      ((value.walk inFn).seq (.pop value)).seq ((left.walk inFn).seq (.push .assign))
  | _, .dbgprint value, inFn => (value.walk inFn).seq (.pop value)
  -- outside of functions `walk_ret` reads through `curr_fn` before it walks the value
  | _, .ret value, inFn => .inside inFn ((value.walk inFn).seq (.pop value))
  | _, .exprStmt e, inFn => e.walk inFn
  | _, .other, _ => .skip
  | _, .loop body, inFn => .inside inFn (body.walk inFn)
  | _, .whileStmt cond body, inFn =>
      .inside inFn (((cond.walk inFn).seq (.pop cond)).seq (body.walk inFn))
  | _, .forStmt list body, inFn =>
      .inside inFn (((list.walk inFn).seq (.pop list)).seq (body.walk inFn))
  | _, .ifStmt conds bodies, inFn => .inside inFn ((conds.walk inFn).seq (bodies.walk inFn))
  | _, .lexicalBody stmts, inFn => stmts.walk inFn
  | _, .fnStmt generic fn, inFn => if generic then .skip else fn.walk inFn
  | _, .fnDefineImpl fns, inFn => fns.walk inFn
  | _, .noStmt, _ => .skip
  | _, .stmtThen first rest, inFn => (first.walk inFn).seq (rest.walk inFn)

/-- An expression pushes its one operand on what was there, and a pop takes the operand it is
meant to take. -/
def Event.Ok : Event → Prop
  | .walked e before after => after = .expr e :: before
  | .popped e stack => stack.head? = some (.expr e)

/-- **The operand stack is kept**: in the walk of a program, from the empty stack. -/
def Program.Disciplined (emitMain : Bool) (p : Program) : Prop :=
  ∀ ev ∈ (p.walk emitMain []).1, ev.Ok

end CaLang.Operands
