import Mathlib.Data.List.Basic
import Mathlib.Logic.Function.Basic

/-! # The walk that generates code

The second pass of `walk`: **the generator's context is a handful of globals**, and every node of
the tree changes them as its `walk_` function does.

* A `Node` is a tree node with what the context depends on.  Operands are the `ife` and the
  logical operators in them, in the order they are walked; an impl block holds the functions walked
  for it, which are its own and then the trait defaults it inherits.
* `State` holds the context: the current function and its node, the insertion point, the flag
  `g_with_ret_value`, the loop targets, the saved functions and the blocks of the labels.
* A function has an LLVM function of its own here; which names they get is a matter of mangling.
* A generic function is never walked, nor is anything that stands in a trait definition.
-/

namespace CaLang.Codegen

/-- A name or a type of the symbol name table. -/
abbrev Id := Nat

/-- A basic block. -/
abbrev Block := Nat

/-- An LLVM function with its return type, which is `none` for `void`. -/
structure Fn where
  id : Nat
  ret : Option Id
  deriving DecidableEq

/-- What `walk_ret` and `generate_final_return` read in the node of a function. -/
structure FnNode where
  ret : Option Id
  retbb : Block
  /-- The function in whose entry block the slot of the returned value is. -/
  retslot : Option Fn
  deriving DecidableEq

/-- The targets of `continue` and `break`. -/
structure LoopControlInfo where
  condbb : Block
  outbb : Block
  deriving DecidableEq

/-- The instructions that take an operand from the context. -/
inductive Instr
  /-- The branch of a `break`, a `continue` or a `return`. -/
  | br (target : Block)
  | store (slot : Option Fn)
  | retVoid
  | retLoad (slot : Option Fn)
  | retDefault
  deriving DecidableEq

inductive Symbol
  | expr | conds | bodies | fn | fns | stmt | stmts
  deriving DecidableEq

/-- The nodes of the tree. -/
inductive Node : Symbol → Type
  /-- An operand without blocks of its own. -/
  | atom : Node .expr
  | operands (left right : Node .expr) : Node .expr
  /-- `&&` or `||` -/
  | landor (left right : Node .expr) : Node .expr
  | ife (cond : Node .expr) (thens elses : Node .stmts) : Node .expr
  | noConds : Node .conds
  | condThen (cond : Node .expr) (rest : Node .conds) : Node .conds
  | noBodies : Node .bodies
  | bodyThen (body : Node .stmts) (rest : Node .bodies) : Node .bodies
  | fnDefine (ret : Option Id) (stmts : Node .stmts) : Node .fn
  | noFns : Node .fns
  | fnThen (fn : Node .fn) (rest : Node .fns) : Node .fns
  /-- A `let`, an assignment, a `dbgprint`, an expression statement, ... -/
  | simple (parts : Node .expr) : Node .stmt
  /-- A type definition, an extern declaration or a trait definition. -/
  | decl : Node .stmt
  | retVoid : Node .stmt
  /-- `return value;` for a value of the given LLVM type. -/
  | retExpr (value : Node .expr) (type : Id) : Node .stmt
  | breakStmt : Node .stmt
  | continueStmt : Node .stmt
  | label (name : Id) : Node .stmt
  | labelGoto (name : Id) : Node .stmt
  | loop (body : Node .stmts) : Node .stmt
  | whileStmt (cond : Node .expr) (body : Node .stmts) : Node .stmt
  | forStmt (list : Node .expr) (body : Node .stmts) : Node .stmt
  /-- An `if` with its `else if`s; the body of an `else` is the last one. -/
  | ifStmt (conds : Node .conds) (bodies : Node .bodies) : Node .stmt
  | lexicalBody (stmts : Node .stmts) : Node .stmt
  | fnStmt (fn : Node .fn) : Node .stmt
  | fnDefineImpl (fns : Node .fns) : Node .stmt
  | noStmt : Node .stmts
  | stmtThen (first : Node .stmt) (rest : Node .stmts) : Node .stmts

/-- A tree as `walk` gets it. -/
abbrev Program := Node .stmts

/-- What is generated under `-main`. -/
structure Main where
  fn : Fn
  bb : Block
  node : FnNode
  deriving DecidableEq

/-- The context of the generator. -/
structure State where
  /-- The number of blocks and functions made. -/
  next : Nat
  /-- The function whose block list holds a block. -/
  parent : Block → Option Fn
  labelMap : Id → Option Block
  insertBlock : Option Block
  currFn : Option Fn
  currFnNode : Option FnNode
  withRetValue : Bool
  loopControls : List LoopControlInfo
  currFnStack : List (Option Fn × Option FnNode)
  code : List (Option Block × Instr)
  rejected : Bool

namespace State

def emit (i : Instr) (s : State) : State := { s with code := s.code ++ [(s.insertBlock, i)] }

/-- Appends a block to the current function and makes it the insertion point. -/
def enter (bb : Block) (s : State) : State :=
  { s with parent := Function.update s.parent bb s.currFn, insertBlock := some bb }

/-- Makes `n` blocks, from `s.next` on. -/
def genBb (n : Nat) (s : State) : State := { s with next := s.next + n }

/-- Goes on in a new block of the current function. -/
def enterNew (s : State) : State := (s.genBb 1).enter s.next

def reject (b : Bool) (s : State) : State := { s with rejected := s.rejected || b }

def pushLoop (l : LoopControlInfo) (s : State) : State :=
  { s with loopControls := l :: s.loopControls }

def popLoop (s : State) : State := { s with loopControls := s.loopControls.tail }

/-- The block of a label, made at its first use. -/
def labelBlock (name : Id) (s : State) : Block × State :=
  match s.labelMap name with
  | some bb => (bb, s)
  | none => (s.next, { s.genBb 1 with labelMap := Function.update s.labelMap name (some s.next) })

def walkLabel (name : Id) (s : State) : State :=
  match s.currFn with
  | none => s
  | some _ =>
      let (bb, s) := s.labelBlock name
      s.enter bb

def walkLabelGoto (name : Id) (s : State) : State :=
  match s.currFn with
  | none => s
  | some _ =>
      let (_, s) := s.labelBlock name
      s.enterNew

/-- The branch goes to the loop on top, which need not be one of the current function.  Without a
loop the source reads behind the end of a vector; no branch stands here then. -/
def walkBreak (s : State) : State :=
  match s.loopControls.head? with
  | none => s.enterNew
  | some l => (s.emit (.br l.outbb)).enterNew

def walkContinue (s : State) : State :=
  match s.loopControls.head? with
  | none => s.enterNew
  | some l => (s.emit (.br l.condbb)).enterNew

/-- `walk_ret` after the value: the node is looked at again for the slot. -/
def walkRetEnd (retbb : Option Block) (s : State) : State :=
  match retbb with
  | none => s
  | some bb => { (s.emit (.br bb)).enterNew with withRetValue := true }

def walkRetVoid (s : State) : State :=
  (s.reject (decide (s.currFn.bind Fn.ret ≠ none))).walkRetEnd (s.currFnNode.map FnNode.retbb)

/-- `walk_ret` for a value, with the current function at its start and the walk of the value. -/
def walkRetExpr (type : Id) (value : State → State) (s : State) : State :=
  let s' := (value s).reject (decide (s.currFn.bind Fn.ret ≠ some type))
  (s'.emit (.store (s'.currFnNode.bind FnNode.retslot))).walkRetEnd (s.currFnNode.map FnNode.retbb)

/-- The LLVM function of the definition walked next. -/
def newFn (ret : Option Id) (s : State) : Fn := ⟨s.next, ret⟩

def newNode (ret : Option Id) (s : State) : FnNode :=
  ⟨ret, s.next + 1, ret.map fun _ => s.newFn ret⟩

/-- `walk_fn_define_full_withsym_generic` up to the statements. -/
def beginFn (ret : Option Id) (s : State) : State :=
  ({ s.genBb 3 with
    withRetValue := false
    currFnStack := (s.currFn, s.currFnNode) :: s.currFnStack
    currFn := some (s.newFn ret)
    currFnNode := some (s.newNode ret) } : State).enter (s.next + 2)

def generateFinalReturn (m : Option Main) (node : FnNode) (s : State) : State :=
  match node.ret with
  | none => s.emit .retVoid
  | some _ =>
      if s.withRetValue then s.emit (.retLoad node.retslot)
      else if m.isNone then s.reject true
      else s.emit .retDefault

/-- The block `ret` is appended to the function itself and not to the current one. -/
def enterRet (fn : Fn) (bb : Block) (s : State) : State :=
  { s.emit (.br bb) with
    parent := Function.update s.parent bb (some fn)
    insertBlock := some bb }

/-- `walk_fn_define_full_withsym_generic` from the statements on. -/
def endFn (m : Option Main) (saved : Option Block) (fn : Fn) (node : FnNode) (s : State) : State :=
  let s := (s.enterRet fn node.retbb).generateFinalReturn m node
  match m with
  | some main =>
      { s with insertBlock := some main.bb, currFnNode := some main.node, currFn := some main.fn }
  | none =>
      { s with
        insertBlock := saved
        currFn := s.currFnStack.head?.bind Prod.fst
        currFnNode := s.currFnStack.head?.bind Prod.snd
        currFnStack := s.currFnStack.tail }

end State

variable (m : Option Main) in
/-- The walk: the state after a node.  The blocks of an `if` are numbered as they are entered. -/
def Node.walk : {c : Symbol} → Node c → State → State
  | _, .atom, s => s
  | _, .operands left right, s => right.walk (left.walk s)
  | _, .landor left right, s =>
      match s.currFn with
      | none => s
      | some _ =>
          let s := left.walk s
          let thenbb := s.next
          (right.walk ((s.genBb 2).enter thenbb)).enter (thenbb + 1)
  | _, .ife cond thens elses, s =>
      match s.currFn with
      | none => s
      | some _ =>
          let thenbb := s.next
          let s := cond.walk (s.genBb 3)
          let s := thens.walk (s.enter thenbb)
          (elses.walk (s.enter (thenbb + 2))).enter (thenbb + 1)
  | _, .noConds, s => s
  | _, .condThen cond rest, s => rest.walk (cond.walk s).enterNew
  | _, .noBodies, s => s
  | _, .bodyThen body rest, s => rest.walk (body.walk s.enterNew)
  | _, .fnDefine ret stmts, s =>
      (stmts.walk (s.beginFn ret)).endFn m s.insertBlock (s.newFn ret) (s.newNode ret)
  | _, .noFns, s => s
  | _, .fnThen fn rest, s => rest.walk (fn.walk s)
  | _, .simple parts, s => parts.walk s
  | _, .decl, s => s
  | _, .retVoid, s => s.walkRetVoid
  | _, .retExpr value type, s => s.walkRetExpr type value.walk
  | _, .breakStmt, s => s.walkBreak
  | _, .continueStmt, s => s.walkContinue
  | _, .label name, s => s.walkLabel name
  | _, .labelGoto name, s => s.walkLabelGoto name
  | _, .loop body, s =>
      match s.currFn with
      | none => s
      | some _ =>
          let loopbb := s.next
          let s := (s.genBb 2).enter loopbb
          (body.walk (s.pushLoop ⟨loopbb, loopbb + 1⟩)).popLoop.enter (loopbb + 1)
  | _, .whileStmt cond body, s =>
      match s.currFn with
      | none => s
      | some _ =>
          let condbb := s.next
          let s := (cond.walk ((s.genBb 3).enter condbb)).enter (condbb + 1)
          (body.walk (s.pushLoop ⟨condbb, condbb + 2⟩)).popLoop.enter (condbb + 2)
  | _, .forStmt list body, s =>
      match s.currFn with
      | none => s
      | some _ =>
          let condbb := s.next
          let s := ((list.walk (s.genBb 3)).enter condbb).enter (condbb + 1)
          (body.walk (s.pushLoop ⟨condbb, condbb + 2⟩)).popLoop.enter (condbb + 2)
  | _, .ifStmt conds bodies, s =>
      match s.currFn with
      | none => s
      | some _ =>
          let outbb := s.next
          (bodies.walk (conds.walk (s.genBb 1))).enter outbb
  | _, .lexicalBody stmts, s => stmts.walk s
  | _, .fnStmt fn, s => fn.walk s
  | _, .fnDefineImpl fns, s => fns.walk s
  | _, .noStmt, s => s
  | _, .stmtThen first rest, s => rest.walk (first.walk s)

/-- The start under `-main`: the function, its blocks `entry` and `ret`. -/
def mainOf (emitMain : Bool) : Option Main :=
  let fn : Fn := ⟨0, some 0⟩
  if emitMain then some ⟨fn, 1, ⟨some 0, 2, some fn⟩⟩ else none

/-- `llvm_codegen_begin`; the first pass leaves the context as it is. -/
def codegenBegin (emitMain : Bool) : State :=
  { next := 3
    parent := fun bb => if bb = 1 then (mainOf emitMain).map Main.fn else none
    labelMap := fun _ => none
    insertBlock := (mainOf emitMain).map Main.bb
    currFn := (mainOf emitMain).map Main.fn
    currFnNode := (mainOf emitMain).map Main.node
    withRetValue := false
    loopControls := []
    currFnStack := []
    code := []
    rejected := false }

def Program.codegen (emitMain : Bool) (p : Program) : State :=
  p.walk (mainOf emitMain) (codegenBegin emitMain)

end CaLang.Codegen
