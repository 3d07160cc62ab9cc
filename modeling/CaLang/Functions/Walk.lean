import CaLang.Functions.Meaning
import CaLang.Lib.Frames

/-! # The code of functions

`walk_fn_define_full` stores the arguments into cells, walks the body, and puts the return block
behind it.  **A `return` stores its value into the return slot and jumps to that block**; what
stands behind it in the source goes to an extra block.  The value of a call is stored into a cell of
its own and loaded from there.

The conditions of an `if` are walked first, and then the bodies.
-/

namespace CaLang.Functions

open Cfg (Build Val Fun)

/-- The operations of the emitted code. -/
inductive Op (F G : Type)
  | user (f : F)
  | call (g : G)

abbrev Code (F G V : Type) := Cfg.Code V (Op F G)

/-- `LoopControlInfo` -/
structure LoopControlInfo where
  condbb : Nat
  outbb : Nat

/-- Where a function keeps its variables, its return value and its return block. -/
structure CurrFn (ι : Type) where
  cells : ι → Nat
  retbb : Nat
  /-- `nullptr` in a `void` function. -/
  retslot : Option Nat

variable {ι F G V : Type}

/-! ### Expressions -/

/-- Where the value of an expression is. -/
inductive Operand (V : Type)
  /-- `OT_Alloc` -/
  | alloc (cell : Nat)
  | value (v : Val V)

/-- What a walk leaves: the operand of an expression, unless it has no value, or the values of
several. -/
abbrev Left (V : Type) : Bool → Type
  | false => Option (Operand V)
  | true => List (Val V)

/-- The load of `pop_right_value`. -/
def Operand.load : Operand V → Build V (Op F G) (Val V)
  | .alloc cell => do
      let v ← .fresh
      .emit (.load v cell)
      pure (.reg v)
  | .value v => pure v

/-- `pop_right_value` for an argument. -/
def popArgument : Option (Operand V) → Build V (Op F G) (List (Val V))
  | none => pure []
  | some o => do
      let v ← o.load
      pure [v]

/-- The walk of expressions, where `isvoidty` tells the functions that return none. -/
def walkStack (isvoidty : G → Bool) (cells : ι → Nat) :
    {k : Bool} → Term ι F G k → Build V (Op F G) (Left V k)
  | _, .var x => (pure (some (.alloc (cells x))) : Build V (Op F G) (Option (Operand V)))
  | _, .op f args => show Build V (Op F G) (Option (Operand V)) from do
      let vs : List (Val V) ← walkStack isvoidty cells args
      let v ← .fresh
      .emit (.op v (.user f) vs)
      pure (some (.value (.reg v)))
  | _, .call g args => show Build V (Op F G) (Option (Operand V)) from do
      let argv : List (Val V) ← walkStack isvoidty cells args
      let callret ← .fresh
      .emit (.op callret (.call g) argv)
      if isvoidty g then pure none
      else
        let calltmp ← .fresh
        .emit (.store calltmp (.reg callret))
        pure (some (.alloc calltmp))
  | _, .nil => (pure [] : Build V (Op F G) (List (Val V)))
  | _, .cons e es => show Build V (Op F G) (List (Val V)) from do
      let o : Option (Operand V) ← walkStack isvoidty cells e
      let v ← popArgument o
      let vs : List (Val V) ← walkStack isvoidty cells es
      pure (v ++ vs)

/-- `pop_right_value` behind the walk of an expression. -/
def popRightValue (isvoidty : G → Bool) (cells : ι → Nat) (e : Term ι F G false) :
    Build V (Op F G) (Val V) := do
  let o : Option (Operand V) ← walkStack isvoidty cells e
  match o with
  | some o => o.load
  | none => .fail

/-! ### Statements -/

/-- `walk_break` and `walk_continue`, which do not look whether there is a loop. -/
def walkJump (target : LoopControlInfo → Nat) (controls : List LoopControlInfo) :
    Build V (Op F G) Unit :=
  match controls with
  | [] => .fail
  | control :: _ => do
      .emit (.br (target control))
      let extrabb ← .fresh
      .setInsertPoint extrabb

/-- `walk_ret` -/
def walkRet (isvoidty : G → Bool) (fn : CurrFn ι) (e : Option (Term ι F G false)) :
    Build V (Op F G) Unit :=
  match e, fn.retslot with
  | some e, some retslot => do
      let v ← popRightValue isvoidty fn.cells e
      .emit (.store retslot v)
      .emit (.br fn.retbb)
      let afterret ← .fresh
      .setInsertPoint afterret
  | none, none => do
      .emit (.br fn.retbb)
      let afterret ← .fresh
      .setInsertPoint afterret
  | _, _ => .fail

/-- The conditions of an `if`; the blocks behind them are numbered from `bb` on, and each has that
of the body behind it. -/
def walkConds (isvoidty : G → Bool) (cells : ι → Nat) :
    {k : Bool} → Stmt ι F G k → Nat → Build V (Op F G) Unit
  | _, .arm cond _ rest, bb => do
      let condv ← popRightValue isvoidty cells cond
      .emit (.condbr condv (bb + 1) bb)
      .setInsertPoint bb
      walkConds isvoidty cells rest (bb + 2)
  | _, _, _ => pure ()

/-- The bodies of an `if`, each in its block. -/
def walkBodies (outbb : Nat) : List (Build V (Op F G) Unit) → Nat → Build V (Op F G) Unit
  | [], _ => pure ()
  | body :: bodies, bb => do
      .setInsertPoint (bb + 1)
      body
      .emit (.br outbb)
      walkBodies outbb bodies (bb + 2)

/-- New numbers. -/
def freshes : Nat → Build V (Op F G) Unit
  | 0 => pure ()
  | n + 1 => do
      let _ ← .fresh
      freshes n

/-- What there is to walk: a statement, or the bodies of an `if`. -/
abbrev Walks (F G V : Type) : Bool → Type
  | false => Build V (Op F G) Unit
  | true => List (Build V (Op F G) Unit)

/-- The walk of a statement; the loop controls have the last one first. -/
def walk (isvoidty : G → Bool) (fn : CurrFn ι) :
    {k : Bool} → Stmt ι F G k → List LoopControlInfo → Walks F G V k
  | _, .skip, _ => (pure () : Build V (Op F G) Unit)
  | _, .seq s t, controls => show Build V (Op F G) Unit from do
      walk isvoidty fn s controls
      walk isvoidty fn t controls
  | _, .expr e, _ => show Build V (Op F G) Unit from do
      -- the operand stays where it is
      let _ : Option (Operand V) ← walkStack isvoidty fn.cells e
  | _, .assign x e, _ => show Build V (Op F G) Unit from do
      let v ← popRightValue isvoidty fn.cells e
      .emit (.store (fn.cells x) v)
  | _, .noArms, _ => ([] : List (Build V (Op F G) Unit))
  | _, .arm _ body rest, controls =>
      (walk isvoidty fn body controls :: walk isvoidty fn rest controls :
        List (Build V (Op F G) Unit))
  | _, .ifThen arms, controls => show Build V (Op F G) Unit from do
      let bodies : List (Build V (Op F G) Unit) := walk isvoidty fn arms controls
      let outbb ← .fresh
      freshes (2 * bodies.length)
      walkConds isvoidty fn.cells arms (outbb + 1)
      .emit (.br outbb)
      walkBodies outbb bodies (outbb + 1)
      .setInsertPoint outbb
  | _, .ifElse arms remain, controls => show Build V (Op F G) Unit from do
      let bodies : List (Build V (Op F G) Unit) := walk isvoidty fn arms controls
      let outbb ← .fresh
      freshes (2 * bodies.length)
      let remainbb ← .fresh
      walkConds isvoidty fn.cells arms (outbb + 1)
      .emit (.br remainbb)
      walkBodies outbb bodies (outbb + 1)
      .setInsertPoint remainbb
      walk isvoidty fn remain controls
      .emit (.br outbb)
      .setInsertPoint outbb
  | _, .while cond body, controls => show Build V (Op F G) Unit from do
      let condbb ← .fresh
      let whilebb ← .fresh
      let endwhilebb ← .fresh
      .emit (.br condbb)
      .setInsertPoint condbb
      let condv ← popRightValue isvoidty fn.cells cond
      .emit (.condbr condv whilebb endwhilebb)
      .setInsertPoint whilebb
      walk isvoidty fn body (⟨condbb, endwhilebb⟩ :: controls)
      .emit (.br condbb)
      .setInsertPoint endwhilebb
  | _, .loop body, controls => show Build V (Op F G) Unit from do
      let loopbb ← .fresh
      let endloopbb ← .fresh
      .emit (.br loopbb)
      .setInsertPoint loopbb
      walk isvoidty fn body (⟨loopbb, endloopbb⟩ :: controls)
      .emit (.br loopbb)
      .setInsertPoint endloopbb
  | _, .break, controls => (walkJump (·.outbb) controls : Build V (Op F G) Unit)
  | _, .continue, controls => (walkJump (·.condbb) controls : Build V (Op F G) Unit)
  | _, .ret e, _ => (walkRet isvoidty fn e : Build V (Op F G) Unit)

/-! ### Functions -/

namespace Fn

/-- The cells of the variables lie behind the arguments and the return block. -/
def currFn (f : Fn F G V) : CurrFn (Fin f.locals) where
  cells x := f.argc + 1 + x
  retbb := f.argc
  retslot := f.ret.map fun _ => f.argc + 1 + f.locals

/-- `init_fn_param_info` -/
def initParams (f : Fn F G V) : Code F G V :=
  (List.range f.argc).map fun i => .store (f.argc + 1 + i) (.reg i)

/-- `generate_final_return`, with the value that is returned. -/
def generateFinalReturn (emitMain : Bool) (f : Fn F G V) (retret : Nat) :
    Option (Code F G V × Option (Val V)) :=
  match f.ret with
  | none => some ([], none)
  | some v =>
      if f.body.withRetValue then
        some ([.load retret (f.argc + 1 + f.locals)], some (.reg retret))
      else if emitMain then some ([], some (.const v))
      else none

end Fn

/-- `walk_fn_define_full` -/
def walkFnDefine (emitMain : Bool) (isvoidty : G → Bool) (f : Fn F G V) : Option (Fun V (Op F G)) :=
  (walk isvoidty f.currFn f.body [] ⟨f.argc + 2 + f.locals, 0⟩).bind fun (_, c, st) =>
    (f.generateFinalReturn emitMain st.next).map fun (final, result) =>
      ⟨f.initParams ++ (c ++ .br f.argc :: .label f.argc :: final), result⟩

/-- The functions of a program are compiled. -/
def Compiles (emitMain : Bool) (fns : G → Fn F G V) (code : G → Fun V (Op F G)) : Prop :=
  ∀ g, walkFnDefine emitMain (fun g => (fns g).ret.isNone) (fns g) = some (code g)

/-! ### The machine -/

/-- The machine that runs the code; calls are not among its operations. -/
def machine {W : Type} (I : Interp F V W) (junk : Nat → V) : Cfg.Machine V (Op F G) V W where
  const := id
  op
    | .user f, vs, w => I.op f vs w
    | .call _, _, w => (junk 0, w)
  istrue := I.truth

/-- The compiled functions, on a machine whose registers and cells may hold anything at first. -/
def module {W : Type} (I : Interp F V W) (code : G → Fun V (Op F G)) (junk : Nat → V) :
    Cfg.Module V (Op F G) V W G where
  machine := machine I junk
  callee
    | .user _ => none
    | .call g => some g
  fns := code
  junk := junk

end CaLang.Functions
