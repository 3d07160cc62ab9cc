import CaLang.Pointers.Meaning
import CaLang.Types.Lowering

/-! # The operands of pointer expressions

The walk of an expression leaves an operand, and **its tag says whether the value is the address of
the operand or the operand itself**: `OT_Alloc` is an address that is still to be loaded.
`pop_right_value` loads it, and whoever needs the address pops without the load.

A value of the emitted code is known by its path and its LLVM type.  A variable made in the entry
block is a temporary of what is stored to it.  The walkers yield nothing where they stop with an
error or where an instruction cannot be built on its operands.
-/

namespace CaLang.Pointers

open CaLang.Types (Name Prim LLVMType llvmtypeFromToken)

/-- `llvmtype_from_catype`. -/
def llvmtypeFromCatype : CADataType → LLVMType
  | .prim p => llvmtypeFromToken p
  | .pointer t => .pointer (llvmtypeFromCatype t)
  | .array t n => .array (llvmtypeFromCatype t) n
  | .struct s => .struct s

/-- `isPointerTy`. -/
def isPointerTy : LLVMType → Bool
  | .pointer _ => true
  | _ => false

/-- An `llvm::Value`. -/
structure Value where
  path : Path
  type : LLVMType

namespace Value

def createLoad (v : Value) : Option Value :=
  match v.type with
  | .pointer t => some ⟨v.path.read, t⟩
  | _ => none

/-- `CreateGEP` with one index, of the pointee type that it is given. -/
def createGEP (t : LLVMType) (v k : Value) : Option Value :=
  if v.type = .pointer t then some ⟨.offset v.path k.path, v.type⟩ else none

/-- `CreateInBoundsGEP` of an item of an array. -/
def createItemGEP (v k : Value) : Option Value :=
  match v.type with
  | .pointer (.array t _) => some ⟨.item v.path k.path, .pointer t⟩
  | _ => none

/-- `CreateInBoundsGEP` of a field of a struct, which has the type `t`. -/
def createFieldGEP (s : Name) (i : Nat) (t : LLVMType) (v : Value) : Option Value :=
  if v.type = .pointer (.struct s) then some ⟨.field v.path i, .pointer t⟩ else none

/-- `gen_cast_value`. -/
def genCastValue (v : Value) (t : CADataType) : Value := ⟨.as v.path t, llvmtypeFromCatype t⟩

/-- `gen_entry_block_var` with a value to store. -/
def genEntryBlockVar (v : Value) : Value := ⟨.temp v.path, .pointer v.type⟩

/-- The difference of zero and a value. -/
def genNeg (v : Value) : Value := ⟨.neg v.path, v.type⟩

end Value

inductive OperandType
  | const | load | alloc | calc | callInst
  deriving DecidableEq

structure CalcOperand where
  type : OperandType
  operand : Value
  catype : CADataType

/-- `pop_right_operand`. -/
def popRightOperand (load : Bool) (o : CalcOperand) : Option CalcOperand :=
  if load && o.type = .alloc then
    o.operand.createLoad.map fun v => { o with type := .load, operand := v }
  else some o

/-- `pop_right_value`. -/
def popRightValue (load : Bool) (o : CalcOperand) : Option (Value × CADataType) :=
  if load && o.type = .alloc then o.operand.createLoad.map (·, o.catype)
  else some (o.operand, o.catype)

/-! ### The walkers -/

/-- `walk_id`: the variable has its cell already. -/
def walkId (env : Env) (x : Name) : Option CalcOperand := do
  let catype ← env.var x
  some ⟨.alloc, ⟨.var x, .pointer (llvmtypeFromCatype catype)⟩, catype⟩

/-- `walk_literal`. -/
def walkLiteral (t : Prim) (n : Int) : CalcOperand :=
  ⟨.const, ⟨.const t n, llvmtypeFromToken t⟩, .prim t⟩

/-- `walk_expr_address`. -/
def walkExprAddress (o : CalcOperand) : Option CalcOperand := do
  let pair ← popRightOperand false o
  some { pair with catype := .pointer pair.catype, type := .calc }

/-- `walk_expr_deref`: the tag comes from the type of what was loaded. -/
def walkExprDeref (o : CalcOperand) : Option CalcOperand := do
  let (p, catype) ← popRightValue false o
  match catype with
  | .pointer t =>
      let v ← p.createLoad
      some ⟨if isPointerTy v.type then .alloc else .calc, v, t⟩
  | _ => none

/-- `handle_pointer_op`. -/
def handlePointerOp (minus : Bool) (t : CADataType) (v1 v2 : Value) : Option CalcOperand := do
  let v2 := if minus then v2.genNeg else v2
  let v3 ← Value.createGEP (llvmtypeFromCatype t) v1 v2
  some ⟨.calc, v3, .pointer t⟩

/-- `walk_expr_op2` for `+` and `-`. -/
def walkExprOp2 (minus : Bool) (o1 o2 : CalcOperand) : Option CalcOperand := do
  let (v1, dt) ← popRightValue true o1
  let (v2, dt2) ← popRightValue true o2
  match dt with
  | .pointer t =>
      if dt2.isInteger then handlePointerOp minus t v1 v2 else none
  | _ =>
      if dt = dt2 then
        let p := if minus then Path.sub v1.path v2.path else Path.add v1.path v2.path
        some ⟨.calc, ⟨p, v1.type⟩, dt⟩
      else none

/-- `walk_expr_as`, with the type of the expression. -/
def walkExprAs (stype astype : CADataType) (o : CalcOperand) : Option CalcOperand := do
  let castopt ← genCastOps stype astype
  match stype, astype with
  | .array _ _, .pointer _ =>
      let calco ← popRightOperand false o
      some ⟨.alloc, (calco.operand.genCastValue astype).genEntryBlockVar, astype⟩
  | _, _ =>
      let calco ← popRightOperand true o
      some ⟨calco.type, if castopt then calco.operand.genCastValue astype else calco.operand,
        astype⟩

/-- The end of `walk_expr_call`, with the path of the call. -/
def walkExprCall (p : Path) (ret : CADataType) : CalcOperand :=
  let callret : Value := ⟨p, llvmtypeFromCatype ret⟩
  if ret = .prim .void then ⟨.callInst, callret, ret⟩
  else ⟨.alloc, callret.genEntryBlockVar, ret⟩

/-- `extract_value_from_array` and `walk_expr_arrayitem`. -/
def walkExprArrayitem (o1 o2 : CalcOperand) : Option CalcOperand := do
  let (arrayvalue, arraycatype) ← popRightValue false o1
  match arraycatype with
  | .array t _ =>
      let (v, indexCatype) ← popRightValue true o2
      if indexCatype.isInteger then
        let p ← arrayvalue.createItemGEP v
        some ⟨.alloc, p, t⟩
      else none
  | _ => none

/-- `extract_value_from_struct` and `walk_expr_structitemop`. -/
def walkExprStructitemop (env : Env) (direct : Bool) (f : Name) (o : CalcOperand) :
    Option CalcOperand := do
  let (v, catype) ← popRightValue (!direct) o
  let s ← structOf direct catype
  let (i, t) ← env.field s f
  let p ← v.createFieldGEP s i (llvmtypeFromCatype t)
  some ⟨.alloc, p, t⟩

mutual

/-- `walk_expr`, with the operand that is pushed. -/
def Expr.walk (env : Env) : Expr → Option CalcOperand
  | .id x => walkId env x
  | .literal t n => some (walkLiteral t n)
  | .address e => do walkExprAddress (← e.walk env)
  | .deref e => do walkExprDeref (← e.walk env)
  | .op2 minus e k => do walkExprOp2 minus (← e.walk env) (← k.walk env)
  | .as e t => do walkExprAs (← e.type env) t (← e.walk env)
  | .call f args => do
      let F ← env.fn f
      let argv ← args.walk env
      some (walkExprCall (.call f argv) F.ret)
  | .methodCall direct e f args => do
      let (v, catype) ← popRightValue (!direct) (← e.walk env)
      let s ← structOf direct catype
      let F ← env.method s f
      let argv ← args.walk env
      some (walkExprCall (.methodCall f v.path argv) F.ret)
  | .arrayitem e k => do walkExprArrayitem (← e.walk env) (← k.walk env)
  | .structitem direct e f => do walkExprStructitemop env direct f (← e.walk env)

/-- `llvmvalue_from_exprs` for the arguments of a function. -/
def Args.walk (env : Env) : Args → Option (List Path)
  | .nil => some []
  | .cons e rest => do
      let (v, _) ← popRightValue true (← e.walk env)
      let argv ← rest.walk env
      some (v.path :: argv)

end

/-! ### The uses of an operand -/

/-- What is done with the operand of an expression. -/
inductive Use
  /-- An operand of another expression, an argument, a returned value, a condition. -/
  | taken
  /-- It is stored: in the variable of a `let`, by an assignment, as a member. -/
  | stored

/-- The path that a use of the operand reads.  A complex value is copied from its address. -/
def Use.read : Use → CalcOperand → Option Path
  | .taken, o => (popRightValue true o).map (·.1.path)
  | .stored, o => do
      let (v, _) ← popRightValue (!o.catype.isComplex) o
      if o.catype.isComplex then (v.createLoad).map (·.path) else some v.path

/-- **The code reads along the path that the source denotes**, however the expression is used. -/
def Expr.ReadsExactly (env : Env) (e : Expr) : Prop :=
  ∀ use : Use, (e.walk env).bind use.read = some (e.meaning env).toValue

end CaLang.Pointers
