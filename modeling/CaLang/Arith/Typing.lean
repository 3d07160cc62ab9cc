import Mathlib.Algebra.Group.Int.Defs
import Mathlib.Algebra.Group.Nat.Defs
import Mathlib.Data.Option.Basic

/-! # The types of integer expressions

The expressions over integer, `bool` and `char` variables and literals, as the parser builds them
and as type inference annotates them.  **A literal and an expression node cache their type**:
`inference_expr_type` gives a node the type its parts have, `determine_expr_type` the type its place
asks for, and neither looks again at a node that has one.

An error ends the compiler, so `none` is the rejection of the program.  A literal carries the word
that reading its text stores in it; the logical operators, which branch, are not expressions here.
-/

namespace CaLang.Arith

/-- A name of a variable. -/
abbrev Id := Nat

/-- The type tokens of integers and `bool`; `char` is `i8` and `uchar` is `u8`. -/
inductive Ty
  | i16 | i32 | i64 | u16 | u32 | u64 | bool | i8 | u8
  deriving DecidableEq

/-- The tokens in the order of the source's tables. -/
def Ty.index : Ty → Nat
  | .i16 => 0
  | .i32 => 1
  | .i64 => 2
  | .u16 => 3
  | .u32 => 4
  | .u64 => 5
  | .bool => 6
  | .i8 => 7
  | .u8 => 8

def catypeIsSigned (t : Ty) : Bool := t = .i8 || t = .i16 || t = .i32 || t = .i64

def catypeIsUnsigned (t : Ty) : Bool := t = .u8 || t = .u16 || t = .u32 || t = .u64

def catypeIsInteger (t : Ty) : Bool := catypeIsSigned t || catypeIsUnsigned t

/-- The lexical type of a literal: `i64` a number with its minus sign, `u64` a number, `i8` a
character and `u8` an escaped character. -/
inductive LitTok
  | i64 | u64 | bool | i8 | u8
  deriving DecidableEq

structure CALiteral where
  littypetok : LitTok
  postfixtypetok : Option Ty
  /-- The text is `0`. -/
  zero : Bool
  /-- The word that reading the text stores. -/
  i64value : BitVec 64
  /-- The type it is fixed to. -/
  datatype : Option Ty
  deriving DecidableEq

/-- `create_literal` with the text read. -/
def createLiteral (littypetok : LitTok) (postfixtypetok : Option Ty) (zero : Bool)
    (i64value : BitVec 64) : CALiteral where
  littypetok
  postfixtypetok := if littypetok = .i8 then some .i8 else postfixtypetok
  zero
  i64value
  datatype := none

/-- The columns of `s_literal_type_convertable_table` in the order of the tokens. -/
def literalTypeConvertableTable : LitTok → List Bool
  | .i64 => [true, true, true, false, false, false, false, false, false]
  | .u64 => [true, true, true, true, true, true, false, true, true]
  | .bool => [false, false, false, false, false, false, true, false, false]
  | .i8 => [true, true, true, true, true, true, false, true, true]
  | .u8 => [true, true, true, true, true, true, false, true, true]

def literalTypeConvertable (src : LitTok) (dst : Ty) : Bool :=
  (literalTypeConvertableTable src).getD dst.index false

/-- `check_i64_value_scope`, true where the literal passes. -/
def checkI64ValueScope (lit : BitVec 64) : Ty → Bool
  | .i16 => -2 ^ 15 ≤ lit.toInt
  | .i32 => -2 ^ 31 ≤ lit.toInt
  | .i64 => true
  | _ => false

/-- `check_u64_value_scope`, true where the literal passes. -/
def checkU64ValueScope (lit : BitVec 64) : Ty → Bool
  | .i16 => lit.toNat < 2 ^ 15
  | .i32 => lit.toNat < 2 ^ 31
  | .i64 => lit.toNat < 2 ^ 63
  | .u64 => true
  | .u16 => lit.toNat < 2 ^ 16
  | .u32 => lit.toNat < 2 ^ 32
  | .i8 => lit.toNat < 2 ^ 7
  | .u8 => lit.toNat < 2 ^ 8
  | .bool => false

/-- `check_char_value_scope`, true where the literal passes. -/
def checkCharValueScope (lit : BitVec 64) (t : Ty) : Bool :=
  !(t = .u8 && (lit.setWidth 8).toInt < 0)

/-- `check_uchar_value_scope`, true where the literal passes. -/
def checkUcharValueScope (lit : BitVec 64) (t : Ty) : Bool :=
  !(t = .i8 && 127 < (lit.setWidth 8).toNat)

def CALiteral.inScope (lit : CALiteral) (t : Ty) : Bool :=
  match lit.littypetok with
  | .i64 => checkI64ValueScope lit.i64value t
  | .u64 => checkU64ValueScope lit.i64value t
  | .bool => t = .bool
  | .i8 => checkCharValueScope lit.i64value t
  | .u8 => checkUcharValueScope lit.i64value t

def determinePrimitiveLiteralType (lit : CALiteral) (t : Ty) : Option CALiteral :=
  if (lit.littypetok = .u64 && lit.zero || literalTypeConvertable lit.littypetok t)
      && lit.inScope t then
    some { lit with datatype := some t }
  else none

/-- The type `inference_primitive_literal_type` intends, and the type it checks the scope of. -/
def LitTok.intentdeftype : LitTok → Ty × Ty
  | .i64 => (.i32, .i32)
  | .u64 => (.i32, .i32)
  | .bool => (.bool, .bool)
  | .i8 => (.i8, .i8)
  | .u8 => (.i8, .u8)

def inferencePrimitiveLiteralType (lit : CALiteral) : Option CALiteral :=
  if lit.inScope lit.littypetok.intentdeftype.2 then
    some { lit with datatype := some lit.littypetok.intentdeftype.1 }
  else none

/-- `inference_expr_type` of a literal. -/
def CALiteral.inference (lit : CALiteral) : Option (CALiteral × Ty) :=
  match lit.datatype, lit.postfixtypetok with
  | some t, _ => some (lit, t)
  | none, some p => (determinePrimitiveLiteralType lit p).map (·, p)
  | none, none =>
      (inferencePrimitiveLiteralType lit).map (·, lit.littypetok.intentdeftype.1)

/-- `determine_expr_type` of a literal. -/
def CALiteral.determine (lit : CALiteral) (t : Ty) : Option CALiteral :=
  match lit.datatype, lit.postfixtypetok with
  | some _, _ => some lit
  | none, some p => if p = t then determinePrimitiveLiteralType lit p else none
  | none, none => determinePrimitiveLiteralType lit t

inductive UnaryOp
  | uminus | bnot
  deriving DecidableEq

inductive Op2
  | add | sub | mul | div | mod
  | lt | gt | ge | le | ne | eq
  | band | bor | bxor | shiftl | shiftr
  deriving DecidableEq

def isLogicOp : Op2 → Bool
  | .lt | .gt | .ge | .le | .ne | .eq => true
  | _ => false

def Op2.isShift : Op2 → Bool
  | .shiftl | .shiftr => true
  | _ => false

/-- A node of the tree, the expression nodes with their `expr_type`.  `asType` is the expression
node of an `as` and the node below it. -/
inductive Node
  | literal (lit : CALiteral)
  | id (x : Id)
  | unary (op : UnaryOp) (e : Node) (exprType : Option Ty)
  | op2 (op : Op2) (a b : Node) (exprType : Option Ty)
  | asType (e : Node) (t : Ty) (exprType : Option Ty)
  deriving DecidableEq

/-- An expression as it is parsed. -/
inductive Expr
  | literal (littypetok : LitTok) (postfixtypetok : Option Ty) (zero : Bool) (i64value : BitVec 64)
  | id (x : Id)
  | unary (op : UnaryOp) (e : Expr)
  | op2 (op : Op2) (a b : Expr)
  | asType (e : Expr) (t : Ty)

/-- `make_expr`: the nodes have no type yet. -/
def Expr.node : Expr → Node
  | .literal tok p z v => .literal (createLiteral tok p z v)
  | .id x => .id x
  | .unary op e => .unary op e.node none
  | .op2 op a b => .op2 op a.node b.node none
  | .asType e t => .asType e.node t none

/-- The types of the variables. -/
abbrev Vars := Id → Ty

variable (Γ : Vars)

def getExprTypeFromTree : Node → Option Ty
  | .literal lit => lit.datatype
  | .id x => some (Γ x)
  | .unary _ _ ty => ty
  | .op2 _ _ _ ty => ty
  | .asType _ _ ty => ty

def asTypeConvertable (src dst : Ty) : Bool :=
  if dst = .bool then src = .bool else true

/-- The operands have types `t1` and `t2`: `inference_expr_expr_type` on a binary operator. -/
def operandsFit (op : Op2) (t1 t2 : Ty) : Bool :=
  t1 = t2 || op.isShift && catypeIsInteger t1 && catypeIsInteger t2

def inferenceExprType : Node → Option (Node × Ty)
  | .literal lit => lit.inference.map fun (lit, t) => (.literal lit, t)
  | .id x => some (.id x, Γ x)
  | .unary op e (some t) => some (.unary op e (some t), t)
  | .unary op e none => do
      let (e, t) ← inferenceExprType e
      some (.unary op e (some t), t)
  | .op2 op a b (some t) => some (.op2 op a b (some t), t)
  | .op2 op a b none => do
      let (a, t1) ← inferenceExprType a
      let (b, t2) ← inferenceExprType b
      if operandsFit op t1 t2 then
        let t := if isLogicOp op then .bool else t1
        some (.op2 op a b (some t), t)
      else none
  | .asType e t (some s) => some (.asType e t (some s), s)
  | .asType e t none => do
      let (e, s) ← inferenceExprType e
      if asTypeConvertable s t then some (.asType e t (some t), t) else none

def determineExprType (t : Ty) : Node → Option Node
  | .literal lit => (lit.determine t).map .literal
  | .id x => if Γ x = t then some (.id x) else none
  | .unary op e (some s) => some (.unary op e (some s))
  | .unary op e none => (determineExprType t e).map fun e => .unary op e (some t)
  | .op2 op a b (some s) => some (.op2 op a b (some s))
  | .op2 op a b none =>
      if isLogicOp op then
        if t = .bool then (inferenceExprType Γ (.op2 op a b none)).map Prod.fst else none
      else do
        let a ← determineExprType t a
        let b ← determineExprType t b
        some (.op2 op a b (some t))
  | .asType e s (some r) => some (.asType e s (some r))
  | .asType e s none =>
      if s = t then (inferenceExprType Γ e).map fun (e, _) => .asType e s (some t) else none

/-- The number of nodes. -/
def Node.size : Node → Nat
  | .literal _ => 1
  | .id _ => 1
  | .unary _ e _ => e.size + 1
  | .op2 _ a b _ => a.size + b.size + 1
  | .asType e _ _ => e.size + 1

end CaLang.Arith
