import CaLang.Arith.Typing
import CaLang.Lib.Instr

/-! # The code of integer expressions

The walk of an expression node emits the instructions of its operands, then its own, and leaves the
value with its type on the operand stack.  **Which instruction is emitted is chosen at five
places**: the switch of `walk_expr_op2`, the table of the comparisons, the table of the casts,
`IR1::gen_div` and `gen_mod`, which see only the operands' width, and a switch of its own for
compound assignments.

`Walked` is a node after its walk, with the type it has and the value it left.
-/

namespace CaLang.Arith

open Instr

/-- The width of the type's `iN`: `llvmtype_from_token`. -/
def Ty.width : Ty → Nat
  | .i16 | .u16 => 16
  | .i32 | .u32 => 32
  | .i64 | .u64 => 64
  | .bool => 1
  | .i8 | .u8 => 8

abbrev Code := Value Id

def isBnotType (t : Ty) : Bool := catypeIsInteger t || t = .bool

/-! ### The tables -/

/-- A row of `s_cmp_predicate`, in the order of its columns. -/
def signedPredicates : List Predicate := [.slt, .sgt, .sge, .sle, .ne, .eq]

def unsignedPredicates : List Predicate := [.ult, .ugt, .uge, .ule, .ne, .eq]

def sCmpPredicate : Ty → List Predicate
  | .i16 => signedPredicates
  | .i32 => signedPredicates
  | .i64 => signedPredicates
  | .u16 => unsignedPredicates
  | .u32 => unsignedPredicates
  | .u64 => unsignedPredicates
  | .bool => unsignedPredicates
  | .i8 => signedPredicates
  | .u8 => unsignedPredicates

def cmpOpIndex : Op2 → Nat
  | .lt => 0
  | .gt => 1
  | .ge => 2
  | .le => 3
  | .ne => 4
  | .eq => 5
  | _ => 0x7fffffff

def generateCmpOp (t : Ty) (v1 v2 : Code) (op : Op2) : Code :=
  .icmp ((sCmpPredicate t).getD (cmpOpIndex op) .eq) v1 v2

/-- An entry of the cast table: `(ICO)0`, `(ICO)-1` or an instruction. -/
inductive CastOpt
  | same
  | cannot
  | op (c : CastOp)
  deriving DecidableEq

/-- The rows of `llvmtype_cast_table`, without the columns of other types. -/
def llvmtypeCastTable : Ty → List CastOpt
  | .i16 => [.same, .op .sext, .op .sext, .op .bitcast, .op .sext, .op .sext, .cannot,
      .op .trunc, .op .trunc]
  | .i32 => [.op .trunc, .same, .op .sext, .op .trunc, .op .bitcast, .op .sext, .cannot,
      .op .trunc, .op .trunc]
  | .i64 => [.op .trunc, .op .trunc, .same, .op .trunc, .op .trunc, .op .bitcast, .cannot,
      .op .trunc, .op .trunc]
  | .u16 => [.op .bitcast, .op .zext, .op .zext, .same, .op .zext, .op .zext, .cannot,
      .op .trunc, .op .trunc]
  | .u32 => [.op .trunc, .op .bitcast, .op .zext, .op .trunc, .same, .op .zext, .cannot,
      .op .trunc, .op .trunc]
  | .u64 => [.op .trunc, .op .trunc, .op .bitcast, .op .trunc, .op .trunc, .same, .cannot,
      .op .trunc, .op .trunc]
  | .bool => [.op .zext, .op .zext, .op .zext, .op .zext, .op .zext, .op .zext, .same,
      .op .zext, .op .zext]
  | .i8 => [.op .sext, .op .sext, .op .sext, .op .sext, .op .sext, .op .sext, .cannot,
      .same, .op .bitcast]
  | .u8 => [.op .zext, .op .zext, .op .zext, .op .zext, .op .zext, .op .zext, .cannot,
      .op .bitcast, .same]

def genCastOps (src dst : Ty) : CastOpt :=
  if src = dst then .same else (llvmtypeCastTable src).getD dst.index .cannot

/-! ### The instructions -/

/-- `IR1::gen_div` on integers. -/
def genDiv (a b : Code) : Code := .binop .sdiv a b

/-- `IR1::gen_mod` on integers. -/
def genMod (a b : Code) : Code := .binop .srem a b

/-- `CreateNeg`: the difference with zero. -/
def createNeg (v : Code) : Code := .binop .sub (.const ⟨v.width, 0⟩) v

/-- `CreateNot`: the exclusive or with all ones. -/
def createNot (v : Code) : Code := .binop .xor v (.const ⟨v.width, BitVec.allOnes v.width⟩)

def genPrimitiveLiteralValue (lit : CALiteral) (t : Ty) : Code :=
  .const ⟨t.width, if t = .bool then BitVec.ofBool (lit.i64value ≠ 0) |>.setWidth t.width
    else lit.i64value.setWidth t.width⟩

/-- The switch of `walk_expr_op2`, with the type of the first operand. -/
def genOp2 (op : Op2) (t : Ty) (v1 v2 : Code) : Code :=
  match op with
  | .add => .binop .add v1 v2
  | .sub => .binop .sub v1 v2
  | .mul => .binop .mul v1 v2
  | .div => genDiv v1 v2
  | .mod => genMod v1 v2
  | .lt | .gt | .ge | .le | .ne | .eq => generateCmpOp t v1 v2 op
  | .band => .binop .and v1 v2
  | .bor => .binop .or v1 v2
  | .bxor => .binop .xor v1 v2
  | .shiftl => .binop .shl v1 (v2.zextOrTrunc v1.width)
  | .shiftr =>
      if catypeIsSigned t then .binop .ashr v1 (v2.zextOrTrunc v1.width)
      else .binop .lshr v1 (v2.zextOrTrunc v1.width)

/-! ### The walk of an expression -/

/-- A node after its walk. -/
inductive Walked
  | literal (lit : CALiteral) (catype : Ty) (value : Code)
  | id (x : Id) (catype : Ty) (value : Code)
  | unary (op : UnaryOp) (e : Walked) (catype : Ty) (value : Code)
  | op2 (op : Op2) (a b : Walked) (catype : Ty) (value : Code)
  | asType (e : Walked) (catype : Ty) (value : Code)
  deriving DecidableEq

def Walked.catype : Walked → Ty
  | .literal _ t _ | .id _ t _ | .unary _ _ t _ | .op2 _ _ _ t _ | .asType _ t _ => t

def Walked.value : Walked → Code
  | .literal _ _ v | .id _ _ v | .unary _ _ _ v | .op2 _ _ _ _ v | .asType _ _ v => v

/-- `walk_unary_expr` behind the walk of the operand; `t` is the operand's type in the tree. -/
def walkUnaryExpr (op : UnaryOp) (t : Ty) (e : Walked) : Option Walked :=
  match op with
  | .uminus =>
      if catypeIsUnsigned t then none else some (.unary op e t (createNeg e.value))
  | .bnot => if isBnotType t then some (.unary op e t (createNot e.value)) else none

/-- `walk_expr_op2` behind the walks of the operands, with its last assertion. -/
def walkExprOp2 (op : Op2) (exprType : Option Ty) (a b : Walked) : Option Walked :=
  if !op.isShift && a.catype ≠ b.catype then none
  else
    let dt := if isLogicOp op then .bool else a.catype
    if exprType = none || exprType = some dt then
      some (.op2 op a b dt (genOp2 op a.catype a.value b.value))
    else none

/-- `walk_expr_as` behind the walk of the operand; `stype` is the operand's type in the tree. -/
def walkExprAs (stype astype : Ty) (e : Walked) : Option Walked :=
  match genCastOps stype astype with
  | .cannot => none
  | .same => some (.asType e astype e.value)
  | .op c => some (.asType e astype (.cast c e.value astype.width))

variable (Γ : Vars)

theorem size_of_inference {n n' : Node} {t : Ty} (h : inferenceExprType Γ n = some (n', t)) :
    n'.size = n.size := by
  induction n generalizing n' t with
  | literal lit =>
      obtain ⟨l, -, hl⟩ := Option.map_eq_some_iff.mp h
      cases hl
      rfl
  | id x =>
      cases h
      rfl
  | unary op e ty ih =>
      cases ty with
      | some s =>
          cases h
          rfl
      | none =>
          obtain ⟨⟨e', s⟩, he, heq⟩ := Option.bind_eq_some_iff.mp h
          cases heq
          rw [Node.size, Node.size, ih he]
  | op2 op a b ty iha ihb =>
      cases ty with
      | some s =>
          cases h
          rfl
      | none =>
          obtain ⟨⟨a', t1⟩, ha, h⟩ := Option.bind_eq_some_iff.mp h
          obtain ⟨⟨b', t2⟩, hb, h⟩ := Option.bind_eq_some_iff.mp h
          dsimp only at h
          split at h
          · cases h
            rw [Node.size, Node.size, iha ha, ihb hb]
          · cases h
  | asType e s ty ih =>
      cases ty with
      | some r =>
          cases h
          rfl
      | none =>
          obtain ⟨⟨e', r⟩, he, h⟩ := Option.bind_eq_some_iff.mp h
          dsimp only at h
          split at h
          · cases h
            rw [Node.size, Node.size, ih he]
          · cases h

/-- The walk of a node.  The literals that have no type yet get one, and so does the operand of an
`as`. -/
def walk : Node → Option Walked
  | .literal lit => lit.inference.map fun (lit, t) =>
      .literal lit t (genPrimitiveLiteralValue lit t)
  | .id x => some (.id x (Γ x) (.load x (Γ x).width))
  | .unary op e _ => do
      let t ← getExprTypeFromTree Γ e
      let e ← walk e
      walkUnaryExpr op t e
  | .op2 op a b ty => do
      let a ← walk a
      let b ← walk b
      walkExprOp2 op ty a b
  | .asType e t _ =>
      match _h : inferenceExprType Γ e with
      | none => none
      | some (e', _) => do
          let stype ← getExprTypeFromTree Γ e'
          let w ← walk e'
          walkExprAs stype t w
termination_by n => n.size
decreasing_by
  all_goals simp only [Node.size]
  · omega
  · omega
  · omega
  · have hs := size_of_inference Γ _h
    omega

/-- The place an expression stands at: nothing is known of its type there, its type is inferred, or
it is the type given. -/
inductive Place
  | stmt
  | inferred
  | determined (t : Ty)

/-- The code of an expression at a place. -/
def compile (pl : Place) (e : Expr) : Option Walked :=
  match pl with
  | .stmt => walk Γ e.node
  | .inferred => (inferenceExprType Γ e.node).bind fun (n, _) => walk Γ n
  | .determined t => (determineExprType Γ t e.node).bind (walk Γ)

/-! ### Assignments to a variable -/

inductive AssignOp
  | add | sub | mul | div | mod | band | bor | bxor | shiftl | shiftr
  deriving DecidableEq

/-- The switch of `inplace_assignop_assistant`, with the type of the variable. -/
def inplaceAssignopAssistant (op : AssignOp) (t : Ty) (vl vr : Code) : Code :=
  match op with
  | .add => .binop .add vl vr
  | .sub => .binop .sub vl vr
  | .mul => .binop .mul vl vr
  | .div => genDiv vl vr
  | .mod => genMod vl vr
  | .band => .binop .and vl vr
  | .bor => .binop .or vl vr
  | .bxor => .binop .xor vl vr
  | .shiftl => .binop .shl vl (vr.zextOrTrunc t.width)
  | .shiftr =>
      if catypeIsSigned t then .binop .ashr vl (vr.zextOrTrunc t.width)
      else .binop .lshr vl (vr.zextOrTrunc t.width)

/-- `inference_assign_type` with `reduce_node_and_type_group`: a right side whose type is in the
tree is compared only where the assignment is no compound one. -/
def inferenceAssignType (x : Id) (assignop : Option AssignOp) (n : Node) : Option Node :=
  match getExprTypeFromTree Γ n with
  | none => determineExprType Γ (Γ x) n
  | some t => if assignop = none && t ≠ Γ x then none else some n

/-- An assignment after its walk: the right side, and the value stored in the variable. -/
structure Assigned where
  expr : Walked
  stored : Code

def walkAssign (x : Id) (assignop : Option AssignOp) (e : Expr) : Option Assigned := do
  let n ← inferenceAssignType Γ x assignop e.node
  let w ← walk Γ n
  match assignop with
  | none => if Γ x = w.catype then some ⟨w, w.value⟩ else none
  | some op =>
      some ⟨w, inplaceAssignopAssistant op (Γ x) (.load x (Γ x).width) w.value⟩

end CaLang.Arith
