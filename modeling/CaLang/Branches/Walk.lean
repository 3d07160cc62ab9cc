import CaLang.Branches.Meaning

/-! # The blocks of branching expressions

The walk of an expression puts code into the current block and opens others.  **An `ife` stores the
values of both bodies in one variable, which is an `int`**, and a `&&` or `||` joins its two ways
by a phi.

* A `let` types its expression before it is walked, and so does an `ife` its condition.  The
  variables of a block have no type until their `let` has been walked (`typeid_novalue`), and
  `inference_expr_type` reads of a block its value alone.
* The node of an `ife` never gets a `symtable`, and a `let` looks the type of its expression up in
  that: a `let` of an `ife` itself does not get through.
* A walker yields nothing where it stops with an error, and where LLVM does not take the operands of
  an instruction: a store of a value to a variable of another type, a phi of other values than
  `i1`.
-/

namespace CaLang.Branches

open Cfg
open Pointers (CADataType llvmtypeFromCatype)
open CaLang.Types (Name LLVMType)

/-! ### Typing -/

/-- The type of an operator on two operands, which `default` takes from the first one that has a
type. -/
def operandType (t t' : Option CADataType) : Option (Option CADataType) :=
  if t.isSome ∧ t ≠ t' then none else some (t <|> t')

mutual

/-- `inference_expr_type`: nothing for an error, and then `typeid_novalue` or a type. -/
def Expr.inference (Γ : List CADataType) : Expr → Option (Option CADataType)
  | .literal t _ => some (some t)
  | .id i => some Γ[i]?
  | .call ret _ _ => some (some ret)
  | .op2 _ cmp l r => do
      let t ← operandType (← l.inference Γ) (← r.inference Γ)
      some (if cmp then some boolType else t)
  | .landor _ l r => do operandType (← l.inference Γ) (← r.inference Γ)
  | .ife _ b b' => do
      let t ← b.inference Γ
      let t' ← b'.inference Γ
      if t = t' then some t else none

/-- `STMT_EXPR` has the type of its value. -/
def Block.inference (Γ : List CADataType) : Block → Option (Option CADataType)
  | .value e => e.inference Γ
  | .letBind _ rest => rest.inference Γ
  | .exprStmt _ rest => rest.inference Γ

end

/-! ### Operands -/

/-- A `CalcOperand`: tagged `OT_Alloc`, or with a value. -/
inductive Operand
  | alloc (c : Nat) (catype : CADataType)
  | val (v : Val Const) (catype : CADataType)

/-- `catype`. -/
def Operand.catype : Operand → CADataType
  | .alloc _ t | .val _ t => t

abbrev Emit := Build Const Op

/-- The variables in scope, with their cells and types. -/
abbrev Scope := List (Nat × CADataType)

def Scope.types (sc : Scope) : List CADataType := sc.map Prod.snd

/-- `pop_right_value`. -/
def popRightValue : Operand → Emit (Val Const × CADataType)
  | .alloc c t => do
      let r ← Build.fresh
      Build.emit (.load r c)
      pure (.reg r, t)
  | .val v t => pure (v, t)

/-- `walk_stack` with the `pop_right_value` behind it. -/
def walkValue (walk : Emit Operand) : Emit (Val Const × CADataType) := do popRightValue (← walk)

/-- `store_var`, and the store of a `let`: of a value to a variable of this type. -/
def storeVar (c : Nat) (type : LLVMType) (v : Val Const) (catype : CADataType) : Emit Unit :=
  if llvmtypeFromCatype catype = type then Build.emit (.store c v) else Build.fail

/-- The value of a `let` is stored in its new variable, a complex one copied. -/
def bindVariableValue (t : CADataType) (o : Operand) : Emit Nat :=
  match o with
  | .alloc c' t' =>
      if t'.isComplex then do
        let c ← Build.fresh
        Build.emit (.copy c c')
        pure c
      else do
        let (v, _) ← popRightValue o
        let c ← Build.fresh
        storeVar c (llvmtypeFromCatype t) v t'
        pure c
  | .val v t' => do
      let c ← Build.fresh
      storeVar c (llvmtypeFromCatype t) v t'
      pure c

/-- The arguments of a call are loaded in order. -/
def walkArgs (sc : Scope) : List Nat → Emit (List (Val Const))
  | [] => pure []
  | i :: args =>
      match sc[i]? with
      | some (c, t) => do
          let (v, _) ← popRightValue (.alloc c t)
          let vs ← walkArgs sc args
          pure (v :: vs)
      | none => Build.fail

/-- The comparison of the types of the two bodies, by token. -/
def sameToken : CADataType → CADataType → Bool
  | .prim p, .prim p' => p = p'
  | .pointer _, .pointer _ | .array _ _, .array _ _ | .struct _, .struct _ => true
  | _, _ => false

/-! ### The walkers -/

/-- A `TTE_If` node, which has no `symtable`. -/
def Expr.isIfe : Expr → Bool
  | .ife _ _ _ => true
  | _ => false

mutual

def Expr.walk (sc : Scope) : Expr → Emit Operand
  | .literal t n => pure (.val (.const (t, n)) t)
  | .id i =>
      match sc[i]? with
      | some (c, t) => pure (.alloc c t)
      | none => Build.fail
  | .call ret f args => do
      let argv ← walkArgs sc args
      let callret ← Build.fresh
      Build.emit (.op callret (.call f) argv)
      if ret = .prim .void then pure (.val (.reg callret) ret)
      else do
        let calltmp ← Build.fresh
        Build.emit (.store calltmp (.reg callret))
        pure (.alloc calltmp ret)
  | .op2 o cmp l r => do
      let (v1, dt) ← walkValue (l.walk sc)
      let (v2, dt2) ← walkValue (r.walk sc)
      if dt = dt2 then do
        let v3 ← Build.fresh
        Build.emit (.op v3 (.op2 o) [v1, v2])
        pure (.val (.reg v3) (if cmp then boolType else dt))
      else Build.fail
  -- `walk_expr_landor`
  | .landor isand l r => do
      let (v1, dt1) ← walkValue (l.walk sc)
      let thenbb ← Build.fresh
      let outbb ← Build.fresh
      let v1bb ← Build.getInsertBlock
      Build.emit (.condbr v1 (if isand then thenbb else outbb) (if isand then outbb else thenbb))
      Build.setInsertPoint thenbb
      let (v2, dt2) ← walkValue (r.walk sc)
      let v2bb ← Build.getInsertBlock
      Build.emit (.br outbb)
      Build.setInsertPoint outbb
      if llvmtypeFromCatype dt1 = .int 1 ∧ llvmtypeFromCatype dt2 = .int 1 then do
        let phiv ← Build.fresh
        Build.emit (.phi phiv v2 v2bb v1 v1bb)
        pure (.val (.reg phiv) dt1)
      else Build.fail
  -- `walk_if_common`
  | .ife c b b' => do
      let tmpc ← Build.fresh
      let thenbb ← Build.fresh
      let outbb ← Build.fresh
      if (c.inference sc.types).isNone then Build.fail
      else do
        let (cond, tc) ← walkValue (c.walk sc)
        if tc = boolType then do
          let elsebb ← Build.fresh
          Build.emit (.condbr cond thenbb elsebb)
          Build.setInsertPoint thenbb
          let (tmpv1, tt1) ← walkValue (b.walk sc)
          storeVar tmpc (.int 32) tmpv1 tt1
          Build.emit (.br outbb)
          Build.setInsertPoint elsebb
          let (tmpv2, tt2) ← walkValue (b'.walk sc)
          storeVar tmpc (.int 32) tmpv2 tt2
          Build.emit (.br outbb)
          Build.setInsertPoint outbb
          if sameToken tt1 tt2 then pure (.alloc tmpc tt1) else Build.fail
        else Build.fail

/-- The statements of a block with its value. -/
def Block.walk (sc : Scope) : Block → Emit Operand
  | .value e => e.walk sc
  -- `walk_letbind`
  | .letBind e rest =>
      match e.inference sc.types with
      | some (some t) =>
          -- `catype_get_by_name` in the table of the node
          if e.isIfe then Build.fail
          else do
            let c ← bindVariableValue t (← e.walk sc)
            rest.walk (sc ++ [(c, t)])
      | _ => Build.fail
  | .exprStmt e rest => do
      let _ ← e.walk sc
      rest.walk sc

end

end CaLang.Branches
