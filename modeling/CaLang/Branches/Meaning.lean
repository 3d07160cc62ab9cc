import CaLang.Lib.Cfg
import CaLang.Pointers.Walk

/-! # What branching expressions mean

Expressions that nest `ife`, `&&` and `||`, over literals, variables, calls and operators, with
blocks that bind variables before their value.  **Of the two blocks, and of the second operand, only
what is selected is evaluated.**

* A variable is known by its level: how many variables are in scope where it is bound.  A block that
  has not been entered yet has bound none.
* What constants, calls and operators do is a parameter; calls and operators can change the world,
  so that the world tells what has been evaluated, how often and in which order.
* `Expr.type` types an expression with all variables in scope, those of its own blocks included.
-/

namespace CaLang.Branches

open Pointers (CADataType llvmtypeFromCatype)
open CaLang.Types (Name LLVMType)

inductive Op
  | call (fn : Name)
  | op2 (op : Name)

/-- A literal with the type it is fixed to. -/
abbrev Const := CADataType × Int

mutual

inductive Expr
  | literal (type : CADataType) (value : Int)
  | id (level : Nat)
  /-- A call on variables. -/
  | call (ret : CADataType) (fn : Name) (args : List Nat)
  /-- An operator on two values of one type; a comparison gives a `bool`. -/
  | op2 (op : Name) (cmp : Bool) (left right : Expr)
  /-- `&&` or `||`. -/
  | landor (isand : Bool) (left right : Expr)
  | ife (cond : Expr) (body remain : Block)

inductive Block
  | value (e : Expr)
  | letBind (e : Expr) (rest : Block)
  | exprStmt (e : Expr) (rest : Block)

end

/-- `BOOL` -/
def boolType : CADataType := .prim .bool

mutual

/-- The type of an expression, with the types of the variables in scope. -/
def Expr.type (Γ : List CADataType) : Expr → Option CADataType
  | .literal t _ => some t
  | .id i => Γ[i]?
  | .call ret _ args => if args.all (· < Γ.length) then some ret else none
  | .op2 _ cmp l r => do
      let t ← l.type Γ
      let t' ← r.type Γ
      if t = t' ∧ t ≠ .prim .void then some (if cmp then boolType else t) else none
  | .landor _ l r => do
      let t ← l.type Γ
      let t' ← r.type Γ
      if t = boolType ∧ t' = boolType then some boolType else none
  | .ife c b b' => do
      let tc ← c.type Γ
      let t ← b.type Γ
      let t' ← b'.type Γ
      if tc = boolType ∧ t = t' then some t else none

def Block.type (Γ : List CADataType) : Block → Option CADataType
  | .value e => e.type Γ
  | .letBind e rest => do
      let t ← e.type Γ
      if t ≠ .prim .void then rest.type (Γ ++ [t]) else none
  | .exprStmt e rest => do
      let _ ← e.type Γ
      rest.type Γ

end

/-- The value of a variable; in a well-typed expression it is in scope. -/
def lookup {V W : Type} (M : Cfg.Machine Const Op V W) (σ : List V) (i : Nat) : V :=
  (σ[i]?).getD (M.const (boolType, 0))

mutual

/-- The value of an expression, and the world after it. -/
def Expr.eval {V W : Type} (M : Cfg.Machine Const Op V W) (σ : List V) (w : W) : Expr → V × W
  | .literal t n => (M.const (t, n), w)
  | .id i => (lookup M σ i, w)
  | .call _ f args => M.op (.call f) (args.map (lookup M σ)) w
  | .op2 o _ l r =>
      let (v, w) := l.eval M σ w
      let (v', w) := r.eval M σ w
      M.op (.op2 o) [v, v'] w
  | .landor isand l r =>
      let (v, w) := l.eval M σ w
      if M.istrue v = isand then r.eval M σ w else (v, w)
  | .ife c b b' =>
      let (v, w) := c.eval M σ w
      if M.istrue v then b.eval M σ w else b'.eval M σ w

def Block.eval {V W : Type} (M : Cfg.Machine Const Op V W) (σ : List V) (w : W) : Block → V × W
  | .value e => e.eval M σ w
  | .letBind e rest =>
      let (v, w) := e.eval M σ w
      rest.eval M (σ ++ [v]) w
  | .exprStmt e rest =>
      let (_, w) := e.eval M σ w
      rest.eval M σ w

end

end CaLang.Branches
