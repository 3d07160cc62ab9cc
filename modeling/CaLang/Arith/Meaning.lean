import CaLang.Arith.Walk

/-! # The meaning of integer expressions

**An expression denotes an integer of its own type**: sums, differences and products modulo `2 ^ w`,
quotients rounded towards zero, shifts by an amount below the width, comparisons of the integers
themselves, casts modulo the width of their target.  A quotient that is no integer of the type, by a
division by zero or by overflow, is not denoted, and neither is its remainder.

A node's code is right when it yields the word of the integer the node denotes.
-/

namespace CaLang.Arith

open Instr

namespace Ty

/-- The integer a word of the type reads as. -/
def value (t : Ty) (x : BitVec t.width) : Int := wordValue (catypeIsSigned t) x

/-- The integer of the type that is `v` modulo `2 ^ w`. -/
def wrap (t : Ty) (v : Int) : Int := CaLang.wrap (catypeIsSigned t) t.width v

/-- The word of the type that an integer is stored in. -/
def word (t : Ty) (v : Int) : Word := ⟨t.width, BitVec.ofInt t.width v⟩

/-- An operation on the bits of two integers of the type. -/
def onBits (t : Ty) (f : BitVec t.width → BitVec t.width → BitVec t.width) (a b : Int) : Int :=
  t.value (f (BitVec.ofInt t.width a) (BitVec.ofInt t.width b))

end Ty

/-- `a` and `b` of type `t` have a quotient of the type. -/
def Divides (t : Ty) (a b : Int) : Prop := b ≠ 0 ∧ t.wrap (a.tdiv b) = a.tdiv b

instance (t : Ty) (a b : Int) : Decidable (Divides t a b) := by unfold Divides; infer_instance

/-- `b` is an amount to shift the type by. -/
def ShiftsBy (t : Ty) (b : Int) : Prop := 0 ≤ b ∧ b < t.width

instance (t : Ty) (b : Int) : Decidable (ShiftsBy t b) := by unfold ShiftsBy; infer_instance

def UnaryOp.meaning (t : Ty) (a : Int) : UnaryOp → Int
  | .uminus => t.wrap (-a)
  | .bnot => t.wrap (-a - 1)

/-- A binary operator on integers of type `t`; the amount of a shift has a type of its own. -/
def Op2.meaning (t : Ty) (a b : Int) : Op2 → Option Int
  | .add => some (t.wrap (a + b))
  | .sub => some (t.wrap (a - b))
  | .mul => some (t.wrap (a * b))
  | .div => if Divides t a b then some (a.tdiv b) else none
  | .mod => if Divides t a b then some (a.tmod b) else none
  | .lt => some (if a < b then 1 else 0)
  | .gt => some (if b < a then 1 else 0)
  | .ge => some (if b ≤ a then 1 else 0)
  | .le => some (if a ≤ b then 1 else 0)
  | .ne => some (if a ≠ b then 1 else 0)
  | .eq => some (if a = b then 1 else 0)
  | .band => some (t.onBits (· &&& ·) a b)
  | .bor => some (t.onBits (· ||| ·) a b)
  | .bxor => some (t.onBits (· ^^^ ·) a b)
  | .shiftl => if ShiftsBy t b then some (t.wrap (a * 2 ^ b.toNat)) else none
  | .shiftr => if ShiftsBy t b then some (a / 2 ^ b.toNat) else none

variable {Γ : Vars}

/-- The words of the variables. -/
abbrev Store (Γ : Vars) := ∀ x, BitVec (Γ x).width

def Store.mem (σ : Store Γ) (x : Id) : Word := ⟨(Γ x).width, σ x⟩

namespace Walked

/-- The integer a node denotes. -/
def denote (σ : Store Γ) : Walked → Option Int
  | literal lit t _ =>
      some (if t = .bool then if lit.i64value = 0 then 0 else 1 else t.wrap lit.i64value.toInt)
  | id x _ _ => some ((Γ x).value (σ x))
  | unary op e _ _ => (e.denote σ).map fun a => op.meaning e.catype a
  | op2 op a b _ _ => do
      let u ← a.denote σ
      let v ← b.denote σ
      op.meaning a.catype u v
  | asType e t _ => (e.denote σ).map t.wrap

/-- The nodes of a tree. -/
def nodes : Walked → List Walked
  | literal lit t v => [literal lit t v]
  | id x t v => [id x t v]
  | unary op e t v => unary op e t v :: e.nodes
  | op2 op a b t v => op2 op a b t v :: (a.nodes ++ b.nodes)
  | asType e t v => asType e t v :: e.nodes

/-- The code of a node is well typed and has the type of the node. -/
def TypedCode (w : Walked) : Prop := w.value.WellTyped ∧ w.value.width = w.catype.width

/-- The code of a node yields what the node denotes. -/
def Means (σ : Store Γ) (w : Walked) : Prop :=
  ∀ v, w.denote σ = some v → w.value.eval σ.mem = some (w.catype.word v)

def WellTyped (w : Walked) : Prop := ∀ n ∈ w.nodes, n.TypedCode

/-- Every node computes what it denotes. -/
def Right (σ : Store Γ) (w : Walked) : Prop := ∀ n ∈ w.nodes, n.Means σ

end Walked

/-! ### Where signed and unsigned division agree -/

/-- The operands of an unsigned quotient or remainder are two that the signed instruction treats
alike. -/
def Op2.Agrees (t : Ty) (a b : Int) : Op2 → Prop
  | .div => catypeIsSigned t = false → DivAgrees t.width a.toNat b.toNat
  | .mod => catypeIsSigned t = false → RemAgrees t.width a.toNat b.toNat
  | _ => True

def Walked.Agrees (σ : Store Γ) : Walked → Prop
  | op2 op a b _ _ =>
      ∀ u v, a.denote σ = some u → b.denote σ = some v → v ≠ 0 → op.Agrees a.catype u v
  | _ => True

/-- No division or remainder of the tree tells signed from unsigned words. -/
def Walked.SignBlind (σ : Store Γ) (w : Walked) : Prop := ∀ n ∈ w.nodes, n.Agrees σ

/-! ### Compound assignments -/

/-- The operator of a compound assignment. -/
def AssignOp.op2 : AssignOp → Op2
  | .add => .add
  | .sub => .sub
  | .mul => .mul
  | .div => .div
  | .mod => .mod
  | .band => .band
  | .bor => .bor
  | .bxor => .bxor
  | .shiftl => .shiftl
  | .shiftr => .shiftr

/-- The right operand as an integer of the variable's type, unless it is the amount of a shift. -/
def AssignOp.operand (op : AssignOp) (t : Ty) (v : Int) : Int :=
  if op.op2.isShift then v else t.wrap v

/-- The integer a compound assignment stores. -/
def AssignOp.meaning (op : AssignOp) (t : Ty) (a b : Int) : Option Int :=
  op.op2.meaning t a (op.operand t b)

namespace Assigned

/-- The code of a compound assignment to `x` is well typed and has the type of `x`. -/
def WellTyped (Γ : Vars) (x : Id) (s : Assigned) : Prop :=
  s.expr.WellTyped ∧ s.stored.WellTyped ∧ s.stored.width = (Γ x).width

/-- The right side computes what it denotes, and so does the value stored. -/
def Right (σ : Store Γ) (x : Id) (op : AssignOp) (s : Assigned) : Prop :=
  s.expr.Right σ ∧ ∀ u v, s.expr.denote σ = some u →
    op.meaning (Γ x) ((Γ x).value (σ x)) u = some v →
      s.stored.eval σ.mem = some ((Γ x).word v)

/-- Neither the right side nor the assignment tells signed from unsigned words. -/
def SignBlind (σ : Store Γ) (x : Id) (op : AssignOp) (s : Assigned) : Prop :=
  s.expr.SignBlind σ ∧ ∀ u, s.expr.denote σ = some u → op.operand (Γ x) u ≠ 0 →
    op.op2.Agrees (Γ x) ((Γ x).value (σ x)) (op.operand (Γ x) u)

end Assigned

end CaLang.Arith
