import CaLang.Lib.TwosComplement

/-! # Integer instructions

Values of an intermediate representation with integer types `iN`, as the graph of the instructions
that compute them: constants, loads, binary operations, comparisons and casts.  **An instruction is
well typed when its operands have the types it asks for**; its result is undefined where the
instruction's is (a division by zero or that overflows, a shift by the width or more).
-/

namespace CaLang.Instr

/-- A word with its width. -/
structure Word where
  width : Nat
  bits : BitVec width
  deriving DecidableEq

inductive BinOp
  | add | sub | mul | sdiv | srem | and | or | xor | shl | lshr | ashr
  deriving DecidableEq

inductive Predicate
  | slt | sgt | sge | sle | ult | ugt | uge | ule | ne | eq
  deriving DecidableEq

inductive CastOp
  | trunc | zext | sext | bitcast
  deriving DecidableEq

def BinOp.eval {w : Nat} (x y : BitVec w) : BinOp → Option (BitVec w)
  | .add => some (x + y)
  | .sub => some (x - y)
  | .mul => some (x * y)
  | .sdiv => if y = 0 ∨ Overflows x y then none else some (x.sdiv y)
  | .srem => if y = 0 ∨ Overflows x y then none else some (x.srem y)
  | .and => some (x &&& y)
  | .or => some (x ||| y)
  | .xor => some (x ^^^ y)
  | .shl => if y.toNat < w then some (x <<< y.toNat) else none
  | .lshr => if y.toNat < w then some (x >>> y.toNat) else none
  | .ashr => if y.toNat < w then some (x.sshiftRight y.toNat) else none

def Predicate.eval {w : Nat} (x y : BitVec w) : Predicate → Bool
  | .slt => x.slt y
  | .sgt => y.slt x
  | .sge => !x.slt y
  | .sle => !y.slt x
  | .ult => x.ult y
  | .ugt => y.ult x
  | .uge => !x.ult y
  | .ule => !y.ult x
  | .ne => x ≠ y
  | .eq => x = y

/-- The widths a cast goes from and to. -/
def CastOp.Legal (src dst : Nat) : CastOp → Prop
  | .trunc => dst < src
  | .zext => src < dst
  | .sext => src < dst
  | .bitcast => dst = src

instance (src dst : Nat) (op : CastOp) : Decidable (op.Legal src dst) :=
  match op with
  | .trunc => inferInstanceAs (Decidable (dst < src))
  | .zext => inferInstanceAs (Decidable (src < dst))
  | .sext => inferInstanceAs (Decidable (src < dst))
  | .bitcast => inferInstanceAs (Decidable (dst = src))

def CastOp.eval {w : Nat} (x : BitVec w) (dst : Nat) : CastOp → BitVec dst
  | .trunc => x.setWidth dst
  | .zext => x.setWidth dst
  | .sext => x.signExtend dst
  | .bitcast => x.setWidth dst

/-- The value an instruction computes; a `load` reads a variable of the given width. -/
inductive Value (ι : Type)
  | const (c : Word)
  | load (x : ι) (width : Nat)
  | binop (op : BinOp) (a b : Value ι)
  | icmp (p : Predicate) (a b : Value ι)
  | cast (op : CastOp) (a : Value ι) (dst : Nat)
  deriving DecidableEq

variable {ι : Type}

namespace Value

/-- The width of a value's type. -/
def width : Value ι → Nat
  | .const c => c.width
  | .load _ w => w
  | .binop _ a _ => a.width
  | .icmp _ _ _ => 1
  | .cast _ _ dst => dst

def WellTyped : Value ι → Prop
  | .const _ => True
  | .load _ _ => True
  | .binop _ a b => a.WellTyped ∧ b.WellTyped ∧ b.width = a.width
  | .icmp _ a b => a.WellTyped ∧ b.WellTyped ∧ b.width = a.width
  | .cast op a dst => a.WellTyped ∧ op.Legal a.width dst

/-- The word a value is, given the words of the variables. -/
def eval (mem : ι → Word) : Value ι → Option Word
  | .const c => some c
  | .load x w => if (mem x).width = w then some (mem x) else none
  | .binop op a b => do
      let x ← a.eval mem
      let y ← b.eval mem
      if h : y.width = x.width then (op.eval x.bits (y.bits.cast h)).map (Word.mk x.width) else none
  | .icmp p a b => do
      let x ← a.eval mem
      let y ← b.eval mem
      if h : y.width = x.width then
        some ⟨1, BitVec.ofBool (p.eval x.bits (y.bits.cast h))⟩
      else none
  | .cast op a dst => (a.eval mem).map fun x => ⟨dst, op.eval x.bits dst⟩

variable {mem : ι → Word} {a b : Value ι} {w : Nat} {x y : BitVec w}

theorem eval_binop (op : BinOp) (ha : a.eval mem = some ⟨w, x⟩) (hb : b.eval mem = some ⟨w, y⟩) :
    (binop op a b).eval mem = (op.eval x y).map (Word.mk w) := by
  rw [eval, ha, hb]
  simp

theorem eval_icmp (p : Predicate) (ha : a.eval mem = some ⟨w, x⟩)
    (hb : b.eval mem = some ⟨w, y⟩) :
    (icmp p a b).eval mem = some ⟨1, BitVec.ofBool (p.eval x y)⟩ := by
  rw [eval, ha, hb]
  simp

theorem eval_cast (op : CastOp) (dst : Nat) (ha : a.eval mem = some ⟨w, x⟩) :
    (cast op a dst).eval mem = some ⟨dst, op.eval x dst⟩ := by
  rw [eval, ha]
  rfl

/-- The zero extension or truncation to a width, and the value itself where it has that width. -/
def zextOrTrunc (v : Value ι) (dst : Nat) : Value ι :=
  if v.width < dst then .cast .zext v dst
  else if dst < v.width then .cast .trunc v dst
  else v

@[simp] theorem width_zextOrTrunc (v : Value ι) (dst : Nat) : (v.zextOrTrunc dst).width = dst := by
  unfold zextOrTrunc
  split
  · rfl
  · split
    · rfl
    · omega

theorem wellTyped_zextOrTrunc {dst : Nat} (h : a.WellTyped) : (a.zextOrTrunc dst).WellTyped := by
  unfold zextOrTrunc
  split
  · exact ⟨h, by assumption⟩
  · split
    · exact ⟨h, by assumption⟩
    · exact h

theorem eval_zextOrTrunc {dst : Nat} (hw : a.width = w) (ha : a.eval mem = some ⟨w, x⟩) :
    (a.zextOrTrunc dst).eval mem = some ⟨dst, x.setWidth dst⟩ := by
  subst hw
  unfold zextOrTrunc
  split
  · exact eval_cast .zext dst ha
  · split
    · exact eval_cast .trunc dst ha
    · obtain rfl : dst = a.width := by omega
      rw [ha, BitVec.setWidth_eq]

end Value

end CaLang.Instr
