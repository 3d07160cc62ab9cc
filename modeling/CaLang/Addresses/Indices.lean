import CaLang.Arith.Meaning
import CaLang.Lib.Addr
import CaLang.Pointers.Walk

/-! # Indices and offsets of addresses

The items of an array, `+` and `-` on pointers, and `+=` and `-=`, each with its own lowering.
**All of them give the word of the index to an address computation, which reads it with a sign**;
the ones that subtract extend it with its sign themselves.  So the address is the one that the
source means if and only if the signed reading of the index leads there, as it does for every signed
type, for 64 bits, and for the values that lie below the half of an unsigned type.
-/

namespace CaLang.Addresses

open Instr
open Pointers (CADataType llvmtypeFromCatype)
open CaLang.Types (LLVMType)

/-- An integer of the emitted code; a variable is known by its number. -/
abbrev IntValue := Value Nat

/-- A pointer of the emitted code. -/
abbrev PtrValue := Addr Nat Nat LLVMType

/-- The sizes of all types, with the elements of array types. -/
def dataLayout (sizeof : LLVMType → Nat) : DataLayout LLVMType where
  sizeof := sizeof
  elem
    | .array t _ => some t
    | _ => none

/-- A type that `catype_is_integer` accepts. -/
structure IntType where
  token : Arith.Ty
  isInteger : Arith.catypeIsInteger token = true

namespace IntType

def signed (k : IntType) : Bool := Arith.catypeIsSigned k.token

def width (k : IntType) : Nat := k.token.width

theorem width_le (k : IntType) : k.width ≤ 64 := by
  rw [width]
  cases k.token <;> decide

theorem le_width (k : IntType) : 8 ≤ k.width := by
  obtain ⟨t, h⟩ := k
  rw [width]
  revert h
  cases t <;> decide

end IntType

/-! ### The lowerings -/

/-- `gen_int` of an `int`. -/
def genInt (n : Int) : IntValue := .const ⟨32, BitVec.ofInt 32 n⟩

/-- `gen_int` of an `int64_t`. -/
def genInt64 (n : Int) : IntValue := .const ⟨64, BitVec.ofInt 64 n⟩

/-- `CreateSExt` to 64 bits, which builds nothing for a value that has them. -/
def createSExt (v : IntValue) : IntValue := if v.width = 64 then v else .cast .sext v 64

/-- `gen_sub`. -/
def genSub (v1 v2 : IntValue) : IntValue := .binop .sub v1 v2

variable (L : DataLayout LLVMType)

/-- `CreateGEP` with the type of what is pointed to. -/
def createGEP (t : LLVMType) (v : PtrValue) (i : IntValue) : Option PtrValue :=
  if v.pointee L = some t then some (.gep v i []) else none

/-- `handle_pointer_op`, for the pointee type of the pointer. -/
def handlePointerOp (minus : Bool) (type : CADataType) (v1 : PtrValue) (v2 : IntValue) :
    Option PtrValue :=
  let v2 := if minus then genSub (genInt64 0) (createSExt v2) else v2
  createGEP L (llvmtypeFromCatype type) v1 v2

/-- `inplace_assignop_assistant` for a pointer variable: the value that is stored in it. -/
def inplaceAssignopAssistant (minus : Bool) (type : CADataType) (vl : PtrValue) (vr : IntValue) :
    Option PtrValue :=
  let vl := .load vl (llvmtypeFromCatype type)
  let vr := if minus then genSub (genInt64 0) (createSExt vr) else vr
  createGEP L (llvmtypeFromCatype type) vl vr

/-- `extract_value_from_array` for an integer index. -/
def extractValueFromArray (arrayvalue : PtrValue) (index : IntValue) : PtrValue :=
  .gep arrayvalue (genInt 0) [index]

/-! ### What they should compute -/

/-- A place of the source that computes an address from an index; an array is given with its
length. -/
inductive Form
  | item (n : Nat)
  | op2 (minus : Bool)
  | assign (minus : Bool)
  deriving DecidableEq

namespace Form

/-- Whether the index is subtracted. -/
def minus : Form → Bool
  | .item _ => false
  | .op2 minus => minus
  | .assign minus => minus

/-- The address that the code of the form computes; for an assignment the one it stores. -/
def emitted (type : CADataType) (base : PtrValue) (index : IntValue) : Form → Option PtrValue
  | .item _ => some (extractValueFromArray base index)
  | .op2 minus => handlePointerOp L minus type base index
  | .assign minus => inplaceAssignopAssistant L minus type base index

/-- What the form finds at run time: the array at `p`, the pointer `p`, or a variable with `p`. -/
def Base (type : CADataType) (m : Memory Nat Nat) (p : BitVec 64) (base : PtrValue) : Form → Prop
  | .item n => base.pointee L = some (llvmtypeFromCatype (.array type n)) ∧ base.eval L m = some p
  | .op2 _ => base.pointee L = some (llvmtypeFromCatype type) ∧ base.eval L m = some p
  | .assign _ => base.pointee L = some (llvmtypeFromCatype (.pointer type)) ∧
      (base.eval L m).map m.heap = some p

/-- The address that is meant, `d` bytes from `p`. -/
def meant (p : BitVec 64) (d : Int) (f : Form) : BitVec 64 :=
  if f.minus then p - BitVec.ofInt 64 d else p + BitVec.ofInt 64 d

end Form

/-- **The address is exact**: whatever the base is and wherever the index comes from, the emitted
address points to the element type, as many elements from the base as the index says. -/
def AddressExact (sizeof : LLVMType → Nat) (f : Form) (type : CADataType) (k : IntType)
    (x : BitVec k.width) : Prop :=
  ∀ (m : Memory Nat Nat) (p : BitVec 64) (base : PtrValue) (index : IntValue),
    f.Base (dataLayout sizeof) type m p base → index.width = k.width →
    index.eval m.word = some ⟨k.width, x⟩ →
    ∃ v, f.emitted (dataLayout sizeof) type base index = some v ∧
      v.pointee (dataLayout sizeof) = some (llvmtypeFromCatype type) ∧
      v.eval (dataLayout sizeof) m =
        some (f.meant p (wordValue k.signed x * sizeof (llvmtypeFromCatype type)))

/-! ### What they compute -/

section

variable {sizeof : LLVMType → Nat} {m : Memory Nat Nat} {p : BitVec 64} {base : PtrValue}
  {index : IntValue} {t : LLVMType} {w : Nat} {x : BitVec w}

theorem eval_createSExt (hw : index.width = w) (hi : index.eval m.word = some ⟨w, x⟩) :
    (createSExt index).eval m.word = some ⟨64, x.signExtend 64⟩ := by
  rw [createSExt]
  split
  · next h =>
      have h64 : w = 64 := hw.symm.trans h
      subst h64
      rw [hi, BitVec.signExtend_eq]
  · exact Value.eval_cast .sext 64 hi

theorem eval_genSub_zero {y : BitVec 64} {v : IntValue} (hv : v.eval m.word = some ⟨64, y⟩) :
    (genSub (genInt64 0) v).eval m.word = some ⟨64, -y⟩ := by
  have hz : (genInt64 0).eval m.word = some ⟨64, 0⟩ := rfl
  rw [genSub, Value.eval_binop .sub hz hv, BinOp.eval]
  simp

/-- An item is a signed number of elements from the array. -/
theorem eval_extractValueFromArray {n : Nat} (hw : w ≤ 64)
    (ht : base.pointee (dataLayout sizeof) = some (.array t n))
    (hp : base.eval (dataLayout sizeof) m = some p) (hi : index.eval m.word = some ⟨w, x⟩) :
    (extractValueFromArray base index).pointee (dataLayout sizeof) = some t ∧
      (extractValueFromArray base index).eval (dataLayout sizeof) m =
        some (p + BitVec.ofInt 64 (x.toInt * sizeof t)) := by
  have hz : (genInt 0).eval m.word = some ⟨32, 0⟩ := rfl
  refine ⟨?_, ?_⟩
  · rw [extractValueFromArray, Addr.pointee, ht]
    rfl
  · rw [extractValueFromArray,
      Addr.eval_gep_item hp ht hz (show (dataLayout sizeof).elem _ = some t from rfl) hi]
    exact congrArg (some <| p + ·) (signExtend_mul_ofNat hw x _)

/-- The other forms step a signed number of elements from the pointer, forwards or backwards. -/
theorem eval_handlePointerOp {type : CADataType} (minus : Bool) (hw : w ≤ 64)
    (ht : base.pointee (dataLayout sizeof) = some (llvmtypeFromCatype type))
    (hp : base.eval (dataLayout sizeof) m = some p) (hwidth : index.width = w)
    (hi : index.eval m.word = some ⟨w, x⟩) :
    ∃ v, handlePointerOp (dataLayout sizeof) minus type base index = some v ∧
      v.pointee (dataLayout sizeof) = some (llvmtypeFromCatype type) ∧
      v.eval (dataLayout sizeof) m =
        some ((Form.op2 minus).meant p (x.toInt * sizeof (llvmtypeFromCatype type))) := by
  have hsize := signExtend_mul_ofNat hw x (sizeof (llvmtypeFromCatype type))
  refine ⟨_, by rw [handlePointerOp, createGEP, if_pos ht], ?_, ?_⟩
  · rw [Addr.pointee, ht]
    rfl
  · cases minus with
    | false =>
        have heval := Addr.eval_gep_one hp ht hi
        rw [if_neg Bool.false_ne_true, heval]
        exact congrArg (some <| p + ·) hsize
    | true =>
        have heval := Addr.eval_gep_one hp ht (eval_genSub_zero (eval_createSExt hwidth hi))
        rw [if_pos rfl, heval, BitVec.signExtend_eq, BitVec.neg_mul]
        refine congrArg some ?_
        rw [Form.meant, Form.minus, if_pos rfl, BitVec.sub_eq_add_neg, ← hsize]
        rfl

end

/-- **Every form takes the signed reading of the index.** -/
theorem eval_emitted {sizeof : LLVMType → Nat} {m : Memory Nat Nat} {p : BitVec 64}
    {base : PtrValue} {index : IntValue} {w : Nat} {x : BitVec w} {type : CADataType} {f : Form}
    (hw : w ≤ 64) (hbase : f.Base (dataLayout sizeof) type m p base) (hwidth : index.width = w)
    (hi : index.eval m.word = some ⟨w, x⟩) :
    ∃ v, f.emitted (dataLayout sizeof) type base index = some v ∧
      v.pointee (dataLayout sizeof) = some (llvmtypeFromCatype type) ∧
      v.eval (dataLayout sizeof) m =
        some (f.meant p (x.toInt * sizeof (llvmtypeFromCatype type))) := by
  cases f with
  | item n => exact ⟨_, rfl, eval_extractValueFromArray hw hbase.1 hbase.2 hi⟩
  | op2 minus => exact eval_handlePointerOp minus hw hbase.1 hbase.2 hwidth hi
  | assign minus =>
      -- the pointer is loaded first, the rest is as for the operators
      have hload :
          ((.load base (llvmtypeFromCatype type) : PtrValue).pointee (dataLayout sizeof)) = _ := rfl
      exact eval_handlePointerOp minus hw hload hbase.2 hwidth hi

theorem Form.meant_inj {f : Form} {p : BitVec 64} {d e : Int} :
    f.meant p d = f.meant p e ↔ BitVec.ofInt 64 d = BitVec.ofInt 64 e := by
  rw [meant, meant]
  cases f.minus with
  | true =>
      rw [if_pos rfl, if_pos rfl, BitVec.sub_eq_add_neg, BitVec.sub_eq_add_neg,
        BitVec.add_right_inj, BitVec.neg_inj]
  | false => rw [if_neg Bool.false_ne_true, if_neg Bool.false_ne_true, BitVec.add_right_inj]

/-- Every word is the value of some index on some base. -/
theorem exists_operands (sizeof : LLVMType → Nat) (f : Form) (type : CADataType) {w : Nat}
    (x : BitVec w) : ∃ m p base index, f.Base (dataLayout sizeof) type m p base ∧
      Value.width index = w ∧ index.eval m.word = some ⟨w, x⟩ := by
  refine ⟨⟨fun _ => ⟨w, x⟩, fun _ => 0, id⟩, 0, .var 0 ?_, .const ⟨w, x⟩, ?_, rfl, rfl⟩
  · exact match f with
      | .item n => llvmtypeFromCatype (.array type n)
      | .op2 _ => llvmtypeFromCatype type
      | .assign _ => llvmtypeFromCatype (.pointer type)
  · cases f <;> exact ⟨rfl, rfl⟩

/-- **An emitted address is exact** if and only if the type of the index is signed, its value lies
below the half of the type's range, or the range times the size of an element is a multiple of
2^64, as it is for 64 bits. -/
theorem addressExact_iff (sizeof : LLVMType → Nat) (f : Form) (type : CADataType) (k : IntType)
    (x : BitVec k.width) : AddressExact sizeof f type k x ↔
      k.signed = true ∨ 2 * x.toNat < 2 ^ k.width ∨
        2 ^ 64 ∣ 2 ^ k.width * sizeof (llvmtypeFromCatype type) := by
  rw [← ofInt_toInt_mul_eq_iff]
  constructor
  · intro h
    obtain ⟨m, p, base, index, hbase, hwidth, hi⟩ := exists_operands sizeof f type x
    obtain ⟨v, hv, -, heval⟩ := h m p base index hbase hwidth hi
    obtain ⟨v', hv', -, heval'⟩ := eval_emitted k.width_le hbase hwidth hi
    obtain rfl := Option.some.inj (hv.symm.trans hv')
    exact Form.meant_inj.mp (Option.some.inj (heval'.symm.trans heval))
  · intro h m p base index hbase hwidth hi
    obtain ⟨v, hv, ht, heval⟩ := eval_emitted k.width_le hbase hwidth hi
    exact ⟨v, hv, ht, heval.trans (congrArg some (Form.meant_inj.mpr h))⟩

/-- `a[i]` of an array of `i32` with a `u8` of 200 lies 56 elements before the array. -/
theorem item200_not_addressExact :
    let index : IntValue := .const ⟨8, 200⟩
    let m : Memory Nat Nat := ⟨fun _ => ⟨8, 0⟩, fun _ => 4096, id⟩
    let base : PtrValue := .var 0 (.array (.int 32) 256)
    (extractValueFromArray base index).eval (dataLayout fun _ => 4) m = some (4096 - 56 * 4) ∧
    ¬ AddressExact (fun _ => 4) (.item 256) (.prim .i32) ⟨.u8, rfl⟩ 200 := by
  intro index m base
  have heval : (extractValueFromArray base index).eval (dataLayout fun _ => 4) m =
      some (4096 - 56 * 4) := by decide
  refine ⟨heval, ?_⟩
  intro h
  obtain ⟨v, hv, -, hmeant⟩ := h m 4096 base index ⟨rfl, rfl⟩ rfl rfl
  obtain rfl := Option.some.inj hv
  rw [heval] at hmeant
  exact absurd hmeant (by decide)

end CaLang.Addresses
