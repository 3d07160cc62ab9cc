import CaLang.Lib.Instr
import Mathlib.Tactic.Ring

/-! # Address computations

Pointers of the intermediate representation, over the integer values that index them.  **An index is
a signed number of elements**: it is extended with its sign to the width of an address, and the
first one steps over whole values of the type that is pointed to, every other one into an array.
-/

namespace CaLang.Instr

/-- The sizes of the types that pointers point to, and the types of the elements of arrays. -/
structure DataLayout (τ : Type) where
  sizeof : τ → Nat
  elem : τ → Option τ

/-- A pointer: named, loaded from memory, stepped over elements, or retyped. -/
inductive Addr (ι κ τ : Type)
  | var (x : κ) (t : τ)
  | load (a : Addr ι κ τ) (t : τ)
  | gep (a : Addr ι κ τ) (i : Value ι) (is : List (Value ι))
  | bitcast (a : Addr ι κ τ) (t : τ)

/-- What the named pointers, the integers and the memory are at run time. -/
structure Memory (ι κ : Type) where
  word : ι → Word
  pointer : κ → BitVec 64
  heap : BitVec 64 → BitVec 64

variable {ι κ τ : Type}

namespace DataLayout

variable (L : DataLayout τ) (mem : ι → Word)

/-- The type that indices into an array lead to. -/
def index : τ → List (Value ι) → Option τ
  | t, [] => some t
  | t, _ :: is => (L.elem t).bind (index · is)

/-- The bytes that an index steps over. -/
def stride (t : τ) (i : Value ι) : Option (BitVec 64) :=
  (i.eval mem).map fun w => w.bits.signExtend 64 * BitVec.ofNat 64 (L.sizeof t)

/-- The offset that indices into an array add up to. -/
def offset : τ → List (Value ι) → Option (BitVec 64)
  | _, [] => some 0
  | t, i :: is => do
      let t' ← L.elem t
      let d ← L.stride mem t' i
      let d' ← offset t' is
      some (d + d')

end DataLayout

namespace Addr

variable (L : DataLayout τ)

/-- The type that is pointed to, where the indices lead into arrays. -/
def pointee : Addr ι κ τ → Option τ
  | .var _ t => some t
  | .load _ t => some t
  | .gep a _ is => a.pointee.bind (L.index · is)
  | .bitcast _ t => some t

def eval (m : Memory ι κ) : Addr ι κ τ → Option (BitVec 64)
  | .var x _ => some (m.pointer x)
  | .load a _ => (a.eval m).map m.heap
  | .gep a i is => do
      let p ← a.eval m
      let t ← a.pointee L
      let d ← L.stride m.word t i
      let d' ← L.offset m.word t is
      some (p + (d + d'))
  | .bitcast a _ => a.eval m

variable {L} {m : Memory ι κ} {a : Addr ι κ τ} {p : BitVec 64} {t t' : τ} {i : Value ι} {w : Word}

/-- One index steps over whole values. -/
theorem eval_gep_one (ha : a.eval L m = some p) (ht : a.pointee L = some t)
    (hi : i.eval m.word = some w) :
    (Addr.gep a i []).eval L m =
      some (p + w.bits.signExtend 64 * BitVec.ofNat 64 (L.sizeof t)) := by
  simp [eval, ha, ht, DataLayout.stride, hi, DataLayout.offset]

/-- An index behind a zero steps over the elements of an array. -/
theorem eval_gep_item {z : Value ι} {n : Nat} (ha : a.eval L m = some p)
    (ht : a.pointee L = some t) (hz : z.eval m.word = some ⟨n, 0⟩) (he : L.elem t = some t')
    (hi : i.eval m.word = some w) :
    (Addr.gep a z [i]).eval L m =
      some (p + w.bits.signExtend 64 * BitVec.ofNat 64 (L.sizeof t')) := by
  have hstride : L.stride m.word t z = some 0 := by
    simp [DataLayout.stride, hz, BitVec.signExtend]
  have hitem : L.stride m.word t' i =
      some (w.bits.signExtend 64 * BitVec.ofNat 64 (L.sizeof t')) := by
    rw [DataLayout.stride, hi, Option.map_some]
  simp [eval, ha, ht, hstride, hitem, DataLayout.offset, he]

end Addr

/-! ### Signed and unsigned indices -/

variable {w : Nat} {s : Bool} {x : BitVec w}

/-- The step of an index is its signed reading. -/
theorem signExtend_mul_ofNat (hw : w ≤ 64) (x : BitVec w) (n : Nat) :
    x.signExtend 64 * BitVec.ofNat 64 n = BitVec.ofInt 64 (x.toInt * n) := by
  rw [BitVec.ofInt_mul, ofInt_sext hw, BitVec.ofInt_natCast]

/-- Two integers leave the same word if and only if they differ by a multiple of its range. -/
theorem ofInt_eq_ofInt_iff {w : Nat} {a b : Int} :
    BitVec.ofInt w a = BitVec.ofInt w b ↔ ((2 ^ w : Nat) : Int) ∣ a - b := by
  rw [← BitVec.toInt_inj, BitVec.toInt_ofInt, BitVec.toInt_ofInt,
    Int.bmod_eq_bmod_iff_bmod_sub_eq_zero, ← Int.dvd_iff_bmod_eq_zero]

/-- **The signed reading of an index steps as far as its own one** if and only if the index is
signed, is below half of its range, or the range is a multiple of an address space. -/
theorem ofInt_toInt_mul_eq_iff (n : Nat) :
    BitVec.ofInt 64 (x.toInt * n) = BitVec.ofInt 64 (wordValue s x * n) ↔
      s = true ∨ 2 * x.toNat < 2 ^ w ∨ 2 ^ 64 ∣ 2 ^ w * n := by
  cases s with
  | true => simp [wordValue]
  | false =>
      rw [wordValue, if_neg Bool.false_ne_true, BitVec.toInt_eq_toNat_cond]
      by_cases hlt : 2 * x.toNat < 2 ^ w
      · simp [hlt]
      · have hdiff : ((x.toNat : Int) - (2 ^ w : Nat)) * n - x.toNat * n =
            -((2 ^ w * n : Nat) : Int) := by
          push_cast
          ring
        rw [if_neg hlt, ofInt_eq_ofInt_iff, hdiff, Int.dvd_neg, Int.natCast_dvd_natCast]
        simp [hlt]

end CaLang.Instr
