import CaLang.Addresses.Indices
import Mathlib.Algebra.Order.Ring.Abs
import Mathlib.Tactic.Linarith

/-! # Slices of arrays

An array that is indexed by a range yields a slice, a pointer and a length.  **The pointer is
stepped over whole arrays**: the bound is the only index, where an item takes a zero before it.  The
length is computed at the type of the bounds and then converted; that of `a..=b` misses its last
item, for it is added under a test that compares the type's token with the kind of the range.
-/

namespace CaLang.Addresses

open Instr
open Pointers (CADataType llvmtypeFromCatype)
open CaLang.Types (LLVMType)

/-! ### Ranges -/

inductive GeneralRangeType
  | fullRange | inclusiveRange | inclusiveRangeTo | rightExclusiveRange | rightExclusiveRangeTo
  | rangeFrom
  deriving DecidableEq

/-- The value of the enumerator. -/
def GeneralRangeType.number : GeneralRangeType → Nat
  | .fullRange => 0
  | .inclusiveRange => 1
  | .inclusiveRangeTo => 2
  | .rightExclusiveRange => 3
  | .rightExclusiveRangeTo => 4
  | .rangeFrom => 5

/-- The token `RANGE`; the numbers of tokens begin at 258. -/
def tokenRange : Nat := 323

/-- `general_range_init`. -/
def generalRangeInit (inclusive start fin : Bool) : GeneralRangeType :=
  if !start && !fin then .fullRange
  else if start && fin then (if inclusive then .inclusiveRange else .rightExclusiveRange)
  else if start then .rangeFrom
  else if inclusive then .inclusiveRangeTo
  else .rightExclusiveRangeTo

/-- A datatype of a range: `CARange` with the token of the datatype. -/
structure RangeType where
  token : Nat
  type : GeneralRangeType
  start : Option IntType
  fin : Option IntType

/-- The value of a range: both bounds, or the only one. -/
inductive RangeValue
  | pair (v1 v2 : IntValue)
  | single (v : IntValue)

/-- `catype_from_range` for bounds that are integers. -/
def catypeFromRange (type : GeneralRangeType) (start fin : Option IntType) : Option RangeType :=
  match start, fin with
  | some k1, some k2 => if k1.token = k2.token then some ⟨tokenRange, type, start, fin⟩ else none
  | _, _ => some ⟨tokenRange, type, start, fin⟩

/-- `walk_range` with the values of the bounds that there are. -/
def walkRange (inclusive : Bool) (start fin : Option (IntType × IntValue)) :
    Option (RangeValue × RangeType) := do
  let type := generalRangeInit inclusive start.isSome fin.isSome
  let catype ← catypeFromRange type (start.map Prod.fst) (fin.map Prod.fst)
  match start, fin with
  | some (_, v1), some (_, v2) => some (.pair v1 v2, catype)
  | some (_, v), none => some (.single v, catype)
  | none, some (_, v) => some (.single v, catype)
  | none, none => some (.single (genInt 0), catype)

/-! ### The lowering -/

/-- `create_default_integer_value`. -/
def createDefaultIntegerValue (k : IntType) (n : Int) : IntValue :=
  .const ⟨k.width, BitVec.ofInt k.width n⟩

/-- `gen_add`. -/
def genAdd (v1 v2 : IntValue) : IntValue := .binop .add v1 v2

/-- `CreateCast` to 64 bits, which builds nothing for a value that has them. -/
def genCastValue (opt : Arith.CastOpt) (v : IntValue) : Option IntValue :=
  if v.width = 64 then some v
  else match opt with
    | .op c => some (.cast c v 64)
    | _ => none

/-- A slice: its first element and its length. -/
structure SliceValue where
  start : PtrValue
  len : IntValue

/-- `llvmcode_create_slice`. -/
def llvmcodeCreateSlice (start : PtrValue) (offset : Option IntValue) (len : IntValue)
    (item : CADataType) : SliceValue :=
  let start := match offset with
    | some v => .gep start v []
    | none => start
  ⟨.bitcast start (llvmtypeFromCatype item), len⟩

/-- The type of the length before it is converted. -/
def RangeType.indexType (r : RangeType) : Option Arith.Ty :=
  if r.type = .fullRange then some .i64
  else if r.type = .rangeFrom then r.start.map (·.token)
  else r.fin.map (·.token)

/-- The offset and the length that `extract_value_from_array` computes from a range, for an array of
`n` items. -/
def offsetAndLen (n : Nat) (value : RangeValue) (r : RangeType) :
    Option (Option IntValue × IntValue) :=
  match r.type, value with
  | .fullRange, _ => some (none, genInt64 n)
  | .inclusiveRangeTo, .single v =>
      r.fin.map fun k => (none, genAdd v (createDefaultIntegerValue k 1))
  | .rightExclusiveRangeTo, .single v => some (none, v)
  | .rangeFrom, .single v => some (some v, genSub (genInt64 n) v)
  | .inclusiveRange, .pair v1 v2 | .rightExclusiveRange, .pair v1 v2 =>
      if r.token = GeneralRangeType.inclusiveRange.number then
        r.fin.map fun k =>
          (some v1, genAdd (genSub v2 v1) (createDefaultIntegerValue k 1))
      else some (some v1, genSub v2 v1)
  | _, _ => none

/-- `extract_value_from_array` for an index that is a range. -/
def extractSliceFromArray (arrayvalue : PtrValue) (n : Nat) (item : CADataType) (value : RangeValue)
    (r : RangeType) : Option SliceValue := do
  let (offset, len) ← offsetAndLen n value r
  let indexType ← r.indexType
  let len ← genCastValue (Arith.genCastOps indexType .i64) len
  some (llvmcodeCreateSlice arrayvalue offset len item)

/-! ### What a slice is -/

/-- The forms of a range, with words for their bounds. -/
inductive Bounds (w : Nat)
  | full
  | start (a : BitVec w)
  | fin (b : BitVec w)
  | finInclusive (b : BitVec w)
  | both (a b : BitVec w)
  | bothInclusive (a b : BitVec w)

namespace Bounds

variable {w : Nat}

/-- The bounds as they are written. -/
def inclusive : Bounds w → Bool
  | .finInclusive _ => true
  | .bothInclusive _ _ => true
  | _ => false

def startWord : Bounds w → Option (BitVec w)
  | .start a => some a
  | .both a _ => some a
  | .bothInclusive a _ => some a
  | _ => none

def finWord : Bounds w → Option (BitVec w)
  | .fin b => some b
  | .finInclusive b => some b
  | .both _ b => some b
  | .bothInclusive _ b => some b
  | _ => none

/-- The first item of the slice of an array. -/
def first (signed : Bool) (r : Bounds w) : Int := r.startWord.elim 0 (wordValue signed)

/-- The item behind the last one of the slice of an array of `n` items. -/
def last (signed : Bool) (n : Nat) (r : Bounds w) : Int :=
  r.finWord.elim n fun b => wordValue signed b + if r.inclusive then 1 else 0

/-- The range lies in an array of `n` items, its bounds in order. -/
structure Within (signed : Bool) (n : Nat) (r : Bounds w) : Prop where
  first_nonneg : 0 ≤ r.first signed
  ordered : r.first signed ≤ r.last signed n - if r.inclusive then 1 else 0
  last_le : r.last signed n ≤ n

end Bounds

/-- The sizes of types; an array is as large as its items. -/
structure Sizes where
  sizeof : LLVMType → Nat
  sizeof_array : ∀ t n, sizeof (.array t n) = n * sizeof t

/-- An array that is indexed by a range within it. -/
structure Slicing where
  item : CADataType
  length : Nat
  length_lt : length < 2 ^ 31
  type : IntType
  bounds : Bounds type.width
  within : bounds.Within type.signed length

namespace Slicing

variable (S : Slicing)

def first : Int := S.bounds.first S.type.signed

/-- The number of the items of the slice. -/
def count : Int := S.bounds.last S.type.signed S.length - S.first

/-- Code of a bound, and the word that it computes. -/
def Yields (m : Memory Nat Nat) (v : Option IntValue) (x : Option (BitVec S.type.width)) : Prop :=
  match v, x with
  | some v, some x => v.WellTyped ∧ v.width = S.type.width ∧
      v.eval m.word = some ⟨S.type.width, x⟩
  | none, none => True
  | _, _ => False

/-- **The slice is exact**: its pointer is that of its first item, its length is a word of 64 bits
with the number of its items, and both are well typed. -/
def Exact (sizes : Sizes) : Prop :=
  ∀ (m : Memory Nat Nat) (p : BitVec 64) (base : PtrValue) (start fin : Option IntValue),
    base.pointee (dataLayout sizes.sizeof) =
      some (llvmtypeFromCatype (.array S.item S.length)) →
    base.eval (dataLayout sizes.sizeof) m = some p →
    S.Yields m start S.bounds.startWord → S.Yields m fin S.bounds.finWord →
    ∃ r s, walkRange S.bounds.inclusive (start.map (S.type, ·)) (fin.map (S.type, ·)) = some r ∧
      extractSliceFromArray base S.length S.item r.1 r.2 = some s ∧
      s.start.pointee (dataLayout sizes.sizeof) = some (llvmtypeFromCatype S.item) ∧
      s.start.eval (dataLayout sizes.sizeof) m =
        some (p + BitVec.ofInt 64 (S.first * sizes.sizeof (llvmtypeFromCatype S.item))) ∧
      s.len.WellTyped ∧ s.len.width = 64 ∧
      s.len.eval m.word = some ⟨64, BitVec.ofInt 64 S.count⟩

/-- The bound that is used as an offset leads to the first item, stepping over whole arrays. -/
def Steps (sizes : Sizes) : Prop :=
  (2 ^ 64 : Int) ∣ (S.bounds.startWord.elim 0 BitVec.toInt * S.length - S.first) *
    sizes.sizeof (llvmtypeFromCatype S.item)

/-- The length is computed. -/
def LenFits : Prop :=
  match S.bounds with
  | .full => True
  | .start _ => S.type.width = 64
  | .fin _ => True
  | .finInclusive b =>
      wordValue S.type.signed b + 1 < wordBound S.type.signed S.type.width
  | .both _ _ => True
  | .bothInclusive _ _ => False

end Slicing

/-! ### Words of lengths -/

section

variable {w : Nat} {s : Bool} {x y : BitVec w}

theorem wordValue_sub_of_le (h0 : 0 ≤ wordValue s x) (h : wordValue s x ≤ wordValue s y) :
    wordValue s (y - x) = wordValue s y - wordValue s x := by
  have hlt := wordValue_lt_wordBound (s := s) (x := y)
  rw [← ofInt_sub_wordValue (s := s)]
  exact wordValue_ofInt_of_lt (by omega) (by omega)

theorem ofInt_ne_succ (v : Int) : BitVec.ofInt 64 v ≠ BitVec.ofInt 64 (v + 1) := by
  rw [ne_eq, ofInt_eq_ofInt_iff]
  intro h
  have hone : v - (v + 1) = -1 := by omega
  rw [hone] at h
  exact absurd h (by decide)

/-- The successor of a word has the next value if and only if there is one at its width. -/
theorem ofInt_wordValue_add_one_iff (h0 : 0 ≤ wordValue s x)
    (h31 : wordValue s x < 2 ^ 31) :
    BitVec.ofInt 64 (wordValue s (x + 1)) = BitVec.ofInt 64 (wordValue s x + 1) ↔
      wordValue s x + 1 < wordBound s w := by
  have hsucc : BitVec.ofInt w (wordValue s x + 1) = x + 1 := by
    rw [BitVec.ofInt_add, ofInt_wordValue]
    rfl
  constructor
  · intro h
    by_contra hge
    have hlt := wordValue_lt_wordBound (s := s) (x := x)
    have hlt' := wordValue_lt_wordBound (s := s) (x := x + 1)
    have hle := neg_wordBound_le_wordValue (s := s) (x := x + 1)
    -- the value steps down by less than the range of a word
    rw [ofInt_eq_ofInt_iff] at h
    have := Int.le_of_dvd (a := ((2 ^ 64 : Nat) : Int))
      (b := (wordValue s x + 1) - wordValue s (x + 1)) (by omega)
      (by rw [← Int.dvd_neg, Int.neg_sub]; exact h)
    push_cast at this
    omega
  · intro h
    rw [← hsucc, wordValue_ofInt_of_lt (by omega) h]

end

/-! ### Code of lengths -/

/-- Code that computes the word `x`. -/
def Computes {w : Nat} (m : Memory Nat Nat) (v : IntValue) (x : BitVec w) : Prop :=
  v.WellTyped ∧ v.width = w ∧ v.eval m.word = some ⟨w, x⟩

namespace Computes

variable {w : Nat} {m : Memory Nat Nat} {v v' : IntValue} {x y : BitVec w}

theorem sub (h : Computes m v x) (h' : Computes m v' y) : Computes m (genSub v v') (x - y) :=
  ⟨⟨h.1, h'.1, h'.2.1.trans h.2.1.symm⟩, h.2.1, by
    rw [genSub, Value.eval_binop .sub h.2.2 h'.2.2]; rfl⟩

theorem add_one {k : IntType} {x : BitVec k.width} (h : Computes m v x) :
    Computes m (genAdd v (createDefaultIntegerValue k 1)) (x + 1) :=
  ⟨⟨h.1, trivial, h.2.1.symm⟩, h.2.1, by
    have hone : (createDefaultIntegerValue k 1).eval m.word = some ⟨k.width, 1⟩ := rfl
    rw [genAdd, Value.eval_binop .add h.2.2 hone]
    rfl⟩

theorem inj {z : BitVec w} (h : Computes m v x) (h' : Computes m v z) : x = z := by
  have := h.2.2.symm.trans h'.2.2
  simpa using this

theorem same {x : BitVec 64} (h : Computes m v x) (s : Bool) (opt : Arith.CastOpt) :
    ∃ v', genCastValue opt v = some v' ∧ Computes m v' (BitVec.ofInt 64 (wordValue s x)) := by
  refine ⟨v, ?_, ?_⟩
  · unfold genCastValue
    rw [if_pos h.2.1]
  · rw [ofInt_wordValue]
    exact h

theorem as64 (h : Computes m v x) (hw : w = 64) (s : Bool) :
    Computes m v (BitVec.ofInt 64 (wordValue s x)) := by
  subst hw
  rwa [ofInt_wordValue]

theorem castOp (h : Computes m v x) {c : CastOp} (hlegal : c.Legal w 64) (hlt : w < 64) {n : Int}
    (hn : c.eval x 64 = BitVec.ofInt 64 n) :
    ∃ v', genCastValue (.op c) v = some v' ∧ Computes m v' (BitVec.ofInt 64 n) := by
  refine ⟨.cast c v 64, ?_, ⟨h.1, h.2.1.symm ▸ hlegal⟩, rfl, ?_⟩
  · have hne : v.width ≠ 64 := by
      rw [h.2.1]
      exact Nat.ne_of_lt hlt
    rw [genCastValue, if_neg hne]
  · rw [Value.eval_cast c 64 h.2.2, hn]

theorem sext (h : Computes m v x) (hlt : w < 64) :
    ∃ v', genCastValue (.op .sext) v = some v' ∧
      Computes m v' (BitVec.ofInt 64 (wordValue true x)) :=
  h.castOp (c := .sext) hlt hlt (ofInt_sext hlt.le).symm

theorem zext (h : Computes m v x) (hlt : w < 64) :
    ∃ v', genCastValue (.op .zext) v = some v' ∧
      Computes m v' (BitVec.ofInt 64 (wordValue false x)) :=
  h.castOp (c := .zext) hlt hlt ofInt_zext.symm

/-- **A length is converted by its value.** -/
theorem cast {k : IntType} {x : BitVec k.width} (h : Computes m v x) :
    ∃ v', genCastValue (Arith.genCastOps k.token .i64) v = some v' ∧
      Computes m v' (BitVec.ofInt 64 (wordValue k.signed x)) := by
  obtain ⟨t, hint⟩ := k
  cases t with
  | i64 => exact same (x := x) h true _
  | u64 => exact same (x := x) h false _
  | i8 => exact sext (w := 8) h (by decide)
  | i16 => exact sext (w := 16) h (by decide)
  | i32 => exact sext (w := 32) h (by decide)
  | u8 => exact zext (w := 8) h (by decide)
  | u16 => exact zext (w := 16) h (by decide)
  | u32 => exact zext (w := 32) h (by decide)
  | bool => cases hint

end Computes

namespace Slicing

variable {S : Slicing} {sizes : Sizes} {m : Memory Nat Nat} {p : BitVec 64} {base : PtrValue}
  {start fin : Option IntValue} {len : IntValue}

theorem Yields.some {v : Option IntValue} {x : BitVec S.type.width}
    (h : S.Yields m v (some x)) : ∃ v', v = some v' ∧ Computes m v' x := by
  cases v with
  | none => exact h.elim
  | some v' => exact ⟨v', rfl, h⟩

theorem Yields.none {v : Option IntValue} (h : S.Yields m v none) : v = none := by
  cases v with
  | none => rfl
  | some v' => exact h.elim

/-! ### The pointer -/

/-- The pointer of a slice has the type of an item; a bound steps it over whole arrays. -/
theorem eval_start (ht : base.pointee (dataLayout sizes.sizeof) =
      some (llvmtypeFromCatype (.array S.item S.length)))
    (hp : base.eval (dataLayout sizes.sizeof) m = some p)
    (hstart : S.Yields m start S.bounds.startWord) :
    (llvmcodeCreateSlice base start len S.item).start.eval (dataLayout sizes.sizeof) m =
      some (p + BitVec.ofInt 64 (S.bounds.startWord.elim 0 BitVec.toInt * S.length *
        sizes.sizeof (llvmtypeFromCatype S.item))) := by
  cases hx : S.bounds.startWord with
  | some x =>
      rw [hx] at hstart
      obtain ⟨v, rfl, hv⟩ := hstart.some
      have hgep := Addr.eval_gep_one hp ht hv.2.2
      have hsize : (dataLayout sizes.sizeof).sizeof (llvmtypeFromCatype (.array S.item S.length)) =
          S.length * sizes.sizeof (llvmtypeFromCatype S.item) :=
        sizes.sizeof_array _ _
      rw [llvmcodeCreateSlice, Addr.eval, hgep, hsize, signExtend_mul_ofNat S.type.width_le,
        Option.elim, Nat.cast_mul, Int.mul_assoc]
  | none =>
      rw [hx] at hstart
      obtain rfl := hstart.none
      rw [llvmcodeCreateSlice, Addr.eval, hp]
      simp

/-- **The pointer is right** if and only if the bound leads to the first item. -/
theorem eval_start_iff (ht : base.pointee (dataLayout sizes.sizeof) =
      some (llvmtypeFromCatype (.array S.item S.length)))
    (hp : base.eval (dataLayout sizes.sizeof) m = some p)
    (hstart : S.Yields m start S.bounds.startWord) :
    (llvmcodeCreateSlice base start len S.item).start.eval (dataLayout sizes.sizeof) m =
      some (p + BitVec.ofInt 64 (S.first * sizes.sizeof (llvmtypeFromCatype S.item))) ↔
    S.Steps sizes := by
  rw [eval_start ht hp hstart, Option.some.injEq, BitVec.add_right_inj, ofInt_eq_ofInt_iff, Steps,
    Int.sub_mul]
  norm_cast

/-! ### The length -/

/-- The code of the slice, if there is any. -/
def emitted (S : Slicing) (base : PtrValue) (start fin : Option IntValue) : Option SliceValue := do
  let (value, r) ← walkRange S.bounds.inclusive (start.map (S.type, ·)) (fin.map (S.type, ·))
  extractSliceFromArray base S.length S.item value r

theorem walkRange_both (inclusive : Bool) (k : IntType) (v v' : IntValue) :
    walkRange inclusive (Option.some (k, v)) (Option.some (k, v')) = Option.some (.pair v v',
      ⟨tokenRange, generalRangeInit inclusive true true, Option.some k, Option.some k⟩) := by
  rw [walkRange]
  simp [catypeFromRange]

theorem emitted_of {value : RangeValue} {r : RangeType} {t : Arith.Ty} {len' : IntValue}
    (hr : walkRange S.bounds.inclusive (start.map (S.type, ·)) (fin.map (S.type, ·)) =
      some (value, r)) (ho : offsetAndLen S.length value r = some (start, len))
    (ht : r.indexType = some t) (hl : genCastValue (Arith.genCastOps t .i64) len = some len') :
    S.emitted base start fin = some (llvmcodeCreateSlice base start len' S.item) := by
  rw [emitted, hr]
  simp only [bind, Option.bind_some, extractSliceFromArray, ho, ht, hl]

/-- **The offset is the first bound, and the length is right** if and only if it fits. -/
theorem emitted_eq (base : PtrValue) (hstart : S.Yields m start S.bounds.startWord)
    (hfin : S.Yields m fin S.bounds.finWord) :
    ∃ len, S.emitted base start fin = some (llvmcodeCreateSlice base start len S.item) ∧
      (Computes m len (BitVec.ofInt 64 S.count) ↔ S.LenFits) := by
  obtain ⟨item, n, hn, k, bounds, hfirst, horder, hlast⟩ := S
  cases bounds with
  | full =>
      obtain rfl := hstart.none
      obtain rfl := hfin.none
      refine ⟨genInt64 n, emitted_of rfl rfl rfl rfl, iff_of_true ⟨trivial, rfl, ?_⟩ trivial⟩
      simp [genInt64, Value.eval, count, first, Bounds.first, Bounds.last, Bounds.startWord,
        Bounds.finWord]
  | start a =>
      obtain ⟨v, rfl, hv⟩ := hstart.some
      obtain rfl := hfin.none
      have hcast : genCastValue (Arith.genCastOps k.token .i64) (genSub (genInt64 n) v) =
          some (genSub (genInt64 n) v) := by
        unfold genCastValue
        exact if_pos rfl
      refine ⟨_, emitted_of rfl rfl rfl hcast, ?_⟩
      constructor
      · rintro ⟨⟨-, -, hw⟩, -⟩
        exact hv.2.1.symm.trans hw
      · intro hw
        have hn64 : Computes m (genInt64 n) (BitVec.ofInt 64 (n : Int)) := ⟨trivial, rfl, rfl⟩
        have hsub := hn64.sub (hv.as64 hw k.signed)
        rw [BitVec.sub_eq_add_neg, ← BitVec.ofInt_neg, ← BitVec.ofInt_add,
          ← Int.sub_eq_add_neg] at hsub
        exact hsub
  | fin b =>
      obtain rfl := hstart.none
      obtain ⟨v, rfl, hv⟩ := hfin.some
      obtain ⟨len, hcast, hlen⟩ := hv.cast
      have hcount : wordValue k.signed b = wordValue k.signed b + 0 - 0 := by omega
      rw [hcount] at hlen
      exact ⟨len, emitted_of rfl rfl rfl hcast, iff_of_true hlen trivial⟩
  | finInclusive b =>
      obtain rfl := hstart.none
      obtain ⟨v, rfl, hv⟩ := hfin.some
      obtain ⟨len, hcast, hlen⟩ := hv.add_one.cast
      refine ⟨len, emitted_of rfl rfl rfl hcast, ?_⟩
      have hb : 0 ≤ wordValue k.signed b ∧ wordValue k.signed b < 2 ^ 31 := by
        simp only [Bounds.first, Bounds.last, Bounds.startWord, Bounds.finWord, Bounds.inclusive,
          Option.elim, if_true] at hfirst horder hlast
        omega
      have hcount : wordValue k.signed b + 1 - 0 = wordValue k.signed b + 1 := by omega
      show Computes m len (BitVec.ofInt 64 (wordValue k.signed b + 1 - 0)) ↔ _
      rw [hcount]
      refine Iff.trans ?_ (ofInt_wordValue_add_one_iff hb.1 hb.2)
      exact ⟨fun h => hlen.inj h, fun h => h ▸ hlen⟩
  | both a b =>
      obtain ⟨v, rfl, hv⟩ := hstart.some
      obtain ⟨v', rfl, hv'⟩ := hfin.some
      obtain ⟨len, hcast, hlen⟩ := (hv'.sub hv).cast
      have hab : wordValue k.signed a ≤ wordValue k.signed b := by
        simpa [Bounds.first, Bounds.last, Bounds.startWord, Bounds.finWord, Bounds.inclusive]
          using horder
      rw [wordValue_sub_of_le hfirst hab] at hlen
      have hcount : wordValue k.signed b - wordValue k.signed a =
          wordValue k.signed b + 0 - wordValue k.signed a := by omega
      rw [hcount] at hlen
      exact ⟨len, emitted_of (walkRange_both _ k v v') rfl rfl hcast, iff_of_true hlen trivial⟩
  | bothInclusive a b =>
      obtain ⟨v, rfl, hv⟩ := hstart.some
      obtain ⟨v', rfl, hv'⟩ := hfin.some
      obtain ⟨len, hcast, hlen⟩ := (hv'.sub hv).cast
      have hab : wordValue k.signed a ≤ wordValue k.signed b := by
        simpa [Bounds.first, Bounds.last, Bounds.startWord, Bounds.finWord, Bounds.inclusive]
          using horder
      rw [wordValue_sub_of_le hfirst hab] at hlen
      -- the token of the datatype is never the kind of the range
      refine ⟨len, emitted_of (walkRange_both _ k v v') rfl rfl hcast, ?_⟩
      refine iff_of_false ?_ id
      intro h
      have hcount : wordValue k.signed b + 1 - wordValue k.signed a =
          (wordValue k.signed b - wordValue k.signed a) + 1 := by omega
      refine ofInt_ne_succ _ (hlen.inj ?_)
      rw [← hcount]
      exact h

/-- **A slice is exact** if and only if the bound leads to the first item and the length fits. -/
theorem sliceExact_iff (S : Slicing) (sizes : Sizes) :
    S.Exact sizes ↔ S.Steps sizes ∧ S.LenFits := by
  constructor
  · intro h
    -- code of the bounds and an array to try them on
    let m : Memory Nat Nat := ⟨fun _ => ⟨0, 0⟩, fun _ => 0, id⟩
    let base : PtrValue := .var 0 (llvmtypeFromCatype (.array S.item S.length))
    let code (x : Option (BitVec S.type.width)) : Option IntValue :=
      x.map fun x => .const ⟨S.type.width, x⟩
    have hcode (x : Option (BitVec S.type.width)) : S.Yields m (code x) x := by
      cases x with
      | none => trivial
      | some x => exact ⟨trivial, rfl, rfl⟩
    obtain ⟨r, s, hr, hs, -, hstart, hlen⟩ := h m 0 base _ _ rfl rfl (hcode _) (hcode _)
    obtain ⟨len, he, hiff⟩ := emitted_eq base (hcode S.bounds.startWord)
      (hcode S.bounds.finWord)
    have hemit : S.emitted base (code S.bounds.startWord) (code S.bounds.finWord) = some s := by
      rw [emitted, hr]
      exact hs
    obtain rfl := Option.some.inj (hemit.symm.trans he)
    exact ⟨(eval_start_iff rfl rfl (hcode _)).mp hstart, hiff.mp hlen⟩
  · rintro ⟨hsteps, hfits⟩ m p base start fin ht hp hstart hfin
    obtain ⟨len, he, hiff⟩ := emitted_eq base hstart hfin
    obtain ⟨r, hr, hs⟩ := Option.bind_eq_some_iff.mp he
    exact ⟨r, _, hr, hs, rfl, (eval_start_iff ht hp hstart).mpr hsteps, hiff.mpr hfits⟩

/-! ### Arrays that are not huge -/

/-- The signed reading of a bound is the bound, or lies below zero and not further than it. -/
theorem toInt_first {x : BitVec S.type.width} (h : S.bounds.startWord = some x) :
    x.toInt = S.first ∨ -S.first ≤ x.toInt ∧ x.toInt < 0 ∧ 2 ^ S.type.width ≤ 2 * S.first := by
  have hfirst : S.first = wordValue S.type.signed x := by rw [first, Bounds.first, h]; rfl
  rw [hfirst, wordValue]
  cases S.type.signed with
  | true => exact .inl rfl
  | false =>
      rw [if_neg Bool.false_ne_true, BitVec.toInt_eq_toNat_cond]
      split
      · exact .inl rfl
      · next hge =>
          have hlt : (x.toNat : Int) < 2 ^ S.type.width := by exact_mod_cast x.isLt
          have hge' : (2 : Int) ^ S.type.width ≤ 2 * x.toNat := by
            have := Nat.not_lt.mp hge
            exact_mod_cast this
          push_cast
          exact .inr ⟨by omega, by omega, hge'⟩

/-- **In an array that is not huge only the first item is stepped to**, unless there is but one. -/
theorem steps_iff_of_small
    (h : (S.length * S.length + S.length) * sizes.sizeof (llvmtypeFromCatype S.item) < 2 ^ 64) :
    S.Steps sizes ↔
      sizes.sizeof (llvmtypeFromCatype S.item) = 0 ∨ S.first = 0 ∨ S.length = 1 := by
  have h0 : 0 ≤ S.first := S.within.first_nonneg
  have hle : S.first ≤ S.length := by
    have hlast := S.within.last_le
    have horder := S.within.ordered
    rw [first]
    split at horder <;> omega
  rw [Steps]
  cases hx : S.bounds.startWord with
  | none =>
      have hfirst : S.first = 0 := by rw [first, Bounds.first, hx]; rfl
      simp [hfirst]
  | some x =>
      rw [Option.elim]
      have hn : (0 : Int) ≤ S.length := Int.natCast_nonneg _
      have hreading := toInt_first hx
      have hwidth : (2 : Int) ^ 8 ≤ 2 ^ S.type.width :=
        pow_le_pow_right₀ (by decide) S.type.le_width
      have habs : |x.toInt * S.length - S.first| ≤ S.length * S.length + S.length := by
        rw [abs_le]
        constructor <;> rcases hreading with h | h <;> nlinarith
      have hzero : (2 ^ 64 : Int) ∣ (x.toInt * S.length - S.first) *
          sizes.sizeof (llvmtypeFromCatype S.item) ↔ (x.toInt * S.length - S.first) *
            (sizes.sizeof (llvmtypeFromCatype S.item) : Int) = 0 := by
        refine ⟨fun hdvd => Int.eq_zero_of_abs_lt_dvd hdvd ?_, fun h => h ▸ dvd_zero _⟩
        rw [abs_mul, Nat.abs_cast]
        refine lt_of_le_of_lt (mul_le_mul_of_nonneg_right habs (Int.natCast_nonneg _)) ?_
        exact_mod_cast h
      rw [hzero, mul_eq_zero, or_comm, Int.natCast_eq_zero]
      refine or_congr_right ?_
      rcases hreading with h | h
      · rw [h]
        constructor
        · intro hn
          have hmul : S.first * (S.length - 1) = 0 := by linarith
          rcases mul_eq_zero.mp hmul with h | h
          · exact .inl h
          · exact .inr (by omega)
        · rintro (h | h)
          · rw [h]; omega
          · rw [h]; omega
      · refine iff_of_false ?_ (by omega)
        intro hn
        nlinarith

end Slicing

/-- The sizes of the types without structs. -/
def plainSizeof : LLVMType → Nat
  | .void => 0
  | .int bits => (bits + 7) / 8
  | .float => 4
  | .double => 8
  | .pointer _ => 8
  | .array t n => n * plainSizeof t
  | .struct _ => 0

def plainSizes : Sizes := ⟨plainSizeof, fun _ _ => rfl⟩

/-- `a[1..3]` of an array of four `i32`. -/
def oneToThree : Slicing where
  item := .prim .i32
  length := 4
  length_lt := by decide
  type := ⟨.i32, rfl⟩
  bounds := .both 1 3
  within := ⟨by decide, by decide, by decide⟩

/-- `a[1..3]` begins behind the array, 16 bytes from its first item. -/
theorem oneToThree_not_exact :
    let m : Memory Nat Nat := ⟨fun _ => ⟨0, 0⟩, fun _ => 4096, id⟩
    let base : PtrValue := .var 0 (.array (.int 32) 4)
    ((oneToThree.emitted base (some (.const ⟨32, 1⟩)) (some (.const ⟨32, 3⟩))).bind fun s =>
      s.start.eval (dataLayout plainSizeof) m) = some (4096 + 16) ∧
      ¬ oneToThree.Exact plainSizes := by
  intro m base
  have hemit : ((oneToThree.emitted base (some (.const ⟨32, 1⟩)) (some (.const ⟨32, 3⟩))).bind
      fun s => s.start.eval (dataLayout plainSizeof) m) = some (4096 + 16) := by decide
  refine ⟨hemit, ?_⟩
  intro h
  obtain ⟨r, s, hr, hs, -, hstart, -⟩ := h m 4096 base (some (.const ⟨32, 1⟩))
    (some (.const ⟨32, 3⟩)) rfl rfl ⟨trivial, rfl, rfl⟩ ⟨trivial, rfl, rfl⟩
  have he : oneToThree.emitted base (some (.const ⟨32, 1⟩)) (some (.const ⟨32, 3⟩)) = some s := by
    rw [Slicing.emitted]
    exact Option.bind_eq_some_iff.mpr ⟨r, hr, hs⟩
  rw [he, Option.bind_some] at hemit
  have hne := hemit.symm.trans hstart
  exact absurd hne (by decide)

end CaLang.Addresses
