import Mathlib.Data.Nat.Init
import Mathlib.Order.Nat
import Mathlib.Algebra.Order.Ring.Nat

/-! # Words as integers

A word reads as an integer in two ways, by the signedness of its type, and an integer is stored in
a word modulo `2 ^ w`.  **An operation on words is the operation on the integers they read as,
stored back.**  Addition, subtraction, multiplication and the bit operations do not depend on the
reading, the others have one operation on words for each.
-/

namespace CaLang

variable {w : Nat}

/-- The integer that a word reads as. -/
def wordValue (signed : Bool) (x : BitVec w) : Int :=
  if signed then x.toInt else x.toNat

/-- The integer that is left of `v` when it is stored in a word. -/
def wrap (signed : Bool) (w : Nat) (v : Int) : Int := wordValue signed (BitVec.ofInt w v)

variable {s : Bool} {x y : BitVec w}

@[simp] theorem ofInt_wordValue (s : Bool) (x : BitVec w) :
    BitVec.ofInt w (wordValue s x) = x := by
  cases s <;> simp [wordValue]

theorem wordValue_inj (h : wordValue s x = wordValue s y) : x = y := by
  rw [← ofInt_wordValue s x, h, ofInt_wordValue]

theorem ofInt_wrap (s : Bool) (w : Nat) (v : Int) :
    BitVec.ofInt w (wrap s w v) = BitVec.ofInt w v := ofInt_wordValue s _

theorem wrap_wordValue : wrap s w (wordValue s x) = wordValue s x := by
  rw [wrap, ofInt_wordValue]

/-! ### The range of a reading -/

/-- The integers of a reading lie below this one. -/
def wordBound (signed : Bool) (w : Nat) : Int := if signed then 2 ^ (w - 1) else 2 ^ w

theorem wordValue_lt_wordBound : wordValue s x < wordBound s w := by
  cases s with
  | true =>
      rw [wordValue, wordBound, if_pos rfl, if_pos rfl]
      exact BitVec.toInt_lt
  | false =>
      rw [wordValue, wordBound, if_neg Bool.false_ne_true, if_neg Bool.false_ne_true]
      exact_mod_cast x.isLt

theorem neg_wordBound_le_wordValue : -wordBound s w ≤ wordValue s x := by
  cases s with
  | true =>
      rw [wordValue, wordBound, if_pos rfl, if_pos rfl]
      exact BitVec.le_toInt x
  | false =>
      rw [wordValue, wordBound, if_neg Bool.false_ne_true, if_neg Bool.false_ne_true]
      have : (0 : Int) ≤ 2 ^ w := by exact_mod_cast Nat.zero_le _
      omega

/-- A number between the value of a word and the bound is the value of its own word. -/
theorem wordValue_ofInt_of_le {v : Int} (h0 : wordValue s x ≤ v) (h : v < wordBound s w) :
    wordValue s (BitVec.ofInt w v) = v := by
  cases s with
  | true =>
      have hx := BitVec.le_toInt x
      rw [wordValue, if_pos rfl] at h0
      rw [wordBound, if_pos rfl] at h
      rw [wordValue, if_pos rfl, BitVec.toInt_ofInt]
      cases w with
      | zero =>
          have h0' : 0 ≤ v := by
            rw [BitVec.eq_nil x] at h0
            exact h0
          rw [Nat.zero_sub, Int.pow_zero] at h
          rw [Int.le_antisymm (Int.le_of_lt_add_one h) h0']
          rfl
      | succ w =>
          rw [Nat.add_sub_cancel] at h hx
          have hpow : ((2 ^ (w + 1) : Nat) : Int) = 2 * 2 ^ w := by
            rw [Nat.pow_succ, Nat.mul_comm]
            norm_cast
          refine Int.bmod_eq_of_le ?_ ?_ <;> omega
  | false =>
      rw [wordValue, if_neg Bool.false_ne_true] at h0
      rw [wordBound, if_neg Bool.false_ne_true] at h
      have h0' : 0 ≤ v := Int.le_trans (Int.natCast_nonneg _) h0
      rw [wordValue, if_neg Bool.false_ne_true, BitVec.toNat_ofInt]
      have hpow : ((2 ^ w : Nat) : Int) = 2 ^ w := by norm_cast
      have hmod : v % ((2 ^ w : Nat) : Int) = v := Int.emod_eq_of_lt h0' (by omega)
      rw [hmod, Int.toNat_of_nonneg h0']

theorem wordValue_zero : wordValue s (0 : BitVec w) = 0 := by
  cases s <;> simp [wordValue]

/-- A number below the bound is the value of its own word. -/
theorem wordValue_ofInt_of_lt {v : Int} (h0 : 0 ≤ v) (h : v < wordBound s w) :
    wordValue s (BitVec.ofInt w v) = v :=
  wordValue_ofInt_of_le (x := 0) (by rwa [wordValue_zero]) h

/-! ### One operation for both readings -/

theorem ofInt_add_wordValue :
    BitVec.ofInt w (wordValue s x + wordValue s y) = x + y := by
  rw [BitVec.ofInt_add, ofInt_wordValue, ofInt_wordValue]

theorem ofInt_sub_wordValue :
    BitVec.ofInt w (wordValue s x - wordValue s y) = x - y := by
  rw [Int.sub_eq_add_neg, BitVec.ofInt_add, BitVec.ofInt_neg, ofInt_wordValue, ofInt_wordValue,
    BitVec.sub_eq_add_neg]

theorem ofInt_mul_wordValue :
    BitVec.ofInt w (wordValue s x * wordValue s y) = x * y := by
  rw [BitVec.ofInt_mul, ofInt_wordValue, ofInt_wordValue]

theorem ofInt_neg_wordValue : BitVec.ofInt w (-wordValue s x) = 0 - x := by
  rw [BitVec.ofInt_neg, ofInt_wordValue]
  exact (BitVec.zero_sub x).symm

theorem ofInt_not_wordValue : BitVec.ofInt w (-wordValue s x - 1) = x ^^^ BitVec.allOnes w := by
  rw [BitVec.xor_allOnes, BitVec.not_eq_neg_add, Int.sub_eq_add_neg, BitVec.ofInt_add,
    BitVec.ofInt_neg, ofInt_wordValue, BitVec.ofInt_neg, BitVec.sub_eq_add_neg]
  rfl

theorem ofInt_shl {n : Nat} : BitVec.ofInt w (wordValue s x * 2 ^ n) = x <<< n := by
  have hpow : ((2 : Int) ^ n) = ((2 ^ n : Nat) : Int) := by push_cast; rfl
  rw [BitVec.ofInt_mul, ofInt_wordValue, BitVec.shiftLeft_eq_mul_twoPow, hpow, BitVec.ofInt_natCast]
  congr 1
  apply BitVec.eq_of_toNat_eq
  rw [BitVec.toNat_ofNat, BitVec.toNat_twoPow]

theorem toInt_shr {n : Nat} : (x.sshiftRight n).toInt = x.toInt / 2 ^ n := by
  rw [BitVec.toInt_sshiftRight, Int.shiftRight_eq_div_pow]
  push_cast
  rfl

theorem toNat_shr {n : Nat} : ((x >>> n).toNat : Int) = (x.toNat : Int) / 2 ^ n := by
  rw [BitVec.toNat_ushiftRight, Nat.shiftRight_eq_div_pow]
  push_cast
  rfl

theorem ofInt_shr_signed {n : Nat} : BitVec.ofInt w (x.toInt / 2 ^ n) = x.sshiftRight n := by
  rw [← toInt_shr, BitVec.ofInt_toInt]

theorem ofInt_shr_unsigned {n : Nat} : BitVec.ofInt w ((x.toNat : Int) / 2 ^ n) = x >>> n := by
  rw [← toNat_shr]
  exact ofInt_wordValue false _

theorem ofInt_zext {v : Nat} : BitVec.ofInt v (x.toNat : Int) = x.setWidth v := by
  rw [BitVec.ofInt_natCast, BitVec.ofNat_toNat]

theorem ofInt_trunc {v : Nat} (h : v ≤ w) : BitVec.ofInt v (wordValue s x) = x.setWidth v := by
  cases s with
  | false => exact ofInt_zext
  | true =>
      rw [← BitVec.ofInt_toInt (x := x.setWidth v), ← BitVec.signExtend_eq_setWidth_of_le x h,
        BitVec.toInt_signExtend_eq_toInt_bmod_of_le x h]
      apply BitVec.eq_of_toInt_eq
      rw [BitVec.toInt_ofInt, BitVec.toInt_ofInt, Int.bmod_bmod]
      rfl

theorem ofInt_sext {v : Nat} (h : w ≤ v) : BitVec.ofInt v x.toInt = x.signExtend v := by
  rw [← BitVec.toInt_signExtend_of_le h, BitVec.ofInt_toInt]

theorem wordValue_lt : wordValue s x < wordValue s y ↔ (if s then x.slt y else x.ult y) = true := by
  cases s with
  | false => simp [wordValue, BitVec.ult_iff_toNat_lt]
  | true => simp [wordValue, BitVec.slt_iff_toInt_lt]

/-! ### Quotients and remainders -/

theorem ofInt_tdiv_signed : BitVec.ofInt w (x.toInt.tdiv y.toInt) = x.sdiv y := by
  apply BitVec.eq_of_toInt_eq
  rw [BitVec.toInt_ofInt, BitVec.toInt_sdiv]

theorem ofInt_tmod_signed : BitVec.ofInt w (x.toInt.tmod y.toInt) = x.srem y := by
  rw [← BitVec.toInt_srem, BitVec.ofInt_toInt]

theorem toNat_tdiv : ((x / y).toNat : Int) = (x.toNat : Int).tdiv y.toNat := by
  rw [← Int.ofNat_tdiv, BitVec.toNat_udiv]

theorem toNat_tmod : ((x % y).toNat : Int) = (x.toNat : Int).tmod y.toNat := by
  rw [← Int.ofNat_tmod, BitVec.toNat_umod]

theorem ofInt_tdiv_unsigned : BitVec.ofInt w ((x.toNat : Int).tdiv y.toNat) = x / y := by
  rw [← toNat_tdiv]
  exact ofInt_wordValue false _

theorem ofInt_tmod_unsigned : BitVec.ofInt w ((x.toNat : Int).tmod y.toNat) = x % y := by
  rw [← toNat_tmod]
  exact ofInt_wordValue false _

/-- The one pair of operands whose signed quotient is no word of their width. -/
def Overflows (x y : BitVec w) : Prop := x = BitVec.intMin w ∧ y = BitVec.allOnes w

instance : Decidable (Overflows x y) := by unfold Overflows; infer_instance

theorem not_overflows (hw : 0 < w)
    (h : wrap true w (x.toInt.tdiv y.toInt) = x.toInt.tdiv y.toInt) : ¬Overflows x y := by
  rintro ⟨rfl, rfl⟩
  have hquot : (BitVec.intMin w).toInt.tdiv (BitVec.allOnes w).toInt = 2 ^ (w - 1) := by
    rw [BitVec.toInt_intMin_of_pos hw, BitVec.toInt_allOnes, if_pos hw]
    simp
  have hlt := BitVec.toInt_lt (x := BitVec.ofInt w (2 ^ (w - 1)))
  rw [hquot] at h
  exact absurd h hlt.ne

/-! ### Signed division of unsigned words -/

/-- The signed quotient of the words `a` and `b` is their unsigned one. -/
def DivAgrees (w a b : Nat) : Prop :=
  2 * a < 2 ^ w ∧ a + b < 2 ^ w ∨ 1 < w ∧ (b = 1 ∨ a = b)

/-- The signed remainder of the words `a` and `b` is their unsigned one. -/
def RemAgrees (w a b : Nat) : Prop :=
  2 * a < 2 ^ w ∧ a + b < 2 ^ w ∨ 1 < w ∧ (a = b ∨ 2 * b < 2 ^ w ∧ b ∣ a ∧ b ∣ 2 ^ w)

instance (w a b : Nat) : Decidable (DivAgrees w a b) := by unfold DivAgrees; infer_instance

instance (w a b : Nat) : Decidable (RemAgrees w a b) := by unfold RemAgrees; infer_instance

section
variable {M a b : Nat}

theorem neg_mod_eq_zero {q : Nat} (hq : q < M) : (M - q) % M = if q = 0 then 0 else M - q := by
  split
  · rename_i h
    rw [h, Nat.sub_zero, Nat.mod_self]
  · exact Nat.mod_eq_of_lt (by omega)

theorem neg_div_neg_right (ha : 2 * a < M) (hb : M ≤ 2 * b) (hbM : b < M) :
    (M - a / (M - b)) % M = a / b ↔ a + b < M := by
  have hlt : a / (M - b) < M := (Nat.div_le_self _ _).trans_lt (by omega)
  rw [neg_mod_eq_zero hlt, Nat.div_eq_of_lt (show a < b by omega)]
  rcases Nat.lt_or_ge a (M - b) with h | h
  · rw [Nat.div_eq_of_lt h]
    simp only [if_true, true_iff]
    omega
  · have hpos : 0 < a / (M - b) := Nat.div_pos h (by omega)
    rw [if_neg (by omega)]
    constructor <;> intro <;> omega

theorem neg_div_neg_left (ha : M ≤ 2 * a) (haM : a < M) (hb : 2 * b < M) (hb0 : 0 < b) :
    (M - (M - a) / b) % M = a / b ↔ b = 1 := by
  have hlt : (M - a) / b < M := (Nat.div_le_self _ _).trans_lt (by omega)
  rw [neg_mod_eq_zero hlt]
  constructor
  · intro h
    by_contra hb1
    have hp : 0 < a / b := Nat.div_pos (by omega) hb0
    have hq : (M - a) / b ≤ (M - a) / 2 := Nat.div_le_div_left (by omega) (by omega)
    have hp' : a / b ≤ a / 2 := Nat.div_le_div_left (by omega) (by omega)
    split at h <;> omega
  · rintro rfl
    rw [Nat.div_one, Nat.div_one]
    split <;> omega

theorem neg_div_neg_both (ha : M ≤ 2 * a) (haM : a < M) (hb : M ≤ 2 * b) (hbM : b < M) :
    (M - a) / (M - b) = a / b ↔ a = b := by
  constructor
  · intro h
    rcases Nat.lt_trichotomy a b with hab | hab | hab
    · have hp : 0 < (M - a) / (M - b) := Nat.div_pos (by omega) (by omega)
      rw [h, Nat.div_eq_of_lt hab] at hp
      omega
    · exact hab
    · have hp : 0 < a / b := Nat.div_pos hab.le (by omega)
      rw [← h, Nat.div_eq_of_lt (by omega)] at hp
      omega
  · rintro rfl
    rw [Nat.div_self (by omega), Nat.div_self (by omega)]

theorem neg_rem_neg_right (ha : 2 * a < M) (hb : M ≤ 2 * b) (hbM : b < M) :
    a % (M - b) = a % b ↔ a + b < M := by
  rw [Nat.mod_eq_of_lt (show a < b by omega)]
  constructor
  · intro h
    have hlt := Nat.mod_lt a (show M - b > 0 by omega)
    omega
  · intro h
    exact Nat.mod_eq_of_lt (by omega)

theorem neg_rem_neg_left (ha : M ≤ 2 * a) (haM : a < M) (hb : 2 * b < M) (hb0 : 0 < b) :
    (M - (M - a) % b) % M = a % b ↔ b ∣ a ∧ b ∣ M := by
  have hlt := Nat.mod_lt (M - a) hb0
  have hlt' := Nat.mod_lt a hb0
  rw [neg_mod_eq_zero (by omega)]
  have hdvd : b ∣ a ∧ b ∣ M ↔ b ∣ M - a ∧ b ∣ a := by
    constructor
    · rintro ⟨h, h'⟩
      exact ⟨Nat.dvd_sub h' h, h⟩
    · rintro ⟨h, h'⟩
      refine ⟨h', ?_⟩
      have hadd := Nat.dvd_add h h'
      rwa [Nat.sub_add_cancel haM.le] at hadd
  rw [hdvd, Nat.dvd_iff_mod_eq_zero, Nat.dvd_iff_mod_eq_zero]
  split <;> constructor <;> intro <;> omega

theorem neg_rem_neg_both (ha : M ≤ 2 * a) (haM : a < M) (hb : M ≤ 2 * b) (hbM : b < M)
    (hb0 : 0 < b) : (M - (M - a) % (M - b)) % M = a % b ↔ a = b := by
  have hlt := Nat.mod_lt (M - a) (show M - b > 0 by omega)
  rw [neg_mod_eq_zero (by omega)]
  constructor
  · intro h
    rcases Nat.lt_trichotomy a b with hab | hab | hab
    · rw [Nat.mod_eq_of_lt hab] at h
      split at h <;> omega
    · exact hab
    · have hmod : a % b = a - b := by
        rw [Nat.mod_eq_sub_mod hab.le, Nat.mod_eq_of_lt (by omega)]
      rw [hmod, Nat.mod_eq_of_lt (show M - a < M - b by omega)] at h
      split at h <;> omega
  · rintro rfl
    rw [Nat.mod_self, Nat.mod_self, if_pos rfl]
end

theorem toNat_neg_of_ne_zero (hy : y ≠ 0) : (-y).toNat = 2 ^ w - y.toNat := by
  have h0 : y.toNat ≠ 0 := fun h => hy (BitVec.eq_of_toNat_eq (by rw [h]; rfl))
  rw [BitVec.toNat_neg]
  exact Nat.mod_eq_of_lt (by have := y.isLt; omega)

theorem overflows_iff (hw : 0 < w) :
    Overflows x y ↔ 2 * x.toNat = 2 ^ w ∧ y.toNat + 1 = 2 ^ w := by
  obtain ⟨n, rfl⟩ : ∃ n, w = n + 1 := ⟨w - 1, by omega⟩
  have hpos : 0 < 2 ^ n := Nat.two_pow_pos n
  have hpow : 2 ^ (n + 1) = 2 * 2 ^ n := by rw [Nat.pow_succ, Nat.mul_comm]
  unfold Overflows
  rw [← BitVec.toNat_inj, ← BitVec.toNat_inj, BitVec.toNat_intMin_of_pos (by omega),
    BitVec.toNat_allOnes, Nat.add_sub_cancel]
  omega

theorem width_cases (hw : 0 < w) : 1 < w ∧ 2 < 2 ^ w ∨ w = 1 ∧ 2 ^ w = 2 := by
  rcases Nat.lt_or_ge 1 w with h | h
  · exact Or.inl ⟨h, Nat.pow_lt_pow_right Nat.one_lt_two h⟩
  · obtain rfl : w = 1 := by omega
    exact Or.inr ⟨rfl, rfl⟩

theorem one_lt_of_low {b : Nat} (hb0 : 0 < b) (hb : 2 * b < 2 ^ w) : 1 < w := by
  rcases w with _ | _ | w <;> omega

theorem toNat_pos_of_ne_zero (hy : y ≠ 0) : 0 < y.toNat :=
  Nat.pos_of_ne_zero fun h => hy (BitVec.eq_of_toNat_eq (by rw [h]; rfl))

theorem ne_zero_of_top (hx : 2 ^ w ≤ 2 * x.toNat) : x ≠ 0 := by
  rintro rfl
  have hpos := Nat.two_pow_pos w
  have hzero : (0 : BitVec w).toNat = 0 := rfl
  omega

theorem sdiv_eq_udiv_iff (hw : 0 < w) (hy : y ≠ 0) :
    ¬Overflows x y ∧ x.sdiv y = x / y ↔ DivAgrees w x.toNat y.toNat := by
  have h0 := toNat_pos_of_ne_zero hy
  have hx := x.isLt
  have hyM := y.isLt
  have hpow := width_cases hw
  rw [overflows_iff hw, ← BitVec.toNat_inj, BitVec.sdiv_eq, DivAgrees]
  cases hxm : x.msb <;> cases hym : y.msb <;>
    simp only [BitVec.msb_eq_true_iff_two_mul_ge, BitVec.msb_eq_false_iff_two_mul_lt] at hxm hym <;>
    simp only [BitVec.udiv_eq, BitVec.toNat_udiv, BitVec.toNat_neg (x := _ / _)]
  · simp only [and_true]
    omega
  · rw [toNat_neg_of_ne_zero hy, neg_div_neg_right hxm hym hyM]
    omega
  · have hw1 := one_lt_of_low h0 hym
    rw [toNat_neg_of_ne_zero (ne_zero_of_top hxm), neg_div_neg_left hxm hx hym h0]
    omega
  · rw [toNat_neg_of_ne_zero hy, toNat_neg_of_ne_zero (ne_zero_of_top hxm),
      neg_div_neg_both hxm hx hym hyM]
    omega

theorem srem_eq_urem_iff (hw : 0 < w) (hy : y ≠ 0) :
    ¬Overflows x y ∧ x.srem y = x % y ↔ RemAgrees w x.toNat y.toNat := by
  have h0 := toNat_pos_of_ne_zero hy
  have hx := x.isLt
  have hyM := y.isLt
  have hpow := width_cases hw
  rw [overflows_iff hw, ← BitVec.toNat_inj, BitVec.srem_eq, RemAgrees]
  cases hxm : x.msb <;> cases hym : y.msb <;>
    simp only [BitVec.msb_eq_true_iff_two_mul_ge, BitVec.msb_eq_false_iff_two_mul_lt] at hxm hym <;>
    simp only [BitVec.toNat_umod, BitVec.toNat_neg (x := _ % _)]
  · simp only [and_true]
    omega
  · rw [toNat_neg_of_ne_zero hy, neg_rem_neg_right hxm hym hyM]
    omega
  · have hw1 := one_lt_of_low h0 hym
    rw [toNat_neg_of_ne_zero (ne_zero_of_top hxm), neg_rem_neg_left hxm hx hym h0]
    omega
  · rw [toNat_neg_of_ne_zero hy, toNat_neg_of_ne_zero (ne_zero_of_top hxm),
      neg_rem_neg_both hxm hx hym hyM h0]
    omega

end CaLang
