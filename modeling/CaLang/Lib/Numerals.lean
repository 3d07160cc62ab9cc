import CaLang.Lib.CString
import Mathlib.Algebra.Order.Ring.Nat
import Mathlib.Tactic.Ring

/-! # Numerals in C strings

`strtoul` reads a minus sign, the `0x` of base 16, and digits as long as there are any. **What does
not fit in 64 bits reads as the largest word**, with a minus sign as without one; a number that fits
is negated modulo `2 ^ 64`. `sscanf` calls it for `%lu`, `%p` and `%o`, and stores nothing where
there is no digit.

A numeral is the text of its digits, read from the left.
-/

namespace CaLang

/-- The value of a digit or a letter; no base has the digit 36. -/
def digitValue (c : Byte) : Nat :=
  if '0'.toUInt8 ≤ c ∧ c ≤ '9'.toUInt8 then c.toNat - '0'.toNat
  else if 'a'.toUInt8 ≤ c ∧ c ≤ 'z'.toUInt8 then c.toNat - 'a'.toNat + 10
  else if 'A'.toUInt8 ≤ c ∧ c ≤ 'Z'.toUInt8 then c.toNat - 'A'.toNat + 10
  else 36

def isDigitOf (base : Nat) (c : Byte) : Bool := digitValue c < base

/-- Digits behind a number that is read. -/
def readDigits (base : Nat) (n : Nat) (ds : List Byte) : Nat :=
  ds.foldl (fun n c => n * base + digitValue c) n

/-- The number that digits denote. -/
def numeral (base : Nat) (ds : List Byte) : Nat := readDigits base 0 ds

/-- The word of a magnitude, as `strtoul` returns it. -/
def saturate (minus : Bool) (n : Nat) : BitVec 64 :=
  if 2 ^ 64 ≤ n then BitVec.allOnes 64
  else if minus then -BitVec.ofNat 64 n
  else BitVec.ofNat 64 n

/-- The digits at the head of a text; nothing is stored without a digit. -/
def scanDigits (base : Nat) (minus : Bool) (text : List Byte) : Option (BitVec 64) :=
  let ds := text.takeWhile (isDigitOf base)
  if ds = [] then none else some (saturate minus (numeral base ds))

/-- In base 16, `0x` may stand in front of the digits. -/
def skipHexPrefix (base : Nat) (text : List Byte) : List Byte :=
  if base = 16 ∧ ['0'.toUInt8, 'x'.toUInt8] <+: text then text.drop 2 else text

/-- `sscanf` of an `unsigned long` in the given base. -/
def scanUlong (base : Nat) (text : List Byte) : Option (BitVec 64) :=
  match text with
  | [] => none
  | c :: rest =>
      if c = '-'.toUInt8 then scanDigits base true (skipHexPrefix base rest)
      else scanDigits base false (skipHexPrefix base text)

variable {base n : Nat} {ds ds' : List Byte} {c : Byte}

@[simp] theorem readDigits_nil : readDigits base n [] = n := rfl

theorem readDigits_cons : readDigits base n (c :: ds) =
    readDigits base (n * base + digitValue c) ds := rfl

/-- **The digits behind a number make it no larger than the next one.** -/
theorem readDigits_bounds (hds : ∀ c ∈ ds, isDigitOf base c = true) : ∀ n,
    n * base ^ ds.length ≤ readDigits base n ds ∧
      readDigits base n ds < (n + 1) * base ^ ds.length := by
  induction ds with
  | nil => exact fun n => ⟨by simp, by simp⟩
  | cons c ds ih =>
      intro n
      have hc : digitValue c < base := of_decide_eq_true (hds c List.mem_cons_self)
      obtain ⟨hlo, hhi⟩ := ih (fun d hd => hds d (List.mem_cons_of_mem c hd))
        (n * base + digitValue c)
      rw [readDigits_cons, List.length_cons]
      constructor
      · calc n * base ^ (ds.length + 1) = n * base * base ^ ds.length := by ring
          _ ≤ (n * base + digitValue c) * base ^ ds.length :=
            Nat.mul_le_mul_right _ (Nat.le_add_right _ _)
          _ ≤ _ := hlo
      · calc readDigits base (n * base + digitValue c) ds
            < (n * base + digitValue c + 1) * base ^ ds.length := hhi
          _ ≤ ((n + 1) * base) * base ^ ds.length := by
            refine Nat.mul_le_mul_right _ ?_
            rw [Nat.add_mul, Nat.one_mul]
            omega
          _ = (n + 1) * base ^ (ds.length + 1) := by ring

theorem numeral_lt (hds : ∀ c ∈ ds, isDigitOf base c = true) :
    numeral base ds < base ^ ds.length := by
  have h := (readDigits_bounds hds 0).2
  rwa [Nat.zero_add, Nat.one_mul] at h

/-- A first digit that is not zero gives the size of the number. -/
theorem le_numeral_cons (hds : ∀ c ∈ ds, isDigitOf base c = true) (hc : 0 < digitValue c) :
    base ^ ds.length ≤ numeral base (c :: ds) := by
  have h := (readDigits_bounds hds (0 * base + digitValue c)).1
  rw [Nat.zero_mul, Nat.zero_add] at h
  rw [numeral, readDigits_cons, Nat.zero_mul, Nat.zero_add]
  exact (Nat.le_mul_of_pos_left _ hc).trans h

/-! ### Reading the digits of a text -/

theorem scanDigits_digits {minus : Bool} (hne : ds ≠ [])
    (hds : ∀ c ∈ ds, isDigitOf base c = true) :
    scanDigits base minus ds = some (saturate minus (numeral base ds)) := by
  unfold scanDigits
  rw [List.takeWhile_eq_self_iff.mpr hds, if_neg hne]

theorem skipHexPrefix_of_ne {text : List Byte} (h : base ≠ 16) : skipHexPrefix base text = text :=
  if_neg fun hb => h hb.1

theorem skipHexPrefix_cons {text : List Byte} :
    skipHexPrefix 16 ('0'.toUInt8 :: 'x'.toUInt8 :: text) = text := by
  rw [skipHexPrefix, if_pos ⟨rfl, text, rfl⟩]
  rfl

theorem scanUlong_minus {text : List Byte} :
    scanUlong base ('-'.toUInt8 :: text) = scanDigits base true (skipHexPrefix base text) := by
  rw [scanUlong, if_pos rfl]

theorem scanUlong_cons {rest : List Byte} (h : c ≠ '-'.toUInt8) :
    scanUlong base (c :: rest) = scanDigits base false (skipHexPrefix base (c :: rest)) := by
  rw [scanUlong, if_neg h]

/-- A minus sign is no digit. -/
theorem ne_minus_of_isDigitOf (hb : base ≤ 36) (h : isDigitOf base c = true) :
    c ≠ '-'.toUInt8 := by
  rintro rfl
  have hlt : digitValue '-'.toUInt8 < base := of_decide_eq_true h
  have hval : digitValue '-'.toUInt8 = 36 := by decide
  omega

theorem scanUlong_digits (hb : base < 16) (hne : ds ≠ [])
    (hds : ∀ c ∈ ds, isDigitOf base c = true) :
    scanUlong base ds = some (saturate false (numeral base ds)) := by
  obtain ⟨c, ds, rfl⟩ := List.exists_cons_of_ne_nil hne
  rw [scanUlong_cons (ne_minus_of_isDigitOf (by omega) (hds c List.mem_cons_self)),
    skipHexPrefix_of_ne (by omega), scanDigits_digits hne hds]

/-! ### Words -/

theorem saturate_of_lt (h : n < 2 ^ 64) : saturate false n = BitVec.ofNat 64 n := by
  rw [saturate, if_neg (by omega)]
  rfl

theorem toNat_saturate_of_lt (h : n < 2 ^ 64) : (saturate false n).toNat = n := by
  rw [saturate_of_lt h, BitVec.toNat_ofNat, Nat.mod_eq_of_lt h]

theorem toNat_saturate_of_le (h : 2 ^ 64 ≤ n) : (saturate false n).toNat = 2 ^ 64 - 1 := by
  rw [saturate, if_pos h, BitVec.toNat_allOnes]

theorem saturate_minus_of_lt (h : n < 2 ^ 64) : saturate true n = BitVec.ofInt 64 (-n) := by
  rw [saturate, if_neg (by omega), if_pos rfl, BitVec.ofInt_neg, BitVec.ofInt_natCast]

theorem toInt_ofInt_neg_of_le (h : n ≤ 2 ^ 63) : (BitVec.ofInt 64 (-n)).toInt = -n := by
  rw [BitVec.toInt_ofInt, Int.bmod_eq_of_le] <;> omega

theorem toInt_ofInt_neg_of_lt (h : 2 ^ 63 < n) (hlt : n < 2 ^ 64) :
    0 < (BitVec.ofInt 64 (-n)).toInt := by
  rw [BitVec.toInt_ofInt, Int.bmod_def]
  split <;> omega

/-- **A magnitude of at most `2 ^ 63` keeps its sign; a larger one reads as `-1` or more.** -/
theorem toInt_saturate_minus_of_lt (h : 2 ^ 63 < n) : -1 ≤ (saturate true n).toInt := by
  by_cases hlt : n < 2 ^ 64
  · have hpos := toInt_ofInt_neg_of_lt h hlt
    rw [saturate_minus_of_lt hlt]
    omega
  · rw [saturate, if_pos (by omega), BitVec.toInt_allOnes]
    decide

end CaLang
