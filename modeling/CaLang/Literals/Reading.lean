import CaLang.Literals.Integers

/-! # What is read of an integer literal

`literal_parse_integer` finds the radix of a text by its mark. **Decimal and hexadecimal texts
saturate at 64 bits, binary texts are counted, and an octal text fills one half of the word**
(`literalParseInteger_text`, and `literalParseInteger_minus` below a minus sign).
-/

namespace CaLang.Literals

open Arith

variable {l : IntText} {old : BitVec 64} {n : Nat} {text : List Byte} {r : Radix}

/-! ### The text is read by its radix -/

theorem startsLonger_cons {c : Byte} {mark : List Byte} :
    startsLonger (c :: mark) (c :: text) = startsLonger mark text := by
  simp [startsLonger]

/-- A letter that is no digit does not stand among the digits. -/
theorem not_startsLonger {a c : Byte} {mark : List Byte}
    (hc : isDigitOf l.radix.base c = false) : startsLonger (a :: c :: mark) l.digits = false := by
  rw [startsLonger, Bool.and_eq_false_iff]
  right
  rw [← Bool.not_eq_true, List.isPrefixOf_iff_prefix]
  rintro ⟨rest, hrest⟩
  have hmem : c ∈ l.digits := by simp [← hrest]
  rw [l.valid c hmem] at hc
  cases hc

theorem startsLonger_ne {a b c : Byte} {mark : List Byte} (h : a ≠ b) :
    startsLonger (c :: a :: mark) (c :: b :: text) = false := by
  simp [startsLonger, List.isPrefixOf, h]

theorem startsLonger_append {mark : List Byte} (h : text ≠ []) :
    startsLonger mark (mark ++ text) = true := by
  simp [startsLonger, List.length_pos_iff.mpr h]

/-- **A mark is found in front of its own digits only.** -/
theorem IntText.startsLonger_mark (hr : r ≠ .dec) :
    startsLonger r.mark l.text = decide (r = l.radix) := by
  cases hl : l.radix with
  | dec =>
      rw [IntText.text, hl]
      cases r with
      | dec => exact absurd rfl hr
      | hex => exact not_startsLonger (by rw [hl]; decide)
      | oct => exact not_startsLonger (by rw [hl]; decide)
      | bin => exact not_startsLonger (by rw [hl]; decide)
  | _ =>
      rw [IntText.text, hl]
      cases r <;>
        first
        | exact absurd rfl hr
        | exact startsLonger_append l.nonempty
        | exact startsLonger_ne (by decide)

theorem IntText.scanUlong_text (hr : l.radix = .dec ∨ l.radix = .hex) :
    scanUlong l.radix.base l.text = some (saturate false l.magnitude) := by
  have hv := l.valid
  rw [IntText.text, IntText.magnitude]
  rcases hr with hr | hr <;> rw [hr] at hv ⊢
  · exact scanUlong_digits (by decide) l.nonempty hv
  · calc scanUlong 16 (Radix.hex.mark ++ l.digits)
        = scanDigits 16 false (skipHexPrefix 16 (Radix.hex.mark ++ l.digits)) :=
          scanUlong_cons (by decide)
      _ = scanDigits 16 false l.digits := congrArg _ skipHexPrefix_cons
      _ = some (saturate false (numeral 16 l.digits)) := scanDigits_digits l.nonempty hv

theorem IntText.scanUlong_minus_text (hr : l.radix = .dec ∨ l.radix = .hex) :
    scanUlong l.radix.base ('-'.toUInt8 :: l.text) = some (saturate true l.magnitude) := by
  have hv := l.valid
  rw [IntText.text, IntText.magnitude, scanUlong_minus]
  rcases hr with hr | hr <;> rw [hr] at hv ⊢
  · exact (congrArg _ (skipHexPrefix_of_ne (by decide))).trans (scanDigits_digits l.nonempty hv)
  · exact (congrArg _ skipHexPrefix_cons).trans (scanDigits_digits l.nonempty hv)

/-! ### Binary and octal texts -/

theorem isDigitOf_two {c : Byte} (h : isDigitOf 2 c = true) :
    c = '0'.toUInt8 ∨ c = '1'.toUInt8 := by
  have hlt : digitValue c < 2 := of_decide_eq_true h
  have h0 : ('0'.toUInt8).toNat = 48 := rfl
  have h1 : ('1'.toUInt8).toNat = 49 := rfl
  have hc : c.toNat = 48 ∨ c.toNat = 49 := by
    unfold digitValue at hlt
    split at hlt
    · rename_i hdigit
      have hle : 48 ≤ c.toNat := UInt8.le_iff_toNat_le.mp hdigit.1
      have hchar : '0'.toNat = 48 := rfl
      omega
    · split at hlt
      · omega
      · split at hlt <;> omega
  rcases hc with hc | hc
  · exact .inl (UInt8.toNat_inj.mp (hc.trans h0.symm))
  · exact .inr (UInt8.toNat_inj.mp (hc.trans h1.symm))

/-- The accumulator is the number modulo `2 ^ 64`. -/
theorem foldl_binary {ds : List Byte} (hds : ∀ c ∈ ds, isDigitOf 2 c = true) : ∀ n,
    ds.foldl (fun (v : BitVec 64) c => (v <<< 1) + BitVec.ofInt 64 (c.toNat - '0'.toNat))
        (BitVec.ofNat 64 n) = BitVec.ofNat 64 (readDigits 2 n ds) := by
  induction ds with
  | nil => exact fun n => rfl
  | cons c ds ih =>
      intro n
      have hstep : (BitVec.ofNat 64 n <<< 1) + BitVec.ofInt 64 (c.toNat - '0'.toNat) =
          BitVec.ofNat 64 (n * 2 + digitValue c) := by
        have hdouble : BitVec.ofNat 64 n <<< 1 = BitVec.ofNat 64 (n * 2) := by
          apply BitVec.eq_of_toNat_eq
          rw [BitVec.toNat_shiftLeft, BitVec.toNat_ofNat, BitVec.toNat_ofNat, Nat.shiftLeft_eq]
          omega
        rw [hdouble, BitVec.ofNat_add]
        rcases isDigitOf_two (hds c List.mem_cons_self) with rfl | rfl <;> rfl
      rw [List.foldl_cons, hstep, ih (fun d hd => hds d (List.mem_cons_of_mem c hd)),
        readDigits_cons]

/-- Zeros in front do not count. -/
theorem numeral_dropWhile {ds : List Byte} (hds : ∀ c ∈ ds, isDigitOf 2 c = true) :
    numeral 2 (ds.dropWhile (· != '1'.toUInt8)) = numeral 2 ds := by
  induction ds with
  | nil => rfl
  | cons c ds ih =>
      rcases isDigitOf_two (hds c List.mem_cons_self) with rfl | rfl
      · exact ih fun d hd => hds d (List.mem_cons_of_mem _ hd)
      · rfl

/-- **Binary texts are exact up to 64 digits and rejected behind.** -/
theorem parseBinaryNumber_digits {ds : List Byte} (hds : ∀ c ∈ ds, isDigitOf 2 c = true) :
    parseBinaryNumber ds =
      if numeral 2 ds < 2 ^ 64 then some (BitVec.ofNat 64 (numeral 2 ds)) else none := by
  have hdrop : ∀ c ∈ ds.dropWhile (· != '1'.toUInt8), isDigitOf 2 c = true :=
    fun c hc => hds c ((List.dropWhile_sublist _).subset hc)
  have hfold := foldl_binary hdrop 0
  have hiff : numeral 2 ds < 2 ^ 64 ↔ ¬ 64 < (ds.dropWhile (· != '1'.toUInt8)).length := by
    rw [← numeral_dropWhile hds]
    cases hd : ds.dropWhile (· != '1'.toUInt8) with
    | nil => exact iff_of_true (by decide) (by simp)
    | cons c rest =>
        rw [hd] at hdrop
        have hone : c = '1'.toUInt8 := by
          have hhead := List.head_dropWhile_not (· != '1'.toUInt8) (l := ds) (by simp [hd])
          simpa [hd] using hhead
        have hlo := le_numeral_cons (c := c)
          (fun d hr => hdrop d (List.mem_cons_of_mem c hr)) (by rw [hone]; decide)
        have hhi := numeral_lt hdrop
        rw [List.length_cons] at hhi ⊢
        constructor
        · intro hlt hlen
          have hpow := Nat.pow_le_pow_right (show 0 < 2 by decide)
            (show 64 ≤ rest.length by omega)
          omega
        · intro hlen
          have hpow := Nat.pow_le_pow_right (show 0 < 2 by decide)
            (show rest.length + 1 ≤ 64 by omega)
          omega
  unfold parseBinaryNumber
  by_cases hlt : numeral 2 ds < 2 ^ 64
  · rw [if_pos hlt]
    simp only [if_neg (hiff.mp hlt)]
    rw [← numeral_dropWhile hds]
    exact congrArg some hfold
  · rw [if_neg hlt]
    simp only [if_pos (not_not.mp (mt hiff.mpr hlt))]

/-- The upper half that was there before, above the lower half of the number. -/
def octalWord (old : BitVec 64) (n : Nat) : Nat :=
  old.toNat / 2 ^ 32 * 2 ^ 32 + if n < 2 ^ 64 then n % 2 ^ 32 else 2 ^ 32 - 1

theorem octalWord_lt : octalWord old n < 2 ^ 64 := by
  have h := old.isLt
  unfold octalWord
  split <;> omega

theorem scanOctal_digits {ds : List Byte} (hne : ds ≠ []) (hds : ∀ c ∈ ds, isDigitOf 8 c = true) :
    scanOctal ds old = BitVec.ofNat 64 (octalWord old (numeral 8 ds)) := by
  have hold := old.isLt
  have hlow : (saturate false (numeral 8 ds)).toNat % 2 ^ 32 =
      if numeral 8 ds < 2 ^ 64 then numeral 8 ds % 2 ^ 32 else 2 ^ 32 - 1 := by
    split
    · rename_i hlt
      rw [toNat_saturate_of_lt hlt]
    · rename_i hle
      rw [toNat_saturate_of_le (by omega)]
      rfl
  have hlt : (saturate false (numeral 8 ds)).toNat % 2 ^ 32 < 2 ^ 32 := Nat.mod_lt _ (by decide)
  apply BitVec.eq_of_toNat_eq
  rw [scanOctal, scanUlong_digits (by decide) hne hds, BitVec.toNat_ofNat,
    Nat.mod_eq_of_lt octalWord_lt, octalWord, ← hlow]
  simp only [BitVec.toNat_append, BitVec.extractLsb'_toNat, BitVec.toNat_setWidth]
  rw [← Nat.shiftLeft_add_eq_or_of_lt hlt, Nat.shiftLeft_eq, Nat.shiftRight_eq_div_pow]
  congr 2
  exact Nat.mod_eq_of_lt (by omega)

/-! ### The word -/

theorem IntText.digits_valid (hr : l.radix = r) : ∀ c ∈ l.digits, isDigitOf r.base c = true := by
  subst hr
  exact l.valid

theorem IntText.magnitude_eq (hr : l.radix = r) : numeral r.base l.digits = l.magnitude := by
  subst hr
  rfl

theorem IntText.parseBinaryNumber_digits (hr : l.radix = .bin) :
    parseBinaryNumber l.digits =
      if l.magnitude < 2 ^ 64 then some (BitVec.ofNat 64 l.magnitude) else none := by
  rw [← l.magnitude_eq hr]
  exact Literals.parseBinaryNumber_digits (l.digits_valid hr)

theorem IntText.scanOctal_digits (hr : l.radix = .oct) :
    scanOctal l.digits old = BitVec.ofNat 64 (octalWord old l.magnitude) := by
  rw [← l.magnitude_eq hr]
  exact Literals.scanOctal_digits l.nonempty (l.digits_valid hr)

/-- The word of a number whose sign is read apart. -/
def signed (minus : Bool) (n : Nat) : BitVec 64 :=
  if minus then -BitVec.ofNat 64 n else BitVec.ofNat 64 n

theorem toNat_signed (h : n < 2 ^ 64) : (signed false n).toNat = n := by
  rw [signed, if_neg Bool.false_ne_true, BitVec.toNat_ofNat, Nat.mod_eq_of_lt h]

/-- The word that is read, if the compiler goes on. -/
def IntText.word (l : IntText) (minus : Bool) (old : BitVec 64) : Option (BitVec 64) :=
  match l.radix with
  | .dec | .hex => some (saturate minus l.magnitude)
  | .oct => some (signed minus (octalWord old l.magnitude))
  | .bin => if l.magnitude < 2 ^ 64 then some (signed minus l.magnitude) else none

/-- `literal_parse_integer` chooses the branch of the radix. -/
theorem IntText.literalParseInteger_text :
    literalParseInteger l.text .u64 old = l.word false old := by
  have hmark : ∀ r, r ≠ Radix.dec → startsLonger ([] ++ r.mark) l.text = decide (r = l.radix) :=
    fun r hr => l.startsLonger_mark hr
  simp only [literalParseInteger, reduceCtorEq, if_false, hmark _ (show Radix.hex ≠ .dec by decide),
    hmark _ (show Radix.oct ≠ .dec by decide), hmark _ (show Radix.bin ≠ .dec by decide)]
  have hscan := l.scanUlong_text
  unfold IntText.word
  cases hr : l.radix with
  | dec =>
      rw [hr] at hscan
      simp [show scanUlong 10 l.text = _ from hscan (.inl rfl)]
  | hex =>
      rw [hr] at hscan
      simp [show scanUlong 16 l.text = _ from hscan (.inr rfl)]
  | oct => simp [IntText.text, hr, l.scanOctal_digits hr, signed]
  | bin => simp [IntText.text, hr, l.parseBinaryNumber_digits hr, signed]

theorem IntText.literalParseInteger_minus :
    literalParseInteger ('-'.toUInt8 :: l.text) .i64 old = l.word true old := by
  have hmark : ∀ r, r ≠ Radix.dec → startsLonger (['-'.toUInt8] ++ r.mark) ('-'.toUInt8 :: l.text) =
      decide (r = l.radix) :=
    fun r hr => startsLonger_cons.trans (l.startsLonger_mark hr)
  simp only [literalParseInteger, if_true, hmark _ (show Radix.hex ≠ .dec by decide),
    hmark _ (show Radix.oct ≠ .dec by decide), hmark _ (show Radix.bin ≠ .dec by decide)]
  have hscan := l.scanUlong_minus_text
  unfold IntText.word
  cases hr : l.radix with
  | dec =>
      rw [hr] at hscan
      simp [show scanUlong 10 ('-'.toUInt8 :: l.text) = _ from hscan (.inl rfl)]
  | hex =>
      rw [hr] at hscan
      simp [show scanUlong 16 ('-'.toUInt8 :: l.text) = _ from hscan (.inr rfl)]
  | oct => simp [IntText.text, hr, l.scanOctal_digits hr, signed]
  | bin => simp [IntText.text, hr, l.parseBinaryNumber_digits hr, signed]

end CaLang.Literals
