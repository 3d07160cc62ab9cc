import CaLang.Literals.Reading

/-! # When integer literals are exact

**The checks of the scope compare the word that was read with one end of the type only.** So they do
not see that a magnitude was saturated, that one behind `2 ^ 63` lost its minus sign, or that an
octal text filled one half of the word.
-/

namespace CaLang.Literals

open Arith

variable {l : IntLit} {t : Ty} {old w : BitVec 64} {n : Nat} {text : List Byte}

/-! ### The check of the scope -/

theorem checkU64ValueScope_iff (ht : t ≠ .bool) :
    checkU64ValueScope w t = true ↔ (w.toNat : Int) ≤ maxOf t := by
  have hw := w.isLt
  cases t <;> first
    | exact absurd rfl ht
    | simp [checkU64ValueScope, maxOf, catypeIsSigned, Ty.width]; try omega

theorem checkI64ValueScope_iff (ht : literalTypeConvertable .i64 t = true) :
    checkI64ValueScope w t = true ↔ minOf t ≤ w.toInt := by
  have hw := w.le_toInt
  cases t <;> first
    | exact absurd ht (by decide)
    | simp [checkI64ValueScope, minOf, catypeIsSigned, Ty.width]; try omega

/-- However a literal comes to its type, it is converted and checked once. -/
theorem Fixing.apply_eq {tok : LitTok} (fixing : Fixing t) (zero : Bool) (htok : tok ≠ .i8)
    (hinfer : tok.intentdeftype = (.i32, .i32)) (ht : literalTypeConvertable tok t = true) :
    ∃ lit : CALiteral, lit.littypetok = tok ∧ lit.i64value = w ∧
      fixing.apply (createLiteral tok · zero w) =
        if lit.inScope t then some { lit with datatype := some t } else none := by
  have hdet : ∀ post, determinePrimitiveLiteralType (createLiteral tok post zero w) t =
      if (createLiteral tok post zero w).inScope t then
        some { createLiteral tok post zero w with datatype := some t } else none := by
    intro post
    have hconv : literalTypeConvertable (createLiteral tok post zero w).littypetok t = true := ht
    rw [determinePrimitiveLiteralType, hconv, Bool.or_true, Bool.true_and]
  cases fixing with
  | determine postfixed =>
      cases postfixed with
      | false =>
          refine ⟨createLiteral tok none zero w, rfl, rfl, ?_⟩
          rw [← hdet none]
          simp [Fixing.apply, CALiteral.determine, createLiteral, htok]
      | true =>
          refine ⟨createLiteral tok (some t) zero w, rfl, rfl, ?_⟩
          rw [← hdet (some t)]
          simp [Fixing.apply, CALiteral.determine, createLiteral, htok]
  | inferPostfix =>
      refine ⟨createLiteral tok (some t) zero w, rfl, rfl, ?_⟩
      rw [← hdet (some t)]
      simp [Fixing.apply, CALiteral.inference, createLiteral, htok, Function.comp_def]
  | infer =>
      refine ⟨createLiteral tok none zero w, rfl, rfl, ?_⟩
      simp [Fixing.apply, CALiteral.inference, createLiteral, htok, inferencePrimitiveLiteralType,
        hinfer]

theorem fixText_u64 (fixing : Fixing t) (ht : literalTypeConvertable .u64 t = true) :
    fixText fixing text .u64 old =
      match literalParseInteger text .u64 old with
      | none => .rejected
      | some w => if (w.toNat : Int) ≤ maxOf t then .word w else .rejected := by
  have hbool : t ≠ .bool := by
    rintro rfl
    cases ht
  unfold fixText
  cases literalParseInteger text .u64 old with
  | none => rfl
  | some w =>
      obtain ⟨lit, htok, hw, heq⟩ :=
        fixing.apply_eq (w := w) (text = ['0'.toUInt8]) (by decide) rfl ht
      have hscope : lit.inScope t = true ↔ (w.toNat : Int) ≤ maxOf t := by
        rw [CALiteral.inScope, htok, hw]
        exact checkU64ValueScope_iff hbool
      simp only [heq]
      by_cases hs : (w.toNat : Int) ≤ maxOf t
      · rw [if_pos (hscope.mpr hs), if_pos hs, ← hw]
      · rw [if_neg (mt hscope.mp hs), if_neg hs]

theorem fixText_i64 (fixing : Fixing t) (ht : literalTypeConvertable .i64 t = true) :
    fixText fixing text .i64 old =
      match literalParseInteger text .i64 old with
      | none => .rejected
      | some w => if minOf t ≤ w.toInt then .word w else .rejected := by
  unfold fixText
  cases literalParseInteger text .i64 old with
  | none => rfl
  | some w =>
      obtain ⟨lit, htok, hw, heq⟩ :=
        fixing.apply_eq (w := w) (text = ['0'.toUInt8]) (by decide) rfl ht
      have hscope : lit.inScope t = true ↔ minOf t ≤ w.toInt := by
        rw [CALiteral.inScope, htok, hw]
        exact checkI64ValueScope_iff ht
      simp only [heq]
      by_cases hs : minOf t ≤ w.toInt
      · rw [if_pos (hscope.mpr hs), if_pos hs, ← hw]
      · rw [if_neg (mt hscope.mp hs), if_neg hs]

/-! ### One end of the type -/

theorem maxOf_lt (t : Ty) : maxOf t < 2 ^ 64 := by cases t <;> decide

theorem minOf_nonpos (t : Ty) : minOf t ≤ 0 := by cases t <;> decide

theorem maxOf_nonneg (t : Ty) : 0 ≤ maxOf t := by cases t <;> decide

theorem minOf_ge (t : Ty) : -2 ^ 63 ≤ minOf t := by cases t <;> decide

/-- Without a minus sign, only the largest integer is compared. -/
theorem outcome_plain_iff :
    ((if (w.toNat : Int) ≤ maxOf t then Outcome.word w else .rejected) =
      if minOf t ≤ (n : Int) ∧ (n : Int) ≤ maxOf t then .word (BitVec.ofInt 64 n) else .rejected) ↔
    if (n : Int) ≤ maxOf t then w.toNat = n else maxOf t < w.toNat := by
  have hmin := minOf_nonpos t
  have hmax := maxOf_lt t
  by_cases hn : (n : Int) ≤ maxOf t
  · have hword : w = BitVec.ofInt 64 n ↔ w.toNat = n := by
      rw [BitVec.ofInt_natCast, ← BitVec.toNat_inj, BitVec.toNat_ofNat, Nat.mod_eq_of_lt (by omega)]
    have hin : minOf t ≤ (n : Int) ∧ (n : Int) ≤ maxOf t := ⟨by omega, hn⟩
    rw [if_pos hin, if_pos hn, ← hword]
    constructor
    · intro h
      split at h
      · exact Outcome.word.inj h
      · cases h
    · intro h
      have hpass := hn
      rw [← hword.mp h] at hpass
      rw [if_pos hpass, h]
  · have hout : ¬ (minOf t ≤ (n : Int) ∧ (n : Int) ≤ maxOf t) := fun h => hn h.2
    rw [if_neg hout, if_neg hn]
    constructor
    · intro h
      split at h
      · cases h
      · omega
    · intro h
      rw [if_neg (by omega)]

/-- Below a minus sign, only the smallest integer is compared. -/
theorem outcome_minus_iff :
    ((if minOf t ≤ w.toInt then Outcome.word w else .rejected) =
      if minOf t ≤ -(n : Int) ∧ -(n : Int) ≤ maxOf t then .word (BitVec.ofInt 64 (-n))
      else .rejected) ↔
    if minOf t ≤ -(n : Int) then w.toInt = -n else w.toInt < minOf t := by
  have hmin := minOf_ge t
  have hmax := maxOf_nonneg t
  by_cases hn : minOf t ≤ -(n : Int)
  · have hword : w = BitVec.ofInt 64 (-n) ↔ w.toInt = -n := by
      rw [← BitVec.toInt_inj, toInt_ofInt_neg_of_le (by omega)]
    have hin : minOf t ≤ -(n : Int) ∧ -(n : Int) ≤ maxOf t := ⟨hn, by omega⟩
    rw [if_pos hin, if_pos hn, ← hword]
    constructor
    · intro h
      split at h
      · exact Outcome.word.inj h
      · cases h
    · intro h
      have hpass := hn
      rw [← hword.mp h] at hpass
      rw [if_pos hpass, h]
  · have hout : ¬ (minOf t ≤ -(n : Int) ∧ -(n : Int) ≤ maxOf t) := fun h => hn h.1
    rw [if_neg hout, if_neg hn]
    constructor
    · intro h
      split at h
      · cases h
      · omega
    · intro h
      rw [if_neg (by omega)]

/-! ### The condition -/

/-- **The condition**, on the text, the type and what was in the literal before. -/
def ReadsExactly (l : IntLit) (t : Ty) (old : BitVec 64) : Prop :=
  (l.minus = true → l.text.length ≤ 1022) ∧
    match l.radix, l.minus with
    | .dec, false | .hex, false => t = .u64 → l.magnitude < 2 ^ 64
    | .dec, true | .hex, true => l.magnitude ≤ 2 ^ 63
    | .bin, false => True
    | .bin, true => l.magnitude ≤ 2 ^ 63 ∨ 2 ^ 64 ≤ l.magnitude
    | .oct, false =>
        if (l.magnitude : Int) ≤ maxOf t then octalWord old l.magnitude = l.magnitude
        else maxOf t < octalWord old l.magnitude
    | .oct, true =>
        if minOf t ≤ -(l.magnitude : Int) then octalWord old l.magnitude = l.magnitude
        else -minOf t < octalWord old l.magnitude ∧ octalWord old l.magnitude ≤ 2 ^ 63

theorem exact_plain_iff (fixing : Fixing t) (hm : l.minus = false)
    (ht : literalTypeConvertable .u64 t = true) :
    Exact l fixing old ↔
      match l.word false old with
      | none => maxOf t < l.magnitude
      | some w => if (l.magnitude : Int) ≤ maxOf t then w.toNat = l.magnitude
          else maxOf t < w.toNat := by
  have hvalue : l.value = l.magnitude := by
    rw [IntLit.value, hm]
    rfl
  have hmin := minOf_nonpos t
  rw [Exact, IntLit.outcome, hm, if_neg Bool.false_ne_true, fixText_u64 fixing ht,
    IntText.literalParseInteger_text, hvalue]
  cases l.word false old with
  | some w => exact outcome_plain_iff
  | none =>
      simp only
      constructor
      · intro h
        by_contra hle
        rw [if_pos ⟨by omega, by omega⟩] at h
        cases h
      · intro h
        rw [if_neg (by omega)]

theorem exact_minus_iff (fixing : Fixing t) (hm : l.minus = true)
    (ht : literalTypeConvertable .i64 t = true) :
    Exact l fixing old ↔ l.text.length ≤ 1022 ∧
      match l.word true old with
      | none => -(l.magnitude : Int) < minOf t
      | some w => if minOf t ≤ -(l.magnitude : Int) then w.toInt = -l.magnitude
          else w.toInt < minOf t := by
  have hvalue : l.value = -l.magnitude := by
    rw [IntLit.value, hm]
    rfl
  have hmax := maxOf_nonneg t
  rw [Exact, IntLit.outcome, hm, if_pos rfl, makeUminusExpr, hvalue]
  by_cases hlen : l.text.length ≤ 1022
  · rw [if_pos (by omega)]
    simp only [fixText_i64 fixing ht, IntText.literalParseInteger_minus, hlen, true_and]
    cases l.word true old with
    | some w => exact outcome_minus_iff
    | none =>
        simp only
        constructor
        · intro h
          by_contra hle
          rw [if_pos ⟨by omega, by omega⟩] at h
          cases h
        · intro h
          rw [if_neg (by omega)]
  · rw [if_neg (by omega)]
    refine iff_of_false ?_ fun h => hlen h.1
    intro h
    simp only at h
    split at h <;> cases h

theorem minOf_neg (ht : literalTypeConvertable .i64 t = true) : minOf t ≤ -1 := by
  cases t <;> first | exact absurd ht (by decide) | decide

/-- The largest word is in the scope of `u64` only. -/
theorem saturate_plain_iff (ht : t ≠ .bool) :
    (if (n : Int) ≤ maxOf t then (saturate false n).toNat = n
      else maxOf t < (saturate false n).toNat) ↔ (t = .u64 → n < 2 ^ 64) := by
  have hu64 : t = .u64 ↔ maxOf t = 2 ^ 64 - 1 := by
    cases t <;> first | exact absurd rfl ht | decide
  have hmax := maxOf_lt t
  by_cases hlt : n < 2 ^ 64
  · rw [toNat_saturate_of_lt hlt]
    refine iff_of_true ?_ fun _ => hlt
    split <;> omega
  · rw [toNat_saturate_of_le (by omega), if_neg (by omega), hu64]
    push_cast
    omega

theorem saturate_minus_iff (ht : literalTypeConvertable .i64 t = true) :
    (if minOf t ≤ -(n : Int) then (saturate true n).toInt = -n
      else (saturate true n).toInt < minOf t) ↔ n ≤ 2 ^ 63 := by
  have hmin := minOf_ge t
  have hneg := minOf_neg ht
  by_cases hle : n ≤ 2 ^ 63
  · rw [saturate_minus_of_lt (by omega), toInt_ofInt_neg_of_le hle]
    refine iff_of_true ?_ hle
    split <;> omega
  · have hword := toInt_saturate_minus_of_lt (show 2 ^ 63 < n by omega)
    rw [if_neg (by omega)]
    omega

/-- The word of a magnitude below `2 ^ 64`, negated, as the check of the scope reads it. -/
theorem negated_iff {m : Nat} (hm : m < 2 ^ 64) (ht : literalTypeConvertable .i64 t = true) :
    (if minOf t ≤ -(n : Int) then (-BitVec.ofNat 64 m).toInt = -n
      else (-BitVec.ofNat 64 m).toInt < minOf t) ↔
    if minOf t ≤ -(n : Int) then m = n else -minOf t < m ∧ m ≤ 2 ^ 63 := by
  have hmin := minOf_ge t
  have hneg := minOf_neg ht
  have hword : -BitVec.ofNat 64 m = BitVec.ofInt 64 (-m) := by
    rw [BitVec.ofInt_neg, BitVec.ofInt_natCast]
  rw [hword]
  by_cases hle : m ≤ 2 ^ 63
  · rw [toInt_ofInt_neg_of_le hle]
    split <;> omega
  · have hpos := toInt_ofInt_neg_of_lt (show 2 ^ 63 < m by omega) hm
    split <;> omega

theorem exact_iff_of_plain (fixing : Fixing t) (hm : l.minus = false)
    (ht : literalTypeConvertable .u64 t = true) :
    Exact l fixing old ↔ ReadsExactly l t old := by
  have hmax := maxOf_lt t
  have hbool : t ≠ .bool := by
    rintro rfl
    cases ht
  rw [exact_plain_iff fixing hm ht, ReadsExactly, IntText.word, hm]
  simp only [Bool.false_eq_true, false_implies, true_and]
  cases hr : l.radix with
  | bin =>
      by_cases hlt : l.magnitude < 2 ^ 64
      · simp only [if_pos hlt, toNat_signed hlt]
        refine iff_of_true ?_ trivial
        split
        · trivial
        · omega
      · simp only [if_neg hlt, iff_true]
        omega
  | oct => simp only [toNat_signed octalWord_lt]
  | _ => exact saturate_plain_iff hbool

theorem exact_iff_of_minus (fixing : Fixing t) (hm : l.minus = true)
    (ht : literalTypeConvertable .i64 t = true) :
    Exact l fixing old ↔ ReadsExactly l t old := by
  have hmin := minOf_ge t
  rw [exact_minus_iff fixing hm ht, ReadsExactly, IntText.word, hm]
  simp only [forall_const]
  apply and_congr_right
  intro _
  cases hr : l.radix with
  | bin =>
      by_cases hlt : l.magnitude < 2 ^ 64
      · simp only [if_pos hlt]
        refine (negated_iff hlt ht).trans ?_
        split <;> omega
      · simp only [if_neg hlt]
        omega
  | oct => exact negated_iff octalWord_lt ht
  | _ => exact saturate_minus_iff ht

/-- **A literal is exact under exactly this condition.** -/
theorem exact_iff (fixing : Fixing t) (ht : literalTypeConvertable l.littypetok t = true) :
    Exact l fixing old ↔ ReadsExactly l t old := by
  cases hm : l.minus with
  | false =>
      rw [IntLit.littypetok, hm, if_neg Bool.false_ne_true] at ht
      exact exact_iff_of_plain fixing hm ht
  | true =>
      rw [IntLit.littypetok, hm, if_pos rfl] at ht
      exact exact_iff_of_minus fixing hm ht

/-- `-0xff`. -/
def minusFF : IntLit where
  radix := .hex
  digits := List.replicate 2 'f'.toUInt8
  nonempty := List.cons_ne_nil _ _
  valid := fun c hc => by rw [List.eq_of_mem_replicate hc]; decide
  minus := true

theorem exact_minusFF : Exact minusFF (.determine true .i16) 0 := by
  refine (exact_iff (.determine true .i16) (by decide)).mpr ⟨fun _ => by decide, ?_⟩
  show minusFF.magnitude ≤ 2 ^ 63
  decide

/-! ### Behind 64 bits -/

/-- `0x10000000000000000`. -/
def twoPow64 : IntLit where
  radix := .hex
  digits := '1'.toUInt8 :: List.replicate 16 '0'.toUInt8
  nonempty := List.cons_ne_nil _ _
  valid := List.forall_mem_cons.mpr
    ⟨by decide, fun c hc => by rw [List.eq_of_mem_replicate hc]; decide⟩
  minus := false

/-- `2 ^ 64` is accepted as an `u64`, with the word of `2 ^ 64 - 1`. -/
theorem not_exact_twoPow64 :
    literalTypeConvertable twoPow64.littypetok .u64 = true ∧
      twoPow64.outcome (.determine false .u64) 0 = .word (BitVec.ofNat 64 (2 ^ 64 - 1)) ∧
      ¬ Exact twoPow64 (.determine false .u64) 0 := by
  have houtcome : twoPow64.outcome (.determine false .u64) 0 =
      .word (BitVec.ofNat 64 (2 ^ 64 - 1)) := by decide
  refine ⟨rfl, houtcome, ?_⟩
  intro h
  rw [Exact, houtcome] at h
  exact absurd h (by decide)

end CaLang.Literals
