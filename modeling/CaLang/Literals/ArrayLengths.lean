import CaLang.Literals.Reading
import CaLang.Types.Reading

/-! # Lengths of arrays

The length of an array type is read with `%lu`, whatever the radix, cast to `int`, printed with `%d`
into the type text and read again by the unwinder, which has no minus sign. The length of a repeat
expression is an integer literal, inferred as `i32`; **zero stands for no repetition, and a declared
length is compared with the number of written elements**, which is one.

- `makeArrayType`, `makeArrayDefFill`: the two readings;
- `KeepsLengths`: the lengths of nested array types, and of repeat expressions with the same texts;
- `keepsLengths_iff`: they are kept when the texts are decimal, and below `2 ^ 31` or so large that
  they are rejected, and a repeat expression is neither empty nor declared to have one element.
-/

namespace CaLang.Literals

open Arith CaLang.Types

/-- `(int)` of an `uint64_t`. -/
def castInt (w : BitVec 64) : Int := (w.setWidth 32).toInt

/-- `make_array_type`; `len` is what was there before `sscanf`. -/
def makeArrayType (type : TypeExpr) (size : IntText) (len : BitVec 64) : TypeExpr :=
  symFormArrayId type (castInt ((scanUlong 10 size.text).getD len))

/-- An array expression (`CAArrayExpr`). -/
structure CAArrayExpr (α : Type) where
  repeatCount : Nat
  data : List α

/-- `make_array_def_fill`, of an expression and a literal, which is inferred whatever type stands
behind it. -/
def makeArrayDefFill {α : Type} (expr : α) (lit : IntText) (postfixtypetok : Option Ty)
    (old : BitVec 64) : Option (CAArrayExpr α) := do
  let w ← literalParseInteger lit.text .u64 old
  let lit ← inferencePrimitiveLiteralType
    (createLiteral .u64 postfixtypetok (lit.text = ['0'.toUInt8]) w)
  return ⟨lit.i64value.toNat, [expr]⟩

namespace CAArrayExpr

variable {α : Type}

/-- The length of the type `inference_expr_type` makes. -/
def inferredSize (a : CAArrayExpr α) : Nat :=
  if a.repeatCount ≠ 0 then a.repeatCount else a.data.length

/-- The length of the type of the expression: `determine_expr_expr_type` looks at the number of
written elements. -/
def typedSize (a : CAArrayExpr α) : Option Nat → Option Nat
  | none => some a.inferredSize
  | some len => if len ≠ a.data.length then none else some len

/-- The elements `walk_expr_array` stores. -/
def elements (a : CAArrayExpr α) : List α :=
  if a.repeatCount ≠ 0 then
    match a.data with
    | [] => []
    | x :: _ => List.replicate a.repeatCount x
  else a.data

end CAArrayExpr

/-! ### What is asked for -/

/-- A nesting of array types, the outermost first. -/
def arrayTypes (t : TypeExpr) (len : BitVec 64) : List IntText → TypeExpr
  | [] => t
  | l :: ls => makeArrayType (arrayTypes t len ls) l len

/-- The datatype of a nesting of arrays with the given dimensions. -/
def arraysOf (D : CADataType) : List Nat → CADataType
  | [] => D
  | n :: ns => .array (arraysOf D ns) n

/-- The unwinder reads the text of `T` as the datatype `D`. -/
def UnwindsTo (tabs : SymTables) (st : Scope) (T : TypeExpr) (D : CADataType) : Prop :=
  ∃ r, Settles (fun k => catypeUnwindTypeSignature tabs k st T.text) (.ok r) ∧ r.retdt = D

/-- A literal as the length of an array type and of a repeat expression, whose type may be declared
with a dimension. -/
structure LengthUse where
  lit : IntText
  declared : Option Nat

/-- **The lengths are kept**, or the program is rejected. -/
structure KeepsLengths (us : List LengthUse) : Prop where
  /-- The length in the type text is the integer of the literal, -/
  text : ∀ u ∈ us, ∀ tabs st t len D, t.isText = true →
    UnwindsTo tabs st (makeArrayType t u.lit len) D →
      makeArrayType t u.lit len = .array t u.lit.magnitude
  /-- and so is the dimension of the datatype. -/
  dimension : ∀ u ∈ us, ∀ tabs st t len D, t.isText = true →
    UnwindsTo tabs st (makeArrayType t u.lit len) D →
    ∃ E, UnwindsTo tabs st t E ∧ D = .array E u.lit.magnitude
  /-- A repeat expression and its type have as many elements. -/
  count : ∀ u ∈ us, ∀ (α : Type) (x : α) post old a n,
    makeArrayDefFill x u.lit post old = some a → a.typedSize u.declared = some n →
      n = u.lit.magnitude ∧ a.elements = List.replicate u.lit.magnitude x
  /-- Nested, the lengths are the dimensions in their order. -/
  order : ∀ tabs st t len D, t.isText = true →
    UnwindsTo tabs st (arrayTypes t len (us.map LengthUse.lit)) D →
    ∃ E, UnwindsTo tabs st t E ∧ D = arraysOf E (us.map (·.lit.magnitude))

/-- **The condition** on a text. -/
def LengthFits (l : IntText) : Prop :=
  (l.radix = .dec ∨ l.magnitude = 0) ∧
    (l.magnitude < 2 ^ 31 ∨ 2 ^ 31 ≤ l.magnitude % 2 ^ 32 ∨ 2 ^ 64 ≤ l.magnitude)

/-- **The condition** on a repeat expression. -/
def CountFits (u : LengthUse) : Prop :=
  (u.declared = none → u.lit.magnitude ≠ 0) ∧
    (u.declared = some 1 → u.lit.magnitude = 1 ∨ 2 ^ 31 ≤ u.lit.magnitude)

variable {l : IntText} {ls : List IntText} {u : LengthUse} {us : List LengthUse} {t T : TypeExpr}
  {tabs : SymTables} {st : Scope} {D E : CADataType} {old len w : BitVec 64} {n : Nat}

/-! ### The types -/

theorem unwindsTo_iff (ht : T.isText = true) :
    UnwindsTo tabs st T D ↔ unwindType tabs st T = some D := by
  have h := catypeUnwindTypeSignature_settles tabs st ht
  constructor
  · rintro ⟨r, hr, rfl⟩
    have heq := h.unique hr
    cases hx : unwindType tabs st T with
    | none =>
        rw [hx] at heq
        cases heq
    | some D =>
        rw [hx] at heq
        exact congrArg some (congrArg Unwound.retdt (Except.ok.inj heq))
  · intro hD
    rw [hD] at h
    exact ⟨_, h, rfl⟩

/-- An array text is read where its length has no minus sign, and its signature has room. -/
theorem unwindsTo_array_iff {k : Int} (ht : t.isText = true) :
    UnwindsTo tabs st (.array t k) D ↔
      isLength k = true ∧ D.fits = true ∧ ∃ E, UnwindsTo tabs st t E ∧ D = .array E k.toNat := by
  rw [unwindsTo_iff (show (TypeExpr.array t k).isText = true from ht), unwindType_eq_some]
  simp only [unwindsTo_iff ht, unwindType_eq_some]
  have heq : unwindTree tabs st (.array t k) =
      if isLength k then (unwindTree tabs st t).map (.array · k.toNat) else none := by
    rw [unwindTree, unwindTree, TypeExpr.unwind]
  rw [heq]
  by_cases hk : isLength k = true
  · rw [if_pos hk, Option.map_eq_some_iff]
    constructor
    · rintro ⟨⟨E, hE, rfl⟩, hfits⟩
      exact ⟨hk, hfits, E, ⟨hE, CADataType.fits_of_array hfits⟩, rfl⟩
    · rintro ⟨-, hfits, E, hE, rfl⟩
      exact ⟨⟨E, hE.1, rfl⟩, hfits⟩
  · rw [if_neg hk]
    exact iff_of_false (fun h => by cases h.1) fun h => hk h.1

theorem nonneg_of_isLength {k : Int} (hk : isLength k = true) : 0 ≤ k := by
  simp only [isLength, Bool.and_eq_true, decide_eq_true_eq] at hk
  exact hk.1

/-! ### The length of a type -/

theorem castInt_eq : castInt w = Int.bmod w.toNat (2 ^ 32) := BitVec.toInt_setWidth w

/-- `%lu` reads a decimal text, and the zero in front of another mark. -/
theorem scanUlong_ten :
    scanUlong 10 l.text = some (if l.radix = .dec then saturate false l.magnitude else 0) := by
  have hzero : ∀ (c : Byte) (ds : List Byte), isDigitOf 10 c = false →
      scanUlong 10 ('0'.toUInt8 :: c :: ds) = some 0 := by
    intro c ds hc
    have hdigits : ('0'.toUInt8 :: c :: ds).takeWhile (isDigitOf 10) = ['0'.toUInt8] := by
      rw [List.takeWhile_cons_of_pos (by decide), List.takeWhile_cons_of_neg (by simp [hc])]
    rw [scanUlong_cons (by decide), skipHexPrefix_of_ne (by decide), scanDigits]
    simp only [hdigits]
    rfl
  cases hr : l.radix with
  | dec =>
      have h := l.scanUlong_text (.inl hr)
      rw [hr] at h
      exact h
  | hex =>
      rw [IntText.text, hr]
      exact hzero _ _ (by decide)
  | oct =>
      rw [IntText.text, hr]
      exact hzero _ _ (by decide)
  | bin =>
      rw [IntText.text, hr]
      exact hzero _ _ (by decide)

/-- **The length that `make_array_type` prints.** -/
theorem makeArrayType_eq :
    makeArrayType t l len =
      .array t (if l.radix = .dec then castInt (saturate false l.magnitude) else 0) := by
  rw [makeArrayType, scanUlong_ten, Option.getD_some, symFormArrayId]
  split
  · rfl
  · rfl

theorem castInt_saturate_of_lt (h : n < 2 ^ 31) : castInt (saturate false n) = n := by
  rw [castInt_eq, toNat_saturate_of_lt (by omega), Int.bmod_eq_of_le] <;> omega

/-- A number whose 32nd bit is set, or of more than 64 bits, is printed with a minus sign. -/
theorem castInt_saturate_neg (h : 2 ^ 31 ≤ n % 2 ^ 32 ∨ 2 ^ 64 ≤ n) :
    castInt (saturate false n) < 0 := by
  rw [castInt_eq]
  by_cases hlt : n < 2 ^ 64
  · rw [toNat_saturate_of_lt hlt, Int.bmod_def]
    split <;> omega
  · rw [toNat_saturate_of_le (by omega)]
    decide

theorem castInt_saturate_mod (h : n % 2 ^ 32 < 2 ^ 31) (hlt : n < 2 ^ 64) :
    castInt (saturate false n) = (n % 2 ^ 32 : Nat) := by
  rw [castInt_eq, toNat_saturate_of_lt hlt, Int.bmod_def]
  split <;> omega

/-! ### The length of a repeat expression -/

theorem inferencePrimitiveLiteralType_u64 (post : Option Ty) (zero : Bool) (w : BitVec 64) :
    inferencePrimitiveLiteralType (createLiteral .u64 post zero w) =
      if w.toNat < 2 ^ 31 then
        some { createLiteral .u64 post zero w with datatype := some .i32 } else none := by
  by_cases hw : w.toNat < 2 ^ 31
  · rw [if_pos hw]
    exact if_pos (decide_eq_true hw)
  · rw [if_neg hw]
    exact if_neg fun h => hw (of_decide_eq_true h)

/-- **The literal of a repeat expression passes below `2 ^ 31`.** -/
theorem makeArrayDefFill_eq {α : Type} {x : α} {post : Option Ty} :
    makeArrayDefFill x l post old =
      (l.word false old).bind fun w => if w.toNat < 2 ^ 31 then some ⟨w.toNat, [x]⟩ else none := by
  unfold makeArrayDefFill
  rw [IntText.literalParseInteger_text]
  cases l.word false old with
  | none => rfl
  | some w =>
      simp only [Option.bind_eq_bind, Option.bind_some, inferencePrimitiveLiteralType_u64]
      split <;> rfl

theorem elements_of_ne_zero {α : Type} {x : α} (h : n ≠ 0) :
    (⟨n, [x]⟩ : CAArrayExpr α).inferredSize = n ∧
      (⟨n, [x]⟩ : CAArrayExpr α).elements = List.replicate n x :=
  ⟨if_pos h, if_pos h⟩

/-- One element is written. -/
theorem typedSize_some {α : Type} {x : α} {m k : Nat}
    (h : (⟨n, [x]⟩ : CAArrayExpr α).typedSize (some m) = some k) : m = 1 ∧ k = 1 := by
  rw [CAArrayExpr.typedSize] at h
  split at h
  · cases h
  · rename_i hm
    obtain rfl : m = 1 := not_ne_iff.mp hm
    exact ⟨rfl, (Option.some.inj h).symm⟩

theorem IntText.word_zero (hl : l.magnitude = 0) : ∃ w, l.word false 0 = some w ∧ w.toNat = 0 := by
  unfold IntText.word
  rw [hl]
  cases l.radix <;> exact ⟨_, rfl, by decide⟩

/-- Where nothing was there before, a zero is read in every radix. -/
theorem makeArrayDefFill_of_lt (h : l.radix = .dec ∨ l.magnitude = 0) (hlt : l.magnitude < 2 ^ 31)
    {α : Type} (x : α) (post : Option Ty) :
    makeArrayDefFill x l post 0 = some ⟨l.magnitude, [x]⟩ := by
  rw [makeArrayDefFill_eq]
  rcases h with hdec | hzero
  · have hn : (saturate false l.magnitude).toNat = l.magnitude := toNat_saturate_of_lt (by omega)
    rw [IntText.word, hdec]
    simp only [Option.bind_some, hn, if_pos hlt]
  · obtain ⟨w, hw, hw0⟩ := IntText.word_zero hzero
    rw [hw, Option.bind_some, hw0, hzero]
    rfl

theorem exists_of_makeArrayDefFill {α : Type} {x : α} {post : Option Ty} {a : CAArrayExpr α}
    (ha : makeArrayDefFill x l post old = some a) : ∃ n, a = ⟨n, [x]⟩ := by
  rw [makeArrayDefFill_eq, Option.bind_eq_some_iff] at ha
  obtain ⟨w, -, ha⟩ := ha
  split at ha
  · exact ⟨w.toNat, (Option.some.inj ha).symm⟩
  · cases ha

/-- **A repeat expression with a decimal length.** -/
theorem eq_of_makeArrayDefFill (hdec : l.radix = .dec) {α : Type} {x : α} {post : Option Ty}
    {a : CAArrayExpr α} (ha : makeArrayDefFill x l post old = some a) :
    l.magnitude < 2 ^ 31 ∧ a = ⟨l.magnitude, [x]⟩ := by
  rw [makeArrayDefFill_eq, IntText.word, hdec] at ha
  simp only [Option.bind_some] at ha
  split at ha
  · rename_i hlt
    have hn : (saturate false l.magnitude).toNat = l.magnitude := by
      by_cases hle : 2 ^ 64 ≤ l.magnitude
      · rw [toNat_saturate_of_le hle] at hlt
        exact absurd hlt (by decide)
      · exact toNat_saturate_of_lt (by omega)
    rw [hn] at ha hlt
    exact ⟨hlt, (Option.some.inj ha).symm⟩
  · cases ha

/-! ### The lengths -/

theorem LengthFits.makeArrayType_eq (h : LengthFits l) :
    makeArrayType t l len = .array t (castInt (saturate false l.magnitude)) := by
  rw [Literals.makeArrayType_eq]
  rcases h.1 with hdec | hzero
  · rw [if_pos hdec]
  · rw [hzero]
    split
    · rfl
    · rfl

theorem LengthFits.text (h : LengthFits l) (ht : t.isText = true)
    (hD : UnwindsTo tabs st (makeArrayType t l len) D) :
    makeArrayType t l len = .array t l.magnitude := by
  rw [h.makeArrayType_eq] at hD ⊢
  have hpos := nonneg_of_isLength ((unwindsTo_array_iff ht).mp hD).1
  rcases h.2 with hlt | hbig
  · rw [castInt_saturate_of_lt hlt]
  · have hneg := castInt_saturate_neg hbig
    omega

theorem LengthFits.dimension (h : LengthFits l) (ht : t.isText = true)
    (hD : UnwindsTo tabs st (makeArrayType t l len) D) :
    ∃ E, UnwindsTo tabs st t E ∧ D = .array E l.magnitude := by
  rw [h.text ht hD] at hD
  obtain ⟨-, -, E, hE, rfl⟩ := (unwindsTo_array_iff ht).mp hD
  exact ⟨E, hE, rfl⟩

theorem CountFits.count (h : CountFits u) (hl : LengthFits u.lit) {α : Type} {x : α}
    {post : Option Ty} {a : CAArrayExpr α} (ha : makeArrayDefFill x u.lit post old = some a)
    (hn : a.typedSize u.declared = some n) :
    n = u.lit.magnitude ∧ a.elements = List.replicate u.lit.magnitude x := by
  cases hd : u.declared with
  | none =>
      have hne := h.1 hd
      obtain ⟨-, rfl⟩ := eq_of_makeArrayDefFill (hl.1.resolve_right hne) ha
      obtain ⟨hsize, helements⟩ := elements_of_ne_zero (x := x) hne
      rw [hd, CAArrayExpr.typedSize, hsize] at hn
      exact ⟨(Option.some.inj hn).symm, helements⟩
  | some m =>
      obtain ⟨k, rfl⟩ := exists_of_makeArrayDefFill ha
      rw [hd] at hn
      obtain ⟨rfl, rfl⟩ := typedSize_some hn
      have hone := h.2 hd
      obtain ⟨hlt, heq⟩ := eq_of_makeArrayDefFill (hl.1.resolve_right (by omega)) ha
      rw [heq, hone.resolve_right (Nat.not_le.mpr hlt)]
      exact ⟨rfl, rfl⟩

theorem isText_arrayTypes (ht : t.isText = true) : (arrayTypes t len ls).isText = true := by
  induction ls with
  | nil => exact ht
  | cons l ls ih => exact ih

/-- Nested lengths that fit are read one inside of the other. -/
theorem order_of_fits (h : ∀ l ∈ ls, LengthFits l) (ht : t.isText = true)
    (hD : UnwindsTo tabs st (arrayTypes t len ls) D) :
    ∃ E, UnwindsTo tabs st t E ∧ D = arraysOf E (ls.map IntText.magnitude) := by
  induction ls generalizing D with
  | nil => exact ⟨D, hD, rfl⟩
  | cons l ls ih =>
      obtain ⟨E, hE, rfl⟩ := (h l List.mem_cons_self).dimension (isText_arrayTypes ht) hD
      obtain ⟨F, hF, rfl⟩ := ih (fun m hm => h m (List.mem_cons_of_mem l hm)) hE
      exact ⟨F, hF, rfl⟩

/-- A program without declarations. -/
def noTables : SymTables := ⟨[], by decide, by decide⟩

theorem unwindsTo_i32 : UnwindsTo noTables [] (.ident Prim.i32.text) (.prim .i32) := by
  rw [unwindsTo_iff (by decide), unwindType_eq_some, unwindTree, TypeExpr.unwind, unwindTypeName_eq]
  exact ⟨rfl, by decide⟩

theorem fits_arrayOfI32 {k : Int} (hk : isLength k = true) :
    (CADataType.array (.prim .i32) k.toNat).fits = true := by
  have hpos := nonneg_of_isLength hk
  simp only [isLength, Bool.and_eq_true, decide_eq_true_eq] at hk
  have hdigits : (printInt k.toNat).length < 16 := by
    rw [printInt, if_neg (by omega), Int.natAbs_natCast]
    exact length_toDigits_lt (by omega)
  have hprim : (CADataType.prim .i32).toExpr.text.length = 3 := rfl
  simp only [CADataType.fits, fitsTypeBuf, CADataType.signature, CADataType.toExpr, TypeExpr.text,
    List.length_append, List.length_cons, decide_eq_true_eq] at hprim ⊢
  simp only [hprim, List.length_nil]
  omega

/-- A length that is not printed with a minus sign is read again. -/
theorem KeepsLengths.magnitude_eq (h : KeepsLengths us) (hu : u ∈ us) {k : Int}
    (hk : isLength k = true) (htext : ∀ t, makeArrayType t u.lit 0 = .array t k) :
    k = u.lit.magnitude := by
  have hread : UnwindsTo noTables [] (makeArrayType (.ident Prim.i32.text) u.lit 0)
      (.array (.prim .i32) k.toNat) := by
    rw [htext]
    exact (unwindsTo_array_iff (by decide)).mpr ⟨hk, fits_arrayOfI32 hk, _, unwindsTo_i32, rfl⟩
  have heq := h.text u hu _ _ _ _ _ (by decide) hread
  rw [htext, TypeExpr.array.injEq] at heq
  exact heq.2

theorem KeepsLengths.lengthFits (h : KeepsLengths us) (hu : u ∈ us) : LengthFits u.lit := by
  by_cases hdec : u.lit.radix = .dec
  · refine ⟨.inl hdec, ?_⟩
    by_contra hout
    have hlen : isLength (u.lit.magnitude % 2 ^ 32 : Nat) = true := by
      simp only [isLength, Bool.and_eq_true, decide_eq_true_eq]
      omega
    have hread := h.magnitude_eq hu hlen fun t => by
      rw [makeArrayType_eq, if_pos hdec, castInt_saturate_mod (by omega) (by omega)]
    omega
  · have hzero := h.magnitude_eq hu (k := 0) (by decide) fun t => by
      rw [makeArrayType_eq, if_neg hdec]
    exact ⟨.inr (by omega), .inl (by omega)⟩

/-- `[x; 0]` has one element, and so has what is declared to have one. -/
theorem KeepsLengths.countFits (h : KeepsLengths us) (hu : u ∈ us) : CountFits u := by
  have hl := h.lengthFits hu
  refine ⟨?_, ?_⟩
  · intro hd hzero
    have hfill := makeArrayDefFill_of_lt hl.1 (by omega) () none
    have hsize := (h.count u hu Unit () none 0 _ 1 hfill (by rw [hd, hzero]; rfl)).1
    omega
  · intro hd
    by_contra hout
    have hfill := makeArrayDefFill_of_lt hl.1 (by omega) () none
    have hsize := (h.count u hu Unit () none 0 _ 1 hfill (by rw [hd]; rfl)).1
    omega

/-- **The lengths are kept exactly when each of them fits.** -/
theorem keepsLengths_iff : KeepsLengths us ↔ ∀ u ∈ us, LengthFits u.lit ∧ CountFits u := by
  refine ⟨fun h u hu => ⟨h.lengthFits hu, h.countFits hu⟩, fun h => ⟨?_, ?_, ?_, ?_⟩⟩
  · intro u hu tabs st t len D ht hD
    exact (h u hu).1.text ht hD
  · intro u hu tabs st t len D ht hD
    exact (h u hu).1.dimension ht hD
  · intro u hu α x post old a n ha hn
    exact (h u hu).2.count (h u hu).1 ha hn
  · intro tabs st t len D ht hD
    obtain ⟨E, hE, rfl⟩ := order_of_fits (List.forall_mem_map.mpr fun u hu => (h u hu).1) ht hD
    exact ⟨E, hE, by rw [List.map_map]; rfl⟩

/-- `0x10`. -/
def hexTen : IntText where
  radix := .hex
  digits := ['1'.toUInt8, '0'.toUInt8]
  nonempty := List.cons_ne_nil _ _
  valid := List.forall_mem_cons.mpr ⟨by decide, List.forall_mem_singleton.mpr (by decide)⟩

/-- `[i32; 0x10]` is an array of length zero. -/
theorem not_keepsLengths_hexTen :
    makeArrayType (.ident Prim.i32.text) hexTen 0 = .array (.ident Prim.i32.text) 0 ∧
      hexTen.magnitude = 16 ∧ ¬ KeepsLengths [⟨hexTen, none⟩] := by
  refine ⟨by decide, by decide, ?_⟩
  intro h
  exact absurd (h.lengthFits List.mem_cons_self).1 (by decide)

end CaLang.Literals
