import CaLang.Lib.Fuel
import CaLang.Lib.Scan
import CaLang.Types.Expand

/-! # Reading a text is unwinding its tree

The string unwinder, run on the text of a type expression, settles on what `TypeExpr.unwind` makes
of the expression: the same datatype, its signature and its size, with the text behind the
expression left over; or it stops where `TypeExpr.unwind` yields nothing, or a signature that does
not fit. The induction follows the expression; a name that is expanded goes to the induction on the
names that are left.

**The buffer is large enough at every level if it is for the whole signature**, which holds those of
the levels (`CAStructFields.fit_of_length`, `filter_bind_filter`).

- `CADataType.typesize`: the size the unwinder computes;
- `TypeExpr.reads`: reading a text, **the texts of declarations included**;
- `catypeUnwindTypeSignature_settles`: the whole unwinding.
-/

namespace CaLang.Types

/-! ### The size -/

mutual
/-- The size the unwinder gives a datatype, `-2` where it depends on an enclosing struct. -/
def CADataType.typesize : CADataType → Int
  | .prim p => p.size
  | .pointer t => if t.typesize = -1 then -1 else 8
  | .array e n => if e.typesize < 0 then e.typesize else wrapInt (e.typesize * n)
  | .struct _ fs => structTypesize fs.sizes
  | .recur _ => -2

def CAStructFields.sizes : CAStructFields → List Int
  | .nil => []
  | .cons _ t rest => t.typesize :: rest.sizes
end

theorem pointers_typesize (d : Nat) (t : CADataType) :
    (pointers (d + 1) t).typesize = if t.typesize = -1 then -1 else 8 := by
  induction d with
  | zero => rfl
  | succ d ih =>
      have hstep : (pointers (d + 2) t).typesize =
          if (pointers (d + 1) t).typesize = -1 then -1 else 8 := rfl
      rw [hstep, ih]
      by_cases h : t.typesize = -1
      · rw [if_pos h, if_pos rfl]
      · rw [if_neg h]
        rfl

theorem pointers_signature (d : Nat) (t : CADataType) :
    (pointers d t).signature = List.replicate d '*' ++ t.signature := by
  induction d with
  | zero => rfl
  | succ d ih => exact congrArg ('*' :: ·) ih

theorem pointers_add (d k : Nat) (t : CADataType) :
    pointers d (pointers k t) = pointers (d + k) t := by
  induction d with
  | zero => rw [Nat.zero_add, pointers]
  | succ d ih => rw [Nat.add_right_comm, pointers, pointers, ih]

/-! ### Signatures that fit -/

/-- The signatures of all members fit. -/
def CAStructFields.fit : CAStructFields → Bool
  | .nil => true
  | .cons _ t rest => t.fits && rest.fit

theorem fitsTypeBuf_of_le {l l' : List Char} (h : fitsTypeBuf l = true)
    (hl : l'.length ≤ l.length) : fitsTypeBuf l' = true := by
  simp only [fitsTypeBuf, decide_eq_true_eq] at h ⊢
  omega

/-- The members' texts hold those of the members. -/
theorem CAStructFields.fit_of_length {ds : CAStructFields}
    (h : fitsTypeBuf ds.toExpr.text = true) : ds.fit = true := by
  match ds with
  | .nil => rfl
  | .cons n t rest =>
      have hrest : rest.toExpr.text.length ≤ (CAStructFields.cons n t rest).toExpr.text.length := by
        rw [CAStructFields.toExpr, TypeFields.text]
        cases hnil : rest.toExpr with
        | nil => exact Nat.zero_le _
        | cons => simp [TypeFields.isNil]; omega
      have ht : t.signature.length ≤ (CAStructFields.cons n t rest).toExpr.text.length := by
        rw [CAStructFields.toExpr, TypeFields.text, CADataType.signature]
        simp only [List.length_append]
        omega
      rw [CAStructFields.fit, Bool.and_eq_true]
      exact ⟨fitsTypeBuf_of_le h ht, fit_of_length (fitsTypeBuf_of_le h hrest)⟩

theorem CADataType.fit_of_struct {h : StructHead StructId} {ds : CAStructFields}
    (hf : (CADataType.struct h ds).fits = true) : ds.fit = true := by
  refine CAStructFields.fit_of_length (fitsTypeBuf_of_le hf ?_)
  simp only [CADataType.signature, CADataType.toExpr, TypeExpr.text, List.length_append]
  omega

theorem CADataType.fits_of_array {D : CADataType} {n : Nat}
    (hf : (CADataType.array D n).fits = true) : D.fits = true := by
  refine fitsTypeBuf_of_le hf ?_
  simp only [CADataType.signature, CADataType.toExpr, TypeExpr.text, List.length_append,
    List.length_cons]
  omega

theorem fits_of_pointers {D : CADataType} {d : Nat} (hf : (pointers d D).fits = true) :
    D.fits = true := by
  refine fitsTypeBuf_of_le hf ?_
  rw [pointers_signature, List.length_append]
  omega

/-- Where only arguments that pass lead to results that pass, the others may be sorted out
before. -/
theorem filter_bind_filter {α β : Type} {p : α → Bool} {q : β → Bool} {x : Option α}
    {f : α → Option β} (h : ∀ a b, f a = some b → q b = true → p a = true) :
    ((x.filter p).bind f).filter q = (x.bind f).filter q := by
  cases x with
  | none => rfl
  | some a =>
      by_cases ha : p a = true
      · rw [Option.filter_some_pos ha]
      · rw [Option.filter_some_neg (Bool.eq_false_iff.mpr ha)]
        symm
        rw [Option.bind_none, Option.filter_none, Option.bind_some, Option.filter_eq_none_iff]
        intro b hb hq
        exact ha (h a b hb hq)

/-! ### The texts that are read -/

/-- A name that a struct text may carry. -/
def isTextName (n : Name) : Bool := !n.isEmpty && n.all isNameChar

def StructHead.isText : StructHead Name → Bool
  | .namedStruct n | .namedTuple n => isTextName n
  | .generalTuple | .slice => true

mutual
/-- The expressions whose text is read back: those of the formers, and the signatures. -/
def TypeExpr.isText : TypeExpr → Bool
  | .ident n => isIdent n && decide (getInnerTypeString n = n)
  | .pointer t => t.isText
  | .array e _ => e.isText
  | .struct h fs => h.isText && fs.isText h.hasFieldNames

def TypeFields.isText (named : Bool) : TypeFields → Bool
  | .nil => true
  | .cons n t rest => memberNameOk named n && t.isText && rest.isText named
end

mutual
theorem TypeExpr.isText_of_isSource (t : TypeExpr) (h : t.isSource = true) : t.isText = true := by
  cases t with
  | ident n => exact h
  | pointer t => exact t.isText_of_isSource h
  | array e n => exact e.isText_of_isSource h
  | struct hd fs =>
      cases hd with
      | namedStruct n => cases h
      | namedTuple n => cases h
      | generalTuple => exact fs.isText_of_isSource h
      | slice => exact fs.isText_of_isSource h

theorem TypeFields.isText_of_isSource (fs : TypeFields) {named : Bool}
    (h : fs.isSource named = true) : fs.isText named = true := by
  cases fs with
  | nil => rfl
  | cons n t rest =>
      simp only [TypeFields.isSource, TypeFields.isText, Bool.and_eq_true] at h ⊢
      exact ⟨⟨h.1.1, t.isText_of_isSource h.1.2⟩, rest.isText_of_isSource h.2⟩
end

theorem isNameChar_of_isAlpha {c : Char} (h : (c.isAlpha || c == '_') = true) :
    isNameChar c = true := by
  simp only [isNameChar, Char.isAlphanum, Bool.or_eq_true] at h ⊢
  rcases h with h | h
  · exact .inl (.inl h)
  · exact .inr h

theorem isIdent_all {n : Name} (h : isIdent n = true) : ∀ c ∈ n, isNameChar c = true := by
  cases n with
  | nil => cases h
  | cons a n =>
      simp only [isIdent, Bool.and_eq_true, List.all_eq_true] at h
      intro c hc
      rcases List.mem_cons.mp hc with rfl | hc
      · exact isNameChar_of_isAlpha h.1
      · exact h.2 c hc

theorem isIdent_cons {n : Name} (h : isIdent n = true) :
    ∃ c cs, n = c :: cs ∧ (c.isAlpha || c == '_') = true := by
  cases n with
  | nil => cases h
  | cons c cs =>
      simp only [isIdent, Bool.and_eq_true] at h
      exact ⟨c, cs, rfl, h.1⟩

theorem textKind_of_isNameChar {c : Char} (h : isNameChar c = true) : textKind c = .name := by
  unfold textKind
  split
  all_goals first | rfl | exact absurd h (by decide)

/-- What a type text starts with. -/
def StartsType (c : Char) : Prop :=
  (c.isAlpha || c == '_') = true ∨ c = '*' ∨ c = '[' ∨ c = '{' ∨ c = '(' ∨ c = '<'

theorem StartsType.ne {c d : Char} (h : StartsType c)
    (hd : (d.isAlpha || d == '_') = false ∧ d ≠ '*' ∧ d ≠ '[' ∧ d ≠ '{' ∧ d ≠ '(' ∧ d ≠ '<') :
    c ≠ d := by
  rintro rfl
  rcases h with h | h | h | h | h | h
  · rw [hd.1] at h
    cases h
  · exact hd.2.1 h
  · exact hd.2.2.1 h
  · exact hd.2.2.2.1 h
  · exact hd.2.2.2.2.1 h
  · exact hd.2.2.2.2.2 h

theorem TypeExpr.text_starts {t : TypeExpr} (h : t.isText = true) :
    ∃ c cs, t.text = c :: cs ∧ StartsType c := by
  cases t with
  | ident n =>
      simp only [isText, Bool.and_eq_true] at h
      obtain ⟨c, cs, hn, hc⟩ := isIdent_cons h.1
      exact ⟨c, cs, hn, .inl hc⟩
  | pointer t => exact ⟨_, _, rfl, .inr (.inl rfl)⟩
  | array e n => exact ⟨_, _, rfl, .inr (.inr (.inl rfl))⟩
  | struct hd fs =>
      cases hd with
      | namedStruct n => exact ⟨'{', _, rfl, by simp [StartsType]⟩
      | namedTuple n => exact ⟨'(', _, rfl, by simp [StartsType]⟩
      | generalTuple => exact ⟨'(', _, rfl, by simp [StartsType]⟩
      | slice => exact ⟨'<', _, rfl, by simp [StartsType]⟩

/-! ### One step of the string unwinder -/

section Steps

variable {tabs : SymTables} {st : Scope} {c : UnwindCtx}

/-- The result of reading a text with the datatype `D`. -/
def Unwound.of (rest : List Char) (D : CADataType) : Unwound := ⟨rest, D.signature, D.typesize, D⟩

theorem Unwound.of_behind (d : Nat) (rest : List Char) (D : CADataType) :
    (Unwound.of rest D).behind ⟨List.replicate d '*', d, decide (0 < d)⟩ =
      .of rest (pointers d D) := by
  cases d with
  | zero => rfl
  | succ d =>
      simp only [Unwound.behind, Unwound.of, pointers_signature, pointers_typesize]
      by_cases h : D.typesize = -1 <;> simp [h]

/-- The context behind `d` stars. -/
def UnwindCtx.behind (c : UnwindCtx) (d : Nat) : UnwindCtx := if 0 < d then c.fresh else c

theorem room_behind (c : UnwindCtx) (d : Nat) : room tabs (c.behind d) = room tabs c := by
  unfold UnwindCtx.behind
  split <;> rfl

/-- What is called on the text behind `*` and `&`. -/
def unwindKind (tabs : SymTables) (fuel : Nat) (st : Scope) (pch : List Char) (c : UnwindCtx) :
    TextKind → Except UnwindStop Unwound
  | .array => unwindArray tabs fuel st pch c
  | .struct => unwindStruct tabs fuel st pch c
  | .enum => .error .exit
  | .name => unwindName tabs fuel st pch c

theorem unwindInner_kind {a : Char} {cs : List Char} (hs : a ≠ '*') (hr : a ≠ '&') (d k : Nat) :
    unwindInner tabs (k + 1) st (a :: cs) c ⟨List.replicate d '*', d, decide (0 < d)⟩ =
      unwindKind tabs k st (a :: cs) (c.behind d) (textKind a) >>= fun r =>
        (r.behind ⟨List.replicate d '*', d, decide (0 < d)⟩).formed := by
  rw [unwindInner]
  simp only [if_neg hs, if_neg hr]
  have hctx : (if decide (0 < d) = true then c.fresh else c) = c.behind d := by
    simp [UnwindCtx.behind]
  simp only [hctx]
  cases textKind a <;> rfl

theorem unwindInner_stars {text : List Char} (ht : StopsAt (· == '*') text) (d k : Nat) :
    unwindInner tabs (k + 1) st (List.replicate (d + 1) '*' ++ text) c .none =
      unwindInner tabs k st text c ⟨List.replicate (d + 1) '*', d + 1, decide (0 < d + 1)⟩ := by
  have hspan := span_append (p := (· == '*')) (w := List.replicate (d + 1) '*')
    (fun x hx => by simp [List.eq_of_mem_replicate hx]) ht
  rw [List.replicate_succ, List.cons_append] at hspan ⊢
  rw [unwindInner]
  simp only [if_pos, hspan, AddrRun.none, List.nil_append]
  simp

/-- The rule of sequencing for runs that yield or end the compiler. -/
theorem settles_andThen {α β γ δ : Type} {f : Nat → Except UnwindStop α} {x : Option β}
    {p : β → α} {g : α → Nat → Except UnwindStop γ} {y : β → Option δ} {q : δ → γ}
    (hf : Settles f (exitWith (x.map p)))
    (hg : ∀ b, x = some b → Settles (g (p b)) (exitWith ((y b).map q))) :
    Settles (fun k => f k >>= fun a => g a k) (exitWith ((x.bind y).map q)) := by
  cases x with
  | none => exact hf.bind (y := fun _ => .error .exit) fun a h => by cases h
  | some b =>
      refine hf.bind (y := fun _ => exitWith ((y b).map q)) ?_
      intro a h
      cases h
      exact hg b rfl

/-- A run that yields `x`, but for signatures that do not fit anyway. -/
def ReadsAs (run : Nat → Except UnwindStop Unwound) (rest : List Char) (x : Option CADataType) :
    Prop :=
  ∃ y : Option CADataType,
    Settles run (exitWith (y.map (.of rest))) ∧ y.filter CADataType.fits = x.filter CADataType.fits

theorem ReadsAs.of_settles {run : Nat → Except UnwindStop Unwound} {rest : List Char}
    {x : Option CADataType} (h : Settles run (exitWith (x.map (.of rest)))) :
    ReadsAs run rest x :=
  ⟨x, h, rfl⟩

theorem Unwound.formed_of (rest : List Char) (D : CADataType) :
    (Unwound.of rest D).formed =
      exitWith (((some D).filter CADataType.fits).map (.of rest)) := by
  cases hD : D.fits with
  | true =>
      rw [Option.filter_some_pos hD, Unwound.formed]
      exact if_pos hD
  | false =>
      rw [Option.filter_some_neg hD, Unwound.formed]
      exact if_neg (Bool.eq_false_iff.mp hD)

/-- Stars in front of a text that is read. -/
theorem settles_stars {a : Char} {cs rest : List Char} (hs : a ≠ '*') (hr : a ≠ '&') (d : Nat)
    {x : Option CADataType}
    (h : ReadsAs (fun k => unwindKind tabs k st (a :: cs) (c.behind d) (textKind a)) rest x) :
    Settles (fun k => unwindInner tabs k st (List.replicate d '*' ++ a :: cs) c .none)
      (exitWith (((x.map (pointers d)).filter CADataType.fits).map (.of rest))) := by
  obtain ⟨y, hy, hyx⟩ := h
  have heq : (x.map (pointers d)).filter CADataType.fits =
      y.bind fun D => (some (pointers d D)).filter CADataType.fits := by
    have hpass : ∀ D E : CADataType, some (pointers d D) = some E → E.fits = true →
        D.fits = true := by
      intro D E hDE hE
      rw [← Option.some.inj hDE] at hE
      exact fits_of_pointers hE
    have hmap : ∀ z : Option CADataType, z.map (pointers d) = z.bind fun D => some (pointers d D) :=
      fun z => Option.map_eq_bind
    rw [hmap, ← filter_bind_filter hpass, ← hyx, filter_bind_filter hpass]
    cases y <;> rfl
  have hrun : Settles (fun k => unwindInner tabs k st (a :: cs) c
      ⟨List.replicate d '*', d, decide (0 < d)⟩)
      (exitWith (((x.map (pointers d)).filter CADataType.fits).map (.of rest))) := by
    rw [heq]
    refine (settles_andThen (g := fun r _ =>
      (r.behind ⟨List.replicate d '*', d, decide (0 < d)⟩).formed) hy ?_).step
        (unwindInner_kind hs hr d)
    intro D _
    rw [Unwound.of_behind, Unwound.formed_of]
    exact .const _
  cases d with
  | zero => exact hrun
  | succ d => exact hrun.step (unwindInner_stars (stopsAt_cons cs (by simpa using hs)) d)

theorem length_toDigits_lt {n : Nat} (hn : n < 2147483648) : (Nat.toDigits 10 n).length < 16 := by
  have h := (Nat.length_toDigits_le_iff (b := 10) (k := 15) (by decide) (by decide)).mpr
    (Nat.lt_trans hn (by decide))
  omega

/-- A length is read back as it is, or not at all. -/
theorem arrayTextLength_print (n : Int) (rest : List Char) :
    arrayTextLength (';' :: printInt n ++ ']' :: rest) =
      if isLength n then some (printInt n, n.toNat, rest) else none := by
  by_cases hn : 0 ≤ n
  · have hp : printInt n = Nat.toDigits 10 n.toNat := by
      rw [printInt, if_neg (by omega), show n.natAbs = n.toNat by omega]
    have hspan := span_append (p := Char.isDigit) (w := Nat.toDigits 10 n.toNat) (r := ']' :: rest)
      (fun x hx => Nat.isDigit_of_mem_toDigits (by decide) (by decide) hx)
      (stopsAt_cons rest (by decide))
    have hne : (Nat.toDigits 10 n.toNat).isEmpty = false := by
      rw [List.isEmpty_eq_false_iff]
      exact Nat.toDigits_ne_nil
    rw [hp, List.cons_append, arrayTextLength]
    simp only [hspan, hne, Nat.ofDigitChars_ten_toDigits]
    by_cases hlt : n < 2147483648
    · have hnat : n.toNat < 2147483648 := by omega
      simp [isLength, hn, hlt, hnat, length_toDigits_lt hnat]
    · have hnat : ¬ n.toNat < 2147483648 := by omega
      simp [isLength, hlt, hnat]
  · have hp : printInt n = '-' :: Nat.toDigits 10 n.natAbs := by
      rw [printInt, if_pos (by omega)]
    rw [hp, isLength, decide_eq_false hn]
    rfl

/-! ### The struct texts -/

theorem isTextName_all {n : Name} (h : isTextName n = true) : ∀ x ∈ n, isNameChar x = true := by
  simp only [isTextName, Bool.and_eq_true, List.all_eq_true] at h
  exact h.2

theorem closer_stops (h : StructHead Name) (p : Char → Bool) (rest : List Char)
    (hp : p '}' = false ∧ p ')' = false ∧ p '>' = false) : StopsAt p (h.closer :: rest) := by
  refine stopsAt_cons rest ?_
  cases h
  · exact hp.1
  · exact hp.2.1
  · exact hp.2.1
  · exact hp.2.2

theorem TypeFields.text_of_isNil {fs : TypeFields} (h : fs.isNil = true) : fs.text = [] := by
  cases fs with
  | nil => rfl
  | cons n t rest => cases h

theorem signatureExtractName_eq {pch rest : List Char} {n : Name}
    (h : pch.span isNameChar = (n, rest)) :
    signatureExtractName pch = if fitsNamebuf n then some (n, rest) else none := by
  rw [signatureExtractName, h]

/-- The name of a struct text, read. -/
theorem span_opener (fs : TypeFields) {n : Name} (hn : isTextName n = true) {a : Char}
    (ha : isNameChar a = false) (rest : List Char) :
    (n ++ (if fs.isNil then [] else [';']) ++ (fs.text ++ a :: rest)).span isNameChar =
      (n, (if fs.isNil then [] else [';']) ++ (fs.text ++ a :: rest)) := by
  rw [List.append_assoc]
  refine span_append (isTextName_all hn) ?_
  cases hnil : fs.isNil with
  | false => exact stopsAt_cons _ (by decide)
  | true =>
      rw [TypeFields.text_of_isNil hnil]
      exact stopsAt_cons rest ha

/-- A struct text is not read if its name is too long. -/
theorem structTextHead_unread {h : StructHead Name} (fs : TypeFields) (hh : h.isText = true)
    (hfit : h.nameFits = false) (rest : List Char) :
    structTextHead (h.opener fs.isNil ++ (fs.text ++ h.closer :: rest)) = none := by
  have hextract : ∀ (n : Name) (a : Char), isTextName n = true → isNameChar a = false →
      fitsNamebuf n = false → signatureExtractName
        (n ++ (if fs.isNil then [] else [';']) ++ (fs.text ++ a :: rest)) = none := by
    intro n a hn ha hf
    rw [signatureExtractName_eq (span_opener fs hn ha rest), if_neg (Bool.eq_false_iff.mp hf)]
  cases h with
  | namedStruct n =>
      simp only [StructHead.opener, StructHead.closer, List.cons_append]
      rw [structTextHead, hextract n '}' hh (by decide) hfit]
      rfl
  | namedTuple n =>
      simp only [StructHead.opener, StructHead.closer, List.cons_append]
      rw [structTextHead, hextract n ')' hh (by decide) hfit]
      rfl
  | generalTuple => cases hfit
  | slice => cases hfit

/-- The opener of a struct text, read. -/
theorem structText_open {h : StructHead Name} (fs : TypeFields) (hh : h.isText = true)
    (hfit : h.nameFits = true) (rest : List Char) : ∃ opener semicolon pch,
      structTextHead (h.opener fs.isNil ++ (fs.text ++ h.closer :: rest)) =
        some (h, opener, pch) ∧
      structTextSemicolon h.closer pch = some (semicolon, fs.text ++ h.closer :: rest) ∧
      opener ++ semicolon = h.opener fs.isNil := by
  have hnamed : ∀ (n : Name) (a : Char), isTextName n = true → isNameChar a = false →
      fitsNamebuf n = true → signatureExtractName
        (n ++ (if fs.isNil then [] else [';']) ++ (fs.text ++ a :: rest)) =
          some (n, (if fs.isNil then [] else [';']) ++ (fs.text ++ a :: rest)) := by
    intro n a hn ha hf
    rw [signatureExtractName_eq (span_opener fs hn ha rest), if_pos hf]
  have hsemi : ∀ a : Char, structTextSemicolon a
      ((if fs.isNil then [] else [';']) ++ (fs.text ++ a :: rest)) =
        some (if fs.isNil then [] else [';'], fs.text ++ a :: rest) ∨ a = ';' := by
    intro a
    cases hnil : fs.isNil with
    | false => exact .inl rfl
    | true =>
        rw [TypeFields.text_of_isNil hnil]
        by_cases ha : a = ';'
        · exact .inr ha
        · refine .inl ?_
          simp [structTextSemicolon]
  cases h with
  | namedStruct n =>
      have hne : n.isEmpty = false := by
        simp only [StructHead.isText, isTextName, Bool.and_eq_true] at hh
        simpa using hh.1
      refine ⟨'{' :: n, _, _, ?_, (hsemi '}').resolve_right (by decide), rfl⟩
      simp only [StructHead.opener, StructHead.closer, List.cons_append]
      rw [structTextHead, hnamed n '}' hh (by decide) hfit]
      simp only [Option.bind_eq_bind, Option.bind_some, hne, Bool.false_eq_true, if_false]
  | namedTuple n =>
      have hne : n.isEmpty = false := by
        simp only [StructHead.isText, isTextName, Bool.and_eq_true] at hh
        simpa using hh.1
      refine ⟨'(' :: n, _, _, ?_, (hsemi ')').resolve_right (by decide), rfl⟩
      simp only [StructHead.opener, StructHead.closer, List.cons_append]
      rw [structTextHead, hnamed n ')' hh (by decide) hfit]
      simp only [Option.bind_eq_bind, Option.bind_some, hne, Bool.false_eq_true, if_false]
  | generalTuple => exact ⟨['('], [';'], _, rfl, rfl, rfl⟩
  | slice => exact ⟨['<', 's', 'l', 'i', 'c', 'e', ';'], [';'], _, rfl, rfl, rfl⟩

/-- The name of a member is read if it is not too long. -/
theorem structTextField_label {named : Bool} {n : Option Name} (h : memberNameOk named n = true)
    (rest : List Char) : structTextField named (fieldLabel n ++ rest) =
      if n.all fitsNamebuf then some (n, rest) else none := by
  cases n with
  | none =>
      cases named with
      | true => cases h
      | false => rfl
  | some n =>
      simp only [memberNameOk, Bool.and_eq_true] at h
      obtain ⟨rfl, hn⟩ := h
      have hspan := span_append (r := ':' :: rest) (isIdent_all hn)
        (stopsAt_cons rest (by decide))
      have hne : n ≠ [] := by
        rintro rfl
        cases hn
      rw [fieldLabel, List.append_assoc, List.singleton_append, structTextField, if_pos rfl,
        signatureExtractName_eq hspan, Option.all_some]
      cases fitsNamebuf n with
      | true => simp [hne]
      | false => rfl

end Steps

/-! ### Reading -/

section Reading

variable {tabs : SymTables}

/-- Reading the name `n` in context `c` is what `unwindTypeName` says. -/
def NameReads (tabs : SymTables) (c : UnwindCtx) : Prop :=
  ∀ (st : Scope) (n : Name) (rest : List Char), isIdent n = true → getInnerTypeString n = n →
    StopsAt isNameChar rest →
    ReadsAs (fun k => unwindName tabs k st (n ++ rest) c) rest (unwindTypeName tabs st c n)

def UnwoundFields.of (closer : Char) (rest : List Char) (ds : CAStructFields) : UnwoundFields :=
  ⟨rest, ds.toExpr.text ++ [closer], ds.sizes, ds⟩

theorem TypeFields.unwind_isNil {handler : NameHandler} {st : Scope} {c : UnwindCtx}
    {fs : TypeFields} {ds : CAStructFields} (h : fs.unwind handler st c = some ds) :
    ds.toExpr.isNil = fs.isNil := by
  cases fs with
  | nil =>
      cases h
      rfl
  | cons n t rest =>
      rw [TypeFields.unwind] at h
      split at h
      · cases h
        rfl
      · cases h

/-- The members of a struct text, if their names can be read. -/
def TypeFields.unwindText (handler : NameHandler) (st : Scope) (c : UnwindCtx) (fs : TypeFields) :
    Option CAStructFields :=
  if fs.namesFit then fs.unwind handler st c else none

theorem TypeFields.unwindText_isNil {handler : NameHandler} {st : Scope} {c : UnwindCtx}
    {fs : TypeFields} {ds : CAStructFields} (h : fs.unwindText handler st c = some ds) :
    ds.toExpr.isNil = fs.isNil := by
  rw [TypeFields.unwindText] at h
  split at h
  · exact TypeFields.unwind_isNil h
  · cases h

theorem TypeFields.unwind_cons {handler : NameHandler} {st : Scope} {c : UnwindCtx}
    {n : Option Name} (t : TypeExpr) (rest : TypeFields) :
    ((TypeFields.cons n t rest).unwind handler st c).filter CAStructFields.fit =
      (((t.unwind handler st c).map (pointers 0)).filter CADataType.fits).bind fun D =>
        ((rest.unwind handler st c).filter CAStructFields.fit).bind fun ds =>
          some (.cons n D ds) := by
  rw [TypeFields.unwind]
  cases t.unwind handler st c with
  | none => rfl
  | some D =>
      cases rest.unwind handler st c with
      | none =>
          rw [Option.map_some, Option.filter_none]
          cases ((some (pointers 0 D)).filter CADataType.fits) <;> rfl
      | some ds =>
          have hfit : (CAStructFields.cons n D ds).fit = (D.fits && ds.fit) := rfl
          simp only [Option.map_some, pointers, Option.filter_some, hfit]
          cases D.fits <;> cases ds.fit <;> rfl

theorem TypeFields.unwindText_cons {handler : NameHandler} {st : Scope} {c : UnwindCtx}
    {n : Option Name} (t : TypeExpr) (rest : TypeFields) (hn : n.all fitsNamebuf = true) :
    ((TypeFields.cons n t rest).unwindText handler st c).filter CAStructFields.fit =
      (((t.unwind handler st c).map (pointers 0)).filter CADataType.fits).bind fun D =>
        ((rest.unwindText handler st c).filter CAStructFields.fit).bind fun ds =>
          some (.cons n D ds) := by
  rw [TypeFields.unwindText, TypeFields.namesFit, hn, Bool.true_and, TypeFields.unwindText]
  cases rest.namesFit with
  | true => exact TypeFields.unwind_cons t rest
  | false =>
      rw [if_neg Bool.false_ne_true, if_neg Bool.false_ne_true]
      cases ((t.unwind handler st c).map (pointers 0)).filter CADataType.fits <;> rfl

theorem StructHead.map_name (h : StructHead Name) :
    (h.map (StructId.mk none)).map StructId.name = h := by
  cases h <;> rfl

theorem CADataType.signature_struct (h : StructHead StructId) (ds : CAStructFields) :
    (CADataType.struct h ds).signature =
      (h.map StructId.name).opener ds.toExpr.isNil ++ (ds.toExpr.text ++
        [(h.map StructId.name).closer]) := by
  simp [CADataType.signature, CADataType.toExpr, TypeExpr.text]

theorem Unwound.arrayEnd_print (D : CADataType) (n : Int) (rest : List Char) :
    (Unwound.of (';' :: printInt n ++ ']' :: rest) D).arrayEnd =
      exitWith ((if isLength n then some (CADataType.array D n.toNat) else none).map
        (.of rest)) := by
  rw [Unwound.arrayEnd, Unwound.of, arrayTextLength_print]
  by_cases hn : isLength n = true
  · have hpos : 0 ≤ n := by
      simp only [isLength, Bool.and_eq_true, decide_eq_true_eq] at hn
      exact hn.1
    have hsig : (CADataType.array D n.toNat).signature =
        '[' :: D.signature ++ ';' :: printInt n ++ [']'] := by
      simp [CADataType.signature, CADataType.toExpr, TypeExpr.text, Int.toNat_of_nonneg hpos]
    rw [if_pos hn, if_pos hn, Option.map_some, Unwound.of, hsig]
    rfl
  · rw [if_neg hn, if_neg hn]
    rfl

/-- What follows a member of a struct text, with the `,` taken. -/
theorem afterMember (fs : TypeFields) (h : StructHead Name) (rest : List Char) :
    StopsAt isNameChar ((if fs.isNil then [] else ',' :: fs.text) ++ h.closer :: rest) ∧
      (if ((if fs.isNil then [] else ',' :: fs.text) ++ h.closer :: rest).head? = some ',' then
        ([','], ((if fs.isNil then [] else ',' :: fs.text) ++ h.closer :: rest).tail)
      else ([], (if fs.isNil then [] else ',' :: fs.text) ++ h.closer :: rest)) =
        (if fs.isNil then [] else [','], fs.text ++ h.closer :: rest) := by
  cases hnil : fs.isNil with
  | false => exact ⟨stopsAt_cons _ (by decide), rfl⟩
  | true =>
      rw [TypeFields.text_of_isNil hnil]
      refine ⟨closer_stops h _ rest (by decide), ?_⟩
      cases h <;> rfl

/-- A member text does not start like the end of the struct. -/
theorem member_head_ne_closer {named : Bool} {n : Option Name} {t : TypeExpr}
    (hn : memberNameOk named n = true) (ht : t.isText = true) (h : StructHead Name)
    (rest : List Char) : ((fieldLabel n ++ (t.text ++ rest)).head? = some h.closer) = False := by
  have hstart : ∃ a cs, fieldLabel n ++ (t.text ++ rest) = a :: cs ∧ StartsType a := by
    cases n with
    | none =>
        obtain ⟨a, cs, htext, ha⟩ := t.text_starts ht
        exact ⟨a, cs ++ rest, by rw [htext]; rfl, ha⟩
    | some n =>
        simp only [memberNameOk, Bool.and_eq_true] at hn
        obtain ⟨a, cs, rfl, ha⟩ := isIdent_cons hn.2
        exact ⟨a, _, rfl, .inl ha⟩
  obtain ⟨a, cs, heq, ha⟩ := hstart
  rw [heq, List.head?_cons, eq_iff_iff, iff_false]
  intro hc
  have hac := Option.some.inj hc
  cases h with
  | namedStruct n => exact ha.ne (d := '}') (by decide) hac
  | namedTuple n => exact ha.ne (d := ')') (by decide) hac
  | generalTuple => exact ha.ne (d := ')') (by decide) hac
  | slice => exact ha.ne (d := '>') (by decide) hac

mutual
/-- **Reading an expression**: with the names read as `unwindTypeName` says, so is the text. -/
theorem TypeExpr.reads (t : TypeExpr) (ht : t.isText = true) (d : Nat) (st : Scope)
    (c : UnwindCtx) (rest : List Char) (hr : StopsAt isNameChar rest)
    (hN : ∀ c', room tabs c' ≤ room tabs c → NameReads tabs c') :
    Settles (fun k => unwindInner tabs k st (List.replicate d '*' ++ (t.text ++ rest)) c .none)
      (exitWith ((((t.unwind (unwindTypeName tabs) st (c.behind d)).map (pointers d)).filter
        CADataType.fits).map (.of rest))) := by
  cases t with
  | ident n =>
      simp only [TypeExpr.isText, Bool.and_eq_true, decide_eq_true_eq] at ht
      have hname := hN (c.behind d) (room_behind c d).le st n rest ht.1 ht.2 hr
      obtain ⟨a, cs, rfl, ha⟩ := isIdent_cons ht.1
      rw [TypeExpr.text]
      have hac := isNameChar_of_isAlpha ha
      refine settles_stars ?_ ?_ d ?_
      · rintro rfl
        revert ha
        decide
      · rintro rfl
        revert ha
        decide
      · rw [textKind_of_isNameChar hac]
        exact hname
  | pointer t =>
      have hsub := t.reads ht (d + 1) st c rest hr hN
      have htext : List.replicate d '*' ++ ((TypeExpr.pointer t).text ++ rest) =
          List.replicate (d + 1) '*' ++ (t.text ++ rest) := by
        simp [TypeExpr.text, List.replicate_succ']
      have hctx : (c.behind d).fresh = c.behind (d + 1) := by
        unfold UnwindCtx.behind
        split <;> rfl
      have hp : pointers d ∘ CADataType.pointer = pointers (d + 1) :=
        funext fun D => pointers_add d 1 D
      rw [htext, TypeExpr.unwind, hctx, Option.map_map, hp]
      exact hsub
  | array e n =>
      have htext : (TypeExpr.array e n).text ++ rest =
          '[' :: (e.text ++ (';' :: printInt n ++ ']' :: rest)) := by
        simp [TypeExpr.text]
      rw [htext]
      refine settles_stars (by decide) (by decide) d ?_
      have hsub := e.reads ht 0 st (c.behind d) (';' :: printInt n ++ ']' :: rest)
        (stopsAt_cons _ (by decide)) fun c' hc => hN c' (hc.trans (room_behind c d).le)
      have hend : ∀ D : CADataType, Settles
          (fun _ => (Unwound.of (';' :: printInt n ++ ']' :: rest) D).arrayEnd)
          (exitWith ((if isLength n then some (.array D n.toNat) else none).map (.of rest))) :=
        fun D => (Settles.const _).congr fun _ => Unwound.arrayEnd_print D n rest
      refine ⟨_, (settles_andThen hsub fun D _ => hend D).step fun k => rfl, ?_⟩
      have hunwind : (TypeExpr.array e n).unwind (unwindTypeName tabs) st (c.behind d) =
          ((e.unwind (unwindTypeName tabs) st (c.behind d)).map (pointers 0)).bind fun D =>
            if isLength n then some (.array D n.toNat) else none := by
        rw [TypeExpr.unwind]
        cases e.unwind (unwindTypeName tabs) st (c.behind d) <;> split <;> rfl
      rw [hunwind]
      apply filter_bind_filter
      intro D E hE hfit
      split at hE
      · rw [← Option.some.inj hE] at hfit
        exact CADataType.fits_of_array hfit
      · cases hE
  | struct hd fs =>
      simp only [TypeExpr.isText, Bool.and_eq_true] at ht
      have htext : (TypeExpr.struct hd fs).text ++ rest =
          hd.opener fs.isNil ++ (fs.text ++ hd.closer :: rest) := by
        simp [TypeExpr.text]
      have hrun : ReadsAs (fun k => unwindStruct tabs k st
          (hd.opener fs.isNil ++ (fs.text ++ hd.closer :: rest)) (c.behind d)) rest
          ((TypeExpr.struct hd fs).unwind (unwindTypeName tabs) st (c.behind d)) := by
        cases hfit : hd.nameFits with
        | false =>
            have hnone : (TypeExpr.struct hd fs).unwind (unwindTypeName tabs) st (c.behind d) =
                none := by
              rw [TypeExpr.unwind, hfit]
              rfl
            rw [hnone]
            refine .of_settles ((Settles.const _).step ?_)
            intro k
            simp only [unwindStruct, structTextHead_unread fs ht.1 hfit]
            rfl
        | true =>
            obtain ⟨opener, semicolon, pch, hhead, hsemi, hopen⟩ :=
              structText_open fs ht.1 hfit rest
            have hsub := fs.reads ht.2 st ((c.behind d).enter hd) rest fun c' hc =>
              hN c' ((hc.trans (room_enter_le _ hd)).trans (room_behind c d).le)
            have hstep : ∀ k, unwindStruct tabs (k + 1) st
                (hd.opener fs.isNil ++ (fs.text ++ hd.closer :: rest)) (c.behind d) =
                unwindStructFields tabs k st (fs.text ++ hd.closer :: rest)
                  ((c.behind d).enter hd) hd >>= fun m =>
                    pure (m.structEnd (opener ++ semicolon) hd) := by
              intro k
              simp only [unwindStruct, hhead, exitWith, hsemi, bind, Except.bind]
            have hend : ∀ ds, (fs.unwindText (unwindTypeName tabs) st
                  ((c.behind d).enter hd)).filter CAStructFields.fit = some ds →
                Settles (fun _ => pure ((UnwoundFields.of hd.closer rest ds).structEnd
                    (opener ++ semicolon) hd))
                  (exitWith ((some (CADataType.struct (hd.map (StructId.mk none)) ds)).map
                    (Unwound.of rest))) := by
              intro ds hds
              refine (Settles.const _).congr fun _ => congrArg Except.ok ?_
              rw [Unwound.of, CADataType.signature_struct, StructHead.map_name,
                TypeFields.unwindText_isNil (Option.filter_eq_some_iff.mp hds).1, ← hopen]
              rfl
            refine ⟨_, (settles_andThen (g := fun m _ =>
              pure (m.structEnd (opener ++ semicolon) hd)) hsub hend).step hstep, ?_⟩
            have hunwind : (TypeExpr.struct hd fs).unwind (unwindTypeName tabs) st (c.behind d) =
                (fs.unwindText (unwindTypeName tabs) st ((c.behind d).enter hd)).bind fun ds =>
                  some (.struct (hd.map (StructId.mk none)) ds) := by
              rw [TypeExpr.unwind, TypeFields.unwindText, hfit, Bool.true_and]
              split
              · exact Option.map_eq_bind
              · rfl
            rw [hunwind]
            apply filter_bind_filter
            intro ds E hE hf
            rw [← Option.some.inj hE] at hf
            exact CADataType.fit_of_struct hf
      rw [htext]
      cases hd with
      | namedStruct n => exact settles_stars (by decide) (by decide) d hrun
      | namedTuple n => exact settles_stars (by decide) (by decide) d hrun
      | generalTuple => exact settles_stars (by decide) (by decide) d hrun
      | slice => exact settles_stars (by decide) (by decide) d hrun

/-- Reading the members of a struct text. -/
theorem TypeFields.reads (fs : TypeFields) {hd : StructHead Name}
    (hf : fs.isText hd.hasFieldNames = true) (st : Scope) (c : UnwindCtx) (rest : List Char)
    (hN : ∀ c', room tabs c' ≤ room tabs c → NameReads tabs c') :
    Settles (fun k => unwindStructFields tabs k st (fs.text ++ hd.closer :: rest) c hd)
      (exitWith (((fs.unwindText (unwindTypeName tabs) st c).filter CAStructFields.fit).map
        (.of hd.closer rest))) := by
  cases fs with
  | nil =>
      apply (Settles.const _).step
      intro k
      rw [unwindStructFields, TypeFields.text, List.nil_append, List.head?_cons, if_pos rfl]
      rfl
  | cons n t more =>
      simp only [TypeFields.isText, Bool.and_eq_true] at hf
      have htext : (TypeFields.cons n t more).text ++ hd.closer :: rest =
          fieldLabel n ++ (t.text ++
            ((if more.isNil then [] else ',' :: more.text) ++ hd.closer :: rest)) := by
        simp [TypeFields.text]
      have hopen : ¬ ((fieldLabel n ++ (t.text ++
          ((if more.isNil then [] else ',' :: more.text) ++ hd.closer :: rest))).head? =
            some hd.closer) := by
        rw [member_head_ne_closer hf.1.1 hf.1.2 hd]
        exact not_false
      cases hfit : n.all fitsNamebuf with
      | false =>
          have hnone : (TypeFields.cons n t more).unwindText (unwindTypeName tabs) st c = none := by
            rw [TypeFields.unwindText, TypeFields.namesFit, hfit]
            rfl
          rw [hnone]
          apply (Settles.const _).step
          intro k
          rw [htext, unwindStructFields, if_neg hopen, structTextField_label hf.1.1, hfit]
          rfl
      | true =>
          obtain ⟨hstops, hafter⟩ := afterMember more hd rest
          have htype := t.reads hf.1.2 0 st c _ hstops hN
          have hmore := more.reads hf.2 st c rest hN
          let g : Unwound → Nat → Except UnwindStop UnwoundFields := fun r k =>
            let x := if r.rest.head? = some ',' then ([','], r.rest.tail) else ([], r.rest)
            unwindStructFields tabs k st x.2 c hd >>= fun m => pure (r.member n x.1 m)
          have hstep : ∀ k, unwindStructFields tabs (k + 1) st
              ((TypeFields.cons n t more).text ++ hd.closer :: rest) c hd =
              unwindInner tabs k st (List.replicate 0 '*' ++ (t.text ++
                ((if more.isNil then [] else ',' :: more.text) ++ hd.closer :: rest))) c .none >>=
                fun r => g r k := by
            intro k
            rw [htext, unwindStructFields, if_neg hopen, structTextField_label hf.1.1, hfit]
            rfl
          have hgo : ∀ D, ((t.unwind (unwindTypeName tabs) st c).map (pointers 0)).filter
              CADataType.fits = some D →
              Settles (g (Unwound.of ((if more.isNil then [] else ',' :: more.text) ++
                  hd.closer :: rest) D))
                (exitWith ((((more.unwindText (unwindTypeName tabs) st c).filter
                  CAStructFields.fit).bind fun ds => some (CAStructFields.cons n D ds)).map
                    (.of hd.closer rest))) := by
            intro D _
            have hmap := settles_andThen (y := fun ds => some (CAStructFields.cons n D ds))
              (q := UnwoundFields.of hd.closer rest)
              (g := fun m _ => pure ((Unwound.of ((if more.isNil then [] else ',' :: more.text) ++
                hd.closer :: rest) D).member n (if more.isNil then [] else [',']) m)) hmore
              fun ds hds => (Settles.const _).congr fun _ => congrArg Except.ok ?_
            · apply hmap.congr
              intro k
              simp only [g, Unwound.of, hafter]
            · rw [← TypeFields.unwindText_isNil (Option.filter_eq_some_iff.mp hds).1]
              simp only [Unwound.member, Unwound.of, UnwoundFields.of, CAStructFields.toExpr,
                TypeFields.text, CAStructFields.sizes, CADataType.signature]
              cases hnil : ds.toExpr.isNil with
              | false => simp
              | true => simp [TypeFields.text_of_isNil hnil]
          rw [TypeFields.unwindText_cons t more hfit]
          exact (settles_andThen (g := g) htype hgo).step hstep
end

/-! ### Reading the declarations -/

/-- The members of a declaration as the unwinder writes them, each with a `,` behind it. -/
def membersText : TypeFields → List Char
  | .nil => []
  | .cons n t rest => fieldLabel n ++ t.text ++ [','] ++ membersText rest

theorem membersText_eq (fs : TypeFields) :
    membersText fs = if fs.isNil then [] else fs.text ++ [','] := by
  match fs with
  | .nil => rfl
  | .cons n t rest =>
      rw [membersText, membersText_eq rest, TypeFields.text]
      cases hnil : rest.isNil with
      | false => simp [TypeFields.isNil]
      | true => simp [TypeFields.isNil]

theorem declaredSigbuf_eq (e : STEntry) (tuple : Bool) (ds : CAStructFields) :
    declaredSigbuf tuple e.name (membersText ds.toExpr) =
      (CADataType.struct (e.head tuple) ds).signature := by
  rw [CADataType.signature_struct, declaredSigbuf, membersText_eq]
  have hdrop : ∀ (a : Char) (n l : List Char),
      (a :: (n ++ ';' :: (l ++ [',']))).dropLast = a :: (n ++ ';' :: l) := by
    intro a n l
    have hassoc : a :: (n ++ ';' :: (l ++ [','])) = (a :: (n ++ ';' :: l)) ++ [','] := by simp
    rw [hassoc, List.dropLast_concat]
  have hempty : ∀ (a : Char) (n : List Char), (a :: (n ++ [';'])).dropLast = a :: n :=
    fun a n => by rw [← List.cons_append, List.dropLast_concat]
  cases hnil : ds.toExpr.isNil with
  | true =>
      rw [TypeFields.text_of_isNil hnil]
      cases tuple <;>
        simp [hempty, STEntry.head, STEntry.id, StructHead.map, StructHead.opener,
          StructHead.closer]
  | false =>
      cases tuple <;>
        simp [hdrop, STEntry.head, STEntry.id, StructHead.map, StructHead.opener,
          StructHead.closer]

theorem unwindMembers_settles (ms : TypeFields) {named : Bool} (hm : ms.isText named = true)
    (st : Scope) (c : UnwindCtx)
    (hN : ∀ c', room tabs c' ≤ room tabs c → NameReads tabs c') :
    Settles (fun k => unwindMembers tabs k st ms c)
      (exitWith (((ms.unwind (unwindTypeName tabs) st c).filter CAStructFields.fit).map fun ds =>
        ⟨[], membersText ds.toExpr, ds.sizes, ds⟩)) := by
  match ms with
  | .nil => exact (Settles.const _).step fun k => rfl
  | .cons n t rest =>
      simp only [TypeFields.isText, Bool.and_eq_true] at hm
      have htype := t.reads hm.1.2 0 st c [] (stopsAt_nil _) hN
      rw [List.append_nil] at htype
      have hrest := unwindMembers_settles rest hm.2 st c hN
      have hgo : ∀ D, ((t.unwind (unwindTypeName tabs) st c).map (pointers 0)).filter
          CADataType.fits = some D →
          Settles (fun k => unwindMembers tabs k st rest c >>= fun m =>
              pure ((Unwound.of [] D).member n [','] m))
            (exitWith ((((rest.unwind (unwindTypeName tabs) st c).filter CAStructFields.fit).bind
              fun ds => some (CAStructFields.cons n D ds)).map fun ds =>
                ⟨[], membersText ds.toExpr, ds.sizes, ds⟩)) := by
        intro D _
        exact settles_andThen (g := fun m _ => pure ((Unwound.of [] D).member n [','] m)) hrest
          fun ds _ => .const _
      rw [TypeFields.unwind_cons]
      exact (settles_andThen
        (y := fun D => ((rest.unwind (unwindTypeName tabs) st c).filter CAStructFields.fit).bind
          fun ds => some (CAStructFields.cons n D ds))
        (g := fun (r : Unwound) k => unwindMembers tabs k st rest c >>= fun m =>
          pure (r.member n [','] m)) htype hgo).step fun k => rfl

theorem strutilParseIdentStr_ident {n : Name} (hn : isIdent n = true) {rest : List Char}
    (hr : StopsAt isNameChar rest) :
    strutilParseIdentStr (n ++ rest) = if ReadableName n then some (n, rest) else none := by
  have hspan := signatureExtractName_eq (span_append (isIdent_all hn) hr)
  obtain ⟨a, cs, rfl, -⟩ := isIdent_cons hn
  rw [List.cons_append] at hspan ⊢
  rw [strutilParseIdentStr, hspan]
  simp only [ReadableName, List.head?_cons, Option.map_some, Option.some.injEq]
  by_cases ha : a.isAlpha = true
  · simp only [ha, if_true, true_and]
  · rw [if_neg ha, if_neg fun h => ha h.1]

variable (tabs) in
/-- One step of `catype_unwind_type_name` does what `nameVerdict` says. -/
theorem unwindName_verdict {n : Name} (hn : isIdent n = true) (hp : getInnerTypeString n = n)
    {rest : List Char} (hr : StopsAt isNameChar rest) (st : Scope) (c : UnwindCtx) (k : Nat) :
    unwindName tabs (k + 1) st (n ++ rest) c =
      match nameVerdict tabs st c n with
      | .stop => .error .exit
      | .prim p => .ok (.of rest (.prim p))
      | .back id => .ok (.of rest (.recur id))
      | .expand e =>
          match e.body with
          | .alias id => unwindInner tabs k e.idtable id.text (e.ctx c) .none >>= fun r =>
              if r.rest = [] then pure ⟨rest, r.sigbuf, r.typesize, r.retdt⟩ else .error .exit
          | .struct tuple members => unwindMembers tabs k e.idtable members (e.ctx c) >>= fun m =>
              pure (m.declaredEnd rest e tuple) := by
  rw [unwindName, strutilParseIdentStr_ident hn hr]
  unfold nameVerdict
  by_cases ha : ReadableName n
  · rw [if_pos ha, if_pos ha]
    simp only [exitWith, bind, Except.bind]
    cases hprim : catypeGetPrimitiveByName n with
    | some p =>
        obtain rfl := catypeGetPrimitiveByName_eq_some hp hprim
        rfl
    | none =>
        cases hsym : tabs.symGettypesymByName st n with
        | none => rfl
        | some entry =>
            obtain rfl := (SymTables.symGettypesymByName_mem hsym).2
            simp only []
            by_cases hc : entry.name ∈ c.rcheckset
            · rw [if_pos hc, if_pos hc]
            · rw [if_neg hc, if_neg hc]
              rcases hm : c.prenamemap.lookup entry.name with _ | _ | table
              · simp only [STEntry.ctx, STEntry.nameEntry]
                cases entry.body <;> rfl
              · rfl
              · rfl
  · rw [if_neg ha, if_neg ha]
    rfl

/-- **Every name is read as `unwindTypeName` says**, whatever its declaration expands to. -/
theorem nameReads (c : UnwindCtx) : NameReads tabs c := by
  induction hk : room tabs c using Nat.strong_induction_on generalizing c with
  | _ m ih =>
      intro st n rest hn hp hr
      rw [unwindTypeName_eq]
      have hstep := unwindName_verdict tabs hn hp hr st c
      cases hv : nameVerdict tabs st c n with
      | stop =>
          simp only [hv] at hstep
          exact .of_settles ((Settles.const _).step hstep)
      | prim p =>
          simp only [hv] at hstep
          exact .of_settles ((Settles.const _).step hstep)
      | back id =>
          simp only [hv] at hstep
          exact .of_settles ((Settles.const _).step hstep)
      | expand e =>
          simp only [hv] at hstep ⊢
          have hlt := room_ctx_lt hv
          have hN : ∀ c', room tabs c' ≤ room tabs (e.ctx c) → NameReads tabs c' :=
            fun c' hc => ih (room tabs c') (by omega) c' rfl
          have hdecl := tabs.declared e (nameVerdict_expand_mem hv)
          simp only [STEntry.isDeclared, Bool.and_eq_true] at hdecl
          cases hb : e.body with
          | «alias» id =>
              simp only [hb] at hstep
              have hsource : id.isSource = true := by
                simpa only [hb, TypeBody.isSource] using hdecl.2
              have hid := id.reads (id.isText_of_isSource hsource) 0 e.idtable (e.ctx c) []
                (stopsAt_nil _) hN
              rw [List.append_nil] at hid
              have hrun := settles_andThen (y := some) (q := Unwound.of rest)
                (g := fun (r : Unwound) _ => if r.rest = [] then
                  pure ⟨rest, r.sigbuf, r.typesize, r.retdt⟩ else .error .exit) hid
                fun D _ => .const _
              refine ⟨_, hrun.step hstep, ?_⟩
              have hunwind : e.unwind (unwindTypeName tabs) c =
                  (id.unwind (unwindTypeName tabs) e.idtable (e.ctx c)).map (pointers 0) := by
                simp only [STEntry.unwind, hb]
                cases id.unwind (unwindTypeName tabs) e.idtable (e.ctx c) <;> rfl
              rw [hunwind, filter_bind_filter fun D E hE hf => Option.some.inj hE ▸ hf,
                Option.bind_fun_some]
              rfl
          | struct tuple members =>
              simp only [hb] at hstep
              have hsource : members.isSource (!tuple) = true := by
                simpa only [hb, TypeBody.isSource] using hdecl.2
              have hms := unwindMembers_settles members (members.isText_of_isSource hsource)
                e.idtable (e.ctx c) hN
              have hrun := settles_andThen
                (y := fun ds => some (CADataType.struct (e.head tuple) ds))
                (q := Unwound.of rest) (g := fun m _ => pure (m.declaredEnd rest e tuple)) hms
                fun ds _ => (Settles.const _).congr fun _ => congrArg Except.ok ?_
              · refine ⟨_, hrun.step hstep, ?_⟩
                have hunwind : e.unwind (unwindTypeName tabs) c =
                    (members.unwind (unwindTypeName tabs) e.idtable (e.ctx c)).bind fun ds =>
                      some (.struct (e.head tuple) ds) := by
                  simp only [STEntry.unwind, hb]
                  cases members.unwind (unwindTypeName tabs) e.idtable (e.ctx c) <;> rfl
                rw [hunwind]
                apply filter_bind_filter
                intro ds E hE hf
                rw [← Option.some.inj hE] at hf
                exact CADataType.fit_of_struct hf
              · rw [UnwoundFields.declaredEnd, declaredSigbuf_eq]
                rfl

/-- **Reading a text is unwinding its tree**: `catype_unwind_type_signature` reads the text of an
expression to its end, or stops where the expression has no datatype. -/
theorem catypeUnwindTypeSignature_settles (tabs : SymTables) (st : Scope) {t : TypeExpr}
    (ht : t.isText = true) :
    Settles (fun k => catypeUnwindTypeSignature tabs k st t.text)
      (exitWith ((unwindType tabs st t).map (.of []))) := by
  have h := t.reads ht 0 st .empty [] (stopsAt_nil _)
    fun c (_ : room tabs c ≤ room tabs .empty) => nameReads c
  have hid : pointers 0 = id := rfl
  rw [List.append_nil, hid, Option.map_id] at h
  exact h

end Reading

end CaLang.Types
