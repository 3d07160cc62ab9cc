import CaLang.Text.Symnames

/-! # String literals

The lexer reads a string literal in one of three ways: a string without a backslash, or with `r` in
front, is one token, whose text is interned as a C string; a string with a backslash is read piece
by piece into a buffer, which is interned with its length; `r#"..."#` is read into a buffer as well,
interned with its length, and what `symname_get` reads back of it is interned again as a C string.
**The length is always that of all the bytes, and `strncpy` ends at the first zero byte.** The
length of a token, and the sizes in `buffer_prepare`, are `int`s; what overflows them has no result
here.

- `Denotes`: the literals, with the bytes they stand for;
- `lexLiteral`, `genLiteralValue`: the token of a literal, and the constant made of it later;
- `KeepsBytes`: the constant holds the bytes, in every table of at most `n` bytes, whatever is
  interned behind it;
- `keepsBytes_iff`: it does when the lengths are `int`s and the zero bytes stand at the end.
-/

namespace CaLang.Text

/-- The code of a character. -/
def ch (c : Char) : Byte := UInt8.ofNat c.toNat

/-! ### The source -/

/-- The escapes of one letter. -/
def letterEscapes : List (Byte × Byte) :=
  [(ch 'n', 10), (ch 'r', 13), (ch 't', 9), (ch 'v', 11), (ch 'a', 7), (ch 'b', 8), (ch 'f', 12)]

/-- What a backslash and a character stand for. -/
def unescape (c : Byte) : Byte := (letterEscapes.lookup c).getD c

def isDigit (c : Byte) : Bool := ch '0' ≤ c && c ≤ ch '9'

/-- `[^"\\]`. -/
def isPlain (c : Byte) : Bool := c != ch '"' && c != ch '\\'

/-- The number that decimal digits denote. -/
def decimal (ds : List Byte) : Nat := ds.foldl (fun n d => 10 * n + (d.toNat - 48)) 0

/-- The digits of an escape stand at the head: one to three, and as many as there are. -/
structure DigitsThen (ds rest : List Byte) : Prop where
  pos : 0 < ds.length
  le : ds.length ≤ 3
  digits : ∀ d ∈ ds, isDigit d = true
  maximal : ds.length = 3 ∨ ∀ c ∈ rest.head?, isDigit c = false

/-- The text behind the opening quote, up to the closing one, and the bytes it denotes. -/
inductive Quoted : List Byte → List Byte → Prop
  | close : Quoted [ch '"'] []
  | plain {c src bytes} : isPlain c = true → Quoted src bytes → Quoted (c :: src) (c :: bytes)
  | decimal {ds src bytes} : DigitsThen ds src → decimal ds ≤ 255 → Quoted src bytes →
      Quoted (ch '\\' :: ch 'x' :: (ds ++ src)) (UInt8.ofNat (decimal ds) :: bytes)
  | newline {src bytes} : Quoted src bytes → Quoted (ch '\\' :: ch '\n' :: src) bytes
  | other {c src bytes} : c ≠ ch '\n' →
      (c = ch 'x' → ∀ d ∈ src.head?, isDigit d = false) → Quoted src bytes →
      Quoted (ch '\\' :: c :: src) (unescape c :: bytes)

/-- How a literal is written. -/
inductive Form
  | plain
  | escaped
  | raw
  | rawHash
  deriving DecidableEq

/-- **The string literals**, with the bytes they denote. -/
inductive Denotes : Form → List Byte → List Byte → Prop
  | plain {bytes} : (∀ c ∈ bytes, isPlain c = true) →
      Denotes .plain (ch '"' :: (bytes ++ [ch '"'])) bytes
  | escaped {src bytes} : ch '\\' ∈ src → Quoted src bytes →
      Denotes .escaped (ch '"' :: src) bytes
  | raw {bytes} : ch '"' ∉ bytes → Denotes .raw (ch 'r' :: ch '"' :: (bytes ++ [ch '"'])) bytes
  | rawHash {bytes} : ¬ [ch '"', ch '#'] <:+: bytes ++ [ch '"'] →
      Denotes .rawHash (ch 'r' :: ch '#' :: ch '"' :: (bytes ++ [ch '"', ch '#'])) bytes

/-! ### The lexer -/

/-- `LitBuffer`, of type `CSTRING`. -/
structure LitBuffer where
  text : Int
  len : Int
  deriving DecidableEq

/-- `set_litbuf`, of the C string at `text`. -/
def setLitbuf (σ : Symnames) (text : List Byte) (len : Int) : Symnames × LitBuffer :=
  let (σ, name) := σ.symnameCheckInsert text
  (σ, ⟨name, len⟩)

/-- What is an `int`: otherwise the behaviour is undefined. -/
def ifInt {α : Type} (n : Nat) (x : α) : Option α := if n < 2 ^ 31 then some x else none

/-- `buffer_append`; the new size is computed as an `int`. -/
def bufferAppend (buffer text : List Byte) : Option (List Byte) :=
  ifInt (buffer.length + text.length) (buffer ++ strncpy text)

/-- `buffer_append_char`. -/
def bufferAppendChar (buffer : List Byte) (c : Byte) : Option (List Byte) :=
  ifInt (buffer.length + 1) (buffer ++ [c])

/-- `buffer_binary_end` and `set_litbuf_symname`. -/
def bufferBinaryEnd (σ : Symnames) (buffer : List Byte) : Option (Symnames × LitBuffer) := do
  let ended ← bufferAppendChar buffer 0
  let (σ, name) := σ.symnameBinaryCheckInsert ended ended.length
  return (σ, ⟨name, toCInt (ended.length - 1)⟩)

/-- `buffer_end` and `set_litbuf`. -/
def bufferEnd (σ : Symnames) (buffer : List Byte) : Option (Symnames × LitBuffer) := do
  let (σ, litb) ← bufferBinaryEnd σ buffer
  let text ← σ.symnameGet litb.text
  return setLitbuf σ text litb.len

/-- The start condition `L_STRING`: the buffer at the closing quote, and the text behind it. A
number above 255, and the end of the file, end the compiler. -/
def lexLString (buffer : List Byte) (rest : List Byte) : Option (List Byte × List Byte) :=
  match rest with
  | [] => none
  | c :: more =>
      if c = ch '"' then some (buffer, more)
      else if c = ch '\\' then
        match more with
        | [] => none
        | e :: more =>
            let ds := (more.take 3).takeWhile isDigit
            if e = ch 'x' ∧ ds ≠ [] then
              if 255 < decimal ds then none
              else do
                let buffer ← bufferAppendChar buffer (UInt8.ofNat (decimal ds))
                lexLString buffer (more.drop ds.length)
            else if e = ch '\n' then lexLString buffer more
            else do
              let buffer ← bufferAppendChar buffer (unescape e)
              lexLString buffer more
      else do
        let buffer ← bufferAppend buffer (c :: more.takeWhile isPlain)
        lexLString buffer (more.dropWhile isPlain)
termination_by rest.length
decreasing_by
  all_goals simp only [List.length_drop, List.length_cons]
  · omega
  · omega
  · omega
  · have h := (List.dropWhile_sublist isPlain (l := more)).length_le
    omega

/-- The start condition `L_RAW_STRING`. -/
def lexLRawString (buffer : List Byte) : List Byte → Option (List Byte × List Byte)
  | [] => none
  | c :: more =>
      if c = ch '"' ∧ more.head? = some (ch '#') then some (buffer, more.tail)
      else do
        let buffer ← bufferAppendChar buffer c
        lexLRawString buffer more

/-- A string behind its opening quote: one token if it has no backslash.  `yyleng` is an `int`. -/
def lexQuoted (σ : Symnames) (rest : List Byte) :
    Option ((Symnames × LitBuffer) × List Byte) :=
  let text := rest.takeWhile isPlain
  match rest.dropWhile isPlain with
  | c :: more =>
      if c = ch '"' then do
        let yyleng ← ifInt (text.length + 2) (text.length + 2)
        return (setLitbuf σ text (toCInt (yyleng - 2)), more)
      else do
        let yyleng ← ifInt (text.length + 1) (text.length + 1)
        let buffer ← bufferAppend [] (text.take (yyleng - 1))
        let (buffer, more) ← lexLString buffer (c :: more)
        let token ← bufferBinaryEnd σ buffer
        return (token, more)
  | [] => none

/-- `r"..."`: the closing quote is part of the text that is interned. -/
def lexRaw (σ : Symnames) (rest : List Byte) : Option ((Symnames × LitBuffer) × List Byte) :=
  let text := rest.takeWhile (· != ch '"')
  match rest.dropWhile (· != ch '"') with
  | c :: more => do
      let yyleng ← ifInt (text.length + 3) (text.length + 3)
      return (setLitbuf σ (text ++ [c]) (toCInt (yyleng - 3)), more)
  | [] => none

/-- The token of a string literal, and the text behind it. -/
def lexLiteral (σ : Symnames) : List Byte → Option ((Symnames × LitBuffer) × List Byte)
  | c :: d :: rest =>
      if c = ch '"' then lexQuoted σ (d :: rest)
      else if c = ch 'r' ∧ d = ch '"' then lexRaw σ rest
      else if c = ch 'r' ∧ d = ch '#' ∧ rest.head? = some (ch '"') then do
        let (buffer, more) ← lexLRawString [] rest.tail
        let token ← bufferEnd σ buffer
        return (token, more)
      else none
  | _ => none

/-- The bytes of the constant that `gen_literal_value` makes of a token; none where it reads outside
of the buffer. -/
def genLiteralValue (σ : Symnames) (litb : LitBuffer) : Option (List Byte) :=
  if 0 ≤ litb.text ∧ 0 ≤ litb.len ∧ litb.text + litb.len ≤ σ.buffer.length then
    some ((σ.buffer.drop litb.text.toNat).take litb.len.toNat)
  else none

/-! ### What is asked for -/

/-- The states of the interner reached by interning strings, each at an offset below `2 ^ 31`. -/
inductive Interned (σ : Symnames) : Symnames → Prop
  | refl : Interned σ σ
  | step {σ'} (w : List Byte) : Interned σ σ' →
      (σ'.name2pos.find w = none → σ'.buffer.length < 2 ^ 31) →
      Interned σ (σ'.checkInsert w).1

/-- **The constant holds the bytes**, in every table of at most `n` bytes, whatever is interned
behind the literal. -/
def KeepsBytes (n : Nat) (text bytes : List Byte) : Prop :=
  ∀ σ more, Interned .init σ → σ.buffer.length ≤ n →
    ∃ σ' litb, lexLiteral σ (text ++ more) = some ((σ', litb), more) ∧
      ∀ σ₂, Interned σ' σ₂ → genLiteralValue σ₂ litb = some bytes

/-- What a token, or a buffer, holds besides the bytes: the quotes, or a zero byte. -/
def Form.extra : Form → Nat
  | .plain => 2
  | .escaped => 1
  | .raw => 3
  | .rawHash => 1

/-- Where the last name of a literal begins at the latest, in a table of at most `n` bytes: the form
`r#"..."#` stores its bytes, and two zero bytes, in front of it. -/
def Form.lastOffset (n : Nat) (bytes : List Byte) : Form → Nat
  | .rawHash => n + bytes.length + 2
  | _ => n

/-- **The lengths and the ids are `int`s.** -/
structure LengthsFit (n : Nat) (form : Form) (bytes : List Byte) : Prop where
  size : bytes.length + form.extra < 2 ^ 31
  offset : form.lastOffset n bytes < 2 ^ 31

/-- Where zero bytes may stand: at the end of a string with escapes, and as the last byte of the
others, where the zero byte behind the name takes its place. -/
def ZerosKept : Form → List Byte → Prop
  | .escaped, bytes => ZeroTail bytes
  | _, bytes => (0 : Byte) ∉ bytes.dropLast

/-! ### Reading -/

variable {form : Form} {src bytes buffer more ds rest text : List Byte} {c d e : Byte}
  {σ σ' : Symnames}

theorem isPlain_iff : isPlain c = true ↔ c ≠ ch '"' ∧ c ≠ ch '\\' := by
  unfold isPlain
  rw [Bool.and_eq_true, bne_iff_ne, bne_iff_ne]

theorem lexLString_close : lexLString buffer (ch '"' :: more) = some (buffer, more) := by
  rw [lexLString.eq_def]
  exact if_pos rfl

theorem ifInt_of_lt {α : Type} {n : Nat} {x : α} (h : n < 2 ^ 31) : ifInt n x = some x := if_pos h

theorem ifInt_of_le {α : Type} {n : Nat} {x : α} (h : 2 ^ 31 ≤ n) : ifInt n x = none :=
  if_neg (Nat.not_lt.mpr h)

theorem ifInt_eq_some {α : Type} {n : Nat} {x y : α} (h : ifInt n x = some y) :
    n < 2 ^ 31 ∧ x = y := by
  unfold ifInt at h
  split at h
  · rename_i hlt
    exact ⟨hlt, Option.some.inj h⟩
  · cases h

/-- A length that has grown is the one that counts. -/
theorem ifInt_bind {α β : Type} {m n : Nat} {x : α} {y : β} {f : α → Option β} (hle : m ≤ n)
    (hf : m < 2 ^ 31 → f x = ifInt n y) : (ifInt m x).bind f = ifInt n y := by
  by_cases h : m < 2 ^ 31
  · rw [ifInt_of_lt h, Option.bind_some, hf h]
  · rw [ifInt_of_le (Nat.not_lt.mp h), ifInt_of_le (by omega), Option.bind_none]

/-- `\"[^"\\]*`, as long as it goes. -/
theorem lexLString_plain (hc : isPlain c = true) :
    lexLString buffer (c :: more) =
      (bufferAppend buffer ((c :: more).takeWhile isPlain)).bind
        (lexLString · ((c :: more).dropWhile isPlain)) := by
  obtain ⟨hq, hb⟩ := isPlain_iff.mp hc
  conv_lhs => rw [lexLString.eq_def]
  simp only [if_neg hq, if_neg hb]
  rw [List.takeWhile_cons_of_pos hc, List.dropWhile_cons_of_pos hc]
  rfl

theorem lexLString_newline :
    lexLString buffer (ch '\\' :: ch '\n' :: more) = lexLString buffer more := by
  have hx : ch '\n' ≠ ch 'x' := by decide
  have hq : ch '\\' ≠ ch '"' := by decide
  conv_lhs => rw [lexLString.eq_def]
  simp only [if_neg hq, if_true, hx, false_and, if_false]

theorem takeWhile_digits (h : DigitsThen ds rest) (hr : rest ≠ []) :
    ((ds ++ rest ++ more).take 3).takeWhile isDigit = ds := by
  have hds := h.digits
  obtain ⟨c, rest, rfl⟩ := List.exists_cons_of_ne_nil hr
  rw [List.append_assoc, List.take_append, List.take_of_length_le h.le,
    List.takeWhile_append_of_pos hds]
  rcases h.maximal with hlen | hmax
  · rw [hlen, Nat.sub_self, List.take_zero, List.takeWhile_nil, List.append_nil]
  · have hc := hmax c rfl
    cases hk : 3 - ds.length with
    | zero => rw [List.take_zero, List.takeWhile_nil, List.append_nil]
    | succ k =>
        rw [List.cons_append, List.take_succ_cons, List.takeWhile_cons_of_neg (by rw [hc]; simp),
          List.append_nil]

theorem lexLString_decimal (h : DigitsThen ds rest) (hv : decimal ds ≤ 255) (hr : rest ≠ []) :
    lexLString buffer (ch '\\' :: ch 'x' :: (ds ++ rest ++ more)) =
      (bufferAppendChar buffer (UInt8.ofNat (decimal ds))).bind
        (lexLString · (rest ++ more)) := by
  have hne : ds ≠ [] := List.ne_nil_of_length_pos h.pos
  have hq : ch '\\' ≠ ch '"' := by decide
  have hle : ¬ 255 < decimal ds := by omega
  conv_lhs => rw [lexLString.eq_def]
  simp only [if_neg hq, if_true, takeWhile_digits h hr, true_and, if_pos hne, if_neg hle]
  rw [List.append_assoc, List.drop_left]
  rfl

theorem lexLString_other (hc : c ≠ ch '\n')
    (hx : c = ch 'x' → ∀ d ∈ rest.head?, isDigit d = false) (hr : rest ≠ []) :
    lexLString buffer (ch '\\' :: c :: (rest ++ more)) =
      (bufferAppendChar buffer (unescape c)).bind (lexLString · (rest ++ more)) := by
  have hds : c = ch 'x' → ((rest ++ more).take 3).takeWhile isDigit = [] := by
    intro hcx
    obtain ⟨d, rest, rfl⟩ := List.exists_cons_of_ne_nil hr
    have hd := hx hcx d rfl
    rw [List.cons_append, List.take_succ_cons, List.takeWhile_cons_of_neg (by rw [hd]; simp)]
  have hq : ch '\\' ≠ ch '"' := by decide
  have hnot : ¬ (c = ch 'x' ∧ ((rest ++ more).take 3).takeWhile isDigit ≠ []) :=
    fun h => h.2 (hds h.1)
  conv_lhs => rw [lexLString.eq_def]
  simp only [if_neg hq, if_true, if_neg hnot, if_neg hc]
  rfl

theorem Quoted.ne_nil (h : Quoted src bytes) : src ≠ [] := by
  cases h <;> exact List.cons_ne_nil _ _

/-- The characters in front of the first quote or backslash stand for themselves. -/
theorem Quoted.chunk (h : Quoted src bytes) :
    ∃ tail, bytes = src.takeWhile isPlain ++ tail ∧ Quoted (src.dropWhile isPlain) tail := by
  induction h with
  | close => exact ⟨[], rfl, .close⟩
  | @plain c src bytes hc _ ih =>
      obtain ⟨tail, rfl, htail⟩ := ih
      rw [List.takeWhile_cons_of_pos hc, List.dropWhile_cons_of_pos hc]
      exact ⟨tail, rfl, htail⟩
  | decimal hd hv h => exact ⟨_, rfl, .decimal hd hv h⟩
  | newline h => exact ⟨_, rfl, .newline h⟩
  | other hn hx h => exact ⟨_, rfl, .other hn hx h⟩

theorem Quoted.takeWhile_append (h : Quoted src bytes) (more : List Byte) :
    (src ++ more).takeWhile isPlain = src.takeWhile isPlain ∧
      (src ++ more).dropWhile isPlain = src.dropWhile isPlain ++ more := by
  induction h with
  | @plain c src bytes hc _ ih =>
      rw [List.cons_append, List.takeWhile_cons_of_pos hc, List.takeWhile_cons_of_pos hc,
        List.dropWhile_cons_of_pos hc, List.dropWhile_cons_of_pos hc, ih.1, ih.2]
      exact ⟨rfl, rfl⟩
  | _ => exact ⟨rfl, rfl⟩

/-- The first character that is not plain is a backslash if there is one. -/
theorem Quoted.dropWhile_eq (h : Quoted src bytes) (hb : ch '\\' ∈ src) :
    ∃ rest, src.dropWhile isPlain = ch '\\' :: rest := by
  induction h with
  | close => exact absurd (List.mem_singleton.mp hb) (by decide)
  | @plain c src bytes hc _ ih =>
      rw [List.dropWhile_cons_of_pos hc]
      refine ih ((List.mem_cons.mp hb).resolve_left ?_)
      intro he
      exact (isPlain_iff.mp hc).2 he.symm
  | _ => exact ⟨_, rfl⟩

/-- What is put into a buffer for some bytes: as many, and the bytes themselves when their zero
bytes stand at the end. -/
structure Copied (bytes out : List Byte) : Prop where
  length_eq : out.length = bytes.length
  eq_of_zeroTail : ZeroTail bytes → out = bytes

theorem Copied.strncpy (bytes : List Byte) : Copied bytes (strncpy bytes) :=
  ⟨length_strncpy, strncpy_eq_self_iff.mpr⟩

theorem Copied.refl (bytes : List Byte) : Copied bytes bytes := ⟨rfl, fun _ => rfl⟩

theorem Copied.append {bytes' out out' : List Byte} (h : Copied bytes out)
    (h' : Copied bytes' out') : Copied (bytes ++ bytes') (out ++ out') := by
  refine ⟨?_, ?_⟩
  · rw [List.length_append, List.length_append, h.length_eq, h'.length_eq]
  · intro hz
    obtain ⟨hl, hr⟩ := zeroTail_append hz
    rw [h.eq_of_zeroTail hl, h'.eq_of_zeroTail hr]

/-- **One more byte** in front of what a start condition does with the rest of a literal. -/
theorem bufferAppendChar_bind {lex : List Byte → Option (List Byte × List Byte)}
    {out : List Byte} {c : Byte} (h : ∀ buffer, buffer.length < 2 ^ 31 →
      lex buffer = ifInt (buffer.length + bytes.length) (buffer ++ out, more)) :
    (bufferAppendChar buffer c).bind lex =
      ifInt (buffer.length + (bytes.length + 1)) (buffer ++ c :: out, more) := by
  apply ifInt_bind (by omega)
  intro hlt
  rw [h _ (by rwa [List.length_append, List.length_singleton]), List.length_append,
    List.length_singleton, Nat.add_assoc, Nat.add_comm 1, List.append_assoc, List.singleton_append]

/-- **The start condition `L_STRING` reads a literal to its end**, as long as the buffer's size is
an `int`. -/
theorem Quoted.lexLString (h : Quoted src bytes) (more : List Byte) :
    ∃ out, Copied bytes out ∧ ∀ buffer, buffer.length < 2 ^ 31 →
      lexLString buffer (src ++ more) =
        ifInt (buffer.length + bytes.length) (buffer ++ out, more) := by
  induction hn : src.length using Nat.strong_induction_on generalizing src bytes with
  | _ n ih =>
      subst hn
      cases h with
      | close =>
          refine ⟨[], .refl [], ?_⟩
          intro buffer hbuffer
          rw [List.append_nil, List.length_nil, Nat.add_zero, ifInt_of_lt hbuffer]
          exact lexLString_close
      | @plain c src bytes hc h =>
          have hq : Quoted (c :: src) (c :: bytes) := .plain hc h
          obtain ⟨tail, hbytes, htail⟩ := hq.chunk
          have hlen : ((c :: src).dropWhile isPlain).length < (c :: src).length := by
            rw [List.dropWhile_cons_of_pos hc]
            exact Nat.lt_succ_of_le (List.dropWhile_sublist isPlain).length_le
          obtain ⟨out, hout, heq⟩ := ih _ hlen htail rfl
          refine ⟨strncpy ((c :: src).takeWhile isPlain) ++ out, ?_, ?_⟩
          · rw [hbytes]
            exact (Copied.strncpy _).append hout
          · intro buffer hbuffer
            obtain ⟨ht, hd⟩ := hq.takeWhile_append more
            rw [List.cons_append] at ht hd
            rw [List.cons_append, lexLString_plain hc, ht, hd, bufferAppend, hbytes,
              List.length_append]
            apply ifInt_bind (by omega)
            intro hlt
            rw [heq _ (by rwa [List.length_append, length_strncpy]), List.length_append,
              length_strncpy, List.append_assoc, Nat.add_assoc]
      | @decimal ds src bytes hd hv h =>
          obtain ⟨out, hout, heq⟩ := ih src.length
            (by simp only [List.length_cons, List.length_append]; omega) h rfl
          refine ⟨UInt8.ofNat (Text.decimal ds) :: out, (Copied.refl [_]).append hout, ?_⟩
          intro buffer hbuffer
          rw [List.cons_append, List.cons_append, lexLString_decimal hd hv h.ne_nil]
          exact bufferAppendChar_bind heq
      | newline h =>
          obtain ⟨out, hout, heq⟩ := ih _ (by simp only [List.length_cons]; omega) h rfl
          exact ⟨out, hout, fun buffer hbuffer => lexLString_newline.trans (heq buffer hbuffer)⟩
      | @other c src bytes hn hx h =>
          obtain ⟨out, hout, heq⟩ := ih src.length (by simp only [List.length_cons]; omega) h rfl
          refine ⟨unescape c :: out, (Copied.refl [_]).append hout, ?_⟩
          intro buffer hbuffer
          rw [List.cons_append, List.cons_append, lexLString_other hn hx h.ne_nil]
          exact bufferAppendChar_bind heq

theorem lexLRawString_of_not_infix (h : ¬ [ch '"', ch '#'] <:+: bytes ++ [ch '"']) :
    ∀ buffer, buffer.length < 2 ^ 31 →
      lexLRawString buffer (bytes ++ (ch '"' :: ch '#' :: more)) =
        ifInt (buffer.length + bytes.length) (buffer ++ bytes, more) := by
  induction bytes with
  | nil =>
      intro buffer hbuffer
      rw [List.append_nil, List.nil_append, lexLRawString, if_pos ⟨rfl, rfl⟩, List.tail_cons,
        List.length_nil, Nat.add_zero, ifInt_of_lt hbuffer]
  | cons b bytes ih =>
      intro buffer hbuffer
      have hnot : ¬ (b = ch '"' ∧
          (bytes ++ (ch '"' :: ch '#' :: more)).head? = some (ch '#')) := by
        rintro ⟨rfl, hhead⟩
        cases bytes with
        | nil => exact absurd (Option.some.inj hhead) (by decide)
        | cons d bytes =>
            obtain rfl : d = ch '#' := Option.some.inj hhead
            exact h ⟨[], bytes ++ [ch '"'], rfl⟩
      have htail : ¬ [ch '"', ch '#'] <:+: bytes ++ [ch '"'] :=
        fun hi => h (hi.trans (List.suffix_cons b _).isInfix)
      rw [List.cons_append, lexLRawString, if_neg hnot]
      exact bufferAppendChar_bind (ih htail)

/-! ### Tokens -/

theorem lexLiteral_plain (h : ∀ c ∈ bytes, isPlain c = true) :
    lexLiteral σ (ch '"' :: (bytes ++ [ch '"']) ++ more) =
      ifInt (bytes.length + 2) (setLitbuf σ bytes (toCInt bytes.length), more) := by
  have hq : ¬ isPlain (ch '"') = true := by decide
  have hlex : lexQuoted σ (bytes ++ (ch '"' :: more)) =
      ifInt (bytes.length + 2) (setLitbuf σ bytes (toCInt bytes.length), more) := by
    unfold lexQuoted
    rw [List.takeWhile_append_of_pos h, List.dropWhile_append_of_pos h,
      List.takeWhile_cons_of_neg hq, List.dropWhile_cons_of_neg hq, List.append_nil]
    refine (if_pos rfl).trans (ifInt_bind (Nat.le_refl _) ?_)
    intro hlt
    rw [ifInt_of_lt hlt, Nat.add_sub_cancel]
    rfl
  rw [List.cons_append, List.append_assoc, List.singleton_append]
  obtain ⟨d, rest, hrest⟩ := List.exists_cons_of_ne_nil
    (List.append_ne_nil_of_right_ne_nil bytes (List.cons_ne_nil (ch '"') more))
  rw [hrest] at hlex ⊢
  rw [lexLiteral, if_pos rfl, hlex]

/-- The token of a buffer: its bytes are interned with a zero byte behind them. -/
def bufferToken (σ : Symnames) (buffer : List Byte) : Symnames × LitBuffer :=
  ((σ.checkInsert (buffer ++ [0])).1, ⟨(σ.checkInsert (buffer ++ [0])).2, toCInt buffer.length⟩)

theorem bufferBinaryEnd_eq :
    bufferBinaryEnd σ buffer = ifInt (buffer.length + 1) (bufferToken σ buffer) := by
  apply ifInt_bind (Nat.le_refl _)
  intro hlt
  rw [ifInt_of_lt hlt, Symnames.symnameBinaryCheckInsert_length, List.length_append,
    List.length_singleton, Nat.add_sub_cancel]
  rfl

theorem lexLiteral_escaped (more : List Byte) (hb : ch '\\' ∈ src) (h : Quoted src bytes) :
    ∃ out, Copied bytes out ∧ ∀ σ, lexLiteral σ (ch '"' :: src ++ more) =
      ifInt (bytes.length + 1) (bufferToken σ out, more) := by
  obtain ⟨tail, hbytes, htail⟩ := h.chunk
  obtain ⟨rest, hrest⟩ := h.dropWhile_eq hb
  obtain ⟨out, hout, heq⟩ := htail.lexLString more
  have hcopied : Copied bytes (strncpy (src.takeWhile isPlain) ++ out) := by
    rw [hbytes]
    exact (Copied.strncpy _).append hout
  refine ⟨_, hcopied, ?_⟩
  intro σ
  have hlength : bytes.length = (src.takeWhile isPlain).length + tail.length := by
    rw [hbytes, List.length_append]
  have hlex : lexQuoted σ (src ++ more) = ifInt (bytes.length + 1)
      (bufferToken σ (strncpy (src.takeWhile isPlain) ++ out), more) := by
    unfold lexQuoted
    rw [(h.takeWhile_append more).1, (h.takeWhile_append more).2]
    rw [hrest, List.cons_append] at heq ⊢
    simp only [if_neg (show ch '\\' ≠ ch '"' by decide)]
    -- the first piece, the pieces behind it, and the zero byte
    apply ifInt_bind (by omega)
    intro hlt
    rw [Nat.add_sub_cancel, List.take_length]
    apply ifInt_bind (by simp only [List.length_nil]; omega)
    intro hlt
    rw [List.nil_append, heq _ (by rw [length_strncpy]; omega), length_strncpy]
    apply ifInt_bind (by omega)
    intro hlt
    rw [bufferBinaryEnd_eq, hcopied.length_eq]
    apply ifInt_bind (Nat.le_refl _)
    intro hlt
    rw [ifInt_of_lt hlt]
    rfl
  obtain ⟨d, src, rfl⟩ := List.exists_cons_of_ne_nil h.ne_nil
  rw [List.cons_append, List.cons_append, lexLiteral, if_pos rfl, ← List.cons_append, hlex]

theorem lexLiteral_raw (h : ch '"' ∉ bytes) :
    lexLiteral σ (ch 'r' :: ch '"' :: (bytes ++ [ch '"']) ++ more) =
      ifInt (bytes.length + 3)
        (setLitbuf σ (bytes ++ [ch '"']) (toCInt bytes.length), more) := by
  have hbytes : ∀ c ∈ bytes, (c != ch '"') = true := by
    intro c hc
    rw [bne_iff_ne]
    rintro rfl
    exact h hc
  have hq : ¬ (fun c => c != ch '"') (ch '"') = true := by decide
  rw [List.cons_append, List.cons_append, List.append_assoc, List.singleton_append, lexLiteral,
    if_neg (by decide), if_pos ⟨rfl, rfl⟩]
  unfold lexRaw
  rw [List.takeWhile_append_of_pos hbytes, List.dropWhile_append_of_pos hbytes,
    List.takeWhile_cons_of_neg (p := fun c => c != ch '"') hq,
    List.dropWhile_cons_of_neg (p := fun c => c != ch '"') hq, List.append_nil]
  apply ifInt_bind (Nat.le_refl _)
  intro hlt
  rw [ifInt_of_lt hlt, Nat.add_sub_cancel]
  rfl

theorem lexLiteral_rawHash (h : ¬ [ch '"', ch '#'] <:+: bytes ++ [ch '"']) :
    lexLiteral σ (ch 'r' :: ch '#' :: ch '"' :: (bytes ++ [ch '"', ch '#']) ++ more) =
      (ifInt bytes.length bytes).bind fun buffer => (bufferEnd σ buffer).map (·, more) := by
  rw [List.cons_append, List.cons_append, List.cons_append, List.append_assoc, lexLiteral,
    if_neg (by decide), if_neg (by decide), if_pos ⟨rfl, rfl, rfl⟩]
  rw [List.tail_cons, List.cons_append, List.singleton_append,
    lexLRawString_of_not_infix h [] (by decide), List.nil_append, List.length_nil, Nat.zero_add]
  unfold ifInt
  split
  · rw [Option.bind_some, Option.map_eq_bind]
    rfl
  · rfl

/-! ### States -/

theorem Interned.allStored (h : Interned σ σ') (hσ : AllStored σ) : AllStored σ' := by
  induction h with
  | refl => exact hσ
  | step w _ hfits ih => exact ih.checkInsert hfits

theorem Interned.buffer_prefix (h : Interned σ σ') : σ.buffer <+: σ'.buffer := by
  induction h with
  | refl => exact List.prefix_rfl
  | step w _ _ ih => exact ih.trans (Symnames.buffer_prefix_checkInsert _ w)

/-- The other of two letters makes another name. -/
theorem exists_ne (k : Nat) (w : List Byte) (hw : k = 0 → w ≠ []) :
    ∃ s : List Byte, s.length = k ∧ (0 : Byte) ∉ s ∧ w ≠ s := by
  have hzero : ∀ b : Byte, b ≠ 0 → (0 : Byte) ∉ List.replicate k b :=
    fun b hb hmem => hb (List.eq_of_mem_replicate hmem).symm
  by_cases h : w = List.replicate k 97
  · refine ⟨List.replicate k 98, List.length_replicate, hzero 98 (by decide), ?_⟩
    rw [h]
    cases k with
    | zero => exact absurd h (hw rfl)
    | succ k => exact fun he => absurd (List.cons.inj he).1 (by decide)
  · exact ⟨List.replicate k 97, List.length_replicate, hzero 97 (by decide), h⟩

/-- **A table of any size**, without a given name and without any that holds a zero byte. -/
theorem exists_interned (m : Nat) (w : List Byte) (hw : m = 1 → w ≠ []) :
    ∃ σ, Interned .init σ ∧ σ.buffer.length = m ∧ σ.name2pos.find w = none ∧
      ∀ v, (0 : Byte) ∈ v → σ.name2pos.find v = none := by
  cases m with
  | zero => exact ⟨.init, .refl, rfl, rfl, fun v _ => rfl⟩
  | succ k =>
      obtain ⟨s, hlen, hs, hws⟩ := exists_ne k w fun hk => hw (by rw [hk])
      refine ⟨(Symnames.init.checkInsert s).1, .step s .refl fun _ => by decide, ?_, ?_, ?_⟩
      · have hbuffer : (Symnames.init.checkInsert s).1.buffer = strncpy s ++ [0] := rfl
        rw [hbuffer, List.length_append, length_strncpy, hlen, List.length_singleton]
      · exact Symnames.find_of_checkInsert (σ := .init) hws
      · intro v hv
        apply Symnames.find_of_checkInsert (σ := .init)
        rintro rfl
        exact hs hv

/-- A token stands for a string that is stored, with the length of the bytes. -/
structure Token (bytes w : List Byte) (σ' : Symnames) (litb : LitBuffer) : Prop where
  stored : Stored σ' w litb.text
  len : litb.len = toCInt bytes.length

theorem stored_checkInsert (w : List Byte) (hσ : AllStored σ)
    (hroom : σ.buffer.length < 2 ^ 31) :
    Stored (σ.checkInsert w).1 w (σ.checkInsert w).2 :=
  hσ.checkInsert (fun _ => hroom) w _ (Symnames.find_checkInsert_self σ w)

theorem token_setLitbuf (bytes text : List Byte) (hσ : AllStored σ)
    (hroom : σ.buffer.length < 2 ^ 31) :
    Token bytes (cstring text) (setLitbuf σ text (toCInt bytes.length)).1
      (setLitbuf σ text (toCInt bytes.length)).2 :=
  ⟨stored_checkInsert _ hσ hroom, rfl⟩

theorem token_bufferToken (hlen : buffer.length = bytes.length) (hσ : AllStored σ)
    (hroom : σ.buffer.length < 2 ^ 31) :
    Token bytes (buffer ++ [0]) (bufferToken σ buffer).1 (bufferToken σ buffer).2 :=
  ⟨stored_checkInsert _ hσ hroom, congrArg (fun n : Nat => toCInt n) hlen⟩

/-- **The constant of a token**, whatever is interned behind it. -/
theorem Token.value {w : List Byte} {litb : LitBuffer} {σ₂ : Symnames}
    (h : Token bytes w σ' litb) (hlen : bytes.length < 2 ^ 31) (hw : bytes.length ≤ w.length + 1)
    (h₂ : Interned σ' σ₂) :
    genLiteralValue σ₂ litb = some ((strncpy w ++ [0]).take bytes.length) := by
  obtain ⟨hid, post, hpost⟩ := h.stored.mono h₂.buffer_prefix
  have hlt := (h.stored.mono h₂.buffer_prefix).toNat_lt
  have hn : litb.len = bytes.length := h.len.trans (toCInt_of_lt hlen)
  have hdrop := congrArg List.length hpost
  rw [List.length_drop, List.length_append, length_strncpy, List.length_cons] at hdrop
  rw [genLiteralValue, if_pos (by omega), hpost, hn, Int.toNat_natCast, List.append_cons,
    List.take_append_of_le_length (by simpa using hw)]

/-- The constant has as many bytes as the token says, and they lie in the buffer. -/
theorem length_of_genLiteralValue {litb : LitBuffer} {v : List Byte}
    (h : genLiteralValue σ litb = some v) :
    litb.len = v.length ∧ litb.text + litb.len ≤ σ.buffer.length := by
  unfold genLiteralValue at h
  split at h
  · rename_i hin
    rw [← Option.some.inj h, List.length_take, List.length_drop]
    omega
  · cases h

/-- Behind `2 ^ 31` an offset is a negative id, which no constant is read from. -/
theorem genLiteralValue_eq_none {litb : LitBuffer} {m : Nat} (hid : litb.text = toCInt m)
    (hlo : 2 ^ 31 ≤ m) (hhi : m < 2 ^ 32) : genLiteralValue σ litb = none := by
  have hneg : toCInt m < 0 := by
    unfold toCInt
    rw [Int.bmod_def]
    split <;> omega
  exact if_neg fun h => by omega

theorem cstring_append_singleton_zero : cstring (bytes ++ [0]) = cstring bytes := by
  unfold cstring
  rw [List.takeWhile_append]
  split
  · rename_i h
    rw [List.takeWhile_cons_of_neg (by simp), List.append_nil]
    exact ((List.takeWhile_prefix _).eq_of_length h).symm
  · rfl

/-- `r#"..."#` ends as the other forms do, once its bytes are interned. -/
theorem bufferEnd_eq (hσ : AllStored σ) (hroom : σ.buffer.length < 2 ^ 31) :
    bufferEnd σ bytes = ifInt (bytes.length + 1)
      (setLitbuf (bufferToken σ bytes).1 bytes (toCInt bytes.length)) := by
  have hget := (token_bufferToken (Eq.refl bytes.length) hσ hroom).stored.get
  rw [cstring_append_singleton_zero] at hget
  unfold bufferEnd
  rw [bufferBinaryEnd_eq]
  apply ifInt_bind (Nat.le_refl _)
  intro hlt
  simp only [hget, Option.bind_eq_bind, Option.bind_some]
  rw [ifInt_of_lt hlt, setLitbuf, setLitbuf, Symnames.symnameCheckInsert,
    Symnames.symnameCheckInsert, cstring_of_no_zero zero_notMem_cstring]
  rfl

/-- The state in which a literal without escapes interns its last name. -/
def lastState (σ : Symnames) (bytes : List Byte) : Form → Symnames
  | .rawHash => (bufferToken σ bytes).1
  | _ => σ

/-- The text of its last name; `r"..."` takes the closing quote along. -/
def lastText (bytes : List Byte) : Form → List Byte
  | .raw => bytes ++ [ch '"']
  | _ => bytes

theorem lastText_eq (form : Form) (bytes : List Byte) :
    ∃ post, (0 : Byte) ∉ post ∧ lastText bytes form = bytes ++ post := by
  cases form with
  | raw => exact ⟨[ch '"'], by decide, rfl⟩
  | _ => exact ⟨[], List.not_mem_nil, (List.append_nil _).symm⟩

theorem interned_lastState (form : Form) (bytes : List Byte)
    (hroom : form = .rawHash → σ.buffer.length < 2 ^ 31) :
    Interned σ (lastState σ bytes form) := by
  cases form with
  | rawHash => exact .step _ .refl fun _ => hroom rfl
  | _ => exact .refl

theorem length_lastState_le (form : Form) (bytes : List Byte) :
    (lastState σ bytes form).buffer.length ≤ form.lastOffset σ.buffer.length bytes := by
  cases form with
  | rawHash =>
      refine (σ.length_buffer_checkInsert (bytes ++ [0])).trans_eq ?_
      rw [List.length_append, List.length_singleton]
      rfl
  | _ => exact Nat.le_refl _

theorem length_lastState (form : Form) (h : σ.name2pos.find (bytes ++ [0]) = none) :
    (lastState σ bytes form).buffer.length = form.lastOffset σ.buffer.length bytes := by
  cases form with
  | rawHash =>
      simp only [lastState, bufferToken, Symnames.checkInsert, h, Form.lastOffset]
      rw [Symnames.symnameInsert_buffer, List.length_append, List.length_append, length_strncpy,
        List.length_append, List.length_singleton]
      rfl
  | _ => rfl

theorem find_lastState (form : Form) (h : σ.name2pos.find (cstring text) = none) :
    (lastState σ bytes form).name2pos.find (cstring text) = none := by
  cases form with
  | rawHash =>
      have hne : cstring text ≠ bytes ++ [0] := by
        intro he
        have hmem : (0 : Byte) ∈ cstring text := by simp [he]
        exact zero_notMem_cstring hmem
      exact (Symnames.find_of_checkInsert hne).trans h
  | _ => exact h

/-- **The forms without escapes** end in one call of `set_litbuf`. -/
theorem Denotes.lexLiteral_eq (h : Denotes form text bytes) (more : List Byte)
    (hform : form ≠ .escaped) (hσ : AllStored σ)
    (hroom : form = .rawHash → σ.buffer.length < 2 ^ 31) :
    lexLiteral σ (text ++ more) = ifInt (bytes.length + form.extra)
      (setLitbuf (lastState σ bytes form) (lastText bytes form) (toCInt bytes.length), more) := by
  cases h with
  | plain hp => exact lexLiteral_plain hp
  | escaped => exact absurd rfl hform
  | raw hr => exact lexLiteral_raw hr
  | rawHash hr =>
      rw [lexLiteral_rawHash hr]
      apply ifInt_bind (Nat.le_add_right _ _)
      intro hlt
      rw [bufferEnd_eq hσ (hroom rfl), Option.map_eq_bind]
      exact ifInt_bind (Nat.le_refl _) fun hlt => (ifInt_of_lt hlt).symm

theorem setLitbuf_of_new (len : Int) (h : σ.name2pos.find (cstring text) = none) :
    (setLitbuf σ text len).2.text = toCInt σ.buffer.length ∧
      (setLitbuf σ text len).1.buffer.length = σ.buffer.length + (cstring text).length + 1 := by
  unfold setLitbuf Symnames.symnameCheckInsert Symnames.checkInsert
  simp only [h]
  refine ⟨rfl, ?_⟩
  rw [Symnames.symnameInsert_buffer, List.length_append, List.length_append, length_strncpy,
    List.length_singleton]

/-! ### The claim of the constant -/

variable {n : Nat}

/-- **What a literal without escapes that is kept says of a table**: its token is made, and the
constant read from it. -/
theorem KeepsBytes.setLitbuf (h : KeepsBytes n text bytes) (hd : Denotes form text bytes)
    (hform : form ≠ .escaped) (hσ : Interned .init σ) (hn : σ.buffer.length ≤ n)
    (hroom : form = .rawHash → σ.buffer.length < 2 ^ 31) :
    bytes.length + form.extra < 2 ^ 31 ∧
      genLiteralValue
        (Text.setLitbuf (lastState σ bytes form) (lastText bytes form) (toCInt bytes.length)).1
        (Text.setLitbuf (lastState σ bytes form) (lastText bytes form) (toCInt bytes.length)).2 =
          some bytes := by
  obtain ⟨σ', litb, hlex, hval⟩ := h σ [] hσ hn
  rw [hd.lexLiteral_eq [] hform (hσ.allStored allStored_init) hroom] at hlex
  obtain ⟨hsize, heq⟩ := ifInt_eq_some hlex
  refine ⟨hsize, ?_⟩
  rw [(Prod.mk.inj heq).1]
  exact hval σ' .refl

/-- The same of a literal with escapes, whose bytes have been put into a buffer. -/
theorem KeepsBytes.bufferToken (h : KeepsBytes n text bytes) (hd : Denotes .escaped text bytes)
    (hσ : Interned .init σ) (hn : σ.buffer.length ≤ n) :
    bytes.length + 1 < 2 ^ 31 ∧ ∃ out, Copied bytes out ∧
      genLiteralValue (Text.bufferToken σ out).1 (Text.bufferToken σ out).2 = some bytes := by
  obtain ⟨σ', litb, hlex, hval⟩ := h σ [] hσ hn
  cases hd with
  | escaped hb hq =>
      obtain ⟨out, hout, hlit⟩ := lexLiteral_escaped [] hb hq
      rw [hlit σ] at hlex
      obtain ⟨hsize, heq⟩ := ifInt_eq_some hlex
      refine ⟨hsize, out, hout, ?_⟩
      rw [(Prod.mk.inj heq).1]
      exact hval σ' .refl

theorem KeepsBytes.size (h : KeepsBytes n text bytes) (hd : Denotes form text bytes) :
    bytes.length + form.extra < 2 ^ 31 := by
  by_cases hform : form = .escaped
  · subst hform
    exact (h.bufferToken hd .refl (Nat.zero_le n)).1
  · exact (h.setLitbuf hd hform .refl (Nat.zero_le n) fun _ => by decide).1

theorem KeepsBytes.zeroTail (h : KeepsBytes n text bytes) (hd : Denotes .escaped text bytes) :
    ZeroTail bytes := by
  obtain ⟨hsize, out, hout, hval⟩ := h.bufferToken hd .refl (Nat.zero_le n)
  have htoken := token_bufferToken hout.length_eq allStored_init (by decide)
  have hle : bytes.length ≤ (strncpy (out ++ [0])).length := by
    rw [length_strncpy, List.length_append, hout.length_eq]
    exact Nat.le_add_right _ _
  -- the constant is the beginning of what `strncpy` has copied
  have hcopy : (strncpy (out ++ [0])).take bytes.length = bytes := by
    have hw : bytes.length ≤ (out ++ [0]).length + 1 := by
      rw [length_strncpy] at hle
      exact Nat.le_succ_of_le hle
    have hv := (htoken.value (by omega) hw .refl).symm.trans hval
    rwa [Option.some.injEq, List.take_append_of_le_length hle] at hv
  have hz := zeroTail_strncpy (out ++ [0])
  rw [← List.take_append_drop bytes.length (strncpy (out ++ [0])), hcopy] at hz
  exact (zeroTail_append hz).1

/-- Without escapes, a name that ends early leaves the constant outside of the buffer. -/
theorem KeepsBytes.notMem_dropLast (h : KeepsBytes n text bytes) (hd : Denotes form text bytes)
    (hform : form ≠ .escaped) : (0 : Byte) ∉ bytes.dropLast := by
  intro hmem
  obtain ⟨hsize, hval⟩ := h.setLitbuf hd hform .refl (Nat.zero_le n) fun _ => by decide
  have hnew : (lastState .init bytes form).name2pos.find (cstring (lastText bytes form)) = none :=
    find_lastState form rfl
  obtain ⟨hid, hbuffer⟩ := setLitbuf_of_new (toCInt bytes.length) hnew
  obtain ⟨hlen, hin⟩ := length_of_genLiteralValue hval
  have hne : bytes ≠ [] := by
    rintro rfl
    cases hmem
  have hshort : (cstring (lastText bytes form)).length + 1 < bytes.length := by
    obtain ⟨post, -, ht⟩ := lastText_eq form bytes
    have hlast := cstring_append_of_mem (t := [bytes.getLast hne] ++ post) hmem
    rw [← List.append_assoc, List.dropLast_append_getLast hne, ← ht] at hlast
    have hl := hlast.2
    rw [List.length_dropLast, ← hlast.1] at hl
    omega
  by_cases hfits : (lastState .init bytes form).buffer.length < 2 ^ 31
  · rw [toCInt_of_lt hfits] at hid
    omega
  · have hle := length_lastState_le (σ := .init) form bytes
    have hoffset : form.lastOffset 0 bytes ≤ bytes.length + 2 := by
      cases form <;> simp only [Form.lastOffset] <;> omega
    rw [genLiteralValue_eq_none hid (Nat.not_lt.mp hfits)
      (hle.trans_lt (hoffset.trans_lt (by omega)))] at hval
    cases hval

theorem KeepsBytes.zerosKept (h : KeepsBytes n text bytes) (hd : Denotes form text bytes) :
    ZerosKept form bytes := by
  cases form with
  | escaped => exact h.zeroTail hd
  | _ => exact h.notMem_dropLast hd (by decide)

/-- In a table that is long enough, the last name would begin behind `2 ^ 31`. -/
theorem KeepsBytes.offset (h : KeepsBytes n text bytes) (hd : Denotes form text bytes) :
    form.lastOffset n bytes < 2 ^ 31 := by
  by_contra hle
  have hsize := h.size hd
  by_cases hform : form = .escaped
  · subst hform
    simp only [Form.lastOffset] at hle
    obtain ⟨σ, hσ, hm, -, hnew⟩ := exists_interned (2 ^ 31) [] (by decide)
    obtain ⟨-, out, -, hval⟩ := h.bufferToken hd hσ (by omega)
    have hid : (Text.bufferToken σ out).2.text = toCInt σ.buffer.length := by
      simp only [Text.bufferToken, Symnames.checkInsert, hnew _ (List.mem_append_right out
        List.mem_cons_self)]
      rfl
    rw [genLiteralValue_eq_none hid (by omega) (by omega)] at hval
    cases hval
  · -- a table that is full, or one that the bytes of the literal fill
    obtain ⟨m, hmn, hroom, hlo, hhi, hm⟩ : ∃ m, m ≤ n ∧ (form = .rawHash → m < 2 ^ 31) ∧
        2 ^ 31 ≤ form.lastOffset m bytes ∧ form.lastOffset m bytes < 2 ^ 32 ∧
        (m = 1 → 2 ≤ bytes.length) := by
      cases form with
      | rawHash =>
          simp only [Form.lastOffset, Form.extra] at hle hsize ⊢
          exact ⟨min n (2 ^ 31 - 1), by omega, by omega, by omega, by omega, by omega⟩
      | escaped => exact absurd rfl hform
      | _ =>
          simp only [Form.lastOffset] at hle ⊢
          exact ⟨2 ^ 31, by omega, fun hf => Form.noConfusion hf, by omega, by omega, by omega⟩
    have hname : m = 1 → cstring (lastText bytes form) ≠ [] := by
      obtain ⟨post, hpost, ht⟩ := lastText_eq form bytes
      intro h1 hnil
      have hlong := (take_cstring_zero (h.notMem_dropLast hd hform) hpost).1
      rw [← ht, hnil] at hlong
      simp only [List.length_nil] at hlong
      have hm1 := hm h1
      omega
    obtain ⟨σ, hσ, rfl, hfind, hzero⟩ := exists_interned m _ hname
    obtain ⟨-, hval⟩ := h.setLitbuf hd hform hσ hmn hroom
    have hlast : (lastState σ bytes form).name2pos.find (cstring (lastText bytes form)) = none :=
      find_lastState form hfind
    have hid := (setLitbuf_of_new (toCInt bytes.length) hlast).1
    rw [length_lastState form (hzero _ (List.mem_append_right bytes List.mem_cons_self))] at hid
    rw [genLiteralValue_eq_none hid hlo hhi] at hval
    cases hval

theorem lastOffset_mono {m : Nat} (h : m ≤ n) (form : Form) (bytes : List Byte) :
    m ≤ form.lastOffset m bytes ∧ form.lastOffset m bytes ≤ form.lastOffset n bytes := by
  cases form <;> simp only [Form.lastOffset] <;> omega

theorem keepsBytes_of_escaped (hd : Denotes .escaped text bytes)
    (hfit : LengthsFit n .escaped bytes) (hz : ZeroTail bytes) : KeepsBytes n text bytes := by
  intro σ more hσ hn
  cases hd with
  | escaped hb hq =>
      have hsize : bytes.length + 1 < 2 ^ 31 := hfit.size
      have hroom : σ.buffer.length < 2 ^ 31 := hn.trans_lt hfit.offset
      obtain ⟨out, hout, heq⟩ := lexLiteral_escaped more hb hq
      obtain rfl : out = bytes := hout.eq_of_zeroTail hz
      refine ⟨(bufferToken σ out).1, (bufferToken σ out).2, ?_, ?_⟩
      · rw [heq σ, ifInt_of_lt hsize]
      · intro σ₂ h₂
        have hcopy : (strncpy (out ++ [0]) ++ [0]).take out.length = out := by
          rw [strncpy_eq_self_iff.mpr (zeroTail_append_zero hz), List.append_assoc, List.take_left]
        have htoken := token_bufferToken (Eq.refl out.length) (hσ.allStored allStored_init) hroom
        rw [htoken.value (by omega) (by simp only [List.length_append]; omega) h₂, hcopy]

theorem keepsBytes_of_notMem (hd : Denotes form text bytes) (hform : form ≠ .escaped)
    (hfit : LengthsFit n form bytes) (hz : (0 : Byte) ∉ bytes.dropLast) :
    KeepsBytes n text bytes := by
  intro σ more hσ hn
  have hall := hσ.allStored allStored_init
  obtain ⟨hmin, hmono⟩ := lastOffset_mono hn form bytes
  have hoffset := hmono.trans_lt hfit.offset
  have hroom : form = .rawHash → σ.buffer.length < 2 ^ 31 := fun _ => hmin.trans_lt hoffset
  have hlast := (length_lastState_le (σ := σ) form bytes).trans_lt hoffset
  have hlex := (hd.lexLiteral_eq more hform hall hroom).trans (ifInt_of_lt hfit.size)
  have htoken := token_setLitbuf bytes (lastText bytes form)
    ((interned_lastState form bytes hroom).allStored hall) hlast
  refine ⟨_, (setLitbuf (lastState σ bytes form) (lastText bytes form) (toCInt bytes.length)).2,
    hlex, ?_⟩
  intro σ₂ h₂
  obtain ⟨post, hpost, ht⟩ := lastText_eq form bytes
  obtain ⟨hle, htake⟩ := take_cstring_zero hz hpost
  rw [← ht] at hle htake
  have hsize := hfit.size
  rw [htoken.value (by omega) hle h₂, htake]

/-- **A literal keeps its bytes exactly when its lengths are `int`s and its zero bytes stand at the
end.** -/
theorem keepsBytes_iff (hd : Denotes form text bytes) :
    KeepsBytes n text bytes ↔ LengthsFit n form bytes ∧ ZerosKept form bytes := by
  constructor
  · intro h
    exact ⟨⟨h.size hd, h.offset hd⟩, h.zerosKept hd⟩
  · rintro ⟨hfit, hz⟩
    cases form with
    | escaped => exact keepsBytes_of_escaped hd hfit hz
    | _ => exact keepsBytes_of_notMem hd (by decide) hfit hz

/-- `"\x0a"`. -/
def zeroThenA : List Byte := [ch '"', ch '\\', ch 'x', ch '0', ch 'a', ch '"']

theorem denotes_zeroThenA : Denotes .escaped zeroThenA [0, ch 'a'] := by
  have hmaximal : ∀ c ∈ [ch 'a', ch '"'].head?, isDigit c = false := by
    rintro c ⟨⟩
    decide
  have hdigits : DigitsThen [ch '0'] [ch 'a', ch '"'] :=
    ⟨by decide, by decide, List.forall_mem_singleton.mpr (by decide), .inr hmaximal⟩
  have hv : decimal [ch '0'] ≤ 255 := by decide
  have hrest : Quoted [ch 'a', ch '"'] [ch 'a'] := .plain (by decide) .close
  have hsrc : Quoted (ch '\\' :: ch 'x' :: ([ch '0'] ++ [ch 'a', ch '"'])) [0, ch 'a'] :=
    .decimal hdigits hv hrest
  exact .escaped (by decide) hsrc

theorem keepsBytes_zeroThenA_iff : KeepsBytes 4096 zeroThenA [0, ch 'a'] ↔
    LengthsFit 4096 .escaped [0, ch 'a'] ∧ ZerosKept .escaped [0, ch 'a'] :=
  keepsBytes_iff denotes_zeroThenA

/-- The constant of `"\x0a"` has two zero bytes. -/
theorem not_keepsBytes_zeroThenA :
    Denotes .escaped zeroThenA [0, ch 'a'] ∧ ¬ KeepsBytes 4096 zeroThenA [0, ch 'a'] := by
  refine ⟨denotes_zeroThenA, ?_⟩
  intro h
  have hz := h.zeroTail denotes_zeroThenA
  rw [ZeroTail, if_pos rfl] at hz
  exact absurd (hz (ch 'a') List.mem_cons_self) (by decide)

end CaLang.Text
