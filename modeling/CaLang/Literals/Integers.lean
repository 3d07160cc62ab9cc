import CaLang.Lib.Numerals
import CaLang.Arith.Walk

/-! # Integer literals

A literal keeps its text until its type is asked for; `make_uminus_expr` puts a minus sign in front
of the text. `literal_parse_integer` then reads it by its radix, with `%lu`, `%p`, `%o` or a loop of
its own, and **the scope of the type is checked on the word that was read**.

- `IntLit`: the literals, with the integers they denote;
- `literalParseInteger`, `IntLit.outcome`: what the code makes of a literal at a type;
- `Exact`: the literal is accepted when its integer is one of the type, with its word.
-/

namespace CaLang.Literals

open Arith

/-! ### Texts -/

inductive Radix
  | dec | hex | oct | bin
  deriving DecidableEq

namespace Radix

def base : Radix → Nat
  | dec => 10
  | hex => 16
  | oct => 8
  | bin => 2

/-- What stands in front of the digits. -/
def mark : Radix → List Byte
  | dec => []
  | hex => ['0'.toUInt8, 'x'.toUInt8]
  | oct => ['0'.toUInt8, 'o'.toUInt8]
  | bin => ['0'.toUInt8, 'b'.toUInt8]

end Radix

/-- **The integers of the lexer**, digits behind the mark of their radix. -/
structure IntText where
  radix : Radix
  digits : List Byte
  nonempty : digits ≠ []
  valid : ∀ c ∈ digits, isDigitOf radix.base c = true

namespace IntText

/-- The text of the token. -/
def text (l : IntText) : List Byte := l.radix.mark ++ l.digits

def magnitude (l : IntText) : Nat := numeral l.radix.base l.digits

end IntText

/-- An integer, perhaps below a minus sign. -/
structure IntLit extends IntText where
  minus : Bool

namespace IntLit

/-- The integer it denotes. -/
def value (l : IntLit) : Int := if l.minus then -l.magnitude else l.magnitude

/-- The lexical type. -/
def littypetok (l : IntLit) : LitTok := if l.minus then .i64 else .u64

end IntLit

/-! ### Reading -/

/-- `parse_binary_number`, of a text of binary digits; none ends the compiler. -/
def parseBinaryNumber (text : List Byte) : Option (BitVec 64) :=
  let text := text.dropWhile (· != '1'.toUInt8)
  if 64 < text.length then none
  else some (text.foldl (fun v c => (v <<< 1) + BitVec.ofInt 64 (c.toNat - '0'.toNat)) 0)

/-- `len > cmplen && !strncmp(cmpformat, text, cmplen)`. -/
def startsLonger (cmpformat text : List Byte) : Bool :=
  cmpformat.length < text.length && cmpformat.isPrefixOf text

/-- `sscanf` with `%o`, which stores an `unsigned int`: the upper half of the word stays. -/
def scanOctal (text : List Byte) (old : BitVec 64) : BitVec 64 :=
  match scanUlong 8 text with
  | none => old
  | some w => old.extractLsb' 32 32 ++ w.setWidth 32

/-- `literal_parse_integer` up to the check of the scope; `old` is in the literal before. -/
def literalParseInteger (text : List Byte) (littypetok : LitTok) (old : BitVec 64) :
    Option (BitVec 64) :=
  let sign := if littypetok = .i64 then ['-'.toUInt8] else []
  let negate (w : BitVec 64) := if littypetok = .i64 then -w else w
  let marked (r : Radix) := startsLonger (sign ++ r.mark) text
  let behind (r : Radix) := text.drop (sign ++ r.mark).length
  if marked .hex then some ((scanUlong 16 text).getD old)
  else if marked .oct then some (negate (scanOctal (behind .oct) old))
  else if marked .bin then (parseBinaryNumber (behind .bin)).map negate
  else some ((scanUlong 10 text).getD old)

/-- The text that `make_uminus_expr` makes in its buffer of 1024 bytes; none where it writes behind
the end. -/
def makeUminusExpr (littext : List Byte) : Option (List Byte) :=
  if littext.length + 2 ≤ 1024 then some ('-'.toUInt8 :: littext) else none

/-- How a literal comes to its type: an expression asks for it, with the type behind the literal as
well or without, the type stands behind the literal, or it is `i32` for lack of another. -/
inductive Fixing : Ty → Type
  | determine (postfixed : Bool) (t : Ty) : Fixing t
  | inferPostfix (t : Ty) : Fixing t
  | infer : Fixing .i32

/-- `determine_expr_type` or `inference_expr_type` of a literal, made with its postfix. -/
def Fixing.apply (literal : Option Ty → CALiteral) : {t : Ty} → Fixing t → Option CALiteral
  | _, determine false t => (literal none).determine t
  | _, determine true t => (literal (some t)).determine t
  | _, inferPostfix t => (literal (some t)).inference.map Prod.fst
  | _, infer => (literal none).inference.map Prod.fst

/-- What becomes of a literal. -/
inductive Outcome
  /-- A buffer is written behind its end. -/
  | overflow
  | rejected
  /-- It is accepted with this word. -/
  | word (w : BitVec 64)
  deriving DecidableEq

/-- A literal with this text is given its type. -/
def fixText {t : Ty} (fixing : Fixing t) (text : List Byte) (littypetok : LitTok)
    (old : BitVec 64) : Outcome :=
  match literalParseInteger text littypetok old with
  | none => .rejected
  | some w =>
      match fixing.apply (createLiteral littypetok · (text = ['0'.toUInt8]) w) with
      | none => .rejected
      | some lit => .word lit.i64value

def IntLit.outcome (l : IntLit) {t : Ty} (fixing : Fixing t) (old : BitVec 64) : Outcome :=
  if l.minus then
    match makeUminusExpr l.text with
    | none => .overflow
    | some text => fixText fixing text .i64 old
  else fixText fixing l.text .u64 old

/-! ### What is asked for -/

/-- The smallest and the largest integer of a type. -/
def minOf (t : Ty) : Int := if catypeIsSigned t then -2 ^ (t.width - 1) else 0

def maxOf (t : Ty) : Int := if catypeIsSigned t then 2 ^ (t.width - 1) - 1 else 2 ^ t.width - 1

/-- **The literal is exact**: accepted when its integer is one of the type, and then with the word
of it. -/
def Exact (l : IntLit) {t : Ty} (fixing : Fixing t) (old : BitVec 64) : Prop :=
  l.outcome fixing old =
    if minOf t ≤ l.value ∧ l.value ≤ maxOf t then .word (BitVec.ofInt 64 l.value) else .rejected

end CaLang.Literals
