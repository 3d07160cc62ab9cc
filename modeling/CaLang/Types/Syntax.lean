import Mathlib.Data.List.Basic
import Mathlib.Data.Nat.Digits.Defs

/-! # Type names and datatypes

A type is written as a text (`typeid_t` without its `t:`). The formers of the parser and of the
type system print such texts, the unwinder reads them, and `CADataType` is what it builds.
`TypeExpr` is the tree behind a text: **every text formed by the compiler is the `text` of a
tree**.

- `Prim`, `catypeGetPrimitiveByName`: the primitive types and the names they are found under;
- `TypeExpr`, `TypeFields`: the grammar of type texts, with `text` printing them;
- `symFormArrayId`: the former of array types;
- `CADataType`, `CAStructFields`: the unwound datatype, a tree whose back references name the
  enclosing struct they point to.
-/

namespace CaLang.Types

/-- The characters of a name (`symname_get`). -/
abbrev Name := List Char

/-- Every module decides the equality of names by this instance. -/
scoped instance instLawfulBEqName : LawfulBEq Name := inferInstance

/-- `isalnum(c) || c == '_'`. -/
def isNameChar (c : Char) : Bool := c.isAlphanum || c == '_'

/-- The identifiers of the lexer: `({letter}|_)+({letter}|{digit}|_)*`. -/
def isIdent : Name → Bool
  | [] => false
  | c :: cs => (c.isAlpha || c == '_') && cs.all isNameChar

/-! ### Primitive types -/

/-- The primitive types of `catype_init`. -/
inductive Prim
  | void | i8 | i16 | i32 | i64 | u8 | u16 | u32 | u64 | f32 | f64 | bool
  deriving DecidableEq

namespace Prim

/-- The size `catype_init` gives the type. -/
def size : Prim → Nat
  | void => 0
  | i8 | u8 | bool => 1
  | i16 | u16 => 2
  | i32 | u32 | f32 => 4
  | i64 | u64 | f64 => 8

def text : Prim → Name
  | void => ['v', 'o', 'i', 'd']
  | i8 => ['i', '8']
  | i16 => ['i', '1', '6']
  | i32 => ['i', '3', '2']
  | i64 => ['i', '6', '4']
  | u8 => ['u', '8']
  | u16 => ['u', '1', '6']
  | u32 => ['u', '3', '2']
  | u64 => ['u', '6', '4']
  | f32 => ['f', '3', '2']
  | f64 => ['f', '6', '4']
  | bool => ['b', 'o', 'o', 'l']

/-- All primitive types. -/
def all : List Prim := [void, i8, i16, i32, i64, u8, u16, u32, u64, f32, f64, bool]

end Prim

/-- The words for primitive types that `s_type_map` knows. -/
def primWords : List (Name × Prim) :=
  [(['s', 'h', 'o', 'r', 't'], .i16), (['i', 'n', 't'], .i32), (['c', 'h', 'a', 'r'], .i8),
    (['u', 's', 'h', 'o', 'r', 't'], .u16), (['u', 'i', 'n', 't'], .u32),
    (['u', 'c', 'h', 'a', 'r'], .u8), (['f', 'l', 'o', 'a', 't'], .f32),
    (['d', 'o', 'u', 'b', 'l', 'e'], .f64)]

/-- The words that only the parser knows. -/
def sizeWords : List (Name × Prim) :=
  [(['i', 's', 'i', 'z', 'e'], .i64), (['u', 's', 'i', 'z', 'e'], .u64)]

/-- `get_inner_type_string`: the name a written type name stands for. -/
def getInnerTypeString (n : Name) : Name :=
  match (primWords ++ sizeWords).lookup n with
  | some p => p.text
  | none => n

/-- `catype_get_primitive_by_name`: the primitive types are in `s_type_map` under their own name
and under the words for them. -/
def catypeGetPrimitiveByName (n : Name) : Option Prim :=
  match Prim.all.find? (·.text = n) with
  | some p => some p
  | none => primWords.lookup n

theorem catypeGetPrimitiveByName_text (p : Prim) :
    catypeGetPrimitiveByName p.text = some p := by
  cases p <;> decide

theorem catypeGetPrimitiveByName_eq_some {n : Name} {p : Prim} (hn : getInnerTypeString n = n)
    (h : catypeGetPrimitiveByName n = some p) : n = p.text := by
  unfold catypeGetPrimitiveByName at h
  cases hf : Prim.all.find? (·.text = n) with
  | some q =>
      rw [hf] at h
      cases h
      have heq := List.find?_some hf
      exact (of_decide_eq_true heq).symm
  | none =>
      rw [hf] at h
      have hw : (primWords ++ sizeWords).lookup n = some p := by
        rw [List.lookup_append, show primWords.lookup n = some p from h]
        rfl
      unfold getInnerTypeString at hn
      rw [hw] at hn
      exact hn.symm

/-! ### Type expressions -/

/-- The kinds of struct type (`CAStructType`), with the name where the kind has one. -/
inductive StructHead (α : Type)
  | namedStruct (name : α)
  | namedTuple (name : α)
  | generalTuple
  | slice
  deriving DecidableEq

namespace StructHead

variable {α β : Type}

def map (f : α → β) : StructHead α → StructHead β
  | namedStruct n => namedStruct (f n)
  | namedTuple n => namedTuple (f n)
  | generalTuple => generalTuple
  | slice => slice

/-- The name of a named kind. -/
def name? : StructHead α → Option α
  | namedStruct n | namedTuple n => some n
  | generalTuple | slice => none

/-- The character that ends the text of the struct. -/
def closer : StructHead α → Char
  | namedStruct _ => '}'
  | namedTuple _ | generalTuple => ')'
  | slice => '>'

/-- What stands before the members: `{Name;`, `(Name;`, `(;` or `<slice;;`, the `;` of the named
kinds only when there are members. -/
def opener (empty : Bool) : StructHead Name → List Char
  | namedStruct n => '{' :: n ++ (if empty then [] else [';'])
  | namedTuple n => '(' :: n ++ (if empty then [] else [';'])
  | generalTuple => ['(', ';']
  | slice => ['<', 's', 'l', 'i', 'c', 'e', ';', ';']

end StructHead

mutual
/-- The tree of a type text. -/
inductive TypeExpr
  | ident (name : Name)
  | pointer (target : TypeExpr)
  | array (elem : TypeExpr) (len : Int)
  | struct (head : StructHead Name) (fields : TypeFields)

/-- The members of a struct or tuple text; the members of a tuple have no name. -/
inductive TypeFields
  | nil
  | cons (name : Option Name) (type : TypeExpr) (rest : TypeFields)
end

deriving instance DecidableEq for TypeExpr, TypeFields

/-- `%d`. -/
def printInt (n : Int) : List Char :=
  if n < 0 then '-' :: Nat.toDigits 10 n.natAbs else Nat.toDigits 10 n.natAbs

/-- `%s:` for the members with a name. -/
def fieldLabel : Option Name → List Char
  | none => []
  | some n => n ++ [':']

def TypeFields.isNil : TypeFields → Bool
  | .nil => true
  | .cons .. => false

mutual
/-- The text of a type. -/
def TypeExpr.text : TypeExpr → List Char
  | .ident n => n
  | .pointer t => '*' :: t.text
  | .array e n => '[' :: e.text ++ ';' :: printInt n ++ [']']
  | .struct h fs => h.opener fs.isNil ++ fs.text ++ [h.closer]

/-- The members, separated by `,`. -/
def TypeFields.text : TypeFields → List Char
  | .nil => []
  | .cons n t rest =>
      fieldLabel n ++ t.text ++ (if rest.isNil then [] else ',' :: rest.text)
end

/-! ### The formers -/

/-- `sym_form_array_id`. -/
def symFormArrayId (t : TypeExpr) (dimension : Int) : TypeExpr := .array t dimension

/-- Whether a member is named as its struct wants it: by an identifier, or not at all. -/
def memberNameOk (named : Bool) : Option Name → Bool
  | some n => named && isIdent n
  | none => !named

mutual
/-- The expressions the formers make of the identifiers of the lexer. -/
def TypeExpr.isSource : TypeExpr → Bool
  | .ident n => isIdent n && decide (getInnerTypeString n = n)
  | .pointer t => t.isSource
  | .array e _ => e.isSource
  | .struct .generalTuple fs => fs.isSource false
  | .struct .slice fs => fs.isSource false
  | .struct _ _ => false

def TypeFields.isSource (named : Bool) : TypeFields → Bool
  | .nil => true
  | .cons n t rest => memberNameOk named n && t.isSource && rest.isSource named
end

/-! ### Datatypes -/

/-- Which struct a datatype is: its name, with the table of its declaration (none for a struct that
a text writes out in full). -/
structure StructId where
  table : Option (List Nat)
  name : Name
  deriving DecidableEq

mutual
/-- An unwound datatype. A pointer of dimension `d` is `d` pointers, as
`catype_formalize_type_expand` makes of it; `recur` is the address of the enclosing struct. -/
inductive CADataType
  | prim (p : Prim)
  | pointer (target : CADataType)
  | array (elem : CADataType) (len : Nat)
  | struct (head : StructHead StructId) (fields : CAStructFields)
  | recur (id : StructId)

/-- The fields of a struct datatype (`castruct_add_member`). -/
inductive CAStructFields
  | nil
  | cons (name : Option Name) (type : CADataType) (rest : CAStructFields)
end

deriving instance DecidableEq for CADataType, CAStructFields

mutual
/-- The type expression of a datatype's signature. -/
def CADataType.toExpr : CADataType → TypeExpr
  | .prim p => .ident p.text
  | .pointer t => .pointer t.toExpr
  | .array e n => .array e.toExpr n
  | .struct h fs => .struct (h.map StructId.name) fs.toExpr
  | .recur i => .ident i.name

def CAStructFields.toExpr : CAStructFields → TypeFields
  | .nil => .nil
  | .cons n t rest => .cons n t.toExpr rest.toExpr
end

/-- The signature of a datatype. -/
def CADataType.signature (t : CADataType) : List Char := t.toExpr.text

end CaLang.Types
