import CaLang.Lib.Keyed
import CaLang.Types.Formalize

/-! # Looking a type up

`catype_get_by_name` looks in `s_symtable_type_map` first, then in `s_type_map` under the name
itself, and unwinds the name only then.  What it is unwound to is formalized if no datatype has its
signature. `s_type_map` also holds what is made of other datatypes: pointers, arrays and tuples; a
slice is made anew each time, and only the pointers in it and to it are put there.

- `TypeMaps`: the datatypes that were made, and the two maps;
- `catypeGetByName`, `catypeMakePointerType`, `catypeMakeArrayType`, `catypeMakeTupleType`,
  `sliceCreateCatype`;
- `Request`, `Serves`: what the compiler asks for, one request after the other.

Ranges are left out, whose names are no type texts.

A datatype that is made of others is given what was written to these.  What makes the compiler end
or crash (`yyerror`, a division by zero, a text that is longer than its buffer) yields no maps.
-/

namespace CaLang.Types

/-! ### Datatypes that are made of others -/

/-- What stands at the places of a new datatype: at the root, and below its parts. -/
def under {α : Type} (root : α) (parts : Nat → Addr → α) : Addr → α := fun a =>
  match a.getLast? with
  | none => root
  | some i => parts i a.dropLast

namespace Made

/-- A primitive type (`catype_make_type`). -/
def prim (p : Prim) : Made := ⟨.prim p, rootSignature (.prim p), unwoundLayout (.prim p)⟩

/-- `type->size` of the datatype. -/
def size (o : Made) : Nat := o.layout.sizeAt o.datatype [] []

/-- The datatype that `catype_make_pointer_type` makes. -/
def pointer (o : Made) : Made where
  datatype := .pointer o.datatype
  signatures := under (some ('*' :: o.datatype.signature)) fun _ => o.signatures
  layout :=
    ⟨under 8 fun _ => o.layout.size, under 1 fun _ => o.layout.fieldmaxalign,
      under 0 fun _ => o.layout.offset⟩

/-- The size of an array goes through the `int` of `catype_make_type_symname`, unless the elements
are arrays. -/
def arraySize (o : Made) (len : Nat) : Nat :=
  match o.datatype with
  | .array _ _ => sizeT (len * o.size)
  | _ => (wrapInt (len * o.size) % 18446744073709551616).toNat

/-- The datatype that `catype_make_array_type` makes. -/
def array (o : Made) (len : Nat) : Made where
  datatype := .array o.datatype len
  signatures := under (some (CADataType.array o.datatype len).signature) fun _ => o.signatures
  layout :=
    ⟨under (o.arraySize len) fun _ => o.layout.size, under 1 fun _ => o.layout.fieldmaxalign,
      under 0 fun _ => o.layout.offset⟩

end Made

/-- The members of a general tuple. -/
def CAStructFields.ofList : List CADataType → CAStructFields
  | [] => .nil
  | t :: ts => .cons none t (ofList ts)

/-- A general tuple. -/
def CADataType.tuple (ts : List CADataType) : CADataType := .struct .generalTuple (.ofList ts)

/-- The datatype that `catype_make_tuple_type` makes: every member is added with the offset 0. -/
def Made.tuple (os : List Made) : Made where
  datatype := .tuple (os.map datatype)
  signatures := under (some (CADataType.tuple (os.map datatype)).signature) fun i a =>
    (os[i]?).bind fun o => o.signatures a
  layout :=
    { size := under (sizeT (os.map size).sum) fun i a => ((os[i]?).map (·.layout.size a)).getD 0
      fieldmaxalign := under 1 fun i a => ((os[i]?).map (·.layout.fieldmaxalign a)).getD 1
      offset := under 0 fun i a =>
        if a = [] then 0 else ((os[i]?).map (·.layout.offset a)).getD 0 }

/-- A slice of items, of which there is a pointer to the first one. -/
def CADataType.slice (ptr : CADataType) : CADataType :=
  .struct .slice (.cons none ptr (.cons none (.prim .i64) .nil))

/-- The datatype that `slice_create_catype` makes, of the pointer to its items and its length. -/
def Made.slice (ptr : Made) : Made :=
  let parts (i : Nat) := if i = 0 then ptr else .prim .i64
  { datatype := .slice ptr.datatype
    signatures := under (some (CADataType.slice ptr.datatype).signature) fun i =>
      (parts i).signatures
    layout :=
      { size := under 16 fun i => (parts i).layout.size
        fieldmaxalign := under 1 fun i => (parts i).layout.fieldmaxalign
        offset := under 0 fun i a => if a = [] then 8 * i else (parts i).layout.offset a } }

/-! ### The maps -/

/-- The datatypes that were made, each known by its number, with `s_type_map` and
`s_symtable_type_map`; a key without a table is one that no lookup has. -/
structure TypeMaps where
  objects : List Made
  typeMap : Keyed (List Char) Nat
  symtableTypeMap : Keyed (Option Scope × List Char) Nat

namespace TypeMaps

/-- A new datatype, under its signature. -/
def put (m : TypeMaps) (o : Made) : Nat × TypeMaps :=
  (m.objects.length,
    { m with
      objects := m.objects ++ [o]
      typeMap := m.typeMap.insert o.datatype.signature m.objects.length })

/-- The datatype with the signature of `o`, which is made if there is none. -/
def obtain (m : TypeMaps) (o : Made) : Nat × TypeMaps :=
  match m.typeMap.find o.datatype.signature with
  | some i => (i, m)
  | none => m.put o

/-- A lookup that is answered at once from now on. -/
def remember (m : TypeMaps) (st : Option Scope) (s : List Char) (i : Nat) : TypeMaps :=
  { m with symtableTypeMap := m.symtableTypeMap.insert (st, s) i }

/-- `catype_make_type`, with the other words for the type. -/
def makeType (m : TypeMaps) (p : Prim) : TypeMaps :=
  let r := m.put (.prim p)
  let words := (primWords.filter (·.2 = p)).map Prod.fst
  { r.2 with typeMap := words.foldl (·.insert · r.1) r.2.typeMap }

end TypeMaps

/-- `catype_init`, with `g_catype_void_ptr`, which is a pointer to the last type that is made. -/
def catypeInit : TypeMaps :=
  let m := [Prim.void, .i16, .i32, .i64, .u16, .u32, .u64, .f32, .f64, .bool, .i8, .u8].foldl
    TypeMaps.makeType ⟨[], .empty, .empty⟩
  (m.obtain (Made.prim .u8).pointer).2

/-! ### Requests -/

/-- What the formats print of the memory: `symname_get(-1)`, and `%p` of a table. -/
structure Memory where
  anon : Name
  address : Scope → List Char

/-- `sym_form_symtable_type_id` prints a name and a table, with an `@` between, to
`name_buf[1024]`. -/
def Memory.fitsNameBuf (mem : Memory) (st : Scope) (s : List Char) : Bool :=
  decide (s.length + 1 + (mem.address st).length + 1 ≤ 1024)

/-- The datatype with the signature of `o`, formed by `form_datatype_signature`. -/
def formDatatype (m : TypeMaps) (o : Made) : Except WalkStop (Nat × TypeMaps) :=
  if o.datatype.fits then .ok (m.obtain o) else .error .crash

/-- The datatype with a number. -/
def TypeMaps.get (m : TypeMaps) (i : Nat) : Except WalkStop Made :=
  match m.objects[i]? with
  | some o => .ok o
  | none => .error .crash

/-- `catype_make_pointer_type` -/
def catypeMakePointerType (m : TypeMaps) (i : Nat) : Except WalkStop (Nat × TypeMaps) := do
  let o ← m.get i
  formDatatype m o.pointer

/-- `catype_make_array_type` -/
def catypeMakeArrayType (m : TypeMaps) (i len : Nat) : Except WalkStop (Nat × TypeMaps) := do
  let o ← m.get i
  formDatatype m (o.array len)

/-- `slice_create_catype`: the slice, and the maps with the pointer to its items. -/
def sliceCreateCatype (m : TypeMaps) (i : Nat) : Except WalkStop (Made × TypeMaps) := do
  let r ← catypeMakePointerType m i
  let ptr ← r.2.get r.1
  let o := Made.slice ptr
  if o.datatype.fits then return (o, r.2) else .error .crash

/-- The answer of `s_symtable_type_map`, or else that of `f`. -/
def answer (mem : Memory) (m : TypeMaps) (st : Scope) (s : List Char)
    (f : Except WalkStop (Nat × TypeMaps)) : Except WalkStop (Nat × TypeMaps) :=
  if mem.fitsNameBuf st s then
    match m.symtableTypeMap.find (some st, s) with
    | some i => .ok (i, m)
    | none => f
  else .error .crash

/-- `catype_make_tuple_type`; what it finds in `s_type_map` it remembers without the table. -/
def catypeMakeTupleType (mem : Memory) (m : TypeMaps) (st : Scope) (catypes : List Nat) :
    Except WalkStop (Nat × TypeMaps) := do
  let os ← catypes.mapM m.get
  let o := Made.tuple os
  let s := o.datatype.signature
  answer mem m st s <|
    match m.typeMap.find s with
    | some i => .ok (i, m.remember none s i)
    | none => .ok (m.objects.length, (m.put o).2.remember (some st) s m.objects.length)

/-- What `catype_get_by_name` does with the datatype that a name is unwound to. -/
def obtainUnwound (mem : Memory) (fuel : Nat) (m : TypeMaps) (D : CADataType) :
    Except WalkStop (Nat × TypeMaps) :=
  match m.typeMap.find D.signature with
  | some i => .ok (i, m)
  | none => do
      let o ← catypeFormalizeType mem.anon fuel D
      return m.put o

/-- `catype_get_by_name` -/
def catypeGetByName (mem : Memory) (fuel : Nat) (tabs : SymTables) (m : TypeMaps) (st : Scope)
    (t : TypeExpr) : Except WalkStop (Nat × TypeMaps) :=
  answer mem m st t.text <|
    match m.typeMap.find t.text with
    | some i => .ok (i, m.remember (some st) t.text i)
    | none =>
        match unwindType tabs st t with
        | none => .error .crash
        | some D => do
            let r ← obtainUnwound mem fuel m D
            return (r.1, r.2.remember (some st) t.text r.1)

/-- What the compiler asks for.  A slice leaves no more in the maps than the pointer to its items,
until a pointer is made to it. -/
inductive Request
  | byName (st : Scope) (t : TypeExpr)
  | pointer (i : Nat)
  | array (i len : Nat)
  | tuple (st : Scope) (catypes : List Nat)
  | slicePointer (i : Nat)

/-- The names that are looked up are type texts, and the lengths of arrays are `uint64_t`s. -/
def Request.isFormed : Request → Bool
  | .byName _ t => t.isText
  | .array _ len => decide (len < 18446744073709551616)
  | _ => true

def Request.serve (mem : Memory) (fuel : Nat) (tabs : SymTables) (m : TypeMaps) :
    Request → Except WalkStop (Nat × TypeMaps)
  | .byName st t => catypeGetByName mem fuel tabs m st t
  | .pointer i => catypeMakePointerType m i
  | .array i len => catypeMakeArrayType m i len
  | .tuple st catypes => catypeMakeTupleType mem m st catypes
  | .slicePointer i => do
      let r ← sliceCreateCatype m i
      formDatatype r.2 r.1.pointer

/-- The maps behind requests that are served, each of which meets `P`. -/
inductive Serves (P : TypeMaps → Request → Prop) (mem : Memory) (tabs : SymTables) (m : TypeMaps) :
    TypeMaps → Prop
  | refl : Serves P mem tabs m m
  | tail {m' m'' : TypeMaps} {r : Request} {i fuel : Nat} (h : Serves P mem tabs m m')
      (hr : r.isFormed = true) (hP : P m' r) (hs : r.serve mem fuel tabs m' = .ok (i, m'')) :
      Serves P mem tabs m m''

end CaLang.Types
