import CaLang.Types.SymTable

/-! # The unwinder

`catype_unwind_type_signature` reads a type text, replaces each declared name by what it stands
for, and builds the datatype and its signature on the way. **Every error of the unwinder ends the
compiler** (`yyerror` and `caerror` call `exit`), and where a buffer is overrun nothing can be said
of it, so a run yields a result or stops.

The buffers are `namebuf[128]` for each name, `numbuf[16]` for the digits of a length, and
`type_buf[1024]` of `sym_form_type_name`, into which every level writes its signature. The signature
of the outermost level holds all others, so that `sigbuf[4096]` is not overrun before.

The functions take fuel, which a result or a stop does not use up. Names of the form `+:address`,
which stand for the type of an expression, are left out.
-/

namespace CaLang.Types

/-- Why an unwinding yields nothing: the compiler has ended or overrun a buffer, or the fuel is used
up. -/
inductive UnwindStop
  | exit
  | fuel
  deriving DecidableEq

/-- What `prenamemap` holds for a name: null for an alias, else the datatype of the struct, which
is known by the table of its declaration (none for a struct that the text writes out). -/
inductive NameEntry
  | alias
  | struct (table : Option Scope)
  deriving DecidableEq

/-- `prenamemap` and `rcheckset`. -/
structure UnwindCtx where
  prenamemap : List (Name × NameEntry)
  rcheckset : List Name
  deriving DecidableEq

namespace UnwindCtx

def empty : UnwindCtx := ⟨[], []⟩

/-- The set is started anew behind a `*` or `&`. -/
def fresh (c : UnwindCtx) : UnwindCtx := { c with rcheckset := [] }

/-- `std::map::insert` keeps an entry that is there already. -/
def insert (c : UnwindCtx) (n : Name) (dt : NameEntry) : UnwindCtx :=
  ⟨if (c.prenamemap.lookup n).isSome then c.prenamemap else (n, dt) :: c.prenamemap,
    n :: c.rcheckset⟩

end UnwindCtx

/-- The result of an unwinding: the text behind, the signature, the size (`-2` while it depends on
an enclosing struct) and the datatype. -/
structure Unwound where
  rest : List Char
  sigbuf : List Char
  typesize : Int
  retdt : CADataType
  deriving DecidableEq

/-- The members of a struct, with the sizes of them. -/
structure UnwoundFields where
  rest : List Char
  sigbuf : List Char
  sizes : List Int
  fields : CAStructFields
  deriving DecidableEq

/-- A number in an `int` of the machine. -/
def wrapInt (n : Int) : Int := (BitVec.ofInt 32 n).toInt

/-- `-1` when a size is, else `-2` when a size is, else the sum. -/
def structTypesize (sizes : List Int) : Int :=
  if -1 ∈ sizes then -1 else if -2 ∈ sizes then -2 else wrapInt sizes.sum

/-- `addrdt` of dimension `d`. -/
def pointers : Nat → CADataType → CADataType
  | 0, t => t
  | d + 1, t => .pointer (pointers d t)

/-- What `catype_unwind_type_signature_inner` has read of `*` and `&`. -/
structure AddrRun where
  sigbuf : List Char
  dimension : Nat
  sizefin : Bool

def AddrRun.none : AddrRun := ⟨[], 0, false⟩

/-- The result of the whole text, from that of the text behind `*` and `&`. -/
def Unwound.behind (r : Unwound) (addr : AddrRun) : Unwound where
  rest := r.rest
  sigbuf := addr.sigbuf ++ r.sigbuf
  typesize := if !addr.sizefin || r.typesize = -1 then r.typesize else 8
  retdt := pointers addr.dimension r.retdt

/-- A name with its end fits into `namebuf[128]`. -/
def fitsNamebuf (n : Name) : Bool := decide (n.length < 128)

/-- `signature_extract_name`. -/
def signatureExtractName (pch : List Char) : Option (Name × List Char) :=
  let (n, rest) := pch.span isNameChar
  if fitsNamebuf n then some (n, rest) else none

/-- `strutil_parse_ident_str`. -/
def strutilParseIdentStr (pch : List Char) : Option (Name × List Char) :=
  match pch with
  | [] => none
  | c :: _ => if c.isAlpha then signatureExtractName pch else none

/-- The kind of a struct text, from its first character and the names behind it. -/
def structTextHead (pch : List Char) : Option (StructHead Name × List Char × List Char) :=
  match pch with
  | '{' :: pch => do
      let (n, rest) ← signatureExtractName pch
      if n.isEmpty then none else some (.namedStruct n, '{' :: n, rest)
  | '(' :: pch => do
      let (n, rest) ← signatureExtractName pch
      if n.isEmpty then some (.generalTuple, ['('], rest) else some (.namedTuple n, '(' :: n, rest)
  | '<' :: pch => do
      let (n, rest) ← signatureExtractName pch
      if n = ['s', 'l', 'i', 'c', 'e'] then
        match rest with
        | ';' :: rest => do
            let (m, rest) ← signatureExtractName rest
            some (.slice, '<' :: n ++ ';' :: m, rest)
        | _ => none
      else none
  | _ => none

/-- The `;` in front of the members, which is missing only when the struct ends there. -/
def structTextSemicolon (closer : Char) (pch : List Char) : Option (List Char × List Char) :=
  match pch with
  | ';' :: rest => some ([';'], rest)
  | c :: _ => if c = closer then some ([], pch) else none
  | [] => none

/-- The name of a member and the `:` behind it. -/
def structTextField (named : Bool) (pch : List Char) : Option (Option Name × List Char) :=
  if named then do
    let (n, rest) ← signatureExtractName pch
    match rest with
    | ':' :: rest => if n.isEmpty then none else some (some n, rest)
    | _ => none
  else some (none, pch)

/-- Whether the members of a struct text have names. -/
def StructHead.hasFieldNames {α : Type} : StructHead α → Bool
  | .namedStruct _ => true
  | _ => false

/-- A named struct text enters its name, an unnamed one nothing. -/
def UnwindCtx.enter (c : UnwindCtx) (h : StructHead Name) : UnwindCtx :=
  match h.name? with
  | some n => c.insert n (.struct Option.none)
  | none => c

/-- `atoi` behind the `;` of an array, with the digits read: it has no meaning but for an `int`. -/
def arrayTextLength (pch : List Char) : Option (List Char × Nat × List Char) :=
  match pch with
  | ';' :: pch =>
      let (digits, rest) := pch.span Char.isDigit
      let elesize := Nat.ofDigitChars 10 digits 0
      match rest with
      | ']' :: rest =>
          if !digits.isEmpty && digits.length < 16 && elesize < 2147483648 then
            some (digits, elesize, rest)
          else none
      | _ => none
  | _ => none

/-- The head of the datatype of a declared struct. -/
def STEntry.head (e : STEntry) (tuple : Bool) : StructHead StructId :=
  if tuple then .namedTuple e.id else .namedStruct e.id

/-- The signature of a declared struct, whose last `,` or `;` is replaced at the end. -/
def declaredSigbuf (tuple : Bool) (n : Name) (members : List Char) : List Char :=
  ((if tuple then '(' else '{') :: n ++ ';' :: members).dropLast ++ [if tuple then ')' else '}']

/-- What the first character behind `*` and `&` announces. -/
inductive TextKind
  | array | struct | enum | name
  deriving DecidableEq

def textKind : Char → TextKind
  | '[' => .array
  | '{' | '(' | '<' => .struct
  | '#' => .enum
  | _ => .name

def exitWith {α : Type} (x : Option α) : Except UnwindStop α :=
  match x with
  | some a => .ok a
  | none => .error .exit

/-- The `;`, length and `]` of an array, behind the element type. -/
def Unwound.arrayEnd (r : Unwound) : Except UnwindStop Unwound := do
  let (digits, elesize, rest) ← exitWith (arrayTextLength r.rest)
  return {
    rest := rest
    sigbuf := '[' :: r.sigbuf ++ ';' :: digits ++ [']']
    typesize := if r.typesize < 0 then r.typesize else wrapInt (r.typesize * elesize)
    retdt := .array r.retdt elesize }

/-- The result of a struct text, from its members. -/
def UnwoundFields.structEnd (m : UnwoundFields) (opener : List Char) (head : StructHead Name) :
    Unwound where
  rest := m.rest
  sigbuf := opener ++ m.sigbuf
  typesize := structTypesize m.sizes
  retdt := .struct (head.map (StructId.mk Option.none)) m.fields

/-- The result of a member and the `,` behind it, put in front of the members that follow. -/
def Unwound.member (r : Unwound) (name : Option Name) (comma : List Char) (m : UnwoundFields) :
    UnwoundFields where
  rest := m.rest
  sigbuf := fieldLabel name ++ r.sigbuf ++ comma ++ m.sigbuf
  sizes := r.typesize :: m.sizes
  fields := .cons name r.retdt m.fields

/-- The result of a declared struct, from its members. -/
def UnwoundFields.declaredEnd (m : UnwoundFields) (rest : List Char) (e : STEntry) (tuple : Bool) :
    Unwound where
  rest := rest
  sigbuf := declaredSigbuf tuple e.name m.sigbuf
  typesize := structTypesize m.sizes
  retdt := .struct (e.head tuple) m.fields

/-- `t:`, a text and its end fit into `type_buf[1024]`. -/
def fitsTypeBuf (idname : List Char) : Bool := decide (idname.length + 3 ≤ 1024)

/-- The signature of a level is formed with `sym_form_type_id_by_str`. -/
def Unwound.formed (r : Unwound) : Except UnwindStop Unwound :=
  if fitsTypeBuf r.sigbuf then .ok r else .error .exit

mutual
/-- `catype_unwind_type_signature_inner`, after the `*` and `&` in `addr`. -/
def unwindInner (tabs : SymTables) (fuel : Nat) (symtable : Scope) (pch : List Char)
    (ctx : UnwindCtx) (addr : AddrRun) : Except UnwindStop Unwound :=
  match fuel with
  | 0 => .error .fuel
  | fuel + 1 =>
      match pch with
      | [] => .error .exit
      | c :: _ =>
          if c = '*' then
            let (run, rest) := pch.span (· == '*')
            unwindInner tabs fuel symtable rest ctx ⟨addr.sigbuf ++ run, run.length, true⟩
          else if c = '&' then
            let (run, rest) := pch.span (· == '&')
            unwindInner tabs fuel symtable rest ctx ⟨addr.sigbuf ++ run, addr.dimension, true⟩
          else do
            let ctx' := if addr.sizefin then ctx.fresh else ctx
            let r ←
              match textKind c with
              | .array => unwindArray tabs fuel symtable pch ctx'
              | .struct => unwindStruct tabs fuel symtable pch ctx'
              | .enum => .error .exit
              | .name => unwindName tabs fuel symtable pch ctx'
            (r.behind addr).formed

/-- `catype_unwind_type_array`. -/
def unwindArray (tabs : SymTables) (fuel : Nat) (symtable : Scope) (pch : List Char)
    (ctx : UnwindCtx) : Except UnwindStop Unwound :=
  match fuel with
  | 0 => .error .fuel
  | fuel + 1 => do
      let r ← unwindInner tabs fuel symtable pch.tail ctx .none
      r.arrayEnd

/-- `catype_unwind_type_struct`. -/
def unwindStruct (tabs : SymTables) (fuel : Nat) (symtable : Scope) (pch : List Char)
    (ctx : UnwindCtx) : Except UnwindStop Unwound :=
  match fuel with
  | 0 => .error .fuel
  | fuel + 1 => do
      let (head, opener, pch) ← exitWith (structTextHead pch)
      let (semicolon, pch) ← exitWith (structTextSemicolon head.closer pch)
      let m ← unwindStructFields tabs fuel symtable pch (ctx.enter head) head
      return m.structEnd (opener ++ semicolon) head

/-- The loop of `catype_unwind_type_struct` over the members, up to the end of the struct. -/
def unwindStructFields (tabs : SymTables) (fuel : Nat) (symtable : Scope) (pch : List Char)
    (ctx : UnwindCtx) (head : StructHead Name) : Except UnwindStop UnwoundFields :=
  match fuel with
  | 0 => .error .fuel
  | fuel + 1 =>
      if pch.head? = some head.closer then
        .ok ⟨pch.tail, [head.closer], [], .nil⟩
      else do
        let (name, pch) ← exitWith (structTextField head.hasFieldNames pch)
        let r ← unwindInner tabs fuel symtable pch ctx .none
        let (comma, pch) := if r.rest.head? = some ',' then ([','], r.rest.tail) else ([], r.rest)
        let m ← unwindStructFields tabs fuel symtable pch ctx head
        return r.member name comma m

/-- `catype_unwind_type_name`. -/
def unwindName (tabs : SymTables) (fuel : Nat) (symtable : Scope) (pch : List Char)
    (ctx : UnwindCtx) : Except UnwindStop Unwound :=
  match fuel with
  | 0 => .error .fuel
  | fuel + 1 => do
      let (name, rest) ← exitWith (strutilParseIdentStr pch)
      match catypeGetPrimitiveByName name with
      | some p => return ⟨rest, name, p.size, .prim p⟩
      | none =>
          let entry ← exitWith (tabs.symGettypesymByName symtable name)
          if name ∈ ctx.rcheckset then
            .error .exit
          else
            match ctx.prenamemap.lookup name with
            | some .alias => .error .exit
            | some (.struct table) => return ⟨rest, name, -2, .recur ⟨table, name⟩⟩
            | none =>
                match entry.body with
                | .alias id =>
                    let r ← unwindInner tabs fuel entry.idtable id.text
                      (ctx.insert name .alias) .none
                    if r.rest = [] then
                      return ⟨rest, r.sigbuf, r.typesize, r.retdt⟩
                    else
                      .error .exit
                | .struct tuple members =>
                    let m ← unwindMembers tabs fuel entry.idtable members
                      (ctx.insert name (.struct entry.idtable))
                    return m.declaredEnd rest entry tuple

/-- The loop of `catype_unwind_type_name` over the members of a declaration. -/
def unwindMembers (tabs : SymTables) (fuel : Nat) (symtable : Scope) (members : TypeFields)
    (ctx : UnwindCtx) : Except UnwindStop UnwoundFields :=
  match fuel with
  | 0 => .error .fuel
  | fuel + 1 =>
      match members with
      | .nil => .ok ⟨[], [], [], .nil⟩
      | .cons name type members => do
          let r ← unwindInner tabs fuel symtable type.text ctx .none
          let m ← unwindMembers tabs fuel symtable members ctx
          return r.member name [','] m
end

/-- `catype_unwind_type_signature`: the text need not be read to its end. -/
def catypeUnwindTypeSignature (tabs : SymTables) (fuel : Nat) (symtable : Scope)
    (name : List Char) : Except UnwindStop Unwound :=
  unwindInner tabs fuel symtable name .empty .none

end CaLang.Types
