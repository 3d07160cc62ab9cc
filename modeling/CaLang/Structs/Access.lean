import CaLang.Lib.TwosComplement

/-! # Chains of field accesses

`a.1.2` and `p->1.2` are written with names and numbers behind `.` and `->`, and the lexer takes
`1.2` for one literal.  **The parser splits the literals and converts the numbers, one walk finds
the type of a component and another one its address**; both look up the same number.

A chain is right if every part of it is compiled to the component that it names.  It is so if and
only if no number exceeds an `int` in a way that hits a component, no name is used as a number on
a tuple, and no number as a name on a struct.
-/

namespace CaLang.Structs

namespace Access

/-! ### Datatypes -/

variable {Ty : Type}

/-- `CAStruct`: a tuple, or a struct whose fields have names, known by their place in the table of
names. -/
structure CAStruct (Ty : Type) where
  tuple : Bool
  fields : List (Nat × Ty)
  fieldnum_lt : fields.length < 2 ^ 31

/-- What a datatype is to an access. -/
inductive CADataType (Ty : Type)
  | pointer (type : Ty)
  | struct (layout : CAStruct Ty)
  | other

/-! ### Accesses -/

/-- The text of a number. -/
structure Digits where
  text : List Char
  ne_nil : text ≠ []
  isDigit : ∀ c ∈ text, c.isDigit = true

namespace Digits

/-- The number that the text denotes. -/
def value (d : Digits) : Nat := Nat.ofDigitChars 10 d.text 0

/-- Numbers are written without leading zeros. -/
def plain (d : Digits) : Bool := d.text.length = 1 || d.text.head? != some '0'

end Digits

inductive Key
  | name (id : Nat)
  | index (d : Digits)

/-- One access of a chain, through `.` or through `->`. -/
structure FieldAccess where
  direct : Bool
  key : Key

/-- The tokens behind `.` and `->` that name a field, by the text the lexer yields: `true` and
`false` yield `1` and `0`.  The texts of hexadecimal, octal, binary and character literals are no
digits all through, and `parse_tuple_fieldname` rejects them. -/
inductive Token
  | ident (id : Nat)
  | integer (d : Digits)
  | float (d d' : Digits)

/-- The text of a literal, or the name. -/
def Token.text : Token → Nat ⊕ List Char
  | .ident id => .inl id
  | .integer d => .inr d.text
  | .float d d' => .inr (d.text ++ '.' :: d'.text)

/-- The accesses that are written by a token. -/
def Token.accesses (direct : Bool) : Token → List FieldAccess
  | .ident id => [⟨direct, .name id⟩]
  | .integer d => [⟨direct, .index d⟩]
  | .float d d' => [⟨direct, .index d⟩, ⟨true, .index d'⟩]

/-- The chain that is written behind an expression. -/
def written : List (Bool × Token) → List FieldAccess
  | [] => []
  | (direct, t) :: source => t.accesses direct ++ written source

/-! ### The parser -/

/-- The nodes over the expression that is accessed. -/
inductive ASTNode
  | base
  | field (expr : ASTNode) (fieldname : Int) (direct : Bool)

/-- The `int` that a number read by `strtol` is converted to. -/
def asInt (v : Nat) : Int := wrap true 32 (min v (2 ^ 63 - 1) : Nat)

def atoi (name : List Char) : Int := asInt (Nat.ofDigitChars 10 name 0)

/-- `parse_tuple_fieldname`, which does not return from its error. -/
def parseTupleFieldname (name : List Char) : Option Int :=
  if !name.all Char.isDigit || (name.length > 1 && name.head? = some '0') then none
  else some (atoi name)

/-- The loop of `make_element_field` over the characters behind `pname`. -/
def makeElementFields : Bool → ASTNode → List Char → List Char → Option ASTNode
  | direct, expr, pname, [] => (parseTupleFieldname pname).map (.field expr · direct)
  | direct, expr, pname, c :: names =>
      if c = '.' then
        (parseTupleFieldname pname).bind fun fieldname =>
          makeElementFields true (.field expr fieldname direct) [] names
      else makeElementFields direct expr (pname ++ [c]) names

/-- `make_element_field`. -/
def makeElementField (expr : ASTNode) (direct : Bool) : Nat ⊕ List Char → Option ASTNode
  | .inl fieldname => some (.field expr fieldname direct)
  | .inr name => makeElementFields direct expr [] name

def parse : ASTNode → List (Bool × Token) → Option ASTNode
  | expr, [] => some expr
  | expr, (direct, t) :: source =>
      (makeElementField expr direct t.text).bind (parse · source)

/-! ### The walks -/

/-- An error message ends the compiler; an element outside of an array and a failed assertion have
no meaning. -/
inductive Stop
  | error | undefined
  deriving DecidableEq

/-- The struct that is accessed, with its datatype. -/
def structOf (layout : Ty → CADataType Ty) (direct : Bool) (t : Ty) :
    Except Stop (Ty × CAStruct Ty) := do
  let t ← if direct then .ok t else
    match layout t with
    | .pointer t' => .ok t'
    | _ => .error .error
  match layout t with
  | .struct s => .ok (t, s)
  | _ => .error .error

/-- The type of the field, as `get_structfield_expr_type_from_tree` finds it. -/
def CAStruct.fieldType (s : CAStruct Ty) (fieldname : Int) : Except Stop Ty :=
  if s.tuple then
    if fieldname < s.fields.length then
      match fieldname with
      | .ofNat i => (s.fields[i]?).elim (.error .undefined) (.ok ·.2)
      | .negSucc _ => .error .undefined
    else .error .error
  else
    match s.fields.find? (fun f => (f.1 : Int) = fieldname) with
    | some f => .ok f.2
    | none => .error .error

/-- The index of the field, as `extract_value_from_struct` finds it. -/
def CAStruct.fieldIndex (s : CAStruct Ty) (fieldname : Int) : Int :=
  if s.tuple then fieldname else s.fields.findIdx (fun f => (f.1 : Int) = fieldname)

/-- `get_expr_type_from_tree`, where the accessed expression has the type `base`. -/
def getExprType (layout : Ty → CADataType Ty) (base : Ty) : ASTNode → Except Stop Ty
  | .base => .ok base
  | .field expr fieldname direct => do
      let objtype ← getExprType layout base expr
      let (_, s) ← structOf layout direct objtype
      s.fieldType fieldname

/-- An address that the emitted code computes from the operand of the accessed expression. -/
inductive Address
  | root
  | load (a : Address)
  | field (a : Address) (index : Int)
  deriving DecidableEq

/-- `CalcOperand`: `alloc` is the tag of an address that is still to be loaded. -/
structure CalcOperand (Ty : Type) where
  alloc : Bool
  operand : Address
  catype : Ty
  deriving DecidableEq

/-- The value of `pop_right_value`. -/
def popRightValue (load : Bool) (o : CalcOperand Ty) : Address :=
  if load && o.alloc then .load o.operand else o.operand

/-- `walk_expr_structitemop`, with `extract_value_from_struct` behind the type. -/
def walkStack [DecidableEq Ty] (layout : Ty → CADataType Ty) (base : CalcOperand Ty) :
    ASTNode → Except Stop (CalcOperand Ty)
  | .base => .ok base
  | .field expr fieldname direct => do
      let catype ← getExprType layout base.catype (.field expr fieldname direct)
      let structtype ← getExprType layout base.catype expr
      let (structcatype, s) ← structOf layout direct structtype
      let fieldindex := s.fieldIndex fieldname
      if fieldindex = s.fields.length then .error .error else
      let o ← walkStack layout base expr
      let (t, _) ← (structOf layout direct o.catype).mapError fun _ => .undefined
      if t ≠ structcatype then .error .undefined else
      .ok ⟨true, .field (popRightValue (!direct) o) fieldindex, catype⟩

/-- What the compiler makes of a chain that is written behind an expression. -/
def compile [DecidableEq Ty] (layout : Ty → CADataType Ty) (base : CalcOperand Ty)
    (source : List (Bool × Token)) : Except Stop (CalcOperand Ty) :=
  match parse .base source with
  | some node => walkStack layout base node
  | none => .error .error

/-! ### What a chain means -/

/-- The component that a key names: a number counts the components of a tuple, a name belongs to a
field of a struct. -/
def CAStruct.component (s : CAStruct Ty) : Key → Option (Nat × Ty)
  | .index d =>
      if s.tuple && d.plain then (s.fields[d.value]?).map fun f => (d.value, f.2) else none
  | .name id =>
      if s.tuple then none else
        (s.fields[s.fields.findIdx (·.1 = id)]?).map fun f => (s.fields.findIdx (·.1 = id), f.2)

/-- The struct that is accessed through `.` or through `->`. -/
def target (layout : Ty → CADataType Ty) (direct : Bool) (t : Ty) : Option (CAStruct Ty) :=
  match direct, layout t with
  | true, .struct s => some s
  | false, .pointer t' =>
      match layout t' with
      | .struct s => some s
      | _ => none
  | _, _ => none

/-- The place of the component that a chain names, with its type. -/
def resolve (layout : Ty → CADataType Ty) (o : CalcOperand Ty) :
    List FieldAccess → Option (CalcOperand Ty)
  | [] => some o
  | a :: path => do
      let s ← target layout a.direct o.catype
      let (i, t) ← s.component a.key
      let place := if a.direct || !o.alloc then o.operand else .load o.operand
      resolve layout ⟨true, .field place i, t⟩ path

/-- The answer of the compiler that a meaning asks for. -/
def answer (r : Option (CalcOperand Ty)) : Except Stop (CalcOperand Ty) :=
  r.elim (.error .error) .ok

/-- **A chain is resolved exactly**: however it and its parts are written, the compiler finds the
address and the type of the component that they name, and rejects those that name none. -/
def ResolvedExactly [DecidableEq Ty] (layout : Ty → CADataType Ty) (base : CalcOperand Ty)
    (path : List FieldAccess) : Prop :=
  ∀ part source, part <+: path → written source = part →
    compile layout base source = answer (resolve layout base part)

/-- A key does not hit a component that it does not name. -/
def CAStruct.Regular (s : CAStruct Ty) : Key → Prop
  | .index d => d.plain = true →
      if s.tuple then d.value < 2 ^ 31 ∨ (s.fields.length : Int) ≤ asInt d.value
      else ∀ f ∈ s.fields, (f.1 : Int) ≠ asInt d.value
  | .name id => s.tuple = true → s.fields.length ≤ id

/-- Every key that the chain comes to is regular. -/
def Regular (layout : Ty → CADataType Ty) : Ty → List FieldAccess → Prop
  | _, [] => True
  | t, a :: path => ∀ s, target layout a.direct t = some s →
      s.Regular a.key ∧ ∀ i t', s.component a.key = some (i, t') → Regular layout t' path

/-! ### The parser keeps the chain -/

/-- The number that the parser stores for a key. -/
def Key.fieldname : Key → Option Int
  | .name id => some id
  | .index d => if d.plain then some (asInt d.value) else none

theorem Digits.parse (d : Digits) :
    parseTupleFieldname d.text = if d.plain then some (asInt d.value) else none := by
  have hall : d.text.all Char.isDigit = true := List.all_eq_true.mpr d.isDigit
  have hpos := List.length_pos_iff.mpr d.ne_nil
  have hplain : (decide (d.text.length > 1) && decide (d.text.head? = some '0')) = !d.plain := by
    rw [Digits.plain]
    by_cases h : d.text.length = 1
    · simp [h]
    · have : d.text.length > 1 := by omega
      by_cases hz : d.text.head? = some '0' <;> simp [h, this, hz]
  rw [parseTupleFieldname, hall, hplain]
  cases d.plain <;> rfl

theorem Digits.ne_dot (d : Digits) : ∀ c ∈ d.text, c ≠ '.' := by
  rintro c hc rfl
  exact absurd (d.isDigit _ hc) (by decide)

/-- The loop passes the characters of a number. -/
theorem makeElementFields_append {cs : List Char} (hcs : ∀ c ∈ cs, c ≠ '.') (direct : Bool)
    (expr : ASTNode) (names : List Char) : ∀ pname,
      makeElementFields direct expr pname (cs ++ names) =
        makeElementFields direct expr (pname ++ cs) names := by
  induction cs with
  | nil => intro pname; rw [List.nil_append, List.append_nil]
  | cons c cs ih =>
      intro pname
      have hc : c ≠ '.' := hcs c List.mem_cons_self
      rw [List.cons_append, makeElementFields, if_neg hc,
        ih (fun c' hc' => hcs c' (List.mem_cons_of_mem _ hc')), List.append_assoc]
      rfl

/-- The node over an expression that an access yields. -/
def FieldAccess.node (a : FieldAccess) (expr : ASTNode) : Option ASTNode :=
  a.key.fieldname.map (.field expr · a.direct)

/-- **The literals of the lexer are split into the accesses that they write.** -/
theorem makeElementField_eq (expr : ASTNode) (direct : Bool) (t : Token) :
    makeElementField expr direct t.text =
      (t.accesses direct).foldlM (fun e a => a.node e) expr := by
  cases t with
  | ident id => rfl
  | integer d =>
      have h := makeElementFields_append d.ne_dot direct expr [] []
      rw [List.append_nil] at h
      rw [Token.text, makeElementField, h]
      simp [makeElementFields, Digits.parse, Token.accesses, FieldAccess.node, Key.fieldname]
  | float d d' =>
      have h := makeElementFields_append d.ne_dot direct expr ('.' :: d'.text) []
      have h' (e : ASTNode) := makeElementFields_append d'.ne_dot true e [] []
      simp only [List.append_nil, List.nil_append] at h h'
      rw [Token.text, makeElementField, h]
      by_cases hd : d.plain = true <;>
        simp [makeElementFields, h', Digits.parse, Token.accesses, FieldAccess.node,
          Key.fieldname, hd]

/-- The parser sees nothing of how a chain is written. -/
theorem parse_eq (expr : ASTNode) (source : List (Bool × Token)) :
    parse expr source = (written source).foldlM (fun e a => a.node e) expr := by
  induction source generalizing expr with
  | nil => rfl
  | cons a source ih =>
      obtain ⟨direct, t⟩ := a
      rw [parse, written, List.foldlM_append, makeElementField_eq]
      exact congrArg _ (funext fun e => ih e)

/-! ### The two walks keep in step -/

section

variable {layout : Ty → CADataType Ty}

/-- What an access makes of an operand. -/
def step (layout : Ty → CADataType Ty) (fieldname : Int) (direct : Bool) (o : CalcOperand Ty) :
    Except Stop (CalcOperand Ty) := do
  let (_, s) ← structOf layout direct o.catype
  let t ← s.fieldType fieldname
  .ok ⟨true, .field (popRightValue (!direct) o) (s.fieldIndex fieldname), t⟩

/-- A field that has a type is found. -/
theorem CAStruct.fieldIndex_ne {s : CAStruct Ty} {fieldname : Int} {t : Ty}
    (h : s.fieldType fieldname = .ok t) : s.fieldIndex fieldname ≠ s.fields.length := by
  unfold fieldType at h
  rw [fieldIndex]
  cases htuple : s.tuple with
  | true =>
      rw [htuple, if_pos rfl] at h
      rw [if_pos rfl]
      split at h
      · omega
      · cases h
  | false =>
      rw [htuple, if_neg Bool.false_ne_true] at h
      rw [if_neg Bool.false_ne_true]
      split at h
      · next f hf =>
          have hlt := List.findIdx_lt_length_of_exists
            ⟨f, List.mem_of_find?_eq_some hf, List.find?_some hf⟩
          omega
      · cases h

variable [DecidableEq Ty] {base : CalcOperand Ty}

/-- The walk for the address makes one step over the walk of the accessed expression, if the walk
for the type agrees with that. -/
theorem walkStack_field_of {expr : ASTNode} {fieldname : Int} {direct : Bool}
    (h : getExprType layout base.catype expr = (walkStack layout base expr).map (·.catype)) :
    walkStack layout base (.field expr fieldname direct) =
      walkStack layout base expr >>= step layout fieldname direct := by
  rw [walkStack, getExprType, h]
  cases walkStack layout base expr with
  | error e => rfl
  | ok o =>
      cases hs : structOf layout direct o.catype with
      | error e => simp [Except.map, bind, Except.bind, step, hs]
      | ok ts =>
          obtain ⟨t, s⟩ := ts
          cases ht : s.fieldType fieldname with
          | error e => simp [Except.map, bind, Except.bind, step, hs, ht]
          | ok t' =>
              have hne := CAStruct.fieldIndex_ne ht
              simp [Except.map, Except.mapError, bind, Except.bind, step, hs, ht, hne]

/-- **Types and addresses are found in step.** -/
theorem getExprType_eq (node : ASTNode) :
    getExprType layout base.catype node = (walkStack layout base node).map (·.catype) := by
  induction node with
  | base => rfl
  | field expr fieldname direct ih =>
      rw [walkStack_field_of ih, getExprType, ih]
      cases walkStack layout base expr with
      | error e => rfl
      | ok o =>
          cases hs : structOf layout direct o.catype with
          | error e => simp [Except.map, bind, Except.bind, step, hs]
          | ok ts =>
              cases ht : ts.2.fieldType fieldname <;>
                simp [Except.map, bind, Except.bind, step, hs, ht]

theorem walkStack_field (expr : ASTNode) (fieldname : Int) (direct : Bool) :
    walkStack layout base (.field expr fieldname direct) =
      walkStack layout base expr >>= step layout fieldname direct :=
  walkStack_field_of (getExprType_eq expr)

end

/-! ### One access -/

theorem asInt_of_lt {v : Nat} (h : v < 2 ^ 31) : asInt v = v := by
  have hmin : min v (2 ^ 63 - 1) = v := by omega
  rw [asInt, hmin, wrap, wordValue, if_pos rfl, BitVec.toInt_ofInt, Int.bmod_eq_of_le] <;> omega

/-- What the walks find for a key: the index of a field and its type. -/
def CAStruct.lookup (s : CAStruct Ty) (k : Key) : Except Stop (Int × Ty) :=
  match k.fieldname with
  | some fieldname => (s.fieldType fieldname).map (s.fieldIndex fieldname, ·)
  | none => .error .error

/-- What they should find. -/
def CAStruct.named (s : CAStruct Ty) (k : Key) : Except Stop (Int × Ty) :=
  (s.component k).elim (.error .error) fun c => .ok (c.1, c.2)

variable {s : CAStruct Ty}

/-- A number is found on a tuple if it is below the number of fields. -/
theorem CAStruct.fieldType_ofNat (h : s.tuple = true) (i : Nat) :
    s.fieldType i = (s.fields[i]?).elim (.error .error) (.ok ·.2) := by
  unfold fieldType
  rw [h, if_pos rfl]
  by_cases hlt : i < s.fields.length
  · rw [if_pos (by omega)]
    simp [hlt]
  · rw [if_neg (by omega), List.getElem?_eq_none (by omega)]
    rfl

/-- On a tuple only what is not below the number of fields is rejected. -/
theorem CAStruct.fieldType_error_iff (h : s.tuple = true) (fieldname : Int) :
    s.fieldType fieldname = .error .error ↔ (s.fields.length : Int) ≤ fieldname := by
  unfold fieldType
  rw [h, if_pos rfl]
  split
  · next hlt =>
      refine iff_of_false ?_ (by omega)
      split
      · next i =>
          have hi : i < s.fields.length := by simpa using hlt
          simp [hi]
      · nofun
  · next hlt => exact iff_of_true rfl (by omega)

/-- On a struct what no field has for its name is rejected. -/
theorem CAStruct.fieldType_named_error_iff (h : s.tuple = false) (fieldname : Int) :
    s.fieldType fieldname = .error .error ↔ ∀ f ∈ s.fields, (f.1 : Int) ≠ fieldname := by
  unfold fieldType
  rw [h, if_neg Bool.false_ne_true]
  split
  · next f hf =>
      refine iff_of_false nofun fun hall => ?_
      exact hall f (List.mem_of_find?_eq_some hf) (by simpa using List.find?_some hf)
  · next hf => exact iff_of_true rfl fun f hmem => by simpa using List.find?_eq_none.mp hf f hmem

/-- A name is found on a struct where it stands. -/
theorem CAStruct.fieldType_name (h : s.tuple = false) (id : Nat) :
    s.fieldType id = (s.fields[s.fields.findIdx (·.1 = id)]?).elim (.error .error) (.ok ·.2) := by
  unfold fieldType
  rw [h, if_neg Bool.false_ne_true]
  simp only [Int.natCast_inj]
  rw [List.find?_eq_getElem?_findIdx]
  cases s.fields[s.fields.findIdx (·.1 = id)]? <;> rfl

theorem map_eq_error_iff {α β : Type} {x : Except Stop α} {f : α → β} {e : Stop} :
    x.map f = .error e ↔ x = .error e := by
  cases x <;> simp [Except.map]

/-- **A key is looked up rightly** if and only if it is regular. -/
theorem CAStruct.lookup_iff (s : CAStruct Ty) (k : Key) : s.lookup k = s.named k ↔ s.Regular k := by
  cases k with
  | name id =>
      rw [lookup, Key.fieldname, named, component, Regular]
      cases h : s.tuple with
      | true =>
          rw [if_pos rfl]
          have := fieldType_error_iff h id
          simp only [Option.elim, map_eq_error_iff, this]
          simp
      | false =>
          refine iff_of_true ?_ nofun
          dsimp only
          rw [if_neg Bool.false_ne_true, fieldType_name h, fieldIndex, h,
            if_neg Bool.false_ne_true]
          simp only [Int.natCast_inj]
          cases s.fields[s.fields.findIdx (·.1 = id)]? <;> rfl
  | index d =>
      rw [lookup, Key.fieldname, named, component, Regular]
      cases hplain : d.plain with
      | false => simp
      | true =>
          rw [if_pos rfl, Bool.and_true, forall_prop_of_true rfl]
          dsimp only
          cases h : s.tuple with
          | false =>
              rw [if_neg Bool.false_ne_true, if_neg Bool.false_ne_true,
                ← fieldType_named_error_iff h]
              exact map_eq_error_iff
          | true =>
              rw [if_pos rfl, if_pos rfl]
              by_cases hlt : d.value < 2 ^ 31
              · refine iff_of_true ?_ (.inl hlt)
                rw [asInt_of_lt hlt, fieldType_ofNat h, fieldIndex, h, if_pos rfl]
                cases s.fields[d.value]? <;> rfl
              · have hnone : s.fields[d.value]? = none :=
                  List.getElem?_eq_none (by have := s.fieldnum_lt; omega)
                rw [hnone, or_iff_right hlt, ← fieldType_error_iff h]
                exact map_eq_error_iff

/-- What an access makes of an operand. -/
def FieldAccess.step (layout : Ty → CADataType Ty) (a : FieldAccess) (o : CalcOperand Ty) :
    Except Stop (CalcOperand Ty) :=
  match a.key.fieldname with
  | some fieldname => Access.step layout fieldname a.direct o
  | none => .error .error

/-- The place of the component that is accessed. -/
def FieldAccess.place (layout : Ty → CADataType Ty) (a : FieldAccess) (o : CalcOperand Ty) :
    Option (CalcOperand Ty) := do
  let s ← target layout a.direct o.catype
  let (i, t) ← s.component a.key
  some ⟨true, .field (popRightValue (!a.direct) o) i, t⟩

variable {layout : Ty → CADataType Ty}

theorem resolve_cons (a : FieldAccess) (path : List FieldAccess) (o : CalcOperand Ty) :
    resolve layout o (a :: path) = (a.place layout o).bind (resolve layout · path) := by
  have hpop : popRightValue (!a.direct) o =
      if a.direct || !o.alloc then o.operand else .load o.operand := by
    rw [popRightValue]
    cases a.direct <;> cases o.alloc <;> rfl
  rw [resolve, FieldAccess.place, hpop]
  cases target layout a.direct o.catype with
  | none => rfl
  | some s =>
      simp only [bind, Option.bind_some]
      cases s.component a.key <;> rfl

theorem structOf_eq (layout : Ty → CADataType Ty) (direct : Bool) (t : Ty) :
    (structOf layout direct t).map Prod.snd =
      (target layout direct t).elim (.error .error) .ok := by
  rw [structOf]
  unfold target
  cases direct with
  | true =>
      simp only [if_true, bind, Except.bind]
      cases layout t <;> rfl
  | false =>
      simp only [Bool.false_eq_true, if_false]
      cases layout t with
      | pointer t' =>
          simp only [bind, Except.bind]
          cases layout t' <;> rfl
      | struct s => rfl
      | other => rfl

/-- **An access is compiled rightly** if and only if its key is regular for what it accesses. -/
theorem FieldAccess.step_iff (a : FieldAccess) (o : CalcOperand Ty) :
    a.step layout o = answer (a.place layout o) ↔
      ∀ s, target layout a.direct o.catype = some s → s.Regular a.key := by
  have hs := structOf_eq layout a.direct o.catype
  rw [place]
  cases ht : target layout a.direct o.catype with
  | none =>
      rw [ht, Option.elim, map_eq_error_iff] at hs
      refine iff_of_true ?_ nofun
      rw [step]
      cases a.key.fieldname with
      | none => rfl
      | some fieldname => dsimp only; rw [Access.step, hs]; rfl
  | some s =>
      have hget : ∃ t, structOf layout a.direct o.catype = .ok (t, s) := by
        rw [ht] at hs
        cases hr : structOf layout a.direct o.catype with
        | error e => rw [hr] at hs; cases hs
        | ok r => rw [hr] at hs; cases hs; exact ⟨_, rfl⟩
      obtain ⟨t, hget⟩ := hget
      have hstep : a.step layout o = (s.lookup a.key).map fun c =>
          ⟨true, .field (popRightValue (!a.direct) o) c.1, c.2⟩ := by
        rw [step, CAStruct.lookup]
        cases a.key.fieldname with
        | none => rfl
        | some fieldname =>
            dsimp only
            rw [Access.step, hget]
            simp only [bind, Except.bind]
            cases s.fieldType fieldname <;> rfl
      have hplace : answer (do
          let (i, t) ← s.component a.key
          some ⟨true, .field (popRightValue (!a.direct) o) i, t⟩) = (s.named a.key).map fun c =>
          ⟨true, .field (popRightValue (!a.direct) o) c.1, c.2⟩ := by
        rw [CAStruct.named]
        cases s.component a.key <;> rfl
      have hinj : Function.Injective (Except.map (ε := Stop) fun c : Int × Ty =>
          (⟨true, .field (popRightValue (!a.direct) o) c.1, c.2⟩ : CalcOperand Ty)) := by
        rintro (e | ⟨i, t⟩) (e' | ⟨i', t'⟩) h <;> simp_all [Except.map]
      simp only [bind, Option.bind_some] at hplace ⊢
      rw [hstep, hplace, hinj.eq_iff, CAStruct.lookup_iff]
      exact ⟨fun h s' hs' => Option.some.inj hs' ▸ h, fun h => h s rfl⟩

/-! ### Chains step by step -/

/-- The compiler's answer to a chain. -/
def follow [DecidableEq Ty] (layout : Ty → CADataType Ty) (o : CalcOperand Ty)
    (path : List FieldAccess) : Except Stop (CalcOperand Ty) :=
  match (path.foldlM (fun e a => a.node e) ASTNode.base : Option ASTNode) with
  | some node => walkStack layout o node
  | none => .error .error

section

variable [DecidableEq Ty]

theorem compile_eq (base : CalcOperand Ty) (source : List (Bool × Token)) :
    compile layout base source = follow layout base (written source) := by
  rw [compile, parse_eq, follow]

/-- The walk of a chain over an expression. -/
theorem walkStack_foldlM {base : CalcOperand Ty} {path : List FieldAccess} {expr node : ASTNode}
    (h : path.foldlM (fun e a => a.node e) expr = some node) :
    walkStack layout base node =
      walkStack layout base expr >>= fun o => path.foldlM (fun o a => a.step layout o) o := by
  induction path generalizing expr with
  | nil =>
      cases h
      cases walkStack layout base node <;> rfl
  | cons a path ih =>
      rw [List.foldlM_cons] at h
      cases hn : a.node expr with
      | none => rw [hn] at h; cases h
      | some expr' =>
          rw [hn] at h
          rw [ih h]
          rw [FieldAccess.node] at hn
          cases hk : a.key.fieldname with
          | none => rw [hk] at hn; cases hn
          | some fieldname =>
              rw [hk] at hn
              cases hn
              have hstep : a.step layout = Access.step layout fieldname a.direct := by
                funext o
                rw [FieldAccess.step, hk]
              rw [walkStack_field, bind_assoc]
              simp only [List.foldlM_cons, hstep]

/-- A chain is rejected by the parser if one of its keys is no number. -/
theorem foldlM_node_eq_none {path : List FieldAccess} {expr : ASTNode} :
    path.foldlM (fun e a => a.node e) expr = none ↔ ∃ a ∈ path, a.key.fieldname = none := by
  induction path generalizing expr with
  | nil => simp
  | cons a path ih =>
      rw [List.foldlM_cons, FieldAccess.node]
      cases hk : a.key.fieldname with
      | none => simp [hk]
      | some fieldname => simp [hk, ih]

theorem follow_eq {o : CalcOperand Ty} {path : List FieldAccess}
    (h : ∀ a ∈ path, a.key.fieldname ≠ none) :
    follow layout o path = path.foldlM (fun o a => a.step layout o) o := by
  rw [follow]
  cases hn : path.foldlM (fun e a => a.node e) ASTNode.base with
  | none =>
      obtain ⟨a, ha, hk⟩ := foldlM_node_eq_none.mp hn
      exact absurd hk (h a ha)
  | some node => exact walkStack_foldlM hn

theorem follow_eq_error {o : CalcOperand Ty} {path : List FieldAccess}
    (h : ∃ a ∈ path, a.key.fieldname = none) : follow layout o path = .error .error := by
  rw [follow, foldlM_node_eq_none.mpr h]

theorem follow_singleton (a : FieldAccess) (o : CalcOperand Ty) :
    follow layout o [a] = a.step layout o := by
  cases hk : a.key.fieldname with
  | none => rw [follow_eq_error ⟨a, List.mem_singleton_self a, hk⟩, FieldAccess.step, hk]
  | some fieldname =>
      rw [follow_eq fun b hb => by rw [List.mem_singleton.mp hb, hk]; simp, List.foldlM_cons]
      simp

/-- A chain goes on behind an access that succeeds. -/
theorem follow_cons_ok {a : FieldAccess} {o o' : CalcOperand Ty} (h : a.step layout o = .ok o')
    (path : List FieldAccess) : follow layout o (a :: path) = follow layout o' path := by
  have ha : a.key.fieldname ≠ none := by
    intro hk
    rw [FieldAccess.step, hk] at h
    cases h
  by_cases hp : ∃ b ∈ path, b.key.fieldname = none
  · obtain ⟨b, hb, hk⟩ := hp
    rw [follow_eq_error ⟨b, hb, hk⟩, follow_eq_error ⟨b, List.mem_cons_of_mem _ hb, hk⟩]
  · have hp' : ∀ b ∈ path, b.key.fieldname ≠ none := fun b hb hk => hp ⟨b, hb, hk⟩
    rw [follow_eq hp', follow_eq (List.forall_mem_cons.mpr ⟨ha, hp'⟩), List.foldlM_cons, h]
    rfl

/-- A chain is rejected where an access is. -/
theorem follow_cons_error {a : FieldAccess} {o : CalcOperand Ty}
    (h : a.step layout o = .error .error) (path : List FieldAccess) :
    follow layout o (a :: path) = .error .error := by
  by_cases hp : ∃ b ∈ a :: path, b.key.fieldname = none
  · exact follow_eq_error hp
  · rw [follow_eq fun b hb hk => hp ⟨b, hb, hk⟩, List.foldlM_cons, h]
    rfl

/-! ### Whole chains -/

/-- Every part of a chain is compiled to what it means. -/
def FollowsExactly (layout : Ty → CADataType Ty) (o : CalcOperand Ty) (path : List FieldAccess) :
    Prop :=
  ∀ part, part <+: path → follow layout o part = answer (resolve layout o part)

/-- Every chain can be written. -/
theorem exists_written (path : List FieldAccess) : ∃ source, written source = path := by
  induction path with
  | nil => exact ⟨[], rfl⟩
  | cons a path ih =>
      obtain ⟨source, rfl⟩ := ih
      obtain ⟨direct, key⟩ := a
      cases key with
      | name id => exact ⟨(direct, .ident id) :: source, rfl⟩
      | index d => exact ⟨(direct, .integer d) :: source, rfl⟩

theorem resolvedExactly_iff_followsExactly (base : CalcOperand Ty) (path : List FieldAccess) :
    ResolvedExactly layout base path ↔ FollowsExactly layout base path := by
  constructor
  · intro h part hpart
    obtain ⟨source, hsource⟩ := exists_written part
    rw [← h part source hpart hsource, compile_eq, hsource]
  · intro h part source hpart hsource
    rw [compile_eq, hsource, h part hpart]

/-- The parts of a chain are its first access and the parts behind it. -/
theorem followsExactly_cons (a : FieldAccess) (path : List FieldAccess) (o : CalcOperand Ty) :
    FollowsExactly layout o (a :: path) ↔ a.step layout o = answer (a.place layout o) ∧
      ∀ o', a.place layout o = some o' → FollowsExactly layout o' path := by
  have hone : resolve layout o [a] = a.place layout o := by
    rw [resolve_cons]
    cases a.place layout o <;> rfl
  constructor
  · intro h
    have hstep : a.step layout o = answer (a.place layout o) := by
      rw [← follow_singleton, ← hone]
      exact h [a] ⟨path, rfl⟩
    refine ⟨hstep, ?_⟩
    intro o' ho' part hpart
    rw [ho'] at hstep
    have hcons := h (a :: part) (List.prefix_cons_inj a |>.mpr hpart)
    rwa [follow_cons_ok hstep, resolve_cons, ho', Option.bind_some] at hcons
  · rintro ⟨hstep, hrest⟩ part hpart
    cases part with
    | nil => rfl
    | cons b part =>
        obtain ⟨rfl, htail⟩ := List.cons_prefix_cons.mp hpart
        rw [resolve_cons]
        cases ho : b.place layout o with
        | none =>
            rw [ho] at hstep
            rw [follow_cons_error hstep]
            rfl
        | some o' =>
            rw [ho] at hstep
            rw [follow_cons_ok hstep, Option.bind_some]
            exact hrest o' ho part htail

theorem followsExactly_iff (o : CalcOperand Ty) (path : List FieldAccess) :
    FollowsExactly layout o path ↔ Regular layout o.catype path := by
  induction path generalizing o with
  | nil =>
      refine iff_of_true ?_ trivial
      intro part hpart
      rw [List.prefix_nil.mp hpart]
      rfl
  | cons a path ih =>
      rw [followsExactly_cons, FieldAccess.step_iff, Regular]
      simp only [ih]
      constructor
      · rintro ⟨hreg, hrest⟩ s hs
        refine ⟨hreg s hs, ?_⟩
        intro i t' hc
        have hplace : a.place layout o =
            some ⟨true, .field (popRightValue (!a.direct) o) i, t'⟩ := by
          rw [FieldAccess.place, hs]
          simp only [bind, Option.bind_some, hc]
        exact hrest _ hplace
      · intro h
        refine ⟨fun s hs => (h s hs).1, ?_⟩
        intro o' ho'
        rw [FieldAccess.place] at ho'
        cases hs : target layout a.direct o.catype with
        | none => rw [hs] at ho'; cases ho'
        | some s =>
            rw [hs] at ho'
            simp only [bind, Option.bind_some] at ho'
            cases hc : s.component a.key with
            | none => rw [hc] at ho'; cases ho'
            | some c =>
                rw [hc] at ho'
                cases ho'
                exact (h s hs).2 c.1 c.2 hc

/-- **A chain of accesses is resolved exactly** if and only if every key that it comes to is
regular: the numbers that exceed an `int` stay above the number of fields, no name is a number of a
field of the tuple, and no number is the name of a field of the struct. -/
theorem resolvedExactly_iff (layout : Ty → CADataType Ty) (base : CalcOperand Ty)
    (path : List FieldAccess) :
    ResolvedExactly layout base path ↔ Regular layout base.catype path :=
  (resolvedExactly_iff_followsExactly base path).trans (followsExactly_iff base path)

end

/-- A variable of type `(i32, i64)`. -/
def pairLayout : Nat → CADataType Nat
  | 0 => .struct ⟨true, [(0, 1), (0, 2)], by decide⟩
  | _ => .other

/-- The text `4294967296`. -/
def twoToThe32 : Digits := ⟨"4294967296".toList, by simp, List.all_eq_true.mp rfl⟩

/-- `a.4294967296` is compiled to `a.0`. -/
theorem pair_not_resolvedExactly :
    compile pairLayout ⟨true, .root, 0⟩ [(true, .integer twoToThe32)] =
      .ok ⟨true, .field .root 0, 1⟩ ∧
    ¬ ResolvedExactly pairLayout ⟨true, .root, 0⟩ [⟨true, .index twoToThe32⟩] := by
  have hcompile : compile pairLayout ⟨true, .root, 0⟩ [(true, .integer twoToThe32)] =
      .ok ⟨true, .field .root 0, 1⟩ := by decide
  refine ⟨hcompile, ?_⟩
  intro h
  have := h _ [(true, .integer twoToThe32)] (List.prefix_refl _) rfl
  rw [hcompile] at this
  revert this
  decide

end Access

end CaLang.Structs
