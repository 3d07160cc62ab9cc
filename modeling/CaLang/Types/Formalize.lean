import CaLang.Types.Layout
import CaLang.Types.Reading

/-! # What is written to the components

The unwinder gives a signature to the datatype it returns, and `catype_formalize_type_expand` to all
that is reachable from it: by stripping the `*` and `[ ;n]` in front of the outermost struct, and
behind it by printing each field anew (`typeid_get_top_down`). **The printer yields the signature of
what has one already, and the bare name of a struct it is inside of.**

- `typeidGetTopDown`, `catypeFormalizeTypeExpand`: the two walks;
- `Signatures`: what they write, at the places of the tree;
- `catypeFormalizeType`: the expansion, and behind it the layout.

The name of an unnamed slice is `symname_get(-1)`, what stands in front of the buffer of names; it
is a parameter. A signature that does not fit into `type_buf` overruns it.
-/

namespace CaLang.Types

/-- The signatures of the datatypes whose status is not `CADT_None`. -/
abbrev Signatures := Addr → Option (List Char)

/-- The signature of the datatype at a place. The primitive types have theirs (`CADT_Orig`). -/
def signatureAt (σ : Signatures) (t : CADataType) (a : Addr) (env : Env) : Option (List Char) :=
  match t with
  | .prim p => some p.text
  | _ => σ (objAddr t a env)

def setSignature (σ : Signatures) (a : Addr) (s : List Char) : Signatures :=
  Function.update σ a (some s)

/-- `catype_unwind_type_signature` sets that of the datatype it returns. -/
def rootSignature (D : CADataType) : Signatures :=
  fun a => if a = [] then some D.signature else none

/-! ### `typeid_get_top_down` -/

/-- The name of a struct that is being printed. -/
def StructHead.printedName (anon : Name) : StructHead StructId → Name
  | .namedStruct id | .namedTuple id => id.name
  | .generalTuple => []
  | .slice => anon

/-- A member with the `,` behind it. Only the members of a named struct have their name printed. -/
def printedMember (h : StructHead StructId) (n : Option Name) (s : List Char) : List Char :=
  (match h with
    | .namedStruct _ => fieldLabel n
    | _ => []) ++ s ++ [',']

/-- A struct with its members, whose last character is replaced. -/
def printedStruct (anon : Name) (h : StructHead StructId) (members : List Char) : List Char :=
  match h with
  | .namedStruct _ => ('{' :: h.printedName anon ++ ';' :: members).dropLast ++ ['}']
  | _ => ('(' :: h.printedName anon ++ ';' :: members).dropLast ++ [')']

/-- `sym_form_type_id_by_str`, by which a text becomes a signature. -/
def symFormTypeIdByStr (s : List Char) : Except WalkStop (List Char) :=
  if fitsTypeBuf s then .ok s else .error .crash

theorem symFormTypeIdByStr_eq_ok {s s' : List Char} (h : symFormTypeIdByStr s = .ok s') :
    fitsTypeBuf s = true ∧ s' = s := by
  unfold symFormTypeIdByStr at h
  split at h
  · cases h
    exact ⟨by assumption, rfl⟩
  · cases h

abbrev TypeidPass :=
  CADataType → Addr → Env → List Addr → Signatures → Except WalkStop (List Char × Signatures)

/-- The loop of `typeid_get_top_down` over the fields of the struct at `a`, from field `i` on. -/
def typeidFields (pass : TypeidPass) (h : StructHead StructId) (a : Addr) (env : Env)
    (rcheck : List Addr) :
    CAStructFields → Nat → Signatures → Except WalkStop (List Char × Signatures)
  | .nil, _, σ => .ok ([], σ)
  | .cons n t rest, i, σ => do
      let (s, σ) ← pass t (i :: a) env rcheck σ
      let (members, σ) ← typeidFields pass h a env rcheck rest (i + 1) σ
      return (printedMember h n s ++ members, σ)

/-- `typeid_get_top_down`. -/
def typeidGetTopDown (anon : Name) (fuel : Nat) : TypeidPass := fun t a env rcheck σ =>
  match fuel with
  | 0 => .error .fuel
  | fuel + 1 =>
      match signatureAt σ t a env with
      | some s => .ok (s, σ)
      | none =>
          match t with
          | .prim p => .ok (p.text, σ)
          | .pointer t => do
              let (s, σ) ← typeidGetTopDown anon fuel t (0 :: a) env rcheck σ
              let s ← symFormTypeIdByStr ('*' :: s)
              return (s, setSignature σ a s)
          | .array e n => do
              let (s, σ) ← typeidGetTopDown anon fuel e (0 :: a) env rcheck σ
              let s ← symFormTypeIdByStr ('[' :: s ++ ';' :: printInt n ++ [']'])
              return (s, setSignature σ a s)
          | .struct h fs =>
              if a ∈ rcheck then .ok (h.printedName anon, σ)
              else do
                let (members, σ) ← typeidFields (typeidGetTopDown anon fuel) h a
                  (⟨a, h, fs⟩ :: env) (a :: rcheck) fs 0 σ
                let s ← symFormTypeIdByStr (printedStruct anon h members)
                return (s, setSignature σ a s)
          | .recur id =>
              match findFrame id env with
              | some (f, env) =>
                  typeidGetTopDown anon fuel (.struct f.head f.fields) f.addr env rcheck σ
              | none => .error .crash

/-! ### `catype_formalize_type_expand` -/

/-- `typeid_decrease_pointer`. -/
def typeidDecreasePointer : List Char → Option (List Char)
  | '*' :: s => some s
  | _ => none

/-- `typeid_decrease_array`: what stands in front of the last `;`. -/
def typeidDecreaseArray : List Char → Option (List Char)
  | '[' :: s =>
      match s.reverse with
      | ']' :: r => if ';' ∈ r then some ((r.dropWhile (· ≠ ';')).tail.reverse) else none
      | _ => none
  | _ => none

/-- Gives the target of a pointer, or the element of an array, the signature that `decrease` makes
of that of the datatype itself, unless it has one. -/
def expandNext (decrease : List Char → Option (List Char)) (t : CADataType) (a : Addr) (env : Env)
    (σ : Signatures) : Except WalkStop Signatures :=
  if (signatureAt σ t (0 :: a) env).isSome then .ok σ
  else
    match σ a >>= decrease with
    | some s => .ok (setSignature σ (objAddr t (0 :: a) env) s)
    | none => .error .crash

/-- Gives a field its signature, unless it has one. -/
def expandField (anon : Name) (fuel : Nat) (t : CADataType) (a : Addr) (env : Env)
    (σ : Signatures) : Except WalkStop Signatures :=
  if (signatureAt σ t a env).isSome then .ok σ
  else do
    let (s, σ) ← typeidGetTopDown anon fuel t a env [] σ
    return setSignature σ (objAddr t a env) s

abbrev ExpandPass :=
  CADataType → Addr → Env → List Addr → Signatures → Except WalkStop Signatures

/-- The loop of `catype_formalize_type_expand` over the fields of the struct at `a`. -/
def expandFields (anon : Name) (fuel : Nat) (pass : ExpandPass) (a : Addr) (env : Env)
    (rcheck : List Addr) : CAStructFields → Nat → Signatures → Except WalkStop Signatures
  | .nil, _, σ => .ok σ
  | .cons _ t rest, i, σ =>
      if objAddr t (i :: a) env ∈ rcheck then
        expandFields anon fuel pass a env rcheck rest (i + 1) σ
      else do
        let σ ← expandField anon fuel t (i :: a) env σ
        let σ ← pass t (i :: a) env (objAddr t (i :: a) env :: rcheck) σ
        expandFields anon fuel pass a env rcheck rest (i + 1) σ

/-- `catype_formalize_type_expand`. -/
def catypeFormalizeTypeExpand (anon : Name) (fuel : Nat) : ExpandPass := fun t a env rcheck σ =>
  match fuel with
  | 0 => .error .fuel
  | fuel + 1 =>
      match t with
      | .prim _ => .ok σ
      | .pointer t => do
          let σ ← expandNext typeidDecreasePointer t a env σ
          catypeFormalizeTypeExpand anon fuel t (0 :: a) env rcheck σ
      | .array e _ => do
          let σ ← expandNext typeidDecreaseArray e a env σ
          catypeFormalizeTypeExpand anon fuel e (0 :: a) env rcheck σ
      | .struct h fs =>
          expandFields anon fuel (catypeFormalizeTypeExpand anon fuel) a (⟨a, h, fs⟩ :: env) rcheck
            fs 0 σ
      | .recur id =>
          match findFrame id env with
          | some (f, env) =>
              catypeFormalizeTypeExpand anon fuel (.struct f.head f.fields) f.addr env rcheck σ
          | none => .error .crash

/-- The walk from the unwound datatype, which is in `rcheck` itself. -/
def catypeExpand (anon : Name) (fuel : Nat) (D : CADataType) : Except WalkStop Signatures :=
  catypeFormalizeTypeExpand anon fuel D [] [] [[]] (rootSignature D)

/-! ### `catype_formalize_type` -/

/-- What the unwinder leaves behind: the sizes as it has them. -/
def unwoundLayout (D : CADataType) : Layout where
  size a :=
    match place D a with
    | some (t, _) => (t.typesize % 18446744073709551616).toNat
    | none => 0
  fieldmaxalign _ := 1
  offset _ := 0

/-- A datatype that was made, with what is written to its components. -/
structure Made where
  datatype : CADataType
  signatures : Signatures
  layout : Layout

/-- `catype_formalize_type`. -/
def catypeFormalizeType (anon : Name) (fuel : Nat) (D : CADataType) : Except WalkStop Made := do
  let signatures ← catypeExpand anon fuel D
  let layout ← catypeLayout fuel D (unwoundLayout D)
  return ⟨D, signatures, layout⟩

end CaLang.Types
