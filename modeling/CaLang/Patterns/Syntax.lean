import Mathlib.Data.List.Nodup

/-! # Patterns of `let`

A pattern is a variable, `_`, or a group of patterns: of an array, of a tuple or of a struct.  **A
group can have one `..`, which stands for the components that the others leave**; in the struct form
it is the last item, since the fields are found by their names there.

Datatypes are looked up by their numbers; what the patterns need of them is in `TypeTable`.
-/

namespace CaLang.Patterns

/-! ### Datatypes -/

/-- `CAStructType`; the other struct forms are not written in patterns. -/
inductive CAStructType
  | namedStruct | namedTuple | generalTuple | other
  deriving DecidableEq

/-- `type < Struct_GeneralTuple` -/
def CAStructType.isNamed : CAStructType → Bool
  | .namedStruct | .namedTuple => true
  | _ => false

/-- `CAStruct`: the names and the types of the fields; a name is an `int`. -/
structure CAStruct (Ty : Type) where
  type : CAStructType
  fields : List (Int × Ty)

inductive CADataType (Ty : Type)
  | struct (layout : CAStruct Ty)
  | array (type : Ty) (size : Nat)
  | other

/-- The datatypes: `catype_get_by_name`, `sym_form_tuple_id`, `sym_form_array_id` and
`sym_form_type_id` with the lookup behind them; `stale` is what happens to stand behind the end of
an empty list of types, if it is a type. -/
structure TypeTable (Ty : Type) where
  layout : Ty → CADataType Ty
  stale : Option Ty
  tupleType : List Ty → Option Ty
  arrayType : Ty → Nat → Option Ty
  namedType : Nat → Option Ty
  layout_tupleType {ts : List Ty} {t : Ty} : tupleType ts = some t →
    ∃ fields, layout t = .struct ⟨.generalTuple, fields⟩ ∧ fields.map Prod.snd = ts
  layout_arrayType {e t : Ty} {n : Nat} : arrayType e n = some t → layout t = .array e n

/-! ### Patterns -/

/-- The groups: `[..]`, `(..)`, `T(..)` and `T{..}`. -/
inductive GroupType
  | array
  | genTuple
  | tuple (name : Nat)
  | struct (name : Nat)
  deriving DecidableEq

/-- The name of the type that a group is for. -/
def GroupType.name? : GroupType → Option Nat
  | .tuple n | .struct n => some n
  | _ => none

/-- The struct form `T{..}`. -/
def GroupType.isStruct : GroupType → Bool
  | .struct _ => true
  | _ => false

/-- `CAPattern`; the names in front of `@` are in `morebind`, and `fieldname` is for the struct form
that the pattern is in: the name of a field, or a number, **which is what `atoi` makes of the
digits**. -/
inductive CAPattern
  | var (fieldname : Int) (name : Nat) (morebind : List Nat)
  | ignoreOne (fieldname : Int) (morebind : List Nat)
  | ignoreRange
  | group (type : GroupType) (fieldname : Int) (morebind : List Nat) (items : List CAPattern)

namespace CAPattern

def fieldname : CAPattern → Int
  | .var f _ _ | .ignoreOne f _ | .group _ f _ _ => f
  | .ignoreRange => 0

def isIgnoreRange : CAPattern → Bool
  | .ignoreRange => true
  | _ => false

end CAPattern

namespace CAPattern

/-- Patterns by induction: of a group, every item has the property. -/
@[elab_as_elim, induction_eliminator]
theorem induct {motive : CAPattern → Prop}
    (var : ∀ f x more, motive (.var f x more))
    (ignoreOne : ∀ f more, motive (.ignoreOne f more))
    (ignoreRange : motive .ignoreRange)
    (group : ∀ type f more items, (∀ p ∈ items, motive p) → motive (.group type f more items)) :
    ∀ p, motive p
  | .var f x more => var f x more
  | .ignoreOne f more => ignoreOne f more
  | .ignoreRange => ignoreRange
  | .group type f more items =>
      group type f more items fun p _ => induct var ignoreOne ignoreRange group p

end CAPattern

/-- `capattern_ignorerange_pos` finds a `..`. -/
def hasIgnoreRange (items : List CAPattern) : Bool := items.any CAPattern.isIgnoreRange

mutual
/-- `capattern_check_ignore`, which `make_let_stmt` asks first. -/
def capatternCheckIgnore : CAPattern → Bool
  | .var _ _ _ | .ignoreOne _ _ => true
  | .ignoreRange => false
  | .group type _ _ items =>
      checkIgnoreItems items && items.countP CAPattern.isIgnoreRange ≤ 1 &&
        (!type.isStruct || !hasIgnoreRange items || items.getLast?.any CAPattern.isIgnoreRange)

def checkIgnoreItems : List CAPattern → Bool
  | [] => true
  | p :: items => (p.isIgnoreRange || capatternCheckIgnore p) && checkIgnoreItems items
end

mutual
/-- `register_capattern_symtable`: the variables, with the datatype that is known of each. -/
def registerCapattern {Ty : Type} (Γ : TypeTable Ty) (datatype : Option Ty) :
    CAPattern → List (Nat × Option Ty)
  | .var _ x more => (x :: more).map (·, datatype)
  | .ignoreOne _ _ | .ignoreRange => []
  | .group type _ more items =>
      more.map (·, (type.name?.map Γ.namedType).getD datatype) ++ registerItems Γ items

def registerItems {Ty : Type} (Γ : TypeTable Ty) : List CAPattern → List (Nat × Option Ty)
  | [] => []
  | p :: items => registerCapattern Γ none p ++ registerItems Γ items
end

end CaLang.Patterns
