import CaLang.Patterns.Typing

/-! # The bind pass of `let`

The walk of the pattern along the value: **each sub-pattern gets a component, whose address is a
step from that of the group**.  A value is known here by the steps that lead to it from
the initialiser.

A variable is given its value by `bind_variable_value`, which looks up the datatype that the type
pass has recorded.
-/

namespace CaLang.Patterns

/-- The steps to a component, each an index of `CreateGEP`. -/
abbrev Place := List Int

inductive BindEvent (Ty : Type)
  | taken (p : CAPattern) (place : Place) (type : Ty)
  | bound (x : Nat) (place : Place) (type : Ty)

variable {Ty : Type}

/-- `bind_variable_value` -/
def bindVariableValue (vars : Nat → Option Ty) (place : Place) (x : Nat) :
    Except Stop (BindEvent Ty) :=
  match vars x with
  | some t => .ok (.bound x place t)
  | none => .error .undefined

/-- `atmore_bind_variable_value` -/
def bindAll (vars : Nat → Option Ty) (place : Place) (xs : List Nat) :
    Except Stop (List (BindEvent Ty)) :=
  xs.mapM (bindVariableValue vars place)

/-- The position of an item of the struct form. -/
def bindPosition (s : CAStruct Ty) (fieldname : Int) : Int :=
  if s.type = .namedStruct then
    match s.fields.findIdx? (·.1 = fieldname) with
    | some pos => pos
    | none => -1
  else fieldname

section

variable (Γ : TypeTable Ty) (vars : Nat → Option Ty)

mutual
/-- `capattern_bind_value` -/
def capatternBindValue : CAPattern → Place → Ty → Except Stop (List (BindEvent Ty))
  | .var f x more, place, t =>
      andThen (.ok [.taken (.var f x more) place t]) (bindAll vars place (x :: more))
  | .ignoreOne f more, place, t => .ok [.taken (.ignoreOne f more) place t]
  | .ignoreRange, _, _ => .error .exit
  | .group .array f more items, place, t =>
      match Γ.layout t with
      | .array item n =>
          andThen (.ok [.taken (.group .array f more items) place t])
            (andThen (bindAll vars place more)
              (capatternBindArrayPatternRange items place item n items.length true 0))
      | _ => .error .undefined
  | .group type f more items, place, t =>
      match Γ.layout t with
      | .struct s =>
          andThen (.ok [.taken (.group type f more items) place t])
            (andThen (bindAll vars place more)
              (if type.isStruct then capatternBindStructFields items place s
              else capatternBindTuplePatternRange items place s.fields items.length true 0))
      | _ => .error .undefined

/-- `capattern_bind_array_pattern_range` over the items before the `..`, and then over those
behind. -/
def capatternBindArrayPatternRange :
    List CAPattern → Place → Ty → Nat → Nat → Bool → Nat → Except Stop (List (BindEvent Ty))
  | [], _, _, _, _, _, _ => .ok []
  | p :: items, place, item, n, size, before, i =>
      if before && p.isIgnoreRange then
        capatternBindArrayPatternRange items place item n size false (i + 1)
      else
        let typeoffset : Int := if before then 0 else n - size
        andThen (capatternBindValue p (place ++ [i + typeoffset]) item)
          (capatternBindArrayPatternRange items place item n size before (i + 1))

/-- The loop of `capattern_bind_struct_value` over the items of the struct form. -/
def capatternBindStructFields :
    List CAPattern → Place → CAStruct Ty → Except Stop (List (BindEvent Ty))
  | [], _, _ => .ok []
  | p :: items, place, s =>
      if p.isIgnoreRange then .ok []
      else do
        let field ← readAt s.fields (bindPosition s p.fieldname)
        andThen (capatternBindValue p (place ++ [bindPosition s p.fieldname]) field.2)
          (capatternBindStructFields items place s)

/-- `capattern_bind_tuple_pattern_range` over the items before the `..`, and then over those
behind. -/
def capatternBindTuplePatternRange :
    List CAPattern → Place → List (Int × Ty) → Nat → Bool → Nat → Except Stop (List (BindEvent Ty))
  | [], _, _, _, _, _ => .ok []
  | p :: items, place, fields, size, before, i =>
      if before && p.isIgnoreRange then
        capatternBindTuplePatternRange items place fields size false (i + 1)
      else do
        let typeoffset : Int := if before then 0 else fields.length - size
        let field ← readAt fields (i + typeoffset)
        andThen (capatternBindValue p (place ++ [i + typeoffset]) field.2)
          (capatternBindTuplePatternRange items place fields size before (i + 1))
end

end

end CaLang.Patterns
