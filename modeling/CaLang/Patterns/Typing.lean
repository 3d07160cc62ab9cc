import CaLang.Patterns.Syntax
import Mathlib.Data.List.Chain

/-! # The type pass of `let`

Either the datatype is known, from the annotation or because the pattern names it, and **the pattern
is walked along the datatype**; or both sides are walked, as far as the initialiser is written out.
The expressions are a parameter: the pass looks whether one is a name or a literal of a tuple or of
an array, infers its datatype, and determines it.

The result lists the sub-patterns with the component that each is typed from, and the datatypes that
are recorded for the variables.
-/

namespace CaLang.Patterns

/-- How a pass ends without a result: with an error, or the language of the compiler says nothing,
since it reads what is not there. -/
inductive Stop
  | exit
  | undefined
  deriving DecidableEq

/-- From where the datatype of a sub-pattern is taken: a field, or the items of an array. -/
inductive Source
  | field (i : Int)
  | item
  deriving DecidableEq

inductive TypeEvent (Ty : Type)
  | typed (p : CAPattern) (source : List Source) (type : Ty)
  | recorded (x : Nat) (type : Ty)

variable {Ty : Type}

/-- One part of a walk after the other. -/
def andThen {α : Type} (a b : Except Stop (List α)) : Except Stop (List α) := do
  let x ← a
  let y ← b
  return x ++ y

/-- `bind_register_variable_catype` -/
def recordAll (xs : List Nat) (t : Ty) : List (TypeEvent Ty) := xs.map (.recorded · t)

/-- The datatypes of the variables after the events. -/
def recordedTypes (vars : Nat → Option Ty) (events : List (TypeEvent Ty)) : Nat → Option Ty :=
  events.foldl (fun vars event =>
    match event with
    | .recorded x t => Function.update vars x (some t)
    | .typed _ _ _ => vars) vars

/-- A member of an array of the compiler. -/
def readAt {α : Type} (xs : List α) (i : Int) : Except Stop α :=
  match i with
  | .ofNat n => xs[n]?.elim (.error .undefined) .ok
  | .negSucc _ => .error .undefined

/-- What must be found. -/
def found {α : Type} (x : Option α) : Except Stop α := x.elim (.error .exit) .ok

/-! ### A datatype for a pattern -/

section

variable [DecidableEq Ty] (Γ : TypeTable Ty)

mutual
/-- `catype_from_capattern` -/
def catypeFromCapattern (vars : Nat → Option Ty) : CAPattern → Except Stop (Option Ty)
  | .var _ x _ => .ok (vars x)
  | .ignoreOne _ _ | .ignoreRange => .ok none
  | .group type _ _ items =>
      match type with
      | .tuple n | .struct n => (found (Γ.namedType n)).map some
      | .array => do
          match ← catypesFromItems vars items with
          | none => return none
          | some ts =>
              -- the first type is read even if there is none
              let t ← found (ts.head? <|> Γ.stale)
              if ts.IsChain (· = ·) then (found (Γ.arrayType t items.length)).map some
              else .error .exit
      | .genTuple => do
          match ← catypesFromItems vars items with
          | none => return none
          | some ts => (found (Γ.tupleType ts)).map some

def catypesFromItems (vars : Nat → Option Ty) : List CAPattern → Except Stop (Option (List Ty))
  | [] => .ok (some [])
  | p :: items => do
      match ← catypeFromCapattern vars p with
      | none => return none
      | some t => return (← catypesFromItems vars items).map (t :: ·)
end

section

attribute [local simp] catypeFromCapattern catypesFromItems

variable {Γ} (vars : Nat → Option Ty)

theorem catypeFromCapattern_ignoreRange : catypeFromCapattern Γ vars .ignoreRange = .ok none := by
  simp

theorem catypesFromItems_nil : catypesFromItems Γ vars [] = .ok (some []) := by simp

end

/-! ### Along a datatype -/

/-- The position of a field: its number in a tuple, its name in a struct.  **A number is only
compared with the end of the fields.** -/
def fieldPosition (s : CAStruct Ty) (fieldname : Int) : Except Stop Int :=
  -- this is an assertion
  if fieldname = -1 then .error .exit
  else if s.type = .namedTuple then
    (if fieldname ≥ s.fields.length then .error .exit else .ok fieldname)
  else (found (s.fields.findIdx? (·.1 = fieldname))).map fun pos => (pos : Int)

/-- What `determine_letbind_type_for_struct` checks before it looks at the items. -/
def structChecks (type : GroupType) (items : List CAPattern) (s : CAStruct Ty) (t : Ty) : Bool :=
  type.name?.all (fun n => Γ.namedType n = some t) && items.length ≤ s.fields.length &&
    (hasIgnoreRange items || items.length = s.fields.length) &&
    -- this is an assertion
    (!type.isStruct || s.type.isNamed)

mutual
/-- `determine_letbind_type` -/
def determineLetbindType : CAPattern → List Source → Ty → Except Stop (List (TypeEvent Ty))
  | .var f x more, source, t =>
      .ok (.typed (.var f x more) source t :: recordAll (x :: more) t)
  | .ignoreOne f more, source, t => .ok [.typed (.ignoreOne f more) source t]
  | .ignoreRange, _, _ => .error .exit
  | .group .array f more items, source, t =>
      match Γ.layout t with
      | .array e _ =>
          andThen (.ok [.typed (.group .array f more items) source t])
            (determineLetbindTypeRange items (source ++ [.item]) e)
      | _ => .error .undefined
  | .group type f more items, source, t =>
      match Γ.layout t with
      | .struct s =>
          if structChecks Γ type items s t then
            andThen (.ok (.typed (.group type f more items) source t :: recordAll more t))
              (if type.isStruct then determineLetbindTypeFields items source s
              else determineLetbindPatternRange items source s.fields items.length true 0)
          else .error .exit
      | _ => .error .exit

/-- `determine_letbind_type_range` over all items. -/
def determineLetbindTypeRange :
    List CAPattern → List Source → Ty → Except Stop (List (TypeEvent Ty))
  | [], _, _ => .ok []
  | p :: items, source, t =>
      andThen (determineLetbindType p source t) (determineLetbindTypeRange items source t)

/-- The loop of `determine_letbind_type_for_struct` over the items of the struct form. -/
def determineLetbindTypeFields :
    List CAPattern → List Source → CAStruct Ty → Except Stop (List (TypeEvent Ty))
  | [], _, _ => .ok []
  | p :: items, source, s =>
      if p.isIgnoreRange then .ok []
      else do
        let pos ← fieldPosition s p.fieldname
        let field ← readAt s.fields pos
        andThen (determineLetbindType p (source ++ [.field pos]) field.2)
          (determineLetbindTypeFields items source s)

/-- `determine_letbind_pattern_range` over the items before the `..`, and then over those behind. -/
def determineLetbindPatternRange :
    List CAPattern → List Source → List (Int × Ty) → Nat → Bool → Nat →
      Except Stop (List (TypeEvent Ty))
  | [], _, _, _, _, _ => .ok []
  | p :: items, source, fields, size, before, i =>
      if before && p.isIgnoreRange then
        determineLetbindPatternRange items source fields size false (i + 1)
      else do
        let typeoffset : Int := if before then 0 else fields.length - size
        let field ← readAt fields (i + typeoffset)
        andThen (determineLetbindType p (source ++ [.field (i + typeoffset)]) field.2)
          (determineLetbindPatternRange items source fields size before (i + 1))
end

section

attribute [local simp] determineLetbindType determineLetbindTypeRange determineLetbindTypeFields
  determineLetbindPatternRange

variable {Γ} (source : List Source) (t : Ty)

/-- `..` is no item of a type. -/
theorem determineLetbindType_ignoreRange :
    determineLetbindType Γ .ignoreRange source t = .error .exit := by simp

theorem determineLetbindTypeRange_nil : determineLetbindTypeRange Γ [] source t = .ok [] := by
  simp

theorem determineLetbindTypeFields_nil (s : CAStruct Ty) :
    determineLetbindTypeFields Γ [] source s = .ok [] := by simp

theorem determineLetbindPatternRange_nil (fields : List (Int × Ty)) (size i : Nat)
    (before : Bool) : determineLetbindPatternRange Γ [] source fields size before i = .ok [] := by
  simp

end

end

/-! ### Along both sides -/

/-- What the pass sees of an expression. -/
inductive ExprView (E : Type)
  | id
  | tuple (exprs : List E)
  | array
  | other

/-- The expressions, with `inference_expr_type` and `determine_expr_type`, which may end with an
error. -/
structure Exprs (Ty E : Type) where
  view : E → ExprView E
  inferenceExprType : E → Option Ty
  determineExprType : E → Ty → Bool

section

variable {E : Type} [DecidableEq Ty] (Γ : TypeTable Ty) (X : Exprs Ty E)

mutual
/-- `inference_letbind_type_both_side`, with the datatype of the initialiser. -/
def inferenceLetbindTypeBothSide (vars : Nat → Option Ty) :
    CAPattern → List Source → E → Except Stop (Ty × List (TypeEvent Ty))
  | .var f x more, source, e => do
      let t ← found (X.inferenceExprType e)
      return (t, .typed (.var f x more) source t :: recordAll (x :: more) t)
  | .ignoreOne f more, source, e => do
      let t ← found (X.inferenceExprType e)
      return (t, [.typed (.ignoreOne f more) source t])
  | .ignoreRange, source, e => do
      let t ← found (X.inferenceExprType e)
      return (t, [.typed .ignoreRange source t])
  | .group .genTuple f more items, source, e =>
      match X.view e with
      | .id => do
          let t ← found (X.inferenceExprType e)
          let events ← determineLetbindType Γ (.group .genTuple f more items) source t
          return (t, events ++ recordAll more t)
      | .tuple exprs =>
          if !hasIgnoreRange items && items.length ≠ exprs.length then .error .exit
          else do
            let events ←
              inferenceLetbindPatternRange vars items source exprs items.length true 0
            let t ← catypeFromCapattern Γ (recordedTypes vars events)
              (.group .genTuple f more items)
            let t ← found t
            if X.determineExprType e t then
              return (t,
                .typed (.group .genTuple f more items) source t :: events ++ recordAll more t)
            else .error .exit
      | _ => .error .exit
  | .group .array f more items, source, e =>
      match X.view e with
      | .id | .array => do
          let t ← found (X.inferenceExprType e)
          match Γ.layout t with
          | .array item n =>
              if hasIgnoreRange items then do
                let events ← determineLetbindTypeRange Γ (items.eraseP CAPattern.isIgnoreRange)
                  (source ++ [.item]) item
                return (t,
                  .typed (.group .array f more items) source t :: events ++ recordAll more t)
              else if items.length ≠ n then .error .exit
              else do
                let events ← determineLetbindType Γ (.group .array f more items) source t
                return (t, events ++ recordAll more t)
          | _ => .error .exit
      | _ => .error .exit
  | .group _ _ _ _, _, _ => .error .exit

/-- `inference_letbind_pattern_range` over the items before the `..`, and then over those behind. -/
def inferenceLetbindPatternRange (vars : Nat → Option Ty) :
    List CAPattern → List Source → List E → Nat → Bool → Nat → Except Stop (List (TypeEvent Ty))
  | [], _, _, _, _, _ => .ok []
  | p :: items, source, exprs, size, before, i =>
      if before && p.isIgnoreRange then
        inferenceLetbindPatternRange vars items source exprs size false (i + 1)
      else do
        let typeoffset : Int := if before then 0 else exprs.length - size
        let e ← readAt exprs (i + typeoffset)
        let (_, events) ←
          inferenceLetbindTypeBothSide vars p (source ++ [.field (i + typeoffset)]) e
        let rest ← inferenceLetbindPatternRange (recordedTypes vars events) items source exprs size
          before (i + 1)
        return events ++ rest
end

section

attribute [local simp] inferenceLetbindTypeBothSide inferenceLetbindPatternRange

variable {Γ} {X} (vars : Nat → Option Ty) (source : List Source)

theorem inferenceLetbindPatternRange_nil (exprs : List E) (size i : Nat) (before : Bool) :
    inferenceLetbindPatternRange Γ X vars [] source exprs size before i = .ok [] := by simp

end

/-! ### A `let` -/

/-- `make_let_stmt`: the variables of a pattern that is accepted. -/
def makeLetStmt (cap : CAPattern) (post : Option Ty) : Except Stop (Nat → Option Ty) :=
  let registered := registerCapattern Γ post cap
  if capatternCheckIgnore cap && (registered.map Prod.fst).Nodup then
    .ok fun x => (registered.lookup x).join
  else .error .exit

/-- `capattern_check_get_type`, where `post` is the annotation. -/
def capatternCheckGetType (vars : Nat → Option Ty) (cap : CAPattern) (post : Option Ty) :
    Except Stop (Option Ty) := do
  match ← catypeFromCapattern Γ vars cap, post with
  | t, none => return t
  | none, some post => return some post
  | some t, some post => if post = t then return some t else .error .exit

/-- The type pass of `walk_letbind`, with the datatype of the initialiser; `none` is
`__zero_init__`. -/
def typeLetbind (vars : Nat → Option Ty) (cap : CAPattern) (post : Option Ty) (init : Option E) :
    Except Stop (Ty × List (TypeEvent Ty)) := do
  match ← capatternCheckGetType Γ vars cap post, init with
  | some t, some e =>
      let events ← determineLetbindType Γ cap [] t
      if X.determineExprType e t then return (t, events) else .error .exit
  | none, some e => inferenceLetbindTypeBothSide Γ X vars cap [] e
  | some t, none => return (t, ← determineLetbindType Γ cap [] t)
  | none, none => .error .exit

end

end CaLang.Patterns
