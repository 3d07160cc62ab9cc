import CaLang.Patterns.Takings

/-! # Where the passes are wrong

`determine_letbind_type` **asks neither whether an array pattern meets an array nor how long it
is**; with a `..` the number of items is not looked at where the initialiser gives the type, and
a literal is read with an offset that may leave it; the struct form takes a field as often as it is
named, and it reads a tuple at a number that may be negative.

A meeting is a group of a pattern with what it is matched with.  The visits follow the walk of the
type pass.
-/

namespace CaLang.Patterns

/-- What decides whether a group is walked rightly. -/
inductive Meeting
  /-- An array pattern with a type, which is an array of some length; `inner` says that the type is
  known before the initialiser is looked at. -/
  | array (inner dots : Bool) (count : Nat) (size : Option Nat)
  /-- The fields that the struct form names; `numbered` says that it meets a named tuple. -/
  | fields (numbered : Bool) (names : List Int)
  /-- A tuple pattern with a `..` and a literal of a tuple. -/
  | literal (before after argc : Nat)

/-- The meetings in which the passes are right. -/
def Meeting.Good : Meeting → Prop
  | .array true dots count size => ∃ n, size = some n ∧ (dots = false → count = n)
  | .array false dots count size => ∀ n, size = some n → dots = true → count ≤ n
  | .fields numbered names => names.Nodup ∧ (numbered → ∀ f ∈ names, 0 ≤ f)
  | .literal before after argc => before ≤ argc ∧ after ≤ argc

variable {Ty E : Type}

/-- The length of an array type. -/
def CADataType.size? : CADataType Ty → Option Nat
  | .array _ n => some n
  | _ => none

/-- The fields that the items of the struct form name. -/
def fieldnames (items : List CAPattern) : List Int :=
  (items.filter (!·.isIgnoreRange)).map CAPattern.fieldname

/-- The items before a `..`. -/
def itemsBefore (items : List CAPattern) : List CAPattern := items.takeWhile (!·.isIgnoreRange)

/-! ### The walk along a datatype -/

/-- A member of a list, if the index is in range. -/
def nth? {α : Type} (xs : List α) (i : Int) : Option α := (readAt xs i).toOption

/-- The items of a tuple pattern with what `read` finds at the indices that the walk computes, where
`n` components are matched with `size` items. -/
def rangePairs {α : Type} (read : Int → Option α) (n size : Nat) :
    List CAPattern → Bool → Nat → List (CAPattern × α)
  | [], _, _ => []
  | p :: items, before, i =>
      if before && p.isIgnoreRange then rangePairs read n size items false (i + 1)
      else
        ((read (i + if before then 0 else (n - size : Int))).map (p, ·)).toList ++
          rangePairs read n size items before (i + 1)

/-- The items of a group with the types that the type pass gives them, where the type is known. -/
def typePairs (Γ : TypeTable Ty) (type : GroupType) (items : List CAPattern) (t : Ty) :
    List (CAPattern × Ty) :=
  match type, Γ.layout t with
  | .array, .array item _ => (items.filter (!·.isIgnoreRange)).map (·, item)
  | .array, _ => []
  | .struct _, .struct s =>
      (items.filter (!·.isIgnoreRange)).filterMap fun p =>
        ((fieldIndex s p.fieldname).bind (s.fields[·]?)).map (p, ·.2)
  | _, .struct s =>
      rangePairs (fun i => (nth? s.fields i).map Prod.snd) s.fields.length items.length items true 0
  | _, _ => []

/-- The sub-patterns that `determine_letbind_type` comes to, with their types. -/
inductive Reaches (Γ : TypeTable Ty) : CAPattern → Ty → CAPattern → Ty → Prop
  | here {p : CAPattern} {t : Ty} : Reaches Γ p t p t
  | item {type : GroupType} {f : Int} {more : List Nat} {items : List CAPattern} {t : Ty}
      {p : CAPattern} {t' : Ty} {q : CAPattern} {u : Ty} :
      (p, t') ∈ typePairs Γ type items t → Reaches Γ p t' q u →
        Reaches Γ (.group type f more items) t q u

/-! ### The walk along both sides -/

/-- A sub-pattern with a type that is known, or with an expression. -/
inductive Visit (Ty E : Type)
  | along (p : CAPattern) (t : Ty)
  | both (p : CAPattern) (e : E)

/-- The array pattern looks at names and at literals of arrays. -/
def ExprView.isArrayLike : ExprView E → Bool
  | .id | .array => true
  | _ => false

/-- What `inference_letbind_type_both_side` comes to. -/
inductive Visits (Γ : TypeTable Ty) (X : Exprs Ty E) : CAPattern → E → Visit Ty E → Prop
  | here {p : CAPattern} {e : E} : Visits Γ X p e (.both p e)
  | literal {f : Int} {more : List Nat} {items : List CAPattern} {e : E} {exprs : List E}
      {p : CAPattern} {e' : E} {v : Visit Ty E} :
      X.view e = .tuple exprs →
      (p, e') ∈ rangePairs (nth? exprs) exprs.length items.length items true 0 →
      Visits Γ X p e' v → Visits Γ X (.group .genTuple f more items) e v
  | name {f : Int} {more : List Nat} {items : List CAPattern} {e : E} {t : Ty} {q : CAPattern}
      {u : Ty} :
      X.view e = .id → X.inferenceExprType e = some t →
      Reaches Γ (.group .genTuple f more items) t q u →
        Visits Γ X (.group .genTuple f more items) e (.along q u)
  | item {f : Int} {more : List Nat} {items : List CAPattern} {e : E} {t t' : Ty} {p q : CAPattern}
      {u : Ty} :
      (X.view e).isArrayLike → X.inferenceExprType e = some t →
      (p, t') ∈ typePairs Γ .array items t → Reaches Γ p t' q u →
        Visits Γ X (.group .array f more items) e (.along q u)

/-! ### Meetings -/

/-- The meeting of a sub-pattern with a type. -/
def meetingAlong (Γ : TypeTable Ty) (p : CAPattern) (t : Ty) : Option Meeting :=
  match p, Γ.layout t with
  | .group .array _ _ items, layout =>
      some (.array true (hasIgnoreRange items) (itemCount items) layout.size?)
  | .group (.struct _) _ _ items, .struct s =>
      some (.fields (s.type = .namedTuple) (fieldnames items))
  | _, _ => none

/-- The meeting of a sub-pattern with an expression. -/
def meetingBoth (Γ : TypeTable Ty) (X : Exprs Ty E) (p : CAPattern) (e : E) : Option Meeting :=
  match p, X.view e with
  | .group .genTuple _ _ items, .tuple exprs =>
      if hasIgnoreRange items then
        some (.literal (itemsBefore items).length (itemCount items - (itemsBefore items).length)
          exprs.length)
      else none
  | .group .array _ _ items, view =>
      if view.isArrayLike then
        (X.inferenceExprType e).map fun t =>
          .array false (hasIgnoreRange items) (itemCount items) (Γ.layout t).size?
      else none
  | _, _ => none

def Visit.meeting (Γ : TypeTable Ty) (X : Exprs Ty E) : Visit Ty E → Option Meeting
  | .along p t => meetingAlong Γ p t
  | .both p e => meetingBoth Γ X p e

/-! ### `let` statements -/

/-- A `let`, which may have an annotation, and whose initialiser is an expression or
`__zero_init__`. -/
structure LetStmt (Ty E : Type) where
  cap : CAPattern
  post : Option Ty
  init : Option E

variable [DecidableEq Ty]

/-- What the type pass comes to in a `let`. -/
def LetStmt.Visits (Γ : TypeTable Ty) (X : Exprs Ty E) (l : LetStmt Ty E) (v : Visit Ty E) : Prop :=
  ∃ vars, makeLetStmt Γ l.cap l.post = .ok vars ∧
    match capatternCheckGetType Γ vars l.cap l.post, l.init with
    | .ok (some t), _ => ∃ q u, Reaches Γ l.cap t q u ∧ v = .along q u
    | .ok none, some e => Patterns.Visits Γ X l.cap e v
    | _, _ => False

/-- The meetings of a `let`. -/
def LetStmt.Meets (Γ : TypeTable Ty) (X : Exprs Ty E) (l : LetStmt Ty E) (m : Meeting) : Prop :=
  ∃ v, l.Visits Γ X v ∧ v.meeting Γ X = some m

end CaLang.Patterns
