import CaLang.Patterns.Binding

/-! # What a pattern takes

The meaning of patterns, without the passes: **the items before a `..` take the first components,
and those behind it the last ones**, each component at most once; without a `..` every component is
taken.  A pattern of another kind than its type, or with a wrong number of items, takes nothing.
-/

namespace CaLang.Patterns

/-- A sub-pattern with its component: where its datatype is taken from, where the component is in
the initialiser, and its type. -/
structure Taking (Ty : Type) where
  cap : CAPattern
  source : List Source
  place : Place
  type : Ty

variable {Ty : Type}

/-- How many items stand for a component. -/
def itemCount (items : List CAPattern) : Nat := items.countP (!·.isIgnoreRange)

/-- The number of components suits the items. -/
def CountFits (items : List CAPattern) (n : Nat) : Prop :=
  if hasIgnoreRange items then itemCount items ≤ n else itemCount items = n

instance (items : List CAPattern) (n : Nat) : Decidable (CountFits items n) := by
  unfold CountFits
  infer_instance

/-- The struct type is one that the group is for: a name stands for its type, and the struct form is
for what has a name. -/
def GroupType.Suits (Γ : TypeTable Ty) (type : GroupType) (s : CAStruct Ty) (t : Ty) : Prop :=
  (∀ n, type.name? = some n → Γ.namedType n = some t) ∧ (type.isStruct → s.type.isNamed)

instance [DecidableEq Ty] (Γ : TypeTable Ty) (type : GroupType) (s : CAStruct Ty) (t : Ty) :
    Decidable (type.Suits Γ s t) :=
  decidable_of_iff ((∀ n ∈ type.name?, Γ.namedType n = some t) ∧ (type.isStruct → s.type.isNamed))
    Iff.rfl

/-- The field that is meant: by its number in a tuple, by its name in a struct. -/
def fieldIndex (s : CAStruct Ty) (fieldname : Int) : Option Nat :=
  if s.type = .namedTuple then
    (if 0 ≤ fieldname ∧ fieldname < s.fields.length then some fieldname.toNat else none)
  else s.fields.findIdx? (·.1 = fieldname)

section

variable [DecidableEq Ty] (Γ : TypeTable Ty)

mutual
/-- **What a pattern takes of a type**, if it fits. -/
def CAPattern.takings : CAPattern → List Source → Place → Ty → Option (List (Taking Ty))
  | .var f x more, source, place, t => some [⟨.var f x more, source, place, t⟩]
  | .ignoreOne f more, source, place, t => some [⟨.ignoreOne f more, source, place, t⟩]
  | .ignoreRange, _, _, _ => none
  | .group type f more items, source, place, t =>
      (match type, Γ.layout t with
        | .array, .array item n =>
            if CountFits items n then
              firstTakings items (fun _ => .item) (List.replicate n item) source place 0
            else none
        | .array, _ => none
        | type, .struct s =>
            if type.Suits Γ s t ∧ CountFits items s.fields.length then
              if type.isStruct then fieldTakings items s source place
              else firstTakings items (.field ·) (s.fields.map Prod.snd) source place 0
            else none
        | _, _ => none).map (⟨.group type f more items, source, place, t⟩ :: ·)

/-- The items take the components from `i` on; behind a `..` they take the last ones. -/
def firstTakings : List CAPattern → (Nat → Source) → List Ty → List Source → Place → Nat →
    Option (List (Taking Ty))
  | [], _, _, _, _, _ => some []
  | p :: items, step, comps, source, place, i =>
      if p.isIgnoreRange then lastTakings items step comps source place
      else do
        let t ← comps[i]?
        let takings ← p.takings (source ++ [step i]) (place ++ [(i : Int)]) t
        let rest ← firstTakings items step comps source place (i + 1)
        return takings ++ rest

/-- The last item takes the last component, the one before it the one before that, and so on. -/
def lastTakings : List CAPattern → (Nat → Source) → List Ty → List Source → Place →
    Option (List (Taking Ty))
  | [], _, _, _, _ => some []
  | p :: items, step, comps, source, place =>
      if comps.length ≤ items.length then none
      else do
        let i := comps.length - (items.length + 1)
        let t ← comps[i]?
        let takings ← p.takings (source ++ [step i]) (place ++ [(i : Int)]) t
        let rest ← lastTakings items step comps source place
        return takings ++ rest

/-- The items of the struct form take the fields that they name. -/
def fieldTakings : List CAPattern → CAStruct Ty → List Source → Place → Option (List (Taking Ty))
  | [], _, _, _ => some []
  | p :: items, s, source, place =>
      if p.isIgnoreRange then fieldTakings items s source place
      else do
        let i ← fieldIndex s p.fieldname
        let field ← s.fields[i]?
        let takings ← p.takings (source ++ [.field i]) (place ++ [(i : Int)]) field.2
        let rest ← fieldTakings items s source place
        return takings ++ rest
end

section

attribute [local simp] CAPattern.takings firstTakings lastTakings fieldTakings

variable {Γ} (source : List Source) (place : Place)

theorem firstTakings_nil (step : Nat → Source) (comps : List Ty) (i : Nat) :
    firstTakings Γ [] step comps source place i = some [] := by simp

theorem lastTakings_nil (step : Nat → Source) (comps : List Ty) :
    lastTakings Γ [] step comps source place = some [] := by simp

theorem fieldTakings_nil (s : CAStruct Ty) : fieldTakings Γ [] s source place = some [] := by
  simp

end

end

end CaLang.Patterns
