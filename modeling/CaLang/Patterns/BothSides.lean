import CaLang.Lib.Fuel
import CaLang.Patterns.Places

/-! # The walk along both sides

`inference_letbind_type_both_side` types a pattern as far as the initialiser is written out, and
forms its datatype from the variables afterwards.  **Where every index is in range, the sub-patterns
stand where the pattern takes its components of that datatype.**
-/

namespace CaLang.Patterns

variable {Ty E : Type}

/-! ### Ends -/

/-- A pass has a result, or it ends with an error. -/
def Ends {α : Type} (r : Except Stop α) : Prop := ∀ stop, r = .error stop → stop = .exit

namespace Ends

variable {α β : Type}

theorem ok (a : α) : Ends (.ok a) := nofun

theorem exit : Ends (.error .exit : Except Stop α) := fun _ h => by cases h; rfl

theorem found (x : Option α) : Ends (found x) := by
  cases x with
  | none => exact exit
  | some a => exact ok a

theorem map {a : Except Stop α} {f : α → β} (ha : Ends a) : Ends (f <$> a) := by
  match a with
  | .error stop => exact fun s h => ha s (by cases h; rfl)
  | .ok x => exact ok _

theorem bind {a : Except Stop α} {f : α → Except Stop β} (ha : Ends a)
    (hf : ∀ x, a = .ok x → Ends (f x)) : Ends (a >>= f) := by
  match a with
  | .error stop => exact fun s h => ha s (by cases h; rfl)
  | .ok x => exact hf x rfl

end Ends

theorem Settles.ends {r : Except Stop (List (TypeEvent Ty))} {x : Option (List (Taking Ty))}
    (h : Settles r x) : Ends r := by
  rintro stop rfl
  exact h

/-! ### The datatype of a pattern -/

section

variable [DecidableEq Ty] {Γ : TypeTable Ty}

/-- A sub-pattern at its place. -/
def Taking.spot (k : Taking Ty) : CAPattern × List Source × Place := (k.cap, k.source, k.place)

/-- The pattern takes the same spots of another type. -/
def SameSpots (x y : Option (List (Taking Ty))) : Prop :=
  ∀ ts, x = some ts → ∃ ts', y = some ts' ∧ ts'.map Taking.spot = ts.map Taking.spot

theorem eq_some_of_found {α : Type} {x : Option α} {a : α} (h : found x = .ok a) : x = some a := by
  cases x with
  | none => cases h
  | some b =>
      cases h
      rfl

theorem eq_some_of_found_map {α : Type} {x : Option α} {a : α}
    (h : (found x).map some = .ok (some a)) : x = some a := by
  cases x with
  | none => cases h
  | some b =>
      cases h
      rfl

theorem catypesFromItems_cons {vars : Nat → Option Ty} {p : CAPattern} {items : List CAPattern}
    {us : List Ty} (h : catypesFromItems Γ vars (p :: items) = .ok (some us)) :
    ∃ u us', catypeFromCapattern Γ vars p = .ok (some u) ∧
      catypesFromItems Γ vars items = .ok (some us') ∧ us = u :: us' := by
  rw [catypesFromItems] at h
  obtain ⟨r, hp, h⟩ := except_bind_eq_ok h
  cases r with
  | none => cases h
  | some u =>
      obtain ⟨r, hi, h⟩ := except_bind_eq_ok h
      cases r with
      | none => cases h
      | some us' =>
          cases h
          exact ⟨u, us', hp, hi, rfl⟩

/-- A `..` leaves a pattern without a datatype. -/
theorem catypesFromItems_some {vars : Nat → Option Ty} {items : List CAPattern} {us : List Ty}
    (h : catypesFromItems Γ vars items = .ok (some us)) :
    us.length = items.length ∧ hasIgnoreRange items = false := by
  induction items generalizing us with
  | nil =>
      rw [catypesFromItems_nil] at h
      cases h
      exact ⟨rfl, rfl⟩
  | cons p items ih =>
      obtain ⟨u, us', hp, hi, rfl⟩ := catypesFromItems_cons h
      obtain ⟨hlen, hdots⟩ := ih hi
      refine ⟨by simp [hlen], ?_⟩
      cases p with
      | ignoreRange => simp [catypeFromCapattern_ignoreRange] at hp
      | _ => simpa [hasIgnoreRange, CAPattern.isIgnoreRange] using hdots

theorem catypeFromCapattern_array {vars : Nat → Option Ty} {f : Int} {more : List Nat}
    {items : List CAPattern} {t : Ty}
    (h : catypeFromCapattern Γ vars (.group .array f more items) = .ok (some t)) :
    ∃ us u, catypesFromItems Γ vars items = .ok (some us) ∧ us = List.replicate us.length u ∧
      Γ.layout t = .array u items.length := by
  rw [catypeFromCapattern] at h
  obtain ⟨r, hi, h⟩ := except_bind_eq_ok h
  cases r with
  | none => cases h
  | some us =>
      obtain ⟨u, hu, h⟩ := except_bind_eq_ok h
      split at h
      · rename_i hchain
        refine ⟨us, u, hi, ?_, Γ.layout_arrayType (eq_some_of_found_map h)⟩
        cases us with
        | nil => rfl
        | cons v vs =>
            obtain rfl : v = u := Option.some.inj (eq_some_of_found hu)
            exact List.isChain_eq_iff_eq_replicate.mp hchain v rfl
      · cases h

theorem catypeFromCapattern_genTuple {vars : Nat → Option Ty} {f : Int} {more : List Nat}
    {items : List CAPattern} {t : Ty}
    (h : catypeFromCapattern Γ vars (.group .genTuple f more items) = .ok (some t)) :
    ∃ us fields, catypesFromItems Γ vars items = .ok (some us) ∧
      Γ.layout t = .struct ⟨.generalTuple, fields⟩ ∧ fields.map Prod.snd = us := by
  rw [catypeFromCapattern] at h
  obtain ⟨r, hi, h⟩ := except_bind_eq_ok h
  cases r with
  | none => cases h
  | some us =>
      obtain ⟨fields, hl, hfields⟩ := Γ.layout_tupleType (eq_some_of_found_map h)
      exact ⟨us, fields, hi, hl, hfields⟩

theorem catypeFromCapattern_named {vars : Nat → Option Ty} {type : GroupType} {n : Nat}
    {f : Int} {more : List Nat} {items : List CAPattern} {t : Ty} (hn : type.name? = some n)
    (h : catypeFromCapattern Γ vars (.group type f more items) = .ok (some t)) :
    Γ.namedType n = some t := by
  cases type with
  | array | genTuple => cases hn
  | tuple m | struct m =>
      cases hn
      rw [catypeFromCapattern] at h
      exact eq_some_of_found_map h

theorem catypeFromCapattern_ends (vars : Nat → Option Ty) (p : CAPattern) :
    Ends (catypeFromCapattern Γ vars p) := by
  induction p with
  | var f x more => rw [catypeFromCapattern]; exact .ok _
  | ignoreOne f more => rw [catypeFromCapattern]; exact .ok _
  | ignoreRange => rw [catypeFromCapattern_ignoreRange]; exact .ok _
  | group type f more items ih =>
      have hitems : Ends (catypesFromItems Γ vars items) := by
        induction items with
        | nil => rw [catypesFromItems_nil]; exact .ok _
        | cons p items ihs =>
            have hrest := ihs fun q hq => ih q (List.mem_cons_of_mem _ hq)
            rw [catypesFromItems]
            apply (ih p List.mem_cons_self).bind
            intro t _
            cases t with
            | none => exact .ok _
            | some t => exact hrest.bind fun us _ => .ok _
      cases type with
      | tuple n | struct n =>
          rw [catypeFromCapattern]
          exact (Ends.found _).map
      | array =>
          rw [catypeFromCapattern]
          apply hitems.bind
          intro us _
          cases us with
          | none => exact .ok _
          | some us =>
              apply (Ends.found _).bind
              intro t _
              split
              · exact (Ends.found _).map
              · exact .exit
      | genTuple =>
          rw [catypeFromCapattern]
          apply hitems.bind
          intro us _
          cases us with
          | none => exact .ok _
          | some us => exact (Ends.found _).map

/-! ### The same spots of the datatype -/

theorem firstTakings_sameSpots {vars : Nat → Option Ty} {items : List CAPattern}
    {step : Nat → Source} {comps comps' : List Ty} {source : List Source} {place : Place} {i : Nat}
    {us : List Ty} (hus : catypesFromItems Γ vars items = .ok (some us))
    (hcomps : ∀ k u, us[k]? = some u → comps'[i + k]? = some u)
    (each : ∀ p ∈ items, ∀ source place t u, catypeFromCapattern Γ vars p = .ok (some u) →
      SameSpots (p.takings Γ source place t) (p.takings Γ source place u)) :
    SameSpots (firstTakings Γ items step comps source place i)
      (firstTakings Γ items step comps' source place i) := by
  induction items generalizing i us with
  | nil => exact fun ts h => ⟨ts, h, rfl⟩
  | cons p items ih =>
      intro ts h
      obtain ⟨u, us', hp, hi, rfl⟩ := catypesFromItems_cons hus
      have hdots : p.isIgnoreRange = false := by
        cases p with
        | ignoreRange => simp [catypeFromCapattern_ignoreRange] at hp
        | _ => rfl
      obtain ⟨t, x, y, ht, hx, hy, rfl⟩ := firstTakings_cons_some hdots h
      obtain ⟨x', hx', hxs⟩ := each p List.mem_cons_self _ _ _ _ hp x hx
      obtain ⟨y', hy', hys⟩ := ih hi (fun k v hk => by
        rw [Nat.add_assoc, Nat.add_comm 1]
        exact hcomps (k + 1) v hk) (fun q hq => each q (List.mem_cons_of_mem _ hq)) y hy
      have hget : comps'[i]? = some u := hcomps 0 u rfl
      rw [firstTakings_cons hdots hget]
      exact ⟨x' ++ y', bothTakings_eq_some.mpr ⟨x', y', hx', hy', rfl⟩, by simp [hxs, hys]⟩

theorem countFits_of_not {items : List CAPattern} (h : hasIgnoreRange items = false) {n : Nat} :
    CountFits items n ↔ items.length = n := by
  rw [CountFits, if_neg (by simp [h]), itemCount_of_not h]

/-- **The datatype that is formed from a pattern fits it**, as a type from which it takes
something does. -/
theorem takings_sameSpots {p : CAPattern} {vars : Nat → Option Ty} {t u : Ty}
    (hu : catypeFromCapattern Γ vars p = .ok (some u)) (source : List Source) (place : Place) :
    SameSpots (p.takings Γ source place t) (p.takings Γ source place u) := by
  induction p generalizing t u source place with
  | var f x more => rintro _ ⟨⟩; exact ⟨_, rfl, rfl⟩
  | ignoreOne f more => simp [catypeFromCapattern] at hu
  | ignoreRange => simp [catypeFromCapattern_ignoreRange] at hu
  | group type f more items ih =>
      intro ts h
      have each : ∀ p ∈ items, ∀ source place t u, catypeFromCapattern Γ vars p = .ok (some u) →
          SameSpots (p.takings Γ source place t) (p.takings Γ source place u) :=
        fun p hp source place t u hu => ih p hp hu source place
      cases type with
      | tuple n | struct n =>
          obtain ⟨s, rest, hl, ⟨hsuits, -⟩, -, -⟩ := takings_struct_some (by nofun) h
          have hn := catypeFromCapattern_named rfl hu
          rw [hsuits.1 n rfl] at hn
          cases hn
          exact ⟨ts, h, rfl⟩
      | array =>
          obtain ⟨item, n, rest, hl, hfits, hrest, rfl⟩ := takings_array_some h
          obtain ⟨us, v, hus, hrep, hlu⟩ := catypeFromCapattern_array hu
          obtain ⟨hlen, hdots⟩ := catypesFromItems_some hus
          have hcomps : ∀ k w, us[k]? = some w →
              (List.replicate items.length v)[0 + k]? = some w := fun k w hk => by
            rw [hrep, hlen] at hk
            simpa using hk
          obtain ⟨rest', hrest', hspots⟩ := firstTakings_sameSpots hus hcomps each rest hrest
          rw [takings_array hlu, if_pos ((countFits_of_not hdots).mpr rfl), hrest']
          exact ⟨_, rfl, by simp [hspots, Taking.spot]⟩
      | genTuple =>
          obtain ⟨s, rest, hl, -, hrest, rfl⟩ := takings_struct_some (by nofun) h
          obtain ⟨us, fields, hus, hlu, rfl⟩ := catypeFromCapattern_genTuple hu
          obtain ⟨hlen, hdots⟩ := catypesFromItems_some hus
          rw [List.length_map] at hlen
          have hcomps : ∀ k w, (fields.map Prod.snd)[k]? = some w →
              (fields.map Prod.snd)[0 + k]? = some w := fun k w hk => by rwa [Nat.zero_add]
          obtain ⟨rest', hrest', hspots⟩ := firstTakings_sameSpots hus hcomps each rest hrest
          have hsuits : GroupType.genTuple.Suits Γ ⟨.generalTuple, fields⟩ u := ⟨nofun, nofun⟩
          rw [takings_struct (by nofun) hlu,
            if_pos ⟨hsuits, (countFits_of_not hdots).mpr hlen.symm⟩, if_neg nofun, hrest']
          exact ⟨_, rfl, by simp [hspots, Taking.spot]⟩

/-! ### Literals -/

variable {X : Exprs Ty E}

/-- Behind the `..` no index leaves the literal. -/
theorem inferenceLetbindPatternRange_after {items : List CAPattern} {source : List Source}
    {exprs : List E} {size i : Nat} (hi : size = i + items.length)
    (hn : items.length ≤ exprs.length)
    (each : ∀ p e, (p, e) ∈ rangePairs (nth? exprs) exprs.length size items false i →
      ∀ vars source, Ends (inferenceLetbindTypeBothSide Γ X vars p source e))
    (vars : Nat → Option Ty) :
    Ends (inferenceLetbindPatternRange Γ X vars items source exprs size false i) := by
  induction items generalizing i vars with
  | nil =>
      rw [inferenceLetbindPatternRange_nil]
      exact .ok _
  | cons p items ih =>
      rw [List.length_cons] at hi hn
      obtain ⟨k, hk⟩ : ∃ k, exprs.length = k + (items.length + 1) :=
        ⟨exprs.length - (items.length + 1), by omega⟩
      have hoff : (i : Int) + ((exprs.length : Int) - (size : Int)) = (k : Int) := by omega
      have hget : exprs[k]? = some exprs[k] := List.getElem?_eq_getElem (by omega)
      have hp := each p exprs[k] (by
        simp only [rangePairs, Bool.false_and, Bool.false_eq_true, if_false, List.mem_append]
        rw [hoff]
        simp [hget])
      simp only [inferenceLetbindPatternRange, Bool.false_and, Bool.false_eq_true, if_false]
      rw [hoff, readAt_nat, hget]
      refine (hp _ _).bind fun r _ => (ih (by omega) (by omega) (fun q e h => each q e ?_) _).bind
        fun _ _ => .ok _
      simp only [rangePairs, Bool.false_and, Bool.false_eq_true, if_false, List.mem_append]
      exact .inr h

theorem inferenceLetbindPatternRange_before {items : List CAPattern} {source : List Source}
    {exprs : List E} {size i : Nat} (hi : size = i + items.length)
    (hn : i + (itemsBefore items).length ≤ exprs.length)
    (hbehind : hasIgnoreRange items →
      items.length ≤ exprs.length + 1 + (itemsBefore items).length)
    (each : ∀ p e, (p, e) ∈ rangePairs (nth? exprs) exprs.length size items true i →
      ∀ vars source, Ends (inferenceLetbindTypeBothSide Γ X vars p source e))
    (vars : Nat → Option Ty) :
    Ends (inferenceLetbindPatternRange Γ X vars items source exprs size true i) := by
  induction items generalizing i vars with
  | nil =>
      rw [inferenceLetbindPatternRange_nil]
      exact .ok _
  | cons p items ih =>
      rw [List.length_cons] at hi
      cases hp : p.isIgnoreRange with
      | true =>
          have := hbehind (by simp [hasIgnoreRange, hp])
          simp only [itemsBefore, List.takeWhile_cons, hp, Bool.not_true, Bool.false_eq_true,
            if_false, List.length_nil, List.length_cons] at this
          simp only [inferenceLetbindPatternRange, hp, Bool.and_true, if_true]
          refine inferenceLetbindPatternRange_after (by omega) (by omega)
            (fun q e h => each q e ?_) _
          simpa [rangePairs, hp] using h
      | false =>
          have hbefore : (itemsBefore (p :: items)).length = (itemsBefore items).length + 1 := by
            simp [itemsBefore, hp]
          rw [hbefore, List.length_cons] at hbehind
          rw [hbefore] at hn
          have hget : exprs[i]? = some exprs[i] := List.getElem?_eq_getElem (by omega)
          have hset := each p exprs[i] (by simp [rangePairs, hp, hget])
          simp only [inferenceLetbindPatternRange, hp, Bool.and_false, Bool.false_eq_true, if_false,
            if_true, Int.add_zero]
          rw [readAt_nat, hget]
          refine (hset _ _).bind fun r _ => (ih (by omega) (by omega) ?_
            (fun q e h => each q e ?_) _).bind fun _ _ => .ok _
          · intro h
            have := hbehind (by simpa [hasIgnoreRange, hp] using h)
            omega
          · simp only [rangePairs, hp, Bool.and_false, Bool.false_eq_true, if_false,
              List.mem_append]
            exact .inr h

/-! ### Where the sub-patterns are typed from -/

/-- A sub-pattern with what it is typed from. -/
def Taking.origin (k : Taking Ty) : CAPattern × List Source := (k.cap, k.source)

/-- The sub-patterns that are typed, with what each is typed from. -/
def origins (events : List (TypeEvent Ty)) : List (CAPattern × List Source) :=
  (typings events).map fun typing => (typing.1, typing.2.1)

omit [DecidableEq Ty] in
@[simp] theorem origins_append (a b : List (TypeEvent Ty)) :
    origins (a ++ b) = origins a ++ origins b := by simp [origins]

omit [DecidableEq Ty] in
@[simp] theorem origins_recordAll (xs : List Nat) (t : Ty) : origins (recordAll xs t) = [] := by
  simp [origins]

omit [DecidableEq Ty] in
@[simp] theorem origins_typed (p : CAPattern) (source : List Source) (t : Ty)
    (events : List (TypeEvent Ty)) :
    origins (.typed p source t :: events) = (p, source) :: origins events := rfl

/-- The events type what the pattern takes of a type. -/
def TypedFrom (Γ : TypeTable Ty) (p : CAPattern) (source : List Source)
    (events : List (TypeEvent Ty)) (t : Ty) : Prop :=
  ∀ place, ∃ ts, p.takings Γ source place t = some ts ∧ origins events = ts.map Taking.origin

theorem Settled.typedFrom {p : CAPattern} {t : Ty} (h : Settled Γ p t) {source : List Source}
    {events : List (TypeEvent Ty)} (hok : determineLetbindType Γ p source t = .ok events) :
    TypedFrom Γ p source events t := by
  intro place
  have hset := h source place
  rw [hok] at hset
  obtain ⟨ts, hts, htypings, -⟩ := hset
  exact ⟨ts, hts, by simp [origins, htypings, Taking.typing, Taking.origin]⟩

/-- Each sub-pattern names its fields once and takes something of the type that it is typed with. -/
def Fitting (Γ : TypeTable Ty) (events : List (TypeEvent Ty)) : Prop :=
  ∀ typing ∈ typings events, typing.1.NamesOnce ∧ typing.1.Fits Γ typing.2.2

namespace Fitting

variable {events events' : List (TypeEvent Ty)}

theorem append (h : Fitting Γ events) (h' : Fitting Γ events') : Fitting Γ (events ++ events') := by
  unfold Fitting
  rw [typings_append]
  exact List.forall_mem_append.mpr ⟨h, h'⟩

theorem recordAll (xs : List Nat) (t : Ty) : Fitting Γ (Patterns.recordAll xs t) := by
  unfold Fitting
  rw [typings_recordAll]
  intro _ h
  exact absurd h List.not_mem_nil

theorem typed {p : CAPattern} {t : Ty} (source : List Source) (hp : p.NamesOnce)
    (ht : p.Fits Γ t) (h : Fitting Γ events) : Fitting Γ (.typed p source t :: events) :=
  List.forall_mem_cons.mpr ⟨⟨hp, ht⟩, h⟩

end Fitting

/-- What the walk along a datatype types is fitting. -/
theorem Settles.fitting {events : List (TypeEvent Ty)} {x : Option (List (Taking Ty))}
    (h : Settles (.ok events) x) (hclosed : ∀ ts, x = some ts → Closed Γ ts) :
    Fitting Γ events := by
  obtain ⟨ts, hts, htypings, hone⟩ := h
  intro typing htyping
  rw [htypings] at htyping
  obtain ⟨k, hk, rfl⟩ := List.mem_map.mp htyping
  obtain ⟨ts', hts', -⟩ := hclosed ts hts k hk
  exact ⟨hone k hk, _, _, ts', hts'⟩

theorem Settled.fitting {p : CAPattern} {t : Ty} (h : Settled Γ p t) {source : List Source}
    {events : List (TypeEvent Ty)} (hok : determineLetbindType Γ p source t = .ok events) :
    Fitting Γ events :=
  Settles.fitting (hok ▸ h source []) fun ts hts => takesClosed p _ _ _ ts hts

/-- What is typed of one type is typed of the datatype of the pattern. -/
theorem TypedFrom.catype {p : CAPattern} {source : List Source} {events : List (TypeEvent Ty)}
    {t u : Ty} {vars : Nat → Option Ty} (h : TypedFrom Γ p source events t)
    (hu : catypeFromCapattern Γ vars p = .ok (some u)) : TypedFrom Γ p source events u := by
  intro place
  obtain ⟨ts, hts, horigins⟩ := h place
  obtain ⟨ts', hts', hspots⟩ := takings_sameSpots hu source place ts hts
  have hmap := congrArg (List.map fun spot => (spot.1, spot.2.1)) hspots
  simp only [List.map_map] at hmap
  exact ⟨ts', hts', horigins.trans hmap.symm⟩

/-- The events type what the pattern takes of its own type and of that which is formed from it. -/
structure Matched (Γ : TypeTable Ty) (p : CAPattern) (source : List Source)
    (events : List (TypeEvent Ty)) (t : Ty) : Prop where
  own : TypedFrom Γ p source events t
  formed (vars : Nat → Option Ty) (u : Ty) :
    catypeFromCapattern Γ vars p = .ok (some u) → TypedFrom Γ p source events u
  fitting : Fitting Γ events

/-- The walk along both sides ends, and it types what the pattern takes. -/
structure Matches (Γ : TypeTable Ty) (p : CAPattern) (source : List Source)
    (r : Except Stop (Ty × List (TypeEvent Ty))) : Prop where
  ends : Ends r
  typed {t : Ty} {events : List (TypeEvent Ty)} :
    r = .ok (t, events) → Matched Γ p source events t

namespace Matches

variable {p : CAPattern} {source : List Source}

theorem exit : Matches Γ p source (.error .exit) := ⟨.exit, by rintro _ _ ⟨⟩⟩

/-- A pattern whose type is inferred. -/
theorem infer {x : Option Ty} {f : Ty → Except Stop (Ty × List (TypeEvent Ty))}
    (h : ∀ t, x = some t → Matches Γ p source (f t)) : Matches Γ p source (found x >>= f) := by
  match x with
  | none => exact exit
  | some t => exact h t rfl

/-- A pattern that is typed along a type. -/
theorem along {t : Ty} {r : Except Stop (List (TypeEvent Ty))}
    {f : List (TypeEvent Ty) → List (TypeEvent Ty)} (hends : Ends r)
    (h : ∀ events, r = .ok events →
      TypedFrom Γ p source (f events) t ∧ Fitting Γ (f events)) :
    Matches Γ p source (r >>= fun events => .ok (t, f events)) where
  ends := hends.bind fun _ _ => .ok _
  typed hr := by
    obtain ⟨events, hok, hr⟩ := except_bind_eq_ok hr
    cases hr
    obtain ⟨htyped, hfitting⟩ := h events hok
    exact ⟨htyped, fun vars u hu => htyped.catype hu, hfitting⟩

end Matches

/-- The items of a literal are typed from its expressions. -/
theorem inferenceLetbindPatternRange_origins {items : List CAPattern} {source : List Source}
    {exprs : List E} {size i : Nat} {vars vars' : Nat → Option Ty} {events : List (TypeEvent Ty)}
    {us comps : List Ty}
    (each : ∀ p e, (p, e) ∈ rangePairs (nth? exprs) exprs.length size items true i →
      ∀ vars source, Matches Γ p source (inferenceLetbindTypeBothSide Γ X vars p source e))
    (hok : inferenceLetbindPatternRange Γ X vars items source exprs size true i = .ok events)
    (hus : catypesFromItems Γ vars' items = .ok (some us))
    (hcomps : ∀ k u, us[k]? = some u → comps[i + k]? = some u) (place : Place) :
    ∃ ts, firstTakings Γ items (.field ·) comps source place i = some ts ∧
      origins events = ts.map Taking.origin := by
  induction items generalizing i vars us events with
  | nil =>
      rw [inferenceLetbindPatternRange_nil] at hok
      cases hok
      exact ⟨[], rfl, rfl⟩
  | cons p items ih =>
      obtain ⟨u, us', hp, hi, rfl⟩ := catypesFromItems_cons hus
      have hdots : p.isIgnoreRange = false := by
        cases p with
        | ignoreRange => simp [catypeFromCapattern_ignoreRange] at hp
        | _ => rfl
      simp only [inferenceLetbindPatternRange, hdots, Bool.and_false, Bool.false_eq_true, if_false,
        if_true, Int.add_zero] at hok
      cases he : exprs[i]? with
      | none => simp [he, bind, Except.bind] at hok
      | some e =>
          have hmatch := each p e (by simp [rangePairs, hdots, he]) vars (source ++ [.field i])
          rw [readAt_nat, he] at hok
          obtain ⟨e', ⟨⟩, hok⟩ := except_bind_eq_ok hok
          obtain ⟨⟨t, front⟩, hr, hok⟩ := except_bind_eq_ok hok
          obtain ⟨rest, hrest, hok⟩ := except_bind_eq_ok hok
          cases hok
          obtain ⟨x, hx, hxo⟩ := (hmatch.typed hr).formed vars' u hp (place ++ [(i : Int)])
          obtain ⟨y, hy, hyo⟩ := ih (fun q e h => each q e (by
            simp only [rangePairs, hdots, Bool.and_false, Bool.false_eq_true, if_false,
              List.mem_append]
            exact .inr h)) hrest hi (fun k v hk => by
              rw [Nat.add_assoc, Nat.add_comm 1]
              exact hcomps (k + 1) v hk)
          have hget : comps[i]? = some u := hcomps 0 u rfl
          rw [firstTakings_cons hdots hget]
          exact ⟨x ++ y, bothTakings_eq_some.mpr ⟨x, y, hx, hy, rfl⟩, by simp [hxo, hyo]⟩

theorem inferenceLetbindPatternRange_fitting {items : List CAPattern} {source : List Source}
    {exprs : List E} {size i : Nat} {before : Bool} {vars : Nat → Option Ty}
    {events : List (TypeEvent Ty)}
    (each : ∀ p e, (p, e) ∈ rangePairs (nth? exprs) exprs.length size items before i →
      ∀ vars source, Matches Γ p source (inferenceLetbindTypeBothSide Γ X vars p source e))
    (hok : inferenceLetbindPatternRange Γ X vars items source exprs size before i = .ok events) :
    Fitting Γ events := by
  induction items generalizing i vars before events with
  | nil =>
      rw [inferenceLetbindPatternRange_nil] at hok
      cases hok
      intro _ h
      exact absurd h List.not_mem_nil
  | cons p items ih =>
      rw [inferenceLetbindPatternRange] at hok
      split at hok
      · rename_i hdots
        exact ih (fun q e h => each q e (by rwa [rangePairs, if_pos hdots])) hok
      · rename_i hdots
        obtain ⟨e, he, hok⟩ := except_bind_eq_ok hok
        obtain ⟨⟨t, front⟩, hr, hok⟩ := except_bind_eq_ok hok
        obtain ⟨rest, hrest, hok⟩ := except_bind_eq_ok hok
        cases hok
        have hpair := each p e (by
          rw [rangePairs, if_neg hdots, nth?, he]
          exact List.mem_append_left _ List.mem_cons_self)
        refine ((hpair _ _).typed hr).fitting.append (ih (fun q e h => each q e ?_) hrest)
        rw [rangePairs, if_neg hdots]
        exact List.mem_append_right _ h

theorem isIgnoreRange_of_mem_rangePairs {α : Type} {read : Int → Option α} {n size i : Nat}
    {items : List CAPattern} {before : Bool}
    (hone : items.countP CAPattern.isIgnoreRange ≤ if before then 1 else 0) {p : CAPattern} {a : α}
    (h : (p, a) ∈ rangePairs read n size items before i) : p.isIgnoreRange = false := by
  induction items generalizing before i with
  | nil => simp [rangePairs] at h
  | cons q items ih =>
      rw [rangePairs] at h
      rw [List.countP_cons] at hone
      split at h
      · rename_i hq
        rw [Bool.and_eq_true] at hq
        rw [hq.1, hq.2] at hone
        exact ih (by simpa using hone) h
      · rename_i hq
        rcases List.mem_append.mp h with h | h
        · simp only [Option.mem_toList, Option.map_eq_some_iff, Prod.mk.injEq] at h
          obtain ⟨_, _, rfl, _⟩ := h
          cases before with
          | true => simpa using hq
          | false => simp_all
        · exact ih (by omega) h

/-! ### The walk -/

/-- The meetings of the walk along both sides are right. -/
def GoodBoth (Γ : TypeTable Ty) (X : Exprs Ty E) (p : CAPattern) (e : E) : Prop :=
  ∀ v m, Visits Γ X p e v → v.meeting Γ X = some m → m.Good

omit [DecidableEq Ty] in
/-- An array pattern, whose own count has been looked at. -/
theorem GoodBoth.along_array {f : Int} {more : List Nat} {items : List CAPattern} {e : E} {t : Ty}
    (good : GoodBoth Γ X (.group .array f more items) e) (hview : (X.view e).isArrayLike)
    (ht : X.inferenceExprType e = some t) {p : CAPattern} {t' : Ty}
    (hp : (p, t') ∈ typePairs Γ .array items t) : GoodAlong Γ p t' :=
  fun _ _ _ hr hm => good _ _ (.item hview ht hp hr) hm

/-- An array pattern with a name or with a literal of an array. -/
theorem matches_array {f : Int} {more : List Nat} {items : List CAPattern} {e : E}
    (hp : capatternCheckIgnore (.group .array f more items))
    (good : GoodBoth Γ X (.group .array f more items) e) (vars : Nat → Option Ty)
    (source : List Source) :
    Matches Γ (.group .array f more items) source
      (inferenceLetbindTypeBothSide Γ X vars (.group .array f more items) source e) := by
  have hchecks := hp
  simp only [capatternCheckIgnore, Bool.and_eq_true, decide_eq_true_eq] at hchecks
  obtain ⟨⟨hitems, hone⟩, -⟩ := hchecks
  rw [inferenceLetbindTypeBothSide]
  cases hv : X.view e with
  | tuple | other => exact .exit
  | id | array =>
      have hview : (X.view e).isArrayLike := by rw [hv]; rfl
      refine .infer ?_
      intro t ht
      cases hl : Γ.layout t with
      | struct s => exact .exit
      | other => exact .exit
      | array item n =>
          have each : ∀ q ∈ items, q.isIgnoreRange = false → Settled Γ q item := fun q hq hd =>
            settled_of_goodAlong (checked_items hitems q hq)
              (good.along_array hview ht (mem_typePairs_array hl hq hd))
          cases hdots : hasIgnoreRange items with
          | true =>
              have hcount : itemCount items ≤ n := good (.both _ e) (.array false true _ (some n))
                .here (by simp [Visit.meeting, meetingBoth, hview, ht, hl, CADataType.size?, hdots])
                n rfl rfl
              have hset := fun place => determineLetbindTypeRange_eraseP source place (n := n)
                (i := 0) hone (by omega) each
              have htakes : ∀ ts place, firstTakings Γ items (fun _ => .item)
                  (List.replicate n item) source place 0 = some ts →
                  (CAPattern.group .array f more items).takings Γ source place t =
                    some (⟨.group .array f more items, source, place, t⟩ :: ts) := by
                intro ts place hts
                rw [takings_array hl, if_pos (by rwa [CountFits, if_pos hdots]), hts]
                rfl
              refine .along (hset []).ends fun events hok => ⟨?_, ?_⟩
              · intro place
                obtain ⟨ts, hts, htypings, -⟩ := hok ▸ hset place
                exact ⟨_, htakes ts place hts,
                  by simp [origins, htypings, Taking.typing, Taking.origin]⟩
              · have hinner : Fitting Γ events := Settles.fitting (hok ▸ hset [])
                  fun ts hts => firstTakings_closed (fun p _ => takesClosed p) hts
                obtain ⟨ts, hts, -⟩ := hok ▸ hset []
                exact .append (.typed source trivial ⟨source, [], _, htakes ts [] hts⟩ hinner)
                  (.recordAll more t)
          | false =>
              simp only [Bool.false_eq_true, if_false]
              split
              · exact .exit
              · rename_i hlen
                rw [not_ne_iff] at hlen
                have hset : Settled Γ (.group .array f more items) t := by
                  apply settled_of_goodAlong (.inr hp)
                  intro q u m hr hm
                  cases hr with
                  | here =>
                      simp only [meetingAlong, hl, CADataType.size?, Option.some.injEq] at hm
                      subst hm
                      exact ⟨n, rfl, fun _ => (itemCount_of_not hdots).trans hlen⟩
                  | item hq hr => exact good.along_array hview ht hq _ _ _ hr hm
                refine .along (hset source []).ends fun events hok =>
                  ⟨?_, .append (hset.fitting hok) (.recordAll more t)⟩
                intro place
                obtain ⟨ts, hts, horigins⟩ := hset.typedFrom hok place
                exact ⟨ts, hts, by simp [horigins]⟩

/-- A tuple pattern with a literal of a tuple. -/
theorem matches_literal {f : Int} {more : List Nat} {items : List CAPattern} {e : E}
    {exprs : List E} (hp : capatternCheckIgnore (.group .genTuple f more items))
    (good : GoodBoth Γ X (.group .genTuple f more items) e) (hview : X.view e = .tuple exprs)
    (each : ∀ p e, (p, e) ∈ rangePairs (nth? exprs) exprs.length items.length items true 0 →
      ∀ vars source, Matches Γ p source (inferenceLetbindTypeBothSide Γ X vars p source e))
    (vars : Nat → Option Ty) (source : List Source) :
    Matches Γ (.group .genTuple f more items) source
      (inferenceLetbindTypeBothSide Γ X vars (.group .genTuple f more items) source e) := by
  simp only [capatternCheckIgnore, Bool.and_eq_true, decide_eq_true_eq] at hp
  obtain ⟨⟨hitems, hone⟩, -⟩ := hp
  rw [inferenceLetbindTypeBothSide]
  simp only [hview]
  split
  · exact .exit
  rename_i hcount
  have hends : Ends (inferenceLetbindPatternRange Γ X vars items source exprs items.length true
      0) := by
    have hlen : items.length = items.countP CAPattern.isIgnoreRange + itemCount items := by
      simpa [itemCount] using List.length_eq_countP_add_countP CAPattern.isIgnoreRange
        (l := items)
    have hrange : (itemsBefore items).length ≤ exprs.length ∧ (hasIgnoreRange items →
        items.length ≤ exprs.length + 1 + (itemsBefore items).length) := by
      cases hdots : hasIgnoreRange items with
      | true =>
          obtain ⟨hbefore, hafter⟩ := good (.both _ e) (.literal (itemsBefore items).length
            (itemCount items - (itemsBefore items).length) exprs.length) .here (by
              simp only [Visit.meeting, meetingBoth, hview, hdots, if_true])
          exact ⟨hbefore, fun _ => by omega⟩
      | false =>
          have hle : (itemsBefore items).length ≤ items.length :=
            (List.takeWhile_prefix _).length_le
          simp only [hdots, Bool.not_false, Bool.true_and, decide_eq_true_eq, not_ne_iff] at hcount
          exact ⟨by omega, Bool.noConfusion⟩
    exact inferenceLetbindPatternRange_before (by simp) (by simpa using hrange.1) hrange.2
      (fun q e' hq vars source => (each q e' hq vars source).ends) vars
  refine ⟨hends.bind fun events _ => (catypeFromCapattern_ends _ _).bind fun t _ =>
    (Ends.found t).bind fun t _ => ?_, fun {t events} hok => ?_⟩
  · split
    · exact .ok _
    · exact .exit
  obtain ⟨inner, hrange, hok⟩ := except_bind_eq_ok hok
  obtain ⟨r, hr, hok⟩ := except_bind_eq_ok hok
  obtain ⟨u, hu, hok⟩ := except_bind_eq_ok hok
  have ht := hr.trans (congrArg Except.ok (eq_some_of_found hu))
  split at hok
  · cases hok
    have htyped : ∀ vars' u', catypeFromCapattern Γ vars' (.group .genTuple f more items)
        = .ok (some u') → TypedFrom Γ (.group .genTuple f more items) source
          (.typed (.group .genTuple f more items) source t :: inner ++ recordAll more t) u' := by
      intro vars' u' hu' place
      obtain ⟨us, fields, hus, hl, rfl⟩ := catypeFromCapattern_genTuple hu'
      obtain ⟨hlen, hdots⟩ := catypesFromItems_some hus
      rw [List.length_map] at hlen
      obtain ⟨ts, hts, horigins⟩ := inferenceLetbindPatternRange_origins each hrange hus
        (fun k v hk => by rwa [Nat.zero_add]) place
      have hsuits : GroupType.genTuple.Suits Γ ⟨.generalTuple, fields⟩ u' :=
        ⟨fun _ hname => absurd hname.symm (Option.some_ne_none _), Bool.noConfusion⟩
      rw [takings_struct (by rintro ⟨⟩) hl,
        if_pos ⟨hsuits, (countFits_of_not hdots).mpr hlen.symm⟩, if_neg (by rintro ⟨⟩), hts]
      exact ⟨_, rfl, by simp [horigins, Taking.origin]⟩
    obtain ⟨ts, hts, -⟩ := htyped _ _ ht []
    exact ⟨htyped _ _ ht, htyped, .append (.typed source trivial ⟨source, [], ts, hts⟩
      (inferenceLetbindPatternRange_fitting each hrange)) (.recordAll more t)⟩
  · cases hok

/-- **The walk along both sides**, by induction on the pattern. -/
theorem matches_of_goodBoth {p : CAPattern} (hp : capatternCheckIgnore p) {e : E}
    (good : GoodBoth Γ X p e) (vars : Nat → Option Ty) (source : List Source) :
    Matches Γ p source (inferenceLetbindTypeBothSide Γ X vars p source e) := by
  induction p generalizing e vars source with
  | var f x more =>
      rw [inferenceLetbindTypeBothSide]
      have htyped : ∀ t u, TypedFrom Γ (.var f x more) source
          (.typed (.var f x more) source t :: recordAll (x :: more) t) u :=
        fun t u place => ⟨_, rfl, by simp [Taking.origin]⟩
      refine .infer fun t _ => ⟨.ok _, ?_⟩
      rintro _ _ ⟨⟩
      exact ⟨htyped _ _, fun _ u _ => htyped _ u,
        .typed source trivial ⟨[], [], _, rfl⟩ (.recordAll (x :: more) t)⟩
  | ignoreOne f more =>
      rw [inferenceLetbindTypeBothSide]
      have htyped : ∀ t u, TypedFrom Γ (.ignoreOne f more) source
          [.typed (.ignoreOne f more) source t] u := fun t u place => ⟨_, rfl, rfl⟩
      refine .infer fun t _ => ⟨.ok _, ?_⟩
      rintro _ _ ⟨⟩
      exact ⟨htyped _ _, fun _ u _ => htyped _ u,
        .typed source trivial ⟨[], [], _, rfl⟩ (.recordAll [] t)⟩
  | ignoreRange => cases hp
  | group type f more items ih =>
      cases type with
      | array => exact matches_array hp good vars source
      | tuple n | struct n =>
          rw [inferenceLetbindTypeBothSide]
          · exact .exit
          · nofun
          · nofun
      | genTuple =>
          match hview : X.view e with
          | .tuple exprs =>
              have hchecks := hp
              simp only [capatternCheckIgnore, Bool.and_eq_true, decide_eq_true_eq] at hchecks
              obtain ⟨⟨hitems, hone⟩, -⟩ := hchecks
              refine matches_literal hp good hview ?_ vars source
              intro q e' hq vars source
              have hmem := mem_of_mem_rangePairs hq
              have hdots := isIgnoreRange_of_mem_rangePairs hone hq
              exact ih q hmem ((checked_items hitems q hmem).resolve_left (by simp [hdots]))
                (fun v m hv hm => good v m (.literal hview hq hv) hm) vars source
          | .id =>
              rw [inferenceLetbindTypeBothSide]
              simp only [hview]
              refine .infer ?_
              intro t ht
              have hset : Settled Γ (.group .genTuple f more items) t :=
                settled_of_goodAlong (.inr hp) fun q u m hr hm => good _ _ (.name hview ht hr) hm
              refine .along (hset source []).ends fun events hok =>
                ⟨?_, .append (hset.fitting hok) (.recordAll more t)⟩
              intro place
              obtain ⟨ts, hts, horigins⟩ := hset.typedFrom hok place
              exact ⟨ts, hts, by simp [horigins]⟩
          | .array | .other =>
              rw [inferenceLetbindTypeBothSide]
              simp only [hview]
              exact .exit

end

end CaLang.Patterns
