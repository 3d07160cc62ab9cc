import CaLang.Patterns.Meetings

/-! # The walk along a datatype

Where every array pattern meets an array of its length, **`determine_letbind_type` types what the
pattern takes, or it ends with an error**: it never reads what is not there.
-/

namespace CaLang.Patterns

variable {Ty : Type}

/-! ### Reading -/

@[simp] theorem readAt_nat {α : Type} (xs : List α) (n : Nat) :
    readAt xs (n : Int) = xs[n]?.elim (.error .undefined) .ok := rfl

@[simp] theorem nth?_nat {α : Type} (xs : List α) (n : Nat) : nth? xs (n : Int) = xs[n]? := by
  unfold nth?
  cases h : xs[n]? <;> simp [h, Except.toOption]

/-! ### What is typed -/

def TypeEvent.typing? : TypeEvent Ty → Option (CAPattern × List Source × Ty)
  | .typed p source t => some (p, source, t)
  | .recorded _ _ => none

/-- The sub-patterns that are typed, in order. -/
def typings (events : List (TypeEvent Ty)) : List (CAPattern × List Source × Ty) :=
  events.filterMap TypeEvent.typing?

def Taking.typing (k : Taking Ty) : CAPattern × List Source × Ty := (k.cap, k.source, k.type)

/-- The struct form names each field once. -/
def CAPattern.NamesOnce : CAPattern → Prop
  | .group (.struct _) _ _ items => (fieldnames items).Nodup
  | _ => True

@[simp] theorem typings_append (a b : List (TypeEvent Ty)) :
    typings (a ++ b) = typings a ++ typings b := List.filterMap_append

@[simp] theorem typings_typed (p : CAPattern) (source : List Source) (t : Ty)
    (events : List (TypeEvent Ty)) :
    typings (.typed p source t :: events) = (p, source, t) :: typings events := rfl

@[simp] theorem typings_recordAll (xs : List Nat) (t : Ty) : typings (recordAll xs t) = [] := by
  simp [typings, recordAll, TypeEvent.typing?]

/-- The walk types the takings, which name their fields once, or it ends with an error. -/
def Settles (r : Except Stop (List (TypeEvent Ty))) (takings : Option (List (Taking Ty))) : Prop :=
  match r with
  | .ok events => ∃ ts, takings = some ts ∧ typings events = ts.map Taking.typing ∧
      ∀ k ∈ ts, k.cap.NamesOnce
  | .error stop => stop = .exit

/-- One part after the other. -/
def bothTakings (a b : Option (List (Taking Ty))) : Option (List (Taking Ty)) := do
  let x ← a
  let y ← b
  return x ++ y

namespace Settles

variable {a b : Except Stop (List (TypeEvent Ty))} {x y : Option (List (Taking Ty))}

theorem nil : Settles (.ok []) (some ([] : List (Taking Ty))) :=
  ⟨[], rfl, rfl, fun _ h => absurd h List.not_mem_nil⟩

theorem exit : Settles (.error .exit) x := rfl

theorem andThen (ha : Settles a x) (hb : Settles b y) :
    Settles (andThen a b) (bothTakings x y) := by
  match a, b with
  | .error s, _ => exact ha
  | .ok events, .error s => exact hb
  | .ok events, .ok events' =>
      obtain ⟨ts, rfl, hts, hone⟩ := ha
      obtain ⟨ts', rfl, hts', hone'⟩ := hb
      exact ⟨ts ++ ts', rfl, by simp [hts, hts'], List.forall_mem_append.mpr ⟨hone, hone'⟩⟩

/-- A group, which is typed before its items. -/
theorem group {p : CAPattern} {source : List Source} {place : Place} {t : Ty} (xs : List Nat)
    (hp : p.NamesOnce) (hb : Settles b y) :
    Settles (Patterns.andThen (.ok (.typed p source t :: recordAll xs t)) b)
      (y.map (⟨p, source, place, t⟩ :: ·)) := by
  match b with
  | .error s => exact hb
  | .ok events =>
      obtain ⟨ts, rfl, hts, hone⟩ := hb
      exact ⟨_, rfl, by simp [hts, Taking.typing], List.forall_mem_cons.mpr ⟨hp, hone⟩⟩

end Settles

/-! ### The items -/

theorem mem_of_mem_rangePairs {α : Type} {read : Int → Option α} {n size : Nat}
    {items : List CAPattern} {before : Bool} {i : Nat} {p : CAPattern} {a : α}
    (h : (p, a) ∈ rangePairs read n size items before i) : p ∈ items := by
  induction items generalizing before i with
  | nil => simp [rangePairs] at h
  | cons q items ih =>
      rw [rangePairs] at h
      split at h
      · exact List.mem_cons_of_mem _ (ih h)
      · rcases List.mem_append.mp h with h | h
        · simp only [Option.mem_toList, Option.map_eq_some_iff, Prod.mk.injEq] at h
          obtain ⟨_, _, rfl, _⟩ := h
          exact List.mem_cons_self
        · exact List.mem_cons_of_mem _ (ih h)

section

variable [DecidableEq Ty] {Γ : TypeTable Ty}

theorem firstTakings_cons {p : CAPattern} {items : List CAPattern} {step : Nat → Source}
    {comps : List Ty} {source : List Source} {place : Place} {i : Nat} {t : Ty}
    (hp : p.isIgnoreRange = false) (ht : comps[i]? = some t) :
    firstTakings Γ (p :: items) step comps source place i =
      bothTakings (p.takings Γ (source ++ [step i]) (place ++ [(i : Int)]) t)
        (firstTakings Γ items step comps source place (i + 1)) := by
  rw [firstTakings]
  simp [hp, ht, bothTakings]

theorem lastTakings_cons {p : CAPattern} {items : List CAPattern} {step : Nat → Source}
    {comps : List Ty} {source : List Source} {place : Place} {t : Ty} {i : Nat}
    (hi : comps.length = i + (items.length + 1)) (ht : comps[i]? = some t) :
    lastTakings Γ (p :: items) step comps source place =
      bothTakings (p.takings Γ (source ++ [step i]) (place ++ [(i : Int)]) t)
        (lastTakings Γ items step comps source place) := by
  rw [lastTakings, if_neg (by omega)]
  have : comps.length - (items.length + 1) = i := by omega
  simp [this, ht, bothTakings]

/-- A pattern is settled along a type. -/
def Settled (Γ : TypeTable Ty) (p : CAPattern) (t : Ty) : Prop :=
  ∀ source place, Settles (determineLetbindType Γ p source t) (p.takings Γ source place t)

/-- Behind the `..` the offset leads to the last components. -/
theorem determineLetbindPatternRange_after {items : List CAPattern} {source : List Source}
    {place : Place} {fields : List (Int × Ty)} {size i : Nat} (hi : size = i + items.length)
    (hn : size ≤ fields.length)
    (each : ∀ p t, (p, t) ∈ rangePairs (fun i => (nth? fields i).map Prod.snd) fields.length size
      items false i → Settled Γ p t) :
    Settles (determineLetbindPatternRange Γ items source fields size false i)
      (lastTakings Γ items (.field ·) (fields.map Prod.snd) source place) := by
  induction items generalizing i with
  | nil =>
      rw [determineLetbindPatternRange_nil, lastTakings_nil]
      exact .nil
  | cons p items ih =>
      rw [List.length_cons] at hi
      obtain ⟨k, hk⟩ : ∃ k, fields.length = k + (items.length + 1) :=
        ⟨fields.length - (items.length + 1), by omega⟩
      have hoff : (i : Int) + ((fields.length : Int) - (size : Int)) = (k : Int) := by omega
      have hlt : k < fields.length := by omega
      have hread : readAt fields (k : Int) = .ok fields[k] := by simp [hlt]
      have hrec := ih (i := i + 1) (by omega) fun q u h => each q u (by
        simp only [rangePairs, Bool.false_and, Bool.false_eq_true, if_false, List.mem_append]
        exact .inr h)
      have hp := each p fields[k].2 (by
        simp only [rangePairs, Bool.false_and, Bool.false_eq_true, if_false, List.mem_append]
        rw [hoff]
        simp [hlt])
      rw [lastTakings_cons (t := fields[k].2) (by simpa using hk) (by simp [hlt])]
      simp only [determineLetbindPatternRange, Bool.false_and, Bool.false_eq_true, if_false]
      rw [hoff, hread]
      exact (hp _ _).andThen hrec

theorem determineLetbindPatternRange_before {items : List CAPattern} {source : List Source}
    {place : Place} {fields : List (Int × Ty)} {size i : Nat} (hi : size = i + items.length)
    (hn : if hasIgnoreRange items then size ≤ fields.length else size = fields.length)
    (each : ∀ p t, (p, t) ∈ rangePairs (fun i => (nth? fields i).map Prod.snd) fields.length size
      items true i → Settled Γ p t) :
    Settles (determineLetbindPatternRange Γ items source fields size true i)
      (firstTakings Γ items (.field ·) (fields.map Prod.snd) source place i) := by
  induction items generalizing i with
  | nil =>
      rw [determineLetbindPatternRange_nil, firstTakings_nil]
      exact .nil
  | cons p items ih =>
      rw [List.length_cons] at hi
      have hle : size ≤ fields.length := by split at hn <;> omega
      cases hp : p.isIgnoreRange with
      | true =>
          simp only [determineLetbindPatternRange, firstTakings, hp, Bool.and_true, if_true]
          refine determineLetbindPatternRange_after (by omega) hle fun q u h => each q u ?_
          simpa [rangePairs, hp] using h
      | false =>
          have hlt : i < fields.length := by omega
          have hread : readAt fields (i : Int) = .ok fields[i] := by simp [hlt]
          have hrec := ih (i := i + 1) (by omega) (by simpa [hasIgnoreRange, hp] using hn)
            fun q u h => each q u (by
              simp only [rangePairs, hp, Bool.and_false, Bool.false_eq_true, if_false, if_true,
                List.mem_append]
              exact .inr h)
          have hset := each p fields[i].2 (by simp [rangePairs, hp, hlt])
          rw [firstTakings_cons (t := fields[i].2) hp (by simp [hlt])]
          simp only [determineLetbindPatternRange, hp, Bool.and_false, Bool.false_eq_true, if_false,
            if_true, Int.add_zero]
          rw [hread]
          exact (hset _ _).andThen hrec

/-- The items of an array pattern behind the `..`. -/
theorem determineLetbindTypeRange_last {items : List CAPattern} {source : List Source}
    {place : Place} {t : Ty} {n : Nat} (hn : items.length ≤ n)
    (each : ∀ p ∈ items, Settled Γ p t) :
    Settles (determineLetbindTypeRange Γ items (source ++ [.item]) t)
      (lastTakings Γ items (fun _ => .item) (List.replicate n t) source place) := by
  induction items with
  | nil =>
      rw [determineLetbindTypeRange_nil, lastTakings_nil]
      exact .nil
  | cons p items ih =>
      rw [List.length_cons] at hn
      obtain ⟨k, rfl⟩ : ∃ k, n = k + (items.length + 1) := ⟨n - (items.length + 1), by omega⟩
      rw [lastTakings_cons (t := t) (i := k) (by simp) (by simp)]
      simp only [determineLetbindTypeRange]
      exact (each p List.mem_cons_self _ _).andThen
        (ih (by omega) fun q hq => each q (List.mem_cons_of_mem _ hq))

/-- The items of an array pattern without the `..`. -/
theorem determineLetbindTypeRange_eraseP {items : List CAPattern} (source : List Source)
    (place : Place) {t : Ty} {n i : Nat} (hone : items.countP CAPattern.isIgnoreRange ≤ 1)
    (hn : i + itemCount items ≤ n) (each : ∀ p ∈ items, p.isIgnoreRange = false → Settled Γ p t) :
    Settles (determineLetbindTypeRange Γ (items.eraseP CAPattern.isIgnoreRange)
        (source ++ [.item]) t)
      (firstTakings Γ items (fun _ => .item) (List.replicate n t) source place i) := by
  induction items generalizing i with
  | nil =>
      rw [List.eraseP_nil, determineLetbindTypeRange_nil, firstTakings_nil]
      exact .nil
  | cons p items ih =>
      cases hp : p.isIgnoreRange with
      | true =>
          have hrest : ∀ q ∈ items, q.isIgnoreRange = false := by
            simpa [hp] using hone
          have hcount : itemCount items = items.length :=
            List.countP_eq_length.mpr fun q hq => by simp [hrest q hq]
          simp only [List.eraseP_cons_of_pos hp, firstTakings, hp, if_true]
          refine determineLetbindTypeRange_last ?_ fun q hq =>
            each q (List.mem_cons_of_mem _ hq) (hrest q hq)
          simp only [itemCount, List.countP_cons, hp, Bool.not_true, Bool.false_eq_true,
            if_false] at hn hcount
          omega
      | false =>
          have hcount : itemCount (p :: items) = itemCount items + 1 := by
            simp [itemCount, hp]
          have hget : (List.replicate n t)[i]? = some t := by
            rw [List.getElem?_replicate, if_pos (by omega)]
          rw [firstTakings_cons hp hget, List.eraseP_cons_of_neg (by simp [hp])]
          simp only [determineLetbindTypeRange]
          exact (each p List.mem_cons_self hp _ _).andThen
            (ih (by simpa [hp] using hone) (by omega)
              fun q hq => each q (List.mem_cons_of_mem _ hq))

/-- With a `..` an array pattern is not typed along a type. -/
theorem determineLetbindTypeRange_dots {items : List CAPattern} {source : List Source} {t : Ty}
    (hdots : hasIgnoreRange items)
    (each : ∀ p ∈ items, p.isIgnoreRange = false → Settled Γ p t) :
    determineLetbindTypeRange Γ items source t = .error .exit := by
  induction items with
  | nil => simp [hasIgnoreRange] at hdots
  | cons p items ih =>
      simp only [determineLetbindTypeRange]
      cases hp : p.isIgnoreRange with
      | true =>
          cases p with
          | ignoreRange => simp [determineLetbindType_ignoreRange, andThen, bind, Except.bind]
          | _ => cases hp
      | false =>
          have hset := each p List.mem_cons_self hp source []
          rw [ih (by simpa [hasIgnoreRange, hp] using hdots)
            fun q hq => each q (List.mem_cons_of_mem _ hq)]
          match hr : determineLetbindType Γ p source t with
          | .ok events => simp [andThen, bind, Except.bind]
          | .error stop =>
              rw [hr] at hset
              cases hset
              simp [andThen, bind, Except.bind]

omit [DecidableEq Ty] in
/-- What is meant is one of the fields. -/
theorem fieldIndex_lt {s : CAStruct Ty} {f : Int} {i : Nat} (h : fieldIndex s f = some i) :
    i < s.fields.length := by
  unfold fieldIndex at h
  split at h
  · split at h
    · rename_i hf
      obtain rfl := Option.some.inj h
      omega
    · cases h
  · exact (List.findIdx?_eq_some_iff_getElem.mp h).1

omit [DecidableEq Ty] in
/-- A position that is not negative is that of the field that is meant. -/
theorem fieldPosition_cases {s : CAStruct Ty} {f : Int} (hf : s.type = .namedTuple → 0 ≤ f) :
    fieldPosition s f = .error .exit ∨
      ∃ i : Nat, fieldPosition s f = .ok (i : Int) ∧ fieldIndex s f = some i := by
  unfold fieldPosition fieldIndex
  split
  · exact .inl rfl
  split
  · rename_i hs
    have hf := hf hs
    split
    · exact .inl rfl
    · refine .inr ⟨f.toNat, by rw [Int.toNat_of_nonneg hf], if_pos ⟨hf, by omega⟩⟩
  · cases s.fields.findIdx? (·.1 = f) with
    | none => exact .inl rfl
    | some i => exact .inr ⟨i, rfl, rfl⟩

omit [DecidableEq Ty] in
/-- A number that stands for a field is not negative. -/
theorem fieldIndex_nonneg {s : CAStruct Ty} {f : Int} {i : Nat} (h : fieldIndex s f = some i)
    (hs : s.type = .namedTuple) : 0 ≤ f := by
  rw [fieldIndex, if_pos hs] at h
  split at h
  · rename_i hf
    exact hf.1
  · cases h

theorem fieldTakings_cons {p : CAPattern} {items : List CAPattern} {s : CAStruct Ty}
    {source : List Source} {place : Place} {i : Nat} {field : Int × Ty}
    (hp : p.isIgnoreRange = false) (hi : fieldIndex s p.fieldname = some i)
    (hfield : s.fields[i]? = some field) :
    fieldTakings Γ (p :: items) s source place =
      bothTakings (p.takings Γ (source ++ [.field i]) (place ++ [(i : Int)]) field.2)
        (fieldTakings Γ items s source place) := by
  rw [fieldTakings]
  simp [hp, hi, hfield, bothTakings]

/-- A `..` is the last item, as in the struct form. -/
def DotsLast (items : List CAPattern) : Prop :=
  ∀ p rest, p :: rest <:+ items → p.isIgnoreRange → rest = []

namespace DotsLast

variable {p : CAPattern} {items : List CAPattern}

omit [DecidableEq Ty] in
theorem head (h : DotsLast (p :: items)) (hp : p.isIgnoreRange) : items = [] :=
  h p items List.suffix_rfl hp

omit [DecidableEq Ty] in
theorem tail (h : DotsLast (p :: items)) : DotsLast items :=
  fun q rest hq => h q rest (hq.trans (List.suffix_cons p items))

end DotsLast

omit [DecidableEq Ty] in
theorem dotsLast_of_checked {items : List CAPattern}
    (hone : items.countP CAPattern.isIgnoreRange ≤ 1)
    (hlast : hasIgnoreRange items = false ∨ items.getLast?.any CAPattern.isIgnoreRange) :
    DotsLast items := by
  rintro p rest ⟨front, rfl⟩ hp
  by_contra hne
  have hany : hasIgnoreRange (front ++ p :: rest) = true := by simp [hasIgnoreRange, hp]
  have hend := hlast.resolve_left (by simp [hany])
  rw [List.getLast?_append_of_ne_nil _ (List.cons_ne_nil p rest),
    List.getLast?_cons_of_ne_nil hne, List.getLast?_eq_some_getLast hne] at hend
  have hrest : ∀ q ∈ rest, q.isIgnoreRange = false := by
    simp only [List.countP_append, List.countP_cons, hp, if_true] at hone
    have := List.countP_eq_zero.mp (by omega : rest.countP CAPattern.isIgnoreRange = 0)
    simpa using this
  simp [hrest _ (List.getLast_mem hne)] at hend

theorem determineLetbindTypeFields_settles {items : List CAPattern} {source : List Source}
    {place : Place} {s : CAStruct Ty} (hlast : DotsLast items)
    (hnum : s.type = .namedTuple → ∀ f ∈ fieldnames items, 0 ≤ f)
    (each : ∀ p ∈ items, p.isIgnoreRange = false → ∀ i field,
      fieldIndex s p.fieldname = some i → s.fields[i]? = some field → Settled Γ p field.2) :
    Settles (determineLetbindTypeFields Γ items source s)
      (fieldTakings Γ items s source place) := by
  induction items with
  | nil =>
      rw [determineLetbindTypeFields_nil, fieldTakings_nil]
      exact .nil
  | cons p items ih =>
      cases hp : p.isIgnoreRange with
      | true =>
          obtain rfl : items = [] := hlast.head hp
          simp only [determineLetbindTypeFields, fieldTakings, hp, if_true]
          exact .nil
      | false =>
          have hcons : fieldnames (p :: items) = p.fieldname :: fieldnames items := by
            simp [fieldnames, hp]
          simp only [hcons, List.forall_mem_cons] at hnum
          simp only [determineLetbindTypeFields, hp, Bool.false_eq_true, if_false]
          rcases fieldPosition_cases fun hs => (hnum hs).1 with hpos | ⟨i, hpos, hi⟩
          · rw [hpos]
            exact .exit
          · have hlt := fieldIndex_lt hi
            have hread : readAt s.fields (i : Int) = .ok s.fields[i] := by simp [hlt]
            have hget : s.fields[i]? = some s.fields[i] := List.getElem?_eq_getElem hlt
            rw [fieldTakings_cons hp hi hget, hpos]
            have hset := each p List.mem_cons_self hp i _ hi hget
            have hrec := ih hlast.tail (fun hs => (hnum hs).2)
              fun q hq => each q (List.mem_cons_of_mem _ hq)
            simp only [bind, Except.bind, hread]
            exact (hset _ _).andThen hrec

/-! ### The groups -/

theorem takings_array {f : Int} {more : List Nat} {items : List CAPattern} {source : List Source}
    {place : Place} {t item : Ty} {n : Nat} (h : Γ.layout t = .array item n) :
    (CAPattern.group .array f more items).takings Γ source place t =
      (if CountFits items n then
        firstTakings Γ items (fun _ => .item) (List.replicate n item) source place 0
      else none).map (⟨.group .array f more items, source, place, t⟩ :: ·) := by
  simp [CAPattern.takings, h]

theorem takings_struct {type : GroupType} {f : Int} {more : List Nat} {items : List CAPattern}
    {source : List Source} {place : Place} {t : Ty} {s : CAStruct Ty} (htype : type ≠ .array)
    (h : Γ.layout t = .struct s) :
    (CAPattern.group type f more items).takings Γ source place t =
      (if type.Suits Γ s t ∧ CountFits items s.fields.length then
        if type.isStruct then fieldTakings Γ items s source place
        else firstTakings Γ items (.field ·) (s.fields.map Prod.snd) source place 0
      else none).map (⟨.group type f more items, source, place, t⟩ :: ·) := by
  cases type with
  | array => exact absurd rfl htype
  | _ => simp [CAPattern.takings, h]

theorem determineLetbindType_struct {type : GroupType} {f : Int} {more : List Nat}
    {items : List CAPattern} {source : List Source} {t : Ty} (htype : type ≠ .array) :
    determineLetbindType Γ (.group type f more items) source t =
      match Γ.layout t with
      | .struct s =>
          if structChecks Γ type items s t then
            andThen (.ok (.typed (.group type f more items) source t :: recordAll more t))
              (if type.isStruct then determineLetbindTypeFields Γ items source s
              else determineLetbindPatternRange Γ items source s.fields items.length true 0)
          else .error .exit
      | _ => .error .exit := by
  cases type with
  | array => exact absurd rfl htype
  | _ => cases hl : Γ.layout t <;> simp only [determineLetbindType, hl]

theorem itemCount_le (items : List CAPattern) : itemCount items ≤ items.length :=
  List.countP_le_length

theorem itemCount_of_not {items : List CAPattern} (h : hasIgnoreRange items = false) :
    itemCount items = items.length :=
  List.countP_eq_length.mpr fun p hp => by
    simpa [hasIgnoreRange] using List.any_eq_false.mp h p hp

/-- What the type pass checks of a struct is enough. -/
theorem structChecks_fits {type : GroupType} {items : List CAPattern} {s : CAStruct Ty} {t : Ty}
    (h : structChecks Γ type items s t) :
    (type.Suits Γ s t ∧ CountFits items s.fields.length) ∧
      if hasIgnoreRange items then items.length ≤ s.fields.length
      else items.length = s.fields.length := by
  simp only [structChecks, Bool.and_eq_true, Bool.or_eq_true, decide_eq_true_eq, Bool.not_eq_true',
    Option.all_eq_true] at h
  obtain ⟨⟨⟨hname, hle⟩, hcount⟩, hnamed⟩ := h
  refine ⟨⟨⟨fun n hn => hname n hn, ?_⟩, ?_⟩, ?_⟩
  · intro hs
    exact hnamed.resolve_left (by simp [hs])
  · unfold CountFits
    cases hd : hasIgnoreRange items with
    | true => exact (itemCount_le items).trans hle
    | false =>
        rw [if_neg (by simp), itemCount_of_not hd]
        exact hcount.resolve_left (by simp [hd])
  · split
    · exact hle
    · exact hcount.resolve_left ‹_›

/-- What the parser lets through as an item of a group. -/
def Checked (p : CAPattern) : Prop := p.isIgnoreRange ∨ capatternCheckIgnore p

omit [DecidableEq Ty] in
theorem checked_items {items : List CAPattern} (h : checkIgnoreItems items) :
    ∀ p ∈ items, Checked p := by
  induction items with
  | nil => nofun
  | cons p items ih =>
      simp only [checkIgnoreItems, Bool.and_eq_true, Bool.or_eq_true] at h
      exact List.forall_mem_cons.mpr ⟨h.1, ih h.2⟩

/-- The groups that are reached along a type are met rightly. -/
def GoodAlong (Γ : TypeTable Ty) (p : CAPattern) (t : Ty) : Prop :=
  ∀ q u m, Reaches Γ p t q u → meetingAlong Γ q u = some m → m.Good

omit [DecidableEq Ty] in
theorem GoodAlong.item {type : GroupType} {f : Int} {more : List Nat} {items : List CAPattern}
    {t t' : Ty} {p : CAPattern} (h : GoodAlong Γ (.group type f more items) t)
    (hp : (p, t') ∈ typePairs Γ type items t) : GoodAlong Γ p t' :=
  fun _ _ _ hr hm => h _ _ _ (.item hp hr) hm

omit [DecidableEq Ty] in
theorem mem_typePairs_array {items : List CAPattern} {t item : Ty} {n : Nat}
    (h : Γ.layout t = .array item n) {p : CAPattern} (hp : p ∈ items)
    (hd : p.isIgnoreRange = false) : (p, item) ∈ typePairs Γ .array items t := by
  simp only [typePairs, h]
  exact List.mem_map.mpr ⟨p, List.mem_filter.mpr ⟨hp, by simp [hd]⟩, rfl⟩

omit [DecidableEq Ty] in
theorem mem_typePairs_struct {x : Nat} {items : List CAPattern} {t : Ty} {s : CAStruct Ty}
    (h : Γ.layout t = .struct s) {p : CAPattern} (hp : p ∈ items) (hd : p.isIgnoreRange = false)
    {i : Nat} {field : Int × Ty} (hi : fieldIndex s p.fieldname = some i)
    (hfield : s.fields[i]? = some field) :
    (p, field.2) ∈ typePairs Γ (.struct x) items t := by
  simp only [typePairs, h]
  exact List.mem_filterMap.mpr
    ⟨p, List.mem_filter.mpr ⟨hp, by simp [hd]⟩, by simp [hi, hfield]⟩

omit [DecidableEq Ty] in
theorem typePairs_tuple {type : GroupType} {items : List CAPattern} {t : Ty} {s : CAStruct Ty}
    (harray : type ≠ .array) (hstruct : type.isStruct = false) (h : Γ.layout t = .struct s) :
    typePairs Γ type items t =
      rangePairs (fun i => (nth? s.fields i).map Prod.snd) s.fields.length items.length items
        true 0 := by
  cases type with
  | array => exact absurd rfl harray
  | struct n => cases hstruct
  | _ => simp only [typePairs, h]

/-- **The walk along a datatype**, by induction on the pattern. -/
theorem settled_of_goodAlong {p : CAPattern} (hp : Checked p) {t : Ty} (good : GoodAlong Γ p t) :
    Settled Γ p t := by
  induction p generalizing t with
  | var f x more =>
      intro source place
      rw [determineLetbindType, CAPattern.takings]
      exact ⟨_, rfl, by simp [Taking.typing], List.forall_mem_singleton.mpr trivial⟩
  | ignoreOne f more =>
      intro source place
      rw [determineLetbindType, CAPattern.takings]
      exact ⟨_, rfl, rfl, List.forall_mem_singleton.mpr trivial⟩
  | ignoreRange =>
      intro source place
      rw [determineLetbindType_ignoreRange]
      exact .exit
  | group type f more items ih =>
      intro source place
      have hchecks : capatternCheckIgnore (.group type f more items) :=
        hp.resolve_left (by rintro ⟨⟩)
      simp only [capatternCheckIgnore, Bool.and_eq_true, decide_eq_true_eq] at hchecks
      obtain ⟨⟨hitems, hone⟩, hlast⟩ := hchecks
      have each : ∀ q ∈ items, ∀ t', (q, t') ∈ typePairs Γ type items t → Settled Γ q t' :=
        fun q hq t' ht => ih q hq (checked_items hitems q hq) (good.item ht)
      by_cases htype : type = .array
      · subst htype
        obtain ⟨n, hn, hcount⟩ := good _ _ _ .here rfl
        cases hl : Γ.layout t with
        | struct s => simp [hl, CADataType.size?] at hn
        | other => simp [hl, CADataType.size?] at hn
        | array item k =>
            rw [hl] at hn
            cases hn
            have heach : ∀ q ∈ items, q.isIgnoreRange = false → Settled Γ q item :=
              fun q hq hd => each q hq item (mem_typePairs_array hl hq hd)
            rw [determineLetbindType, takings_array hl]
            simp only [hl]
            cases hd : hasIgnoreRange items with
            | true =>
                rw [determineLetbindTypeRange_dots hd heach]
                exact .exit
            | false =>
                have hfits : CountFits items n := by simpa [CountFits, hd] using hcount hd
                have herase : items.eraseP CAPattern.isIgnoreRange = items :=
                  List.eraseP_of_forall_not (by simpa [hasIgnoreRange] using hd)
                rw [if_pos hfits]
                have hrange := determineLetbindTypeRange_eraseP source place (n := n) (i := 0) hone
                  (by simp [hcount hd]) heach
                rw [herase] at hrange
                exact Settles.group [] trivial hrange
      · rw [determineLetbindType_struct htype]
        cases hl : Γ.layout t with
        | array item n => exact .exit
        | other => exact .exit
        | struct s =>
            simp only
            split
            · rename_i hchecks
              obtain ⟨hfits, hsize⟩ := structChecks_fits hchecks
              rw [takings_struct htype hl, if_pos hfits]
              cases hs : type.isStruct with
              | true =>
                  cases type with
                  | array | genTuple | tuple => cases hs
                  | struct x =>
                    have hmeets : meetingAlong Γ (.group (.struct x) f more items) t =
                        some (.fields (s.type = .namedTuple) (fieldnames items)) := by
                      simp only [meetingAlong, hl]
                    obtain ⟨hnames, hnum⟩ := good _ _ _ .here hmeets
                    exact .group more hnames (determineLetbindTypeFields_settles
                      (dotsLast_of_checked hone (by simpa [GroupType.isStruct] using hlast))
                      (fun hs => hnum (by simpa using hs)) fun q hq hd i field hi hfield =>
                        each q hq _ (mem_typePairs_struct hl hq hd hi hfield))
              | false =>
                  have honce : (CAPattern.group type f more items).NamesOnce := by
                    cases type with
                    | struct x => cases hs
                    | _ => trivial
                  refine .group more honce ?_
                  apply determineLetbindPatternRange_before (by simp) hsize
                  intro q u h
                  refine each q ?_ u (by rwa [typePairs_tuple htype hs hl])
                  exact mem_of_mem_rangePairs h
            · exact .exit

end

end CaLang.Patterns
