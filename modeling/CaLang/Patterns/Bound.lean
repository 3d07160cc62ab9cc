import CaLang.Patterns.Along

/-! # The walk along the value

**What a pattern takes is what `capattern_bind_value` comes to**, with the same places: the offsets
of its three loops lead where those of the type pass lead.  It ends well if the variables have
datatypes.
-/

namespace CaLang.Patterns

variable {Ty : Type}

/-! ### What is bound -/

/-- The variables that a sub-pattern gives a value by itself. -/
def CAPattern.ownNames : CAPattern → List Nat
  | .var _ x more => x :: more
  | .group _ _ more _ => more
  | _ => []

def BindEvent.taking? : BindEvent Ty → Option (CAPattern × Place × Ty)
  | .taken p place t => some (p, place, t)
  | .bound _ _ _ => none

def BindEvent.binding? : BindEvent Ty → Option (Nat × Place × Ty)
  | .taken _ _ _ => none
  | .bound x place t => some (x, place, t)

/-- The sub-patterns that are walked, with the component of each. -/
def taken (events : List (BindEvent Ty)) : List (CAPattern × Place × Ty) :=
  events.filterMap BindEvent.taking?

/-- The variables that are given a value. -/
def bindings (events : List (BindEvent Ty)) : List (Nat × Place × Ty) :=
  events.filterMap BindEvent.binding?

@[simp] theorem taken_append (a b : List (BindEvent Ty)) : taken (a ++ b) = taken a ++ taken b :=
  List.filterMap_append

@[simp] theorem bindings_append (a b : List (BindEvent Ty)) :
    bindings (a ++ b) = bindings a ++ bindings b := List.filterMap_append

@[simp] theorem taken_taken (p : CAPattern) (place : Place) (t : Ty)
    (events : List (BindEvent Ty)) :
    taken (.taken p place t :: events) = (p, place, t) :: taken events := rfl

@[simp] theorem bindings_taken (p : CAPattern) (place : Place) (t : Ty)
    (events : List (BindEvent Ty)) : bindings (.taken p place t :: events) = bindings events := rfl

@[simp] theorem taken_bound (x : Nat) (place : Place) (t : Ty) (events : List (BindEvent Ty)) :
    taken (.bound x place t :: events) = taken events := rfl

@[simp] theorem bindings_bound (x : Nat) (place : Place) (t : Ty)
    (events : List (BindEvent Ty)) :
    bindings (.bound x place t :: events) = (x, place, t) :: bindings events := rfl

namespace Taking

def taken (k : Taking Ty) : CAPattern × Place × Ty := (k.cap, k.place, k.type)

/-- The variables that a sub-pattern gives its component to. -/
def bindings (vars : Nat → Option Ty) (k : Taking Ty) : List (Nat × Place × Ty) :=
  k.cap.ownNames.filterMap fun x => (vars x).map (x, k.place, ·)

end Taking

/-- The walk binds the takings. -/
def Binds (vars : Nat → Option Ty) (r : Except Stop (List (BindEvent Ty)))
    (ts : List (Taking Ty)) : Prop :=
  ∃ events, r = .ok events ∧ taken events = ts.map Taking.taken ∧
    bindings events = ts.flatMap (Taking.bindings vars)

/-- The variables of the takings have datatypes. -/
def Bindable (vars : Nat → Option Ty) (ts : List (Taking Ty)) : Prop :=
  ∀ k ∈ ts, ∀ x ∈ k.cap.ownNames, (vars x).isSome

theorem Bindable.append {vars : Nat → Option Ty} {ts ts' : List (Taking Ty)} :
    Bindable vars (ts ++ ts') ↔ Bindable vars ts ∧ Bindable vars ts' :=
  List.forall_mem_append

section

variable {vars : Nat → Option Ty}

theorem bindAll_ok (place : Place) {xs : List Nat} (h : ∀ x ∈ xs, (vars x).isSome) :
    ∃ events, bindAll vars place xs = .ok events ∧ taken events = [] ∧
      bindings events = xs.filterMap fun x => (vars x).map (x, place, ·) := by
  induction xs with
  | nil => exact ⟨[], rfl, rfl, rfl⟩
  | cons x xs ih =>
      obtain ⟨events, hok, htaken, hbind⟩ := ih fun y hy => h y (List.mem_cons_of_mem _ hy)
      obtain ⟨t, ht⟩ := Option.isSome_iff_exists.mp (h x List.mem_cons_self)
      refine ⟨.bound x place t :: events, ?_, ?_, ?_⟩
      · unfold bindAll at hok ⊢
        rw [List.mapM_cons]
        simp [bindVariableValue, ht, hok, bind, Except.bind, pure, Except.pure]
      · simpa using htaken
      · rw [List.filterMap_cons, ht]
        simpa using hbind

namespace Binds

theorem nil : Binds vars (.ok []) [] := ⟨[], rfl, rfl, rfl⟩

theorem andThen {a b : Except Stop (List (BindEvent Ty))} {ts ts' : List (Taking Ty)}
    (ha : Binds vars a ts) (hb : Binds vars b ts') : Binds vars (andThen a b) (ts ++ ts') := by
  obtain ⟨ea, rfl, hta, hba⟩ := ha
  obtain ⟨eb, rfl, htb, hbb⟩ := hb
  refine ⟨ea ++ eb, rfl, ?_, ?_⟩
  · simp [hta, htb]
  · simp [hba, hbb]

/-- A sub-pattern with its own variables, and then its items. -/
theorem own {p : CAPattern} {source : List Source} {place : Place} {t : Ty}
    {b : Except Stop (List (BindEvent Ty))} {ts : List (Taking Ty)}
    (h : Bindable vars (⟨p, source, place, t⟩ :: ts)) (hb : Binds vars b ts) :
    Binds vars (Patterns.andThen (.ok [.taken p place t])
        (Patterns.andThen (bindAll vars place p.ownNames) b))
      (⟨p, source, place, t⟩ :: ts) := by
  obtain ⟨events, hok, htaken, hbind⟩ := bindAll_ok place (h _ List.mem_cons_self)
  obtain ⟨eb, rfl, htb, hbb⟩ := hb
  refine ⟨.taken p place t :: (events ++ eb), by rw [hok]; rfl, ?_, ?_⟩
  · simp [htaken, htb, Taking.taken]
  · simp [hbind, hbb, Taking.bindings]

end Binds

end

/-! ### What the items take -/

section

variable [DecidableEq Ty] {Γ : TypeTable Ty}

omit [DecidableEq Ty] in
theorem bothTakings_eq_some {a b : Option (List (Taking Ty))} {ts : List (Taking Ty)} :
    bothTakings a b = some ts ↔ ∃ x y, a = some x ∧ b = some y ∧ x ++ y = ts := by
  cases a <;> cases b <;> simp [bothTakings]

theorem firstTakings_cons_some {p : CAPattern} {items : List CAPattern} {step : Nat → Source}
    {comps : List Ty} {source : List Source} {place : Place} {i : Nat} {ts : List (Taking Ty)}
    (hp : p.isIgnoreRange = false)
    (h : firstTakings Γ (p :: items) step comps source place i = some ts) :
    ∃ t x y, comps[i]? = some t ∧
      p.takings Γ (source ++ [step i]) (place ++ [(i : Int)]) t = some x ∧
      firstTakings Γ items step comps source place (i + 1) = some y ∧ x ++ y = ts := by
  match ht : comps[i]? with
  | none =>
      rw [firstTakings] at h
      simp [hp, ht] at h
  | some t =>
      rw [firstTakings_cons hp ht] at h
      obtain ⟨x, y, hx, hy, rfl⟩ := bothTakings_eq_some.mp h
      exact ⟨t, x, y, rfl, hx, hy, rfl⟩

theorem lastTakings_cons_some {p : CAPattern} {items : List CAPattern} {step : Nat → Source}
    {comps : List Ty} {source : List Source} {place : Place} {ts : List (Taking Ty)}
    (h : lastTakings Γ (p :: items) step comps source place = some ts) :
    ∃ i t x y, comps.length = i + (items.length + 1) ∧ comps[i]? = some t ∧
      p.takings Γ (source ++ [step i]) (place ++ [(i : Int)]) t = some x ∧
      lastTakings Γ items step comps source place = some y ∧ x ++ y = ts := by
  have hlen : items.length < comps.length := by
    by_contra hle
    rw [lastTakings, if_pos (by omega)] at h
    cases h
  obtain ⟨i, hi⟩ : ∃ i, comps.length = i + (items.length + 1) :=
    ⟨comps.length - (items.length + 1), by omega⟩
  have ht : comps[i]? = some comps[i] := List.getElem?_eq_getElem (by omega)
  rw [lastTakings_cons hi ht] at h
  obtain ⟨x, y, hx, hy, rfl⟩ := bothTakings_eq_some.mp h
  exact ⟨i, _, x, y, hi, ht, hx, hy, rfl⟩

theorem fieldTakings_cons_some {p : CAPattern} {items : List CAPattern} {s : CAStruct Ty}
    {source : List Source} {place : Place} {ts : List (Taking Ty)}
    (hp : p.isIgnoreRange = false) (h : fieldTakings Γ (p :: items) s source place = some ts) :
    ∃ i field x y, fieldIndex s p.fieldname = some i ∧ s.fields[i]? = some field ∧
      p.takings Γ (source ++ [.field i]) (place ++ [(i : Int)]) field.2 = some x ∧
      fieldTakings Γ items s source place = some y ∧ x ++ y = ts := by
  match hi : fieldIndex s p.fieldname with
  | none =>
      rw [fieldTakings] at h
      simp [hp, hi] at h
  | some i =>
      have hlt := fieldIndex_lt hi
      have hfield : s.fields[i]? = some s.fields[i] := List.getElem?_eq_getElem hlt
      rw [fieldTakings_cons hp hi hfield] at h
      obtain ⟨x, y, hx, hy, rfl⟩ := bothTakings_eq_some.mp h
      exact ⟨i, _, x, y, rfl, hfield, hx, hy, rfl⟩

/-- What an array pattern takes. -/
theorem takings_array_some {f : Int} {more : List Nat} {items : List CAPattern}
    {source : List Source} {place : Place} {t : Ty} {ts : List (Taking Ty)}
    (h : (CAPattern.group .array f more items).takings Γ source place t = some ts) :
    ∃ item n rest, Γ.layout t = .array item n ∧ CountFits items n ∧
      firstTakings Γ items (fun _ => .item) (List.replicate n item) source place 0 = some rest ∧
      ts = ⟨.group .array f more items, source, place, t⟩ :: rest := by
  match hl : Γ.layout t with
  | .struct s => simp [CAPattern.takings, hl] at h
  | .other => simp [CAPattern.takings, hl] at h
  | .array item n =>
      rw [takings_array hl] at h
      obtain ⟨rest, hrest, rfl⟩ := Option.map_eq_some_iff.mp h
      split at hrest
      · exact ⟨item, n, rest, rfl, ‹_›, hrest, rfl⟩
      · cases hrest

/-- What the other groups take. -/
theorem takings_struct_some {type : GroupType} (htype : type ≠ .array) {f : Int} {more : List Nat}
    {items : List CAPattern} {source : List Source} {place : Place} {t : Ty}
    {ts : List (Taking Ty)}
    (h : (CAPattern.group type f more items).takings Γ source place t = some ts) :
    ∃ s rest, Γ.layout t = .struct s ∧ (type.Suits Γ s t ∧ CountFits items s.fields.length) ∧
      (if type.isStruct then fieldTakings Γ items s source place
        else firstTakings Γ items (.field ·) (s.fields.map Prod.snd) source place 0) = some rest ∧
      ts = ⟨.group type f more items, source, place, t⟩ :: rest := by
  match hl : Γ.layout t with
  | .array item n => cases type <;> simp [CAPattern.takings, hl] at h htype
  | .other => cases type <;> simp [CAPattern.takings, hl] at h htype
  | .struct s =>
      rw [takings_struct htype hl] at h
      obtain ⟨rest, hrest, rfl⟩ := Option.map_eq_some_iff.mp h
      split at hrest
      · exact ⟨s, rest, rfl, ‹_›, hrest, rfl⟩
      · cases hrest

/-! ### The loops -/

variable {vars : Nat → Option Ty}

/-- A pattern binds what it takes. -/
def BindsTakings (Γ : TypeTable Ty) (vars : Nat → Option Ty) (p : CAPattern) : Prop :=
  ∀ source place t ts, p.takings Γ source place t = some ts → Bindable vars ts →
    Binds vars (capatternBindValue Γ vars p place t) ts

theorem capatternBindTuplePatternRange_after {items : List CAPattern} {source : List Source}
    {place : Place} {fields : List (Int × Ty)} {step : Nat → Source} {size i : Nat}
    {ts : List (Taking Ty)} (hi : size = i + items.length)
    (each : ∀ p ∈ items, BindsTakings Γ vars p)
    (h : lastTakings Γ items step (fields.map Prod.snd) source place = some ts)
    (hts : Bindable vars ts) :
    Binds vars (capatternBindTuplePatternRange Γ vars items place fields size false i) ts := by
  induction items generalizing i ts with
  | nil =>
      cases h
      exact .nil
  | cons p items ih =>
      obtain ⟨k, t, x, y, hk, ht, hx, hy, rfl⟩ := lastTakings_cons_some h
      obtain ⟨hbx, hby⟩ := Bindable.append.mp hts
      rw [List.length_map] at hk
      rw [List.length_cons] at hi
      have hoff : (i : Int) + ((fields.length : Int) - (size : Int)) = (k : Int) := by omega
      obtain ⟨field, hfield, rfl⟩ : ∃ field, fields[k]? = some field ∧ field.2 = t := by
        simpa using ht
      simp only [capatternBindTuplePatternRange, Bool.false_and, Bool.false_eq_true, if_false]
      rw [hoff, readAt_nat, hfield]
      exact (each p List.mem_cons_self _ _ _ _ hx hbx).andThen
        (ih (by omega) (fun q hq => each q (List.mem_cons_of_mem _ hq)) hy hby)

theorem capatternBindTuplePatternRange_before {items : List CAPattern} {source : List Source}
    {place : Place} {fields : List (Int × Ty)} {step : Nat → Source} {size i : Nat}
    {ts : List (Taking Ty)} (hi : size = i + items.length)
    (each : ∀ p ∈ items, BindsTakings Γ vars p)
    (h : firstTakings Γ items step (fields.map Prod.snd) source place i = some ts)
    (hts : Bindable vars ts) :
    Binds vars (capatternBindTuplePatternRange Γ vars items place fields size true i) ts := by
  induction items generalizing i ts with
  | nil =>
      cases h
      exact .nil
  | cons p items ih =>
      rw [List.length_cons] at hi
      have hrest : ∀ q ∈ items, BindsTakings Γ vars q := fun q hq =>
        each q (List.mem_cons_of_mem _ hq)
      cases hp : p.isIgnoreRange with
      | true =>
          rw [firstTakings, if_pos hp] at h
          simp only [capatternBindTuplePatternRange, hp, Bool.and_true, if_true]
          exact capatternBindTuplePatternRange_after (by omega) hrest h hts
      | false =>
          obtain ⟨t, x, y, ht, hx, hy, rfl⟩ := firstTakings_cons_some hp h
          obtain ⟨hbx, hby⟩ := Bindable.append.mp hts
          obtain ⟨field, hfield, rfl⟩ : ∃ field, fields[i]? = some field ∧ field.2 = t := by
            simpa using ht
          simp only [capatternBindTuplePatternRange, hp, Bool.and_false, Bool.false_eq_true,
            if_false, if_true, Int.add_zero]
          rw [readAt_nat, hfield]
          exact (each p List.mem_cons_self _ _ _ _ hx hbx).andThen (ih (by omega) hrest hy hby)

omit [DecidableEq Ty] in
theorem getElem?_replicate {n i : Nat} {t u : Ty} (h : (List.replicate n t)[i]? = some u) :
    t = u := by
  obtain ⟨hlt, h⟩ := List.getElem?_eq_some_iff.mp h
  simpa using h

theorem capatternBindArrayPatternRange_after {items : List CAPattern} {source : List Source}
    {place : Place} {item : Ty} {step : Nat → Source} {n size i : Nat} {ts : List (Taking Ty)}
    (hi : size = i + items.length) (each : ∀ p ∈ items, BindsTakings Γ vars p)
    (h : lastTakings Γ items step (List.replicate n item) source place = some ts)
    (hts : Bindable vars ts) :
    Binds vars (capatternBindArrayPatternRange Γ vars items place item n size false i) ts := by
  induction items generalizing i ts with
  | nil =>
      cases h
      exact .nil
  | cons p items ih =>
      obtain ⟨k, t, x, y, hk, ht, hx, hy, rfl⟩ := lastTakings_cons_some h
      obtain ⟨hbx, hby⟩ := Bindable.append.mp hts
      rw [List.length_replicate] at hk
      rw [List.length_cons] at hi
      have hoff : (i : Int) + ((n : Int) - (size : Int)) = (k : Int) := by omega
      obtain rfl : item = t := getElem?_replicate ht
      simp only [capatternBindArrayPatternRange, Bool.false_and, Bool.false_eq_true, if_false]
      rw [hoff]
      exact (each p List.mem_cons_self _ _ _ _ hx hbx).andThen
        (ih (by omega) (fun q hq => each q (List.mem_cons_of_mem _ hq)) hy hby)

theorem capatternBindArrayPatternRange_before {items : List CAPattern} {source : List Source}
    {place : Place} {item : Ty} {step : Nat → Source} {n size i : Nat} {ts : List (Taking Ty)}
    (hi : size = i + items.length) (each : ∀ p ∈ items, BindsTakings Γ vars p)
    (h : firstTakings Γ items step (List.replicate n item) source place i = some ts)
    (hts : Bindable vars ts) :
    Binds vars (capatternBindArrayPatternRange Γ vars items place item n size true i) ts := by
  induction items generalizing i ts with
  | nil =>
      cases h
      exact .nil
  | cons p items ih =>
      rw [List.length_cons] at hi
      have hrest : ∀ q ∈ items, BindsTakings Γ vars q := fun q hq =>
        each q (List.mem_cons_of_mem _ hq)
      cases hp : p.isIgnoreRange with
      | true =>
          rw [firstTakings, if_pos hp] at h
          simp only [capatternBindArrayPatternRange, hp, Bool.and_true, if_true]
          exact capatternBindArrayPatternRange_after (by omega) hrest h hts
      | false =>
          obtain ⟨t, x, y, ht, hx, hy, rfl⟩ := firstTakings_cons_some hp h
          obtain ⟨hbx, hby⟩ := Bindable.append.mp hts
          obtain rfl : item = t := getElem?_replicate ht
          simp only [capatternBindArrayPatternRange, hp, Bool.and_false, Bool.false_eq_true,
            if_false, if_true, Int.add_zero]
          exact (each p List.mem_cons_self _ _ _ _ hx hbx).andThen (ih (by omega) hrest hy hby)

omit [DecidableEq Ty] in
/-- The struct form looks a field up by its name, and that of a tuple by its number. -/
theorem bindPosition_eq {s : CAStruct Ty} (hs : s.type.isNamed) {f : Int} {i : Nat}
    (h : fieldIndex s f = some i) : bindPosition s f = i := by
  unfold fieldIndex at h
  unfold bindPosition
  match hst : s.type with
  | .namedStruct =>
      rw [hst, if_neg nofun] at h
      simp [h]
  | .namedTuple =>
      rw [hst, if_pos rfl] at h
      split at h
      · rename_i hf
        cases h
        rw [if_neg (by decide)]
        omega
      · cases h
  | .generalTuple | .other =>
      rw [hst] at hs
      cases hs

theorem capatternBindStructFields_binds {items : List CAPattern} {source : List Source}
    {place : Place} {s : CAStruct Ty} (hs : s.type.isNamed) {ts : List (Taking Ty)}
    (hlast : DotsLast items)
    (each : ∀ p ∈ items, BindsTakings Γ vars p)
    (h : fieldTakings Γ items s source place = some ts) (hts : Bindable vars ts) :
    Binds vars (capatternBindStructFields Γ vars items place s) ts := by
  induction items generalizing ts with
  | nil =>
      cases h
      exact .nil
  | cons p items ih =>
      have hrest : ∀ q ∈ items, BindsTakings Γ vars q := fun q hq =>
        each q (List.mem_cons_of_mem _ hq)
      cases hp : p.isIgnoreRange with
      | true =>
          obtain rfl : items = [] := hlast.head hp
          rw [fieldTakings, if_pos hp] at h
          cases h
          simp only [capatternBindStructFields, hp, if_true]
          exact .nil
      | false =>
          obtain ⟨i, field, x, y, hi, hfield, hx, hy, rfl⟩ := fieldTakings_cons_some hp h
          obtain ⟨hbx, hby⟩ := Bindable.append.mp hts
          simp only [capatternBindStructFields, hp, Bool.false_eq_true, if_false]
          rw [bindPosition_eq hs hi, readAt_nat, hfield]
          exact (each p List.mem_cons_self _ _ _ _ hx hbx).andThen
            (ih hlast.tail hrest hy hby)

/-! ### The groups -/

omit [DecidableEq Ty] in
theorem capatternBindValue_struct {type : GroupType} (htype : type ≠ .array) {f : Int}
    {more : List Nat} {items : List CAPattern} {place : Place} {t : Ty} {s : CAStruct Ty}
    (hl : Γ.layout t = .struct s) :
    capatternBindValue Γ vars (.group type f more items) place t =
      andThen (.ok [.taken (.group type f more items) place t])
        (andThen (bindAll vars place more)
          (if type.isStruct then capatternBindStructFields Γ vars items place s
          else
            capatternBindTuplePatternRange Γ vars items place s.fields items.length true 0)) := by
  rw [capatternBindValue]
  · rw [hl]
  · exact htype

/-- **The walk along the value**, by induction on the pattern. -/
theorem bindsTakings (vars : Nat → Option Ty) {p : CAPattern} (hp : Checked p) :
    BindsTakings Γ vars p := by
  induction p with
  | var f x more =>
      rintro source place t _ ⟨⟩ hts
      obtain ⟨events, hok, htaken, hbind⟩ := bindAll_ok place (hts _ List.mem_cons_self)
      rw [capatternBindValue, show bindAll vars place (x :: more) = _ from hok]
      exact ⟨_, rfl, by simp [htaken, Taking.taken], by simp [hbind, Taking.bindings]⟩
  | ignoreOne f more =>
      rintro source place t _ ⟨⟩ hts
      rw [capatternBindValue]
      exact ⟨_, rfl, rfl, rfl⟩
  | ignoreRange =>
      rintro source place t _ ⟨⟩
  | group type f more items ih =>
      intro source place t ts h hts
      have hchecks : capatternCheckIgnore (.group type f more items) := hp.resolve_left nofun
      simp only [capatternCheckIgnore, Bool.and_eq_true, decide_eq_true_eq] at hchecks
      obtain ⟨⟨hitems, hone⟩, hlast⟩ := hchecks
      have each : ∀ q ∈ items, BindsTakings Γ vars q :=
        fun q hq => ih q hq (checked_items hitems q hq)
      by_cases htype : type = .array
      · subst htype
        obtain ⟨item, n, rest, hl, hfits, hrest, rfl⟩ := takings_array_some h
        rw [capatternBindValue]
        simp only [hl]
        exact Binds.own hts (capatternBindArrayPatternRange_before (by simp) each hrest
          fun k hk => hts k (List.mem_cons_of_mem _ hk))
      · obtain ⟨s, rest, hl, ⟨hsuits, hfits⟩, hrest, rfl⟩ := takings_struct_some htype h
        have hbind : Bindable vars rest := fun k hk => hts k (List.mem_cons_of_mem _ hk)
        rw [capatternBindValue_struct htype hl]
        refine Binds.own hts ?_
        split at hrest
        · rename_i hs
          rw [if_pos hs]
          exact capatternBindStructFields_binds (hsuits.2 hs)
            (dotsLast_of_checked hone (by simpa [hs] using hlast)) each hrest hbind
        · rename_i hs
          rw [if_neg hs]
          exact capatternBindTuplePatternRange_before (by simp) each hrest hbind

end

end CaLang.Patterns
