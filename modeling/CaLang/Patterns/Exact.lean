import CaLang.Patterns.Placed

/-! # Exactly the good meetings

**Of a `let` that the compiler accepts, the sub-patterns stand in their places exactly if all
meetings are good.**  What an accepted walk comes to is typed, and a sub-pattern that is typed with
a type from which it takes something has met it rightly.
-/

namespace CaLang.Patterns

/-! ### Parts of a walk -/

section

variable {Ty : Type}

/-- What a part of a walk has typed, the walk has typed. -/
def PartOf (r : Except Stop (List (TypeEvent Ty))) (events : List (TypeEvent Ty)) : Prop :=
  ∃ part, r = .ok part ∧ typings part ⊆ typings events

theorem PartOf.trans {r : Except Stop (List (TypeEvent Ty))} {events events' : List (TypeEvent Ty)}
    (h : PartOf r events) (hsub : typings events ⊆ typings events') : PartOf r events' := by
  obtain ⟨part, hok, hpart⟩ := h
  exact ⟨part, hok, List.Subset.trans hpart hsub⟩

theorem parts_of_andThen {a b : Except Stop (List (TypeEvent Ty))} {events : List (TypeEvent Ty)}
    (h : andThen a b = .ok events) : PartOf a events ∧ PartOf b events := by
  obtain ⟨x, hx, h⟩ := except_bind_eq_ok h
  obtain ⟨y, hy, h⟩ := except_bind_eq_ok h
  cases h
  refine ⟨⟨x, hx, ?_⟩, ⟨y, hy, ?_⟩⟩
  · rw [typings_append]
    exact List.subset_append_left _ _
  · rw [typings_append]
    exact List.subset_append_right _ _

variable [DecidableEq Ty] {Γ : TypeTable Ty} {events : List (TypeEvent Ty)} {source : List Source}

theorem determineLetbindTypeRange_part {items : List CAPattern} {t : Ty}
    (hok : determineLetbindTypeRange Γ items source t = .ok events) {p : CAPattern}
    (hp : p ∈ items) : PartOf (determineLetbindType Γ p source t) events := by
  induction items generalizing events with
  | nil => cases hp
  | cons q items ih =>
      rw [determineLetbindTypeRange] at hok
      obtain ⟨hhead, tail, htail, hsub⟩ := parts_of_andThen hok
      rcases List.mem_cons.mp hp with rfl | hp
      · exact hhead
      · exact (ih htail hp).trans hsub

omit [DecidableEq Ty] in
theorem eq_of_fieldPosition {s : CAStruct Ty} {f pos : Int} {i : Nat}
    (hpos : fieldPosition s f = .ok pos) (hi : fieldIndex s f = some i) : pos = i := by
  rcases fieldPosition_cases (fieldIndex_nonneg hi) with h | ⟨j, hj, hfj⟩
  · rw [hpos] at h
    cases h
  · rw [hi] at hfj
    rw [hpos] at hj
    cases hfj
    exact Except.ok.inj hj

theorem determineLetbindTypeFields_part {items : List CAPattern} {s : CAStruct Ty}
    (hok : determineLetbindTypeFields Γ items source s = .ok events) (hlast : DotsLast items)
    {p : CAPattern} (hp : p ∈ items) (hd : p.isIgnoreRange = false) {i : Nat} {field : Int × Ty}
    (hi : fieldIndex s p.fieldname = some i) (hfield : s.fields[i]? = some field) :
    ∃ source', PartOf (determineLetbindType Γ p source' field.2) events := by
  induction items generalizing events with
  | nil => cases hp
  | cons q items ih =>
      rw [determineLetbindTypeFields] at hok
      cases hq : q.isIgnoreRange with
      | true =>
          rw [hlast.head hq, List.mem_singleton] at hp
          rw [hp, hq] at hd
          cases hd
      | false =>
          rw [if_neg (by simp [hq])] at hok
          obtain ⟨pos, hpos, hok⟩ := except_bind_eq_ok hok
          obtain ⟨found, hfound, hok⟩ := except_bind_eq_ok hok
          obtain ⟨hhead, tail, htail, hsub⟩ := parts_of_andThen hok
          rcases List.mem_cons.mp hp with rfl | hp
          · obtain rfl := eq_of_fieldPosition hpos hi
            rw [readAt_nat, hfield] at hfound
            cases hfound
            exact ⟨_, hhead⟩
          · obtain ⟨source', hpart⟩ := ih htail hlast.tail hp
            exact ⟨source', hpart.trans hsub⟩

theorem determineLetbindPatternRange_part {items : List CAPattern} {fields : List (Int × Ty)}
    {size i : Nat} {before : Bool}
    (hok : determineLetbindPatternRange Γ items source fields size before i = .ok events)
    {p : CAPattern} {t : Ty} (hp : (p, t) ∈ rangePairs (fun i => (nth? fields i).map Prod.snd)
      fields.length size items before i) :
    ∃ source', PartOf (determineLetbindType Γ p source' t) events := by
  induction items generalizing before i events with
  | nil => cases hp
  | cons q items ih =>
      rw [determineLetbindPatternRange] at hok
      rw [rangePairs] at hp
      split at hp
      · rename_i hdots
        rw [if_pos hdots] at hok
        exact ih hok hp
      · rename_i hdots
        rw [if_neg hdots] at hok
        obtain ⟨field, hfield, hok⟩ := except_bind_eq_ok hok
        obtain ⟨hhead, tail, htail, hsub⟩ := parts_of_andThen hok
        rcases List.mem_append.mp hp with hp | hp
        · rw [nth?, hfield] at hp
          cases List.mem_singleton.mp hp
          exact ⟨_, hhead⟩
        · obtain ⟨source', hpart⟩ := ih htail hp
          exact ⟨source', hpart.trans hsub⟩

theorem determineLetbindType_array_ok {f : Int} {more : List Nat} {items : List CAPattern} {t : Ty}
    (hok : determineLetbindType Γ (.group .array f more items) source t = .ok events) :
    ∃ item n, Γ.layout t = .array item n ∧
      andThen (.ok [.typed (.group .array f more items) source t])
        (determineLetbindTypeRange Γ items (source ++ [.item]) item) = .ok events := by
  rw [determineLetbindType] at hok
  cases hl : Γ.layout t with
  | struct s =>
      rw [hl] at hok
      cases hok
  | other =>
      rw [hl] at hok
      cases hok
  | array item n =>
      rw [hl] at hok
      exact ⟨item, n, rfl, hok⟩

theorem determineLetbindType_struct_ok {type : GroupType} (htype : type ≠ .array) {f : Int}
    {more : List Nat} {items : List CAPattern} {t : Ty}
    (hok : determineLetbindType Γ (.group type f more items) source t = .ok events) :
    ∃ s, Γ.layout t = .struct s ∧
      andThen (.ok (.typed (.group type f more items) source t :: recordAll more t))
        (if type.isStruct then determineLetbindTypeFields Γ items source s
        else determineLetbindPatternRange Γ items source s.fields items.length true 0) =
          .ok events := by
  rw [determineLetbindType_struct htype] at hok
  cases hl : Γ.layout t with
  | array item n =>
      rw [hl] at hok
      cases hok
  | other =>
      rw [hl] at hok
      cases hok
  | struct s =>
      rw [hl] at hok
      simp only at hok
      split at hok
      · exact ⟨s, rfl, hok⟩
      · cases hok

/-- A pattern is typed before its parts. -/
theorem typed_of_determineLetbindType {p : CAPattern} {t : Ty}
    (hok : determineLetbindType Γ p source t = .ok events) :
    (p, source, t) ∈ typings events := by
  cases p with
  | var f x more =>
      rw [determineLetbindType] at hok
      cases hok
      exact List.mem_cons_self
  | ignoreOne f more =>
      rw [determineLetbindType] at hok
      cases hok
      exact List.mem_cons_self
  | ignoreRange =>
      rw [determineLetbindType_ignoreRange] at hok
      cases hok
  | group type f more items =>
      by_cases htype : type = .array
      · subst htype
        obtain ⟨item, n, -, hok⟩ := determineLetbindType_array_ok hok
        obtain ⟨⟨part, hpart, hsub⟩, -⟩ := parts_of_andThen hok
        cases hpart
        exact hsub List.mem_cons_self
      · obtain ⟨s, -, hok⟩ := determineLetbindType_struct_ok htype hok
        obtain ⟨⟨part, hpart, hsub⟩, -⟩ := parts_of_andThen hok
        cases hpart
        exact hsub List.mem_cons_self

/-- An item of a group is walked with the type that it is paired with. -/
theorem part_of_typePairs {type : GroupType} {f : Int} {more : List Nat} {items : List CAPattern}
    (hp : capatternCheckIgnore (.group type f more items)) {t : Ty}
    (hok : determineLetbindType Γ (.group type f more items) source t = .ok events)
    {p : CAPattern} {t' : Ty} (hpair : (p, t') ∈ typePairs Γ type items t) :
    ∃ source', PartOf (determineLetbindType Γ p source' t') events ∧ p ∈ items := by
  simp only [capatternCheckIgnore, Bool.and_eq_true, decide_eq_true_eq] at hp
  obtain ⟨⟨-, hone⟩, hlast⟩ := hp
  by_cases htype : type = .array
  · subst htype
    obtain ⟨item, n, hl, hok⟩ := determineLetbindType_array_ok hok
    obtain ⟨-, part, hpart, hsub⟩ := parts_of_andThen hok
    simp only [typePairs, hl, List.mem_map, List.mem_filter] at hpair
    obtain ⟨q, ⟨hq, -⟩, heq⟩ := hpair
    cases heq
    exact ⟨_, (determineLetbindTypeRange_part hpart hq).trans hsub, hq⟩
  · obtain ⟨s, hl, hok⟩ := determineLetbindType_struct_ok htype hok
    obtain ⟨-, part, hpart, hsub⟩ := parts_of_andThen hok
    cases hs : type.isStruct with
    | false =>
        rw [hs, if_neg (by simp)] at hpart
        rw [typePairs_tuple htype hs hl] at hpair
        obtain ⟨source', hpart⟩ := determineLetbindPatternRange_part hpart hpair
        exact ⟨source', hpart.trans hsub, mem_of_mem_rangePairs hpair⟩
    | true =>
        cases type with
        | array | genTuple | tuple => cases hs
        | struct x =>
            rw [hs, if_pos rfl] at hpart
            simp only [typePairs, hl, List.mem_filterMap, List.mem_filter] at hpair
            obtain ⟨q, ⟨hq, hd⟩, heq⟩ := hpair
            obtain ⟨field, hfield, heq⟩ := Option.map_eq_some_iff.mp heq
            obtain ⟨i, hi, hget⟩ := Option.bind_eq_some_iff.mp hfield
            cases heq
            have hdots : DotsLast items := dotsLast_of_checked hone (by simpa [hs] using hlast)
            obtain ⟨source', hpart⟩ :=
              determineLetbindTypeFields_part hpart hdots hq (by simpa using hd) hi hget
            exact ⟨source', hpart.trans hsub, hq⟩

/-- **What the walk along a datatype comes to is typed**, by induction on the way to it. -/
theorem typed_of_reaches {p : CAPattern} (hp : Checked p) {t : Ty}
    (hok : determineLetbindType Γ p source t = .ok events) {q : CAPattern} {u : Ty}
    (hr : Reaches Γ p t q u) : ∃ source', (q, source', u) ∈ typings events := by
  induction hr generalizing source events with
  | here => exact ⟨source, typed_of_determineLetbindType hok⟩
  | item hpair hr ih =>
      have hchecks := hp.resolve_left (by rintro ⟨⟩)
      obtain ⟨source', ⟨part, hpart, hsub⟩, hmem⟩ := part_of_typePairs hchecks hok hpair
      simp only [capatternCheckIgnore, Bool.and_eq_true] at hchecks
      obtain ⟨source'', htyped⟩ := ih (checked_items hchecks.1.1 _ hmem) hpart
      exact ⟨source'', hsub htyped⟩

/-! ### Fitting sub-patterns -/

/-- A pattern stands where it takes. -/
theorem place_mem_takings {p : CAPattern} {place : Place} {t : Ty} {ts : List (Taking Ty)}
    (h : p.takings Γ source place t = some ts) : place ∈ ts.map Taking.place := by
  cases p with
  | ignoreRange => cases h
  | var | ignoreOne =>
      cases h
      exact List.mem_cons_self
  | group type f more items =>
      by_cases htype : type = .array
      · subst htype
        obtain ⟨item, n, rest, -, -, -, rfl⟩ := takings_array_some h
        exact List.mem_cons_self
      · obtain ⟨s, rest, -, -, -, rfl⟩ := takings_struct_some htype h
        exact List.mem_cons_self

theorem place_mem_fieldTakings {items : List CAPattern} {s : CAStruct Ty} {place : Place}
    {ts : List (Taking Ty)} (h : fieldTakings Γ items s source place = some ts) {f : Int}
    (hf : f ∈ fieldnames items) {i : Nat} (hi : fieldIndex s f = some i) :
    place ++ [(i : Int)] ∈ ts.map Taking.place := by
  induction items generalizing ts with
  | nil => cases hf
  | cons p items ih =>
      cases hp : p.isIgnoreRange with
      | true =>
          rw [fieldTakings, if_pos hp] at h
          exact ih h (by simpa [fieldnames, hp] using hf)
      | false =>
          obtain ⟨j, field, x, y, hj, -, hx, hy, rfl⟩ := fieldTakings_cons_some hp h
          have hcons : fieldnames (p :: items) = p.fieldname :: fieldnames items := by
            simp [fieldnames, hp]
          rw [hcons] at hf
          rw [List.map_append]
          rcases List.mem_cons.mp hf with rfl | hf
          · cases hi.symm.trans hj
            exact List.mem_append_left _ (place_mem_takings hx)
          · exact List.mem_append_right _ (ih hy hf)

/-- Distinct places have distinct names. -/
theorem nodup_of_fieldTakings {items : List CAPattern} {s : CAStruct Ty} {place : Place}
    {ts : List (Taking Ty)} (h : fieldTakings Γ items s source place = some ts)
    (hts : (ts.map Taking.place).Nodup) : (fieldnames items).Nodup := by
  induction items generalizing ts with
  | nil => exact List.nodup_nil
  | cons p items ih =>
      cases hp : p.isIgnoreRange with
      | true =>
          rw [fieldTakings, if_pos hp] at h
          simpa [fieldnames, hp] using ih h hts
      | false =>
          obtain ⟨i, field, x, y, hi, -, hx, hy, rfl⟩ := fieldTakings_cons_some hp h
          have hcons : fieldnames (p :: items) = p.fieldname :: fieldnames items := by
            simp [fieldnames, hp]
          rw [List.map_append, List.nodup_append] at hts
          obtain ⟨-, hy', hdisjoint⟩ := hts
          rw [hcons, List.nodup_cons]
          refine ⟨?_, ih hy hy'⟩
          intro hmem
          exact hdisjoint _ (place_mem_takings hx) _ (place_mem_fieldTakings hy hmem hi) rfl

theorem namesOnce_of_takings {p : CAPattern} {place : Place} {t : Ty} {ts : List (Taking Ty)}
    (h : p.takings Γ source place t = some ts) (hts : (ts.map Taking.place).Nodup) :
    p.NamesOnce := by
  cases p with
  | var | ignoreOne | ignoreRange => trivial
  | group type f more items =>
      cases type with
      | array | genTuple | tuple => trivial
      | struct x =>
          have hstruct : (GroupType.struct x).isStruct = true := rfl
          obtain ⟨s, rest, -, -, hrest, rfl⟩ := takings_struct_some (by rintro ⟨⟩) h
          rw [if_pos hstruct] at hrest
          rw [List.map_cons, List.nodup_cons] at hts
          exact nodup_of_fieldTakings hrest hts.2

theorem fieldIndex_of_fieldTakings {items : List CAPattern} {s : CAStruct Ty}
    {place : Place} {ts : List (Taking Ty)} (h : fieldTakings Γ items s source place = some ts) :
    ∀ f ∈ fieldnames items, ∃ i, fieldIndex s f = some i := by
  induction items generalizing ts with
  | nil => exact fun f hf => absurd hf List.not_mem_nil
  | cons p items ih =>
      cases hp : p.isIgnoreRange with
      | true =>
          rw [fieldTakings, if_pos hp] at h
          simpa [fieldnames, hp] using ih h
      | false =>
          obtain ⟨i, field, x, y, hi, -, -, hy, -⟩ := fieldTakings_cons_some hp h
          have hcons : fieldnames (p :: items) = p.fieldname :: fieldnames items := by
            simp [fieldnames, hp]
          rw [hcons]
          exact List.forall_mem_cons.mpr ⟨⟨i, hi⟩, ih hy⟩

/-- **A sub-pattern that suits its type has met it rightly.** -/
theorem good_of_fits {p : CAPattern} {t : Ty} (honce : p.NamesOnce) (hfits : p.Fits Γ t)
    {m : Meeting} (hm : meetingAlong Γ p t = some m) : m.Good := by
  obtain ⟨source, place, ts, hts⟩ := hfits
  cases p with
  | var | ignoreOne | ignoreRange => cases hm
  | group type f more items =>
      cases type with
      | genTuple | tuple => cases hm
      | array =>
          obtain ⟨item, n, rest, hl, hcount, -, -⟩ := takings_array_some hts
          simp only [meetingAlong, hl, CADataType.size?, Option.some.injEq] at hm
          subst hm
          refine ⟨n, rfl, ?_⟩
          intro hdots
          rwa [CountFits, if_neg (by simp [hdots])] at hcount
      | struct x =>
          obtain ⟨s, rest, hl, -, hrest, -⟩ := takings_struct_some (by rintro ⟨⟩) hts
          simp only [meetingAlong, hl, Option.some.injEq] at hm
          subst hm
          refine ⟨honce, ?_⟩
          intro hnum f hf
          have hstruct : (GroupType.struct x).isStruct = true := rfl
          rw [if_pos hstruct] at hrest
          obtain ⟨i, hi⟩ := fieldIndex_of_fieldTakings hrest f hf
          exact fieldIndex_nonneg hi (of_decide_eq_true hnum)

end

/-! ### Along both sides -/

section

variable {Ty E : Type} [DecidableEq Ty] {Γ : TypeTable Ty} {X : Exprs Ty E} {vars : Nat → Option Ty}
  {source : List Source} {t : Ty} {events : List (TypeEvent Ty)}

theorem inferenceLetbindPatternRange_part {items : List CAPattern} {exprs : List E} {size i : Nat}
    {before : Bool}
    (hok : inferenceLetbindPatternRange Γ X vars items source exprs size before i = .ok events)
    {p : CAPattern} {e : E}
    (hp : (p, e) ∈ rangePairs (nth? exprs) exprs.length size items before i) :
    ∃ vars' source' t' part, inferenceLetbindTypeBothSide Γ X vars' p source' e = .ok (t', part) ∧
      typings part ⊆ typings events := by
  induction items generalizing before i vars events with
  | nil => cases hp
  | cons q items ih =>
      rw [inferenceLetbindPatternRange] at hok
      rw [rangePairs] at hp
      split at hp
      · rename_i hdots
        rw [if_pos hdots] at hok
        exact ih hok hp
      · rename_i hdots
        rw [if_neg hdots] at hok
        obtain ⟨e', he, hok⟩ := except_bind_eq_ok hok
        obtain ⟨⟨t', front⟩, hfront, hok⟩ := except_bind_eq_ok hok
        obtain ⟨rest, hrest, hok⟩ := except_bind_eq_ok hok
        cases hok
        rw [typings_append]
        rcases List.mem_append.mp hp with hp | hp
        · rw [nth?, he] at hp
          cases List.mem_singleton.mp hp
          exact ⟨_, _, t', front, hfront, List.subset_append_left _ _⟩
        · obtain ⟨vars', source', t', part, hpart, hsub⟩ := ih hrest hp
          exact ⟨vars', source', t', part, hpart,
            List.Subset.trans hsub (List.subset_append_right _ _)⟩

/-- An array pattern is typed with the type of the name or of the literal. -/
theorem inferenceLetbindTypeBothSide_array_ok {f : Int} {more : List Nat} {items : List CAPattern}
    {e : E} (hok : inferenceLetbindTypeBothSide Γ X vars (.group .array f more items) source e =
      .ok (t, events)) :
    X.inferenceExprType e = some t ∧ (.group .array f more items, source, t) ∈ typings events ∧
      ∃ item n, Γ.layout t = .array item n ∧
        PartOf (determineLetbindTypeRange Γ (items.eraseP CAPattern.isIgnoreRange)
          (source ++ [.item]) item) events := by
  rw [inferenceLetbindTypeBothSide] at hok
  cases hview : X.view e with
  | tuple | other =>
      simp only [hview] at hok
      cases hok
  | id | array =>
      simp only [hview] at hok
      obtain ⟨t', ht', hok⟩ := except_bind_eq_ok hok
      cases hl : Γ.layout t' with
      | struct | other =>
          simp only [hl] at hok
          cases hok
      | array item n =>
          simp only [hl] at hok
          cases hdots : hasIgnoreRange items with
          | true =>
              rw [if_pos hdots] at hok
              obtain ⟨part, hpart, hok⟩ := except_bind_eq_ok hok
              cases hok
              refine ⟨eq_some_of_found ht', List.mem_cons_self, item, n, hl, part, hpart, ?_⟩
              rw [typings_append]
              intro _ h
              exact List.mem_append_left _ (List.mem_cons_of_mem _ h)
          | false =>
              rw [if_neg (by simp [hdots])] at hok
              split at hok
              · cases hok
              · obtain ⟨part, hpart, hok⟩ := except_bind_eq_ok hok
                cases hok
                have herase : items.eraseP CAPattern.isIgnoreRange = items :=
                  List.eraseP_of_forall_not (by simpa [hasIgnoreRange] using hdots)
                obtain ⟨item', n', hl', hrest⟩ := determineLetbindType_array_ok hpart
                cases hl.symm.trans hl'
                rw [herase, typings_append]
                have hsub :=
                  List.subset_append_left (typings part) (typings (recordAll more t))
                exact ⟨eq_some_of_found ht', hsub (typed_of_determineLetbindType hpart), item, n,
                  hl, (parts_of_andThen hrest).2.trans (by rwa [typings_append])⟩

/-- A literal of a tuple is met by a pattern without a `..`. -/
theorem inferenceLetbindTypeBothSide_literal_ok {f : Int} {more : List Nat} {items : List CAPattern}
    {e : E} {exprs : List E} (hview : X.view e = .tuple exprs)
    (hok : inferenceLetbindTypeBothSide Γ X vars (.group .genTuple f more items) source e =
      .ok (t, events)) :
    hasIgnoreRange items = false ∧ ∃ part,
      inferenceLetbindPatternRange Γ X vars items source exprs items.length true 0 = .ok part ∧
        typings part ⊆ typings events := by
  rw [inferenceLetbindTypeBothSide] at hok
  simp only [hview] at hok
  split at hok
  · cases hok
  obtain ⟨part, hpart, hok⟩ := except_bind_eq_ok hok
  obtain ⟨u, hu, hok⟩ := except_bind_eq_ok hok
  obtain ⟨t', ht', hok⟩ := except_bind_eq_ok hok
  rw [eq_some_of_found ht'] at hu
  obtain ⟨us, fields, hus, -, -⟩ := catypeFromCapattern_genTuple hu
  split at hok
  · cases hok
    refine ⟨(catypesFromItems_some hus).2, part, hpart, ?_⟩
    rw [typings_append]
    intro _ h
    exact List.mem_append_left _ (List.mem_cons_of_mem _ h)
  · cases hok

/-- **What the walk along both sides comes to is met rightly** if what it types is fitting, by
induction on the way to it. -/
theorem good_of_visits {p : CAPattern} (hp : capatternCheckIgnore p) {e : E}
    (hok : inferenceLetbindTypeBothSide Γ X vars p source e = .ok (t, events))
    (hfit : Fitting Γ events) {v : Visit Ty E} (hv : Visits Γ X p e v) {m : Meeting}
    (hm : v.meeting Γ X = some m) : m.Good := by
  induction hv generalizing vars source t events with
  | @here p e =>
      cases p with
      | var | ignoreOne | ignoreRange => cases hm
      | group type f more items =>
          cases type with
          | tuple | struct => cases hm
          | array =>
              obtain ⟨ht, htyped, item, n, hl, -⟩ := inferenceLetbindTypeBothSide_array_ok hok
              obtain ⟨-, source', place, ts, hts⟩ := hfit _ htyped
              obtain ⟨item', n', rest, hl', hcount, -, -⟩ := takings_array_some hts
              cases hl.symm.trans hl'
              simp only [Visit.meeting, meetingBoth, ht, Option.map_some, hl,
                CADataType.size?] at hm
              split at hm
              · cases hm
                intro n' hn hdots
                cases hn
                rwa [CountFits, if_pos hdots] at hcount
              · cases hm
          | genTuple =>
              cases hview : X.view e with
              | id | array | other =>
                  simp only [Visit.meeting, meetingBoth, hview] at hm
                  cases hm
              | tuple exprs =>
                  have hdots := (inferenceLetbindTypeBothSide_literal_ok hview hok).1
                  simp only [Visit.meeting, meetingBoth, hview, hdots] at hm
                  cases hm
  | @literal f more items e exprs q e' v hview hpair hv ih =>
      obtain ⟨-, part, hpart, hsub⟩ := inferenceLetbindTypeBothSide_literal_ok hview hok
      obtain ⟨vars', source', t', part', hpart', hsub'⟩ :=
        inferenceLetbindPatternRange_part hpart hpair
      simp only [capatternCheckIgnore, Bool.and_eq_true, decide_eq_true_eq] at hp
      obtain ⟨⟨hitems, hone⟩, -⟩ := hp
      have hdots := isIgnoreRange_of_mem_rangePairs hone hpair
      have hq := (checked_items hitems q (mem_of_mem_rangePairs hpair)).resolve_left
        (by simp [hdots])
      exact ih hq hpart' (fun typing h => hfit typing (hsub (hsub' h))) hm
  | @name f more items e t' q u hview ht hr =>
      rw [inferenceLetbindTypeBothSide] at hok
      simp only [hview] at hok
      obtain ⟨t'', ht'', hok⟩ := except_bind_eq_ok hok
      cases ht.symm.trans (eq_some_of_found ht'')
      obtain ⟨part, hpart, hok⟩ := except_bind_eq_ok hok
      cases hok
      obtain ⟨source', htyped⟩ := typed_of_reaches (.inr hp) hpart hr
      obtain ⟨honce, hfits⟩ := hfit _ (by simpa using htyped)
      exact good_of_fits honce hfits hm
  | @item f more items e t' u' q r u hview ht hpair hr =>
      obtain ⟨ht', -, item, n, hl, part, hpart, hsub⟩ := inferenceLetbindTypeBothSide_array_ok hok
      cases ht.symm.trans ht'
      simp only [typePairs, hl, List.mem_map, List.mem_filter] at hpair
      obtain ⟨q', ⟨hq, hd⟩, heq⟩ := hpair
      cases heq
      obtain ⟨part', hpart', hsub'⟩ := determineLetbindTypeRange_part hpart (p := q)
        ((List.mem_eraseP_of_neg (by simpa using hd)).mpr hq)
      simp only [capatternCheckIgnore, Bool.and_eq_true] at hp
      obtain ⟨source', htyped⟩ := typed_of_reaches (checked_items hp.1.1 q hq) hpart' hr
      obtain ⟨honce, hfits⟩ := hfit _ (hsub (hsub' htyped))
      exact good_of_fits honce hfits hm

/-! ### A `let` -/

variable {l : LetStmt Ty E}

/-- The compiler does not end with an error. -/
def LetStmt.Accepted (Γ : TypeTable Ty) (X : Exprs Ty E) (l : LetStmt Ty E) : Prop :=
  ∃ vars, makeLetStmt Γ l.cap l.post = .ok vars ∧
    typeLetbind Γ X vars l.cap l.post l.init ≠ .error .exit

/-- What is placed is fitting. -/
theorem fitting_of_placedResult {cap : CAPattern} (h : PlacedResult Γ cap (.ok (t, events))) :
    Fitting Γ events := by
  obtain ⟨ts, hts, horigins, -, -, hnodup, hfits⟩ := h
  intro typing htyping
  refine ⟨?_, hfits typing htyping⟩
  have hmem : (typing.1, typing.2.1) ∈ origins events := List.mem_map_of_mem htyping
  rw [horigins] at hmem
  obtain ⟨k, hk, heq⟩ := List.mem_map.mp hmem
  have hcap : k.cap = typing.1 := congrArg Prod.fst heq
  obtain ⟨ts', hts', hsub⟩ := takesClosed cap _ _ _ ts hts k hk
  exact hcap ▸ namesOnce_of_takings hts' (hnodup.sublist (hsub.map Taking.place))

theorem LetStmt.good_of_placed (h : l.Accepted Γ X) (hplaced : l.Placed Γ X) {m : Meeting}
    (hm : l.Meets Γ X m) : m.Good := by
  obtain ⟨vars, hvars, hexit⟩ := h
  obtain ⟨v, ⟨vars', hvars', hv⟩, hm⟩ := hm
  cases hvars.symm.trans hvars'
  have hcheck : capatternCheckIgnore l.cap := (makeLetStmt_ok.mp hvars).1.1
  have hresult := hplaced vars hvars
  cases hr : typeLetbind Γ X vars l.cap l.post l.init with
  | error stop =>
      rw [hr] at hresult hexit
      cases hresult
      exact absurd rfl hexit
  | ok r =>
      obtain ⟨t, events⟩ := r
      rw [hr] at hresult
      have hfit := fitting_of_placedResult hresult
      unfold typeLetbind at hr
      obtain ⟨t?, ht, hr⟩ := except_bind_eq_ok hr
      rw [ht] at hv
      cases t? with
      | some t' =>
          obtain ⟨q, u, hreach, rfl⟩ := hv
          suffices determineLetbindType Γ l.cap [] t' = .ok events by
            obtain ⟨source', htyped⟩ := typed_of_reaches (.inr hcheck) this hreach
            obtain ⟨honce, hfits⟩ := hfit _ htyped
            exact good_of_fits honce hfits hm
          cases hinit : l.init with
          | none =>
              rw [hinit] at hr
              obtain ⟨events', hok, hr⟩ := except_bind_eq_ok hr
              cases hr
              exact hok
          | some e =>
              rw [hinit] at hr
              obtain ⟨events', hok, hr⟩ := except_bind_eq_ok hr
              split at hr
              · cases hr
                exact hok
              · cases hr
      | none =>
          cases hinit : l.init with
          | none =>
              rw [hinit] at hv
              exact hv.elim
          | some e =>
              rw [hinit] at hr hv
              exact good_of_visits hcheck hr hfit hv hm

end

/-! ### Two `let` statements -/

/-- A triple, whose second component has two items, and whose third is a named tuple of two. -/
def tripleTable : TypeTable Nat where
  layout
    | 0 => .struct ⟨.generalTuple, [(0, 1), (1, 2), (2, 3)]⟩
    | 2 => .array 1 2
    | 3 => .struct ⟨.namedTuple, [(0, 1), (1, 1)]⟩
    | _ => .other
  stale := none
  tupleType _ := none
  arrayType _ _ := none
  namedType n := if n = 9 then some 3 else none
  layout_tupleType h := absurd h (Option.some_ne_none _).symm
  layout_arrayType h := absurd h (Option.some_ne_none _).symm

/-- The name of a triple. -/
def tripleExprs : Exprs Nat Unit where
  view _ := .id
  inferenceExprType _ := some 0
  determineExprType _ _ := true

/-- `let (a, [b, c], T { 1: d, .. }) = p` -/
def wholeLet : LetStmt Nat Unit :=
  ⟨.group .genTuple 0 [] [.var 0 0 [], .group .array 0 [] [.var 0 1 [], .var 0 2 []],
    .group (.struct 9) 0 [] [.var 1 3 [], .ignoreRange]], none, some ()⟩

/-- `let (a, [b], _) = p`, where the second component of `p` has two items. -/
def shortLet : LetStmt Nat Unit :=
  ⟨.group .genTuple 0 [] [.var 0 0 [], .group .array 0 [] [.var 0 1 []], .ignoreOne 0 []], none,
    some ()⟩

theorem wholeLet_placed : wholeLet.Placed tripleTable tripleExprs := by
  rintro vars ⟨⟩
  let ts := (wholeLet.cap.takings tripleTable [] [] 0).getD []
  have hts : wholeLet.cap.takings tripleTable [] [] 0 = some ts := rfl
  refine ⟨ts, hts, rfl, ?_, by decide, by decide, ?_⟩
  · intro types htypes
    obtain ⟨bound, hok, htaken, -⟩ := bindsTakings (Γ := tripleTable) (p := wholeLet.cap) types
      (.inr rfl) [] [] 0 ts hts fun k _ x _ => htypes x
    exact ⟨bound, hok, htaken⟩
  · intro typing (htyping : typing ∈ ts.map Taking.typing)
    obtain ⟨k, hk, rfl⟩ := List.mem_map.mp htyping
    obtain ⟨ts', hts', -⟩ := takesClosed wholeLet.cap _ _ _ ts hts k hk
    exact ⟨_, _, ts', hts'⟩

end CaLang.Patterns
