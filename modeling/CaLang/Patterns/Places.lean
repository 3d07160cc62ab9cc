import CaLang.Patterns.Bound

/-! # The places of a pattern

**What a pattern takes is there, and nothing is taken twice**: the place of each taking leads to a
component of the type, and the places are distinct where no struct form names a field twice.
-/

namespace CaLang.Patterns

variable {Ty : Type}

/-- A component of a type. -/
def component (Γ : TypeTable Ty) (t : Ty) (i : Int) : Option Ty :=
  match Γ.layout t with
  | .struct s => (nth? s.fields i).map Prod.snd
  | .array item n => nth? (List.replicate n item) i
  | .other => none

/-- The component behind some steps. -/
def componentAt (Γ : TypeTable Ty) (t : Ty) : Place → Option Ty
  | [] => some t
  | i :: place => (component Γ t i).bind (componentAt Γ · place)

/-- The takings stand below `place`, in the type, at distinct places. -/
structure Below (Γ : TypeTable Ty) (place : Place) (t : Ty) (ts : List (Taking Ty)) : Prop where
  exist : ∀ k ∈ ts, ∃ q, k.place = place ++ q ∧ componentAt Γ t q = some k.type
  nodup : (ts.map Taking.place).Nodup

/-- The takings stand in components of `place` whose index is in `I`. -/
structure Within (Γ : TypeTable Ty) (place : Place) (I : Nat → Prop) (comps : List Ty)
    (ts : List (Taking Ty)) : Prop where
  exist : ∀ k ∈ ts, ∃ i u q, I i ∧ comps[i]? = some u ∧ k.place = place ++ (i : Int) :: q ∧
    componentAt Γ u q = some k.type
  nodup : (ts.map Taking.place).Nodup

namespace Within

variable {Γ : TypeTable Ty} {place : Place} {I J : Nat → Prop} {comps : List Ty}
  {ts ts' : List (Taking Ty)}

theorem nil : Within Γ place I comps [] := ⟨nofun, List.nodup_nil⟩

theorem mono (h : Within Γ place I comps ts) (hIJ : ∀ i, I i → J i) :
    Within Γ place J comps ts where
  exist k hk := by
    obtain ⟨i, u, q, hi, rest⟩ := h.exist k hk
    exact ⟨i, u, q, hIJ i hi, rest⟩
  nodup := h.nodup

/-- An item before others that stand elsewhere. -/
theorem cons {i : Nat} {u : Ty} (hu : comps[i]? = some u)
    (h : Below Γ (place ++ [(i : Int)]) u ts) (hi : ¬ J i) (h' : Within Γ place J comps ts') :
    Within Γ place (fun j => j = i ∨ J j) comps (ts ++ ts') where
  exist k hk := by
    rcases List.mem_append.mp hk with hk | hk
    · obtain ⟨q, hq, hc⟩ := h.exist k hk
      exact ⟨i, u, q, .inl rfl, hu, by simpa using hq, hc⟩
    · obtain ⟨j, v, q, hj, rest⟩ := h'.exist k hk
      exact ⟨j, v, q, .inr hj, rest⟩
  nodup := by
    rw [List.map_append, List.nodup_append]
    refine ⟨h.nodup, h'.nodup, ?_⟩
    intro a ha b hb heq
    obtain ⟨k, hk, rfl⟩ := List.mem_map.mp ha
    obtain ⟨k', hk', rfl⟩ := List.mem_map.mp hb
    obtain ⟨q, hq, _⟩ := h.exist k hk
    obtain ⟨j, v, q', hj, _, hq', _⟩ := h'.exist k' hk'
    rw [hq', hq, List.append_assoc, List.append_cancel_left_eq] at heq
    obtain rfl : i = j := Int.ofNat.inj (List.cons.inj heq).1
    exact hi hj

/-- A group with its items. -/
theorem below {t : Ty} {p : CAPattern} {source : List Source} (h : Within Γ place I comps ts)
    (hcomps : ∀ (i : Nat) u, comps[i]? = some u → component Γ t i = some u) :
    Below Γ place t (⟨p, source, place, t⟩ :: ts) where
  exist := by
    refine List.forall_mem_cons.mpr ⟨⟨[], by simp, rfl⟩, ?_⟩
    intro k hk
    obtain ⟨i, u, q, _, hu, hq, hc⟩ := h.exist k hk
    exact ⟨(i : Int) :: q, hq, by simp [componentAt, hcomps i u hu, hc]⟩
  nodup := by
    rw [List.map_cons, List.nodup_cons]
    refine ⟨?_, h.nodup⟩
    intro hmem
    obtain ⟨k, hk, heq⟩ := List.mem_map.mp hmem
    obtain ⟨i, u, q, _, _, hq, _⟩ := h.exist k hk
    rw [hq] at heq
    simpa using congrArg List.length heq

end Within

section

variable [DecidableEq Ty] {Γ : TypeTable Ty}

/-- What names each field once. -/
def AllOnce (ts : List (Taking Ty)) : Prop := ∀ k ∈ ts, k.cap.NamesOnce

omit [DecidableEq Ty] in
theorem AllOnce.append {ts ts' : List (Taking Ty)} :
    AllOnce (ts ++ ts') ↔ AllOnce ts ∧ AllOnce ts' := List.forall_mem_append

/-- A pattern takes what stands below its place. -/
def TakesBelow (Γ : TypeTable Ty) (p : CAPattern) : Prop :=
  ∀ source place t ts, p.takings Γ source place t = some ts → AllOnce ts → Below Γ place t ts

theorem lastTakings_within {items : List CAPattern} {step : Nat → Source} {comps : List Ty}
    {source : List Source} {place : Place} {ts : List (Taking Ty)}
    (each : ∀ p ∈ items, TakesBelow Γ p)
    (h : lastTakings Γ items step comps source place = some ts) (hone : AllOnce ts) :
    Within Γ place (comps.length ≤ · + items.length) comps ts ∧ items.length ≤ comps.length := by
  induction items generalizing ts with
  | nil =>
      cases h
      exact ⟨.nil, Nat.zero_le _⟩
  | cons p items ih =>
      obtain ⟨i, u, x, y, hi, hu, hx, hy, rfl⟩ := lastTakings_cons_some h
      have hrest := (ih (fun q hq => each q (List.mem_cons_of_mem _ hq)) hy
        (AllOnce.append.mp hone).2).1
      have hp := each p List.mem_cons_self _ _ _ _ hx (AllOnce.append.mp hone).1
      rw [List.length_cons]
      refine ⟨(Within.cons hu hp (by omega) hrest).mono ?_, by omega⟩
      intro j hj
      omega

/-- No `..` stands behind a `..`. -/
theorem lastTakings_itemCount {items : List CAPattern} {step : Nat → Source} {comps : List Ty}
    {source : List Source} {place : Place} {ts : List (Taking Ty)}
    (h : lastTakings Γ items step comps source place = some ts) :
    itemCount items = items.length := by
  induction items generalizing ts with
  | nil => rfl
  | cons p items ih =>
      obtain ⟨i, u, x, y, hi, hu, hx, hy, rfl⟩ := lastTakings_cons_some h
      cases p with
      | ignoreRange => cases hx
      | _ => simpa [itemCount, CAPattern.isIgnoreRange] using ih hy

theorem firstTakings_within {items : List CAPattern} {step : Nat → Source} {comps : List Ty}
    {source : List Source} {place : Place} {i : Nat} {ts : List (Taking Ty)}
    (each : ∀ p ∈ items, TakesBelow Γ p) (hn : i + itemCount items ≤ comps.length)
    (h : firstTakings Γ items step comps source place i = some ts) (hone : AllOnce ts) :
    Within Γ place (i ≤ ·) comps ts := by
  induction items generalizing i ts with
  | nil =>
      cases h
      exact .nil
  | cons p items ih =>
      have hrest : ∀ q ∈ items, TakesBelow Γ q := fun q hq => each q (List.mem_cons_of_mem _ hq)
      cases hp : p.isIgnoreRange with
      | true =>
          rw [firstTakings, if_pos hp] at h
          have hcount : itemCount (p :: items) = items.length := by
            rw [← lastTakings_itemCount h]
            simp [itemCount, hp]
          apply (lastTakings_within hrest h hone).1.mono
          intro j hj
          omega
      | false =>
          obtain ⟨u, x, y, hu, hx, hy, rfl⟩ := firstTakings_cons_some hp h
          have hcount : itemCount (p :: items) = itemCount items + 1 := by simp [itemCount, hp]
          obtain ⟨honex, honey⟩ := AllOnce.append.mp hone
          have hwithin := ih hrest (by omega) hy honey
          have hbelow := each p List.mem_cons_self _ _ _ _ hx honex
          apply (Within.cons hu hbelow (by omega) hwithin).mono
          intro j hj
          omega

omit [DecidableEq Ty] in
/-- Different names stand for different fields. -/
theorem fieldIndex_inj {s : CAStruct Ty} {f g : Int} {i : Nat} (hf : fieldIndex s f = some i)
    (hg : fieldIndex s g = some i) : f = g := by
  unfold fieldIndex at hf hg
  split at hf
  · rename_i hs
    rw [if_pos hs] at hg
    split at hf
    · split at hg
      · have hfi := Option.some.inj hf
        have hgi := Option.some.inj hg
        omega
      · cases hg
    · cases hf
  · rename_i hs
    rw [if_neg hs] at hg
    obtain ⟨_, hf', _⟩ := List.findIdx?_eq_some_iff_getElem.mp hf
    obtain ⟨_, hg', _⟩ := List.findIdx?_eq_some_iff_getElem.mp hg
    exact (of_decide_eq_true hf').symm.trans (of_decide_eq_true hg')

theorem fieldTakings_within {items : List CAPattern} {s : CAStruct Ty} {source : List Source}
    {place : Place} {ts : List (Taking Ty)} (each : ∀ p ∈ items, TakesBelow Γ p)
    (hnames : (fieldnames items).Nodup) (h : fieldTakings Γ items s source place = some ts)
    (hone : AllOnce ts) :
    Within Γ place (fun i => ∃ f ∈ fieldnames items, fieldIndex s f = some i)
      (s.fields.map Prod.snd) ts := by
  induction items generalizing ts with
  | nil =>
      cases h
      exact .nil
  | cons p items ih =>
      have hrest : ∀ q ∈ items, TakesBelow Γ q := fun q hq => each q (List.mem_cons_of_mem _ hq)
      cases hp : p.isIgnoreRange with
      | true =>
          rw [fieldTakings, if_pos hp] at h
          simpa [fieldnames, hp] using ih hrest (by simpa [fieldnames, hp] using hnames) h hone
      | false =>
          obtain ⟨i, field, x, y, hi, hfield, hx, hy, rfl⟩ := fieldTakings_cons_some hp h
          have hcons : fieldnames (p :: items) = p.fieldname :: fieldnames items := by
            simp [fieldnames, hp]
          rw [hcons, List.nodup_cons] at hnames
          obtain ⟨honex, honey⟩ := AllOnce.append.mp hone
          have hbelow := each p List.mem_cons_self _ _ _ _ hx honex
          have hu : (s.fields.map Prod.snd)[i]? = some field.2 := by simp [hfield]
          refine (Within.cons hu hbelow ?_ (ih hrest hnames.2 hy honey)).mono ?_
          · rintro ⟨f, hf, hfi⟩
            exact hnames.1 (fieldIndex_inj hi hfi ▸ hf)
          · intro j hj
            rw [hcons]
            rcases hj with rfl | ⟨f, hf, hfi⟩
            · exact ⟨_, List.mem_cons_self, hi⟩
            · exact ⟨f, List.mem_cons_of_mem _ hf, hfi⟩

theorem CountFits.itemCount_le {items : List CAPattern} {n : Nat} (h : CountFits items n) :
    itemCount items ≤ n := by
  unfold CountFits at h
  split at h
  · exact h
  · exact h.le

/-- **The places of a pattern**, by induction on it. -/
theorem takesBelow (p : CAPattern) : TakesBelow Γ p := by
  induction p with
  | var f x more =>
      rintro source place t _ ⟨⟩ -
      exact ⟨by simp [componentAt], by simp⟩
  | ignoreOne f more =>
      rintro source place t _ ⟨⟩ -
      exact ⟨by simp [componentAt], by simp⟩
  | ignoreRange => rintro source place t _ ⟨⟩
  | group type f more items ih =>
      intro source place t ts h hone
      by_cases htype : type = .array
      · subst htype
        obtain ⟨item, n, rest, hl, hfits, hrest, rfl⟩ := takings_array_some h
        obtain ⟨-, hrests⟩ := List.forall_mem_cons.mp hone
        refine (firstTakings_within ih ?_ hrest hrests).below ?_
        · simpa using hfits.itemCount_le
        · intro i u hu
          simp [component, hl, hu]
      · obtain ⟨s, rest, hl, ⟨hsuits, hfits⟩, hrest, rfl⟩ := takings_struct_some htype h
        have hcomps : ∀ (i : Nat) u, (s.fields.map Prod.snd)[i]? = some u →
            component Γ t i = some u := fun i u hu => by
          simpa [component, hl] using hu
        obtain ⟨hnames, hrests⟩ := List.forall_mem_cons.mp hone
        split at hrest
        · rename_i hs
          cases type with
          | array | genTuple | tuple => cases hs
          | struct n => exact (fieldTakings_within ih hnames hrest hrests).below hcomps
        · refine (firstTakings_within ih ?_ hrest hrests).below hcomps
          simpa using hfits.itemCount_le

/-! ### What the sub-patterns take -/

/-- Each sub-pattern takes a part of the takings. -/
def Closed (Γ : TypeTable Ty) (ts : List (Taking Ty)) : Prop :=
  ∀ k ∈ ts, ∃ ts', k.cap.takings Γ k.source k.place k.type = some ts' ∧ ts'.Sublist ts

namespace Closed

variable {ts ts' : List (Taking Ty)}

theorem nil : Closed Γ [] := fun _ h => absurd h List.not_mem_nil

theorem append (h : Closed Γ ts) (h' : Closed Γ ts') : Closed Γ (ts ++ ts') := by
  intro k hk
  rcases List.mem_append.mp hk with hk | hk
  · obtain ⟨x, hx, hsub⟩ := h k hk
    exact ⟨x, hx, hsub.trans (List.sublist_append_left ts ts')⟩
  · obtain ⟨x, hx, hsub⟩ := h' k hk
    exact ⟨x, hx, hsub.trans (List.sublist_append_right ts ts')⟩

/-- A group with what its items take. -/
theorem cons {k : Taking Ty} (hk : k.cap.takings Γ k.source k.place k.type = some (k :: ts))
    (h : Closed Γ ts) : Closed Γ (k :: ts) := by
  refine List.forall_mem_cons.mpr ⟨⟨_, hk, List.Sublist.refl _⟩, ?_⟩
  intro j hj
  obtain ⟨x, hx, hsub⟩ := h j hj
  exact ⟨x, hx, hsub.cons k⟩

end Closed

/-- A pattern takes what is closed. -/
def TakesClosed (Γ : TypeTable Ty) (p : CAPattern) : Prop :=
  ∀ source place t ts, p.takings Γ source place t = some ts → Closed Γ ts

theorem lastTakings_closed {items : List CAPattern} {step : Nat → Source} {comps : List Ty}
    {source : List Source} {place : Place} {ts : List (Taking Ty)}
    (each : ∀ p ∈ items, TakesClosed Γ p)
    (h : lastTakings Γ items step comps source place = some ts) : Closed Γ ts := by
  induction items generalizing ts with
  | nil =>
      cases h
      exact .nil
  | cons p items ih =>
      obtain ⟨i, u, x, y, -, -, hx, hy, rfl⟩ := lastTakings_cons_some h
      exact (each p List.mem_cons_self _ _ _ _ hx).append
        (ih (fun q hq => each q (List.mem_cons_of_mem _ hq)) hy)

theorem firstTakings_closed {items : List CAPattern} {step : Nat → Source} {comps : List Ty}
    {source : List Source} {place : Place} {i : Nat} {ts : List (Taking Ty)}
    (each : ∀ p ∈ items, TakesClosed Γ p)
    (h : firstTakings Γ items step comps source place i = some ts) : Closed Γ ts := by
  induction items generalizing i ts with
  | nil =>
      cases h
      exact .nil
  | cons p items ih =>
      have hrest : ∀ q ∈ items, TakesClosed Γ q := fun q hq => each q (List.mem_cons_of_mem _ hq)
      cases hp : p.isIgnoreRange with
      | true =>
          rw [firstTakings, if_pos hp] at h
          exact lastTakings_closed hrest h
      | false =>
          obtain ⟨u, x, y, -, hx, hy, rfl⟩ := firstTakings_cons_some hp h
          exact (each p List.mem_cons_self _ _ _ _ hx).append (ih hrest hy)

theorem fieldTakings_closed {items : List CAPattern} {s : CAStruct Ty} {source : List Source}
    {place : Place} {ts : List (Taking Ty)} (each : ∀ p ∈ items, TakesClosed Γ p)
    (h : fieldTakings Γ items s source place = some ts) : Closed Γ ts := by
  induction items generalizing ts with
  | nil =>
      cases h
      exact .nil
  | cons p items ih =>
      have hrest : ∀ q ∈ items, TakesClosed Γ q := fun q hq => each q (List.mem_cons_of_mem _ hq)
      cases hp : p.isIgnoreRange with
      | true =>
          rw [fieldTakings, if_pos hp] at h
          exact ih hrest h
      | false =>
          obtain ⟨i, field, x, y, -, -, hx, hy, rfl⟩ := fieldTakings_cons_some hp h
          exact (each p List.mem_cons_self _ _ _ _ hx).append (ih hrest hy)

/-- **The sub-patterns take parts of what the pattern takes**, by induction on it. -/
theorem takesClosed (p : CAPattern) : TakesClosed Γ p := by
  induction p with
  | var f x more =>
      rintro source place t _ ⟨⟩
      exact .cons rfl .nil
  | ignoreOne f more =>
      rintro source place t _ ⟨⟩
      exact .cons rfl .nil
  | ignoreRange => rintro source place t _ ⟨⟩
  | group type f more items ih =>
      intro source place t ts h
      by_cases htype : type = .array
      · subst htype
        obtain ⟨item, n, rest, -, -, hrest, rfl⟩ := takings_array_some h
        exact .cons h (firstTakings_closed ih hrest)
      · obtain ⟨s, rest, -, -, hrest, rfl⟩ := takings_struct_some htype h
        refine .cons h ?_
        split at hrest
        · exact fieldTakings_closed ih hrest
        · exact firstTakings_closed ih hrest

/-- The pattern takes something of the type. -/
def CAPattern.Fits (Γ : TypeTable Ty) (p : CAPattern) (t : Ty) : Prop :=
  ∃ source place ts, p.takings Γ source place t = some ts

end

end CaLang.Patterns
