import CaLang.Patterns.BothSides

/-! # Where the sub-patterns stand

**In good meetings the passes take the components of a pattern from where they stand**: where an
array pattern that is typed along a type has the length of the array, where the items of an outer
array pattern do not outnumber the array, where a struct form names no field twice and no field of a
tuple by a negative number, and where both sides of a `..` fit into a literal.
-/

namespace CaLang.Patterns

section

variable {Ty E : Type} [DecidableEq Ty] {Γ : TypeTable Ty} {X : Exprs Ty E} {l : LetStmt Ty E}

/-- The pattern is rejected, or the passes type and bind what it takes, which is in the type and at
distinct places, and every sub-pattern suits the type that it is typed with. -/
def PlacedResult (Γ : TypeTable Ty) (cap : CAPattern) :
    Except Stop (Ty × List (TypeEvent Ty)) → Prop
  | .error stop => stop = .exit
  | .ok (t, events) =>
      ∃ ts, cap.takings Γ [] [] t = some ts ∧ origins events = ts.map Taking.origin ∧
        (∀ types : Nat → Option Ty, (∀ x, (types x).isSome) →
          ∃ bound, capatternBindValue Γ types cap [] t = .ok bound ∧
            taken bound = ts.map Taking.taken) ∧
        (∀ k ∈ ts, componentAt Γ t k.place = some k.type) ∧ (ts.map Taking.place).Nodup ∧
        ∀ typing ∈ typings events, typing.1.Fits Γ typing.2.2

/-- The passes are right about where the sub-patterns of a `let` stand. -/
def LetStmt.Placed (Γ : TypeTable Ty) (X : Exprs Ty E) (l : LetStmt Ty E) : Prop :=
  ∀ vars, makeLetStmt Γ l.cap l.post = .ok vars →
    PlacedResult Γ l.cap (typeLetbind Γ X vars l.cap l.post l.init)

omit [DecidableEq Ty] in
/-- What the parser has looked at. -/
theorem makeLetStmt_ok {cap : CAPattern} {post : Option Ty} {vars : Nat → Option Ty} :
    makeLetStmt Γ cap post = .ok vars ↔
      (capatternCheckIgnore cap ∧ ((registerCapattern Γ post cap).map Prod.fst).Nodup) ∧
        vars = fun x => ((registerCapattern Γ post cap).lookup x).join := by
  unfold makeLetStmt
  simp only
  split
  · rename_i h
    simp only [Bool.and_eq_true, decide_eq_true_eq] at h
    simp only [Except.ok.injEq, h, and_self, true_and]
    exact eq_comm
  · rename_i h
    simp only [Bool.and_eq_true, decide_eq_true_eq] at h
    simp [h]

/-- What the type pass must show. -/
structure PlacedBy (Γ : TypeTable Ty) (cap : CAPattern)
    (r : Except Stop (Ty × List (TypeEvent Ty))) : Prop where
  ends : Ends r
  typed {t : Ty} {events : List (TypeEvent Ty)} :
    r = .ok (t, events) → TypedFrom Γ cap [] events t ∧ Fitting Γ events

theorem PlacedBy.along {cap : CAPattern} {t : Ty} (hset : Settled Γ cap t) :
    PlacedBy Γ cap (determineLetbindType Γ cap [] t >>= fun events => .ok (t, events)) where
  ends := (hset [] []).ends.bind fun _ _ => .ok _
  typed hok := by
    obtain ⟨events, hr, hok⟩ := except_bind_eq_ok hok
    cases hok
    exact ⟨hset.typedFrom hr, hset.fitting hr⟩

theorem LetStmt.placed_of_placedBy
    (h : ∀ vars, makeLetStmt Γ l.cap l.post = .ok vars →
      PlacedBy Γ l.cap (typeLetbind Γ X vars l.cap l.post l.init)) : l.Placed Γ X := by
  intro vars hvars
  have hby := h vars hvars
  match hr : typeLetbind Γ X vars l.cap l.post l.init with
  | .error stop => exact hby.ends stop hr
  | .ok (t, events) =>
      obtain ⟨htyped, hfitting⟩ := hby.typed hr
      obtain ⟨ts, hts, horigins⟩ := htyped []
      have hone : AllOnce ts := fun k hk => by
        have hmem : k.origin ∈ origins events := horigins ▸ List.mem_map_of_mem hk
        obtain ⟨typing, htyping, heq⟩ := List.mem_map.mp hmem
        have hcap : typing.1 = k.cap := congrArg Prod.fst heq
        exact hcap ▸ (hfitting typing htyping).1
      have hbelow := takesBelow l.cap _ _ _ _ hts hone
      have hchecked : Checked l.cap := .inr (makeLetStmt_ok.mp hvars).1.1
      refine ⟨ts, hts, horigins, ?_, ?_, hbelow.nodup,
        fun typing htyping => (hfitting typing htyping).2⟩
      · intro types htypes
        obtain ⟨bound, hok, htaken, -⟩ :=
          bindsTakings types hchecked [] [] t ts hts fun k _ x _ => htypes x
        exact ⟨bound, hok, htaken⟩
      · intro k hk
        obtain ⟨q, hq, hc⟩ := hbelow.exist k hk
        rw [hq]
        exact hc

theorem capatternCheckGetType_ends (vars : Nat → Option Ty) (cap : CAPattern)
    (post : Option Ty) : Ends (capatternCheckGetType Γ vars cap post) := by
  apply (catypeFromCapattern_ends vars cap).bind
  intro t _
  match t, post with
  | some t, none | none, none => exact .ok _
  | none, some post => exact .ok _
  | some t, some post =>
      simp only
      split
      · exact .ok _
      · exact .exit

/-- **In good meetings a `let` is placed.** -/
theorem LetStmt.placed_of_good (h : ∀ m, l.Meets Γ X m → m.Good) : l.Placed Γ X := by
  apply placed_of_placedBy
  intro vars hvars
  have hcheck : capatternCheckIgnore l.cap := (makeLetStmt_ok.mp hvars).1.1
  have hvisits : ∀ v m, l.Visits Γ X v → v.meeting Γ X = some m → m.Good :=
    fun v m hv hm => h m ⟨v, hv, hm⟩
  have hends := capatternCheckGetType_ends (Γ := Γ) vars l.cap l.post
  unfold typeLetbind
  match ht : capatternCheckGetType Γ vars l.cap l.post with
  | .error stop =>
      cases hends stop ht
      exact ⟨.exit, nofun⟩
  | .ok (some t) =>
      have hset : Settled Γ l.cap t := settled_of_goodAlong (.inr hcheck) fun q u m hr hm =>
        hvisits (.along q u) m ⟨vars, hvars, by rw [ht]; exact ⟨q, u, hr, rfl⟩⟩ hm
      match l.init with
      | none => exact .along hset
      | some e =>
          refine ⟨(hset [] []).ends.bind ?_, fun {u events} hok => ?_⟩
          · intro events _
            split
            · exact .ok _
            · exact .exit
          · obtain ⟨_, ⟨⟩, hok⟩ := except_bind_eq_ok hok
            obtain ⟨events', hr, hok⟩ := except_bind_eq_ok hok
            split at hok
            · cases hok
              exact ⟨hset.typedFrom hr, hset.fitting hr⟩
            · cases hok
  | .ok none =>
      match hinit : l.init with
      | none => exact ⟨.exit, nofun⟩
      | some e =>
          have hmatch : Matches Γ l.cap [] (inferenceLetbindTypeBothSide Γ X vars l.cap [] e) :=
            matches_of_goodBoth hcheck (fun v m hv hm =>
              hvisits v m ⟨vars, hvars, by rw [ht, hinit]; exact hv⟩ hm) vars []
          exact ⟨hmatch.ends, fun hok => ⟨(hmatch.typed hok).own, (hmatch.typed hok).fitting⟩⟩

end

end CaLang.Patterns
