import CaLang.Shielding.Parse

/-! # What the parser registers

`sites t s x` are the bindings of `x` in table `s`, oldest first.  A let appends one binding for
each name of its pattern; a block appends to its own table and to tables it makes, and leaves
every other table as it was (`Block.parse_frame`).
-/

namespace CaLang.Shielding

variable {τ : Type} {typeOf : Site → τ}

/-- The bindings of a name in a table, oldest first. -/
def sites (t : Tables τ) (s : ScopeId) (x : Name) : List Site :=
  match t s x with
  | none => []
  | some r => r.toList.map (·.site)

theorem sites_ne_nil (t : Tables τ) (s : ScopeId) (x : Name) :
    sites t s x ≠ [] ↔ (t s x).isSome := by
  unfold sites
  cases t s x <;> simp

theorem sites_set (t : Tables τ) (s : ScopeId) (x : Name) (r : CAVariableShielding τ)
    (s' : ScopeId) (x' : Name) :
    sites (t.set s x r) s' x' =
      if s' = s ∧ x' = x then r.toList.map (·.site) else sites t s' x' := by
  unfold sites Tables.set
  by_cases h : s' = s ∧ x' = x <;> simp [h]

theorem sites_registerVariable (s : ScopeId) (v : CAVariable τ) (x : Name) (t : Tables τ)
    (s' : ScopeId) (x' : Name) :
    sites (registerVariable s v x t) s' x' =
      sites t s' x' ++ if s' = s ∧ x' = x then [v.site] else [] := by
  unfold registerVariable
  split
  · rename_i sh hsh
    rw [sites_set]
    by_cases h : s' = s ∧ x' = x
    · obtain ⟨rfl, rfl⟩ := h
      simp [sites, hsh]
    · simp [h]
  · rename_i hnone
    rw [sites_set]
    by_cases h : s' = s ∧ x' = x
    · obtain ⟨rfl, rfl⟩ := h
      simp [sites, hnone, Ring.toList]
    · simp [h]

/-! ### Patterns -/

mutual
@[simp] theorem CAPattern.bindings_fst (p : CAPattern τ) (d : Option τ) :
    (p.bindings d).map Prod.fst = p.names := by
  cases p with
  | var name morebind => simp [CAPattern.bindings, CAPattern.names, Function.comp_def]
  | array morebind items =>
      simp [CAPattern.bindings, CAPattern.names, Function.comp_def, itemBindings_fst items]
  | genTuple morebind items =>
      simp [CAPattern.bindings, CAPattern.names, Function.comp_def, itemBindings_fst items]
  | named type morebind items =>
      simp [CAPattern.bindings, CAPattern.names, Function.comp_def, itemBindings_fst items]
  | ignoreOne morebind => rfl
  | ignoreRange => rfl
theorem itemBindings_fst (ps : List (CAPattern τ)) :
    (itemBindings ps).map Prod.fst = itemNames ps := by
  cases ps with
  | nil => rfl
  | cons p ps => simp [itemBindings, itemNames, p.bindings_fst, itemBindings_fst ps]
end

variable (typeOf) in
theorem foldlM_register_isSome (s : ScopeId) (id : Nat) (bs : List (Name × Option τ))
    (st : Tables τ × List Name) :
    (bs.foldlM (capatternRegisterVariable typeOf s id) st).isSome ↔
      (bs.map Prod.fst).Nodup ∧ ∀ x ∈ bs.map Prod.fst, x ∉ st.2 := by
  induction bs generalizing st with
  | nil => simp
  | cons b bs ih =>
      rw [List.foldlM_cons]
      by_cases hb : b.1 ∈ st.2
      · simp [capatternRegisterVariable, hb]
      · simp only [capatternRegisterVariable, hb, if_false, Option.bind_eq_bind,
          Option.bind_some, ih, List.map_cons, List.nodup_cons, List.mem_cons, not_or]
        constructor
        · rintro ⟨hn, hd⟩
          refine ⟨⟨fun hm => (hd _ hm).1 rfl, hn⟩, ?_⟩
          rintro x (rfl | hx)
          · exact hb
          · exact (hd x hx).2
        · rintro ⟨⟨hm, hn⟩, hd⟩
          exact ⟨hn, fun x hx => ⟨fun h => hm (h ▸ hx), hd x (.inr hx)⟩⟩

theorem foldlM_register_sites (s : ScopeId) (id : Nat) (bs : List (Name × Option τ))
    (st st' : Tables τ × List Name)
    (h : bs.foldlM (capatternRegisterVariable typeOf s id) st = some st') (s' : ScopeId)
    (x : Name) :
    sites st'.1 s' x =
      sites st.1 s' x ++ if s' = s ∧ x ∈ bs.map Prod.fst then [.letbind id x] else [] := by
  induction bs generalizing st with
  | nil => simp at h; simp [h]
  | cons b bs ih =>
      have hd := (foldlM_register_isSome typeOf s id (b :: bs) st).mp (by simp [h])
      have hm : b.1 ∉ bs.map Prod.fst := (List.nodup_cons.mp hd.1).1
      have hb : b.1 ∉ st.2 := hd.2 b.1 (by simp)
      rw [List.foldlM_cons] at h
      simp only [capatternRegisterVariable, hb, if_false, Option.bind_eq_bind,
        Option.bind_some] at h
      rw [ih _ h, sites_registerVariable]
      rw [List.append_assoc]
      congr 1
      by_cases hx : x = b.1
      · subst hx
        simp [hm]
      · simp only [hx, and_false, if_false, List.nil_append, List.map_cons, List.mem_cons,
          false_or]

/-- **A let appends one binding for each name of its pattern.** -/
theorem sites_registerCapatternSymtable {s : ScopeId} {id : Nat} {datatype : Option τ}
    {cap : CAPattern τ} {t t' : Tables τ}
    (h : registerCapatternSymtable typeOf s id datatype cap t = some t') (s' : ScopeId) (x : Name) :
    sites t' s' x = sites t s' x ++ if s' = s ∧ x ∈ cap.names then [.letbind id x] else [] := by
  obtain ⟨st, hst, rfl⟩ := Option.map_eq_some_iff.mp h
  rw [foldlM_register_sites s id _ _ _ hst, CAPattern.bindings_fst]

theorem registerCapatternSymtable_nodup {s : ScopeId} {id : Nat} {datatype : Option τ}
    {cap : CAPattern τ} {t t' : Tables τ}
    (h : registerCapatternSymtable typeOf s id datatype cap t = some t') : cap.names.Nodup := by
  obtain ⟨st, hst, rfl⟩ := Option.map_eq_some_iff.mp h
  have hd := (foldlM_register_isSome typeOf s id (cap.bindings datatype) (t, [])).mp (by simp [hst])
  simpa using hd.1

variable (typeOf) in
theorem registerCapatternSymtable_isSome (s : ScopeId) (id : Nat) (datatype : Option τ)
    (cap : CAPattern τ) (t : Tables τ) (h : cap.names.Nodup) :
    ∃ t', registerCapatternSymtable typeOf s id datatype cap t = some t' := by
  have hd := (foldlM_register_isSome typeOf s id (cap.bindings datatype) (t, [])).mpr
    (by simpa using h)
  obtain ⟨st, hst⟩ := Option.isSome_iff_exists.mp hd
  exact ⟨st.1, by simp [registerCapatternSymtable, hst]⟩

/-! ### Blocks -/

/-- Every variable in the tables satisfies `P`. -/
def AllVars (P : CAVariable τ → Prop) (t : Tables τ) : Prop :=
  ∀ s x r, t s x = some r → ∀ v ∈ r.toList, P v

/-- A variable as a let or a `for` registers it. -/
structure CAVariable.Registered (typeOf : Site → τ) (v : CAVariable τ) : Prop where
  value : v.llvmValue = none
  type : v.datatype = none ∨ v.datatype = some (typeOf v.site)
  site : (∃ id x, v.site = .letbind id x) ∨ ∃ id x, v.site = .loopvar id x

variable (typeOf) in
theorem registered_letbind (id : Nat) (b : Name × Option τ) :
    CAVariable.Registered typeOf
      ⟨.letbind id b.1, b.2.map fun _ => typeOf (.letbind id b.1), none⟩ := by
  refine ⟨rfl, ?_, .inl ⟨id, b.1, rfl⟩⟩
  cases b.2 with
  | none => exact .inl rfl
  | some type => exact .inr rfl

theorem allVars_set {P : CAVariable τ → Prop} {t : Tables τ} (h : AllVars P t) (s : ScopeId)
    (x : Name) (r : CAVariableShielding τ) (hr : ∀ v ∈ r.toList, P v) :
    AllVars P (t.set s x r) := by
  intro s' x' r' hr'
  unfold Tables.set at hr'
  split at hr'
  · cases hr'
    exact hr
  · exact h s' x' r' hr'

theorem allVars_registerVariable {P : CAVariable τ → Prop} {t : Tables τ} (h : AllVars P t)
    (s : ScopeId) {v : CAVariable τ} (hv : P v) (x : Name) :
    AllVars P (registerVariable s v x t) := by
  unfold registerVariable
  split
  · rename_i sh hsh
    apply allVars_set h s x _
    intro u hu
    rw [Ring.toList_push, List.mem_append, List.mem_singleton] at hu
    rcases hu with hu | rfl
    · exact h s x sh hsh u hu
    · exact hv
  · apply allVars_set h s x _
    intro u hu
    obtain rfl : u = v := by simpa [Ring.toList] using hu
    exact hv

theorem allVars_registerCapatternSymtable {P : CAVariable τ → Prop} {s : ScopeId} {id : Nat}
    {datatype : Option τ} {cap : CAPattern τ} {t t' : Tables τ}
    (hP : ∀ v, v.Registered typeOf → P v)
    (h : AllVars P t) (ht : registerCapatternSymtable typeOf s id datatype cap t = some t') :
    AllVars P t' := by
  obtain ⟨st, hst, rfl⟩ := Option.map_eq_some_iff.mp ht
  have aux : ∀ (bs : List (Name × Option τ)) (st₀ : Tables τ × List Name), AllVars P st₀.1 →
      bs.foldlM (capatternRegisterVariable typeOf s id) st₀ = some st → AllVars P st.1 := by
    intro bs
    induction bs with
    | nil =>
        intro st₀ h₀ hf
        cases hf
        exact h₀
    | cons b bs ih =>
        intro st₀ h₀ hf
        simp only [List.foldlM_cons, Option.bind_eq_bind, Option.bind_eq_some_iff] at hf
        obtain ⟨st₁, h₁, h₂⟩ := hf
        unfold capatternRegisterVariable at h₁
        split at h₁
        · cases h₁
        · cases h₁
          exact ih _ (allVars_registerVariable h₀ s
            (hP _ (registered_letbind typeOf id b)) b.1) h₂
  exact aux _ _ h hst

/-- The tables grow from `ps` to `ps'` while table `s` is open: it gains bindings of exactly the
names `xs`, the other tables that existed do not change, and what holds of the variables that
lets and loops register goes on holding. -/
structure Frame (typeOf : Site → τ) (s : ScopeId) (xs : List Name) (ps ps' : Parser τ) : Prop where
  next_le : ps.next ≤ ps'.next
  other : ∀ s' x, s' < ps.next → s' ≠ s → sites ps'.tables s' x = sites ps.tables s' x
  own : ∀ x, ∃ new, sites ps'.tables s x = sites ps.tables s x ++ new ∧ (new ≠ [] ↔ x ∈ xs)
  later : ∀ s' x, ps'.next ≤ s' → s' ≠ s → sites ps'.tables s' x = sites ps.tables s' x
  vars : ∀ P : CAVariable τ → Prop, (∀ v, v.Registered typeOf → P v) → AllVars P ps.tables →
    AllVars P ps'.tables

variable (typeOf) in
theorem Frame.refl (s : ScopeId) (ps : Parser τ) : Frame typeOf s [] ps ps :=
  ⟨le_rfl, fun _ _ _ _ => rfl, fun _ => ⟨[], by simp, by simp⟩, fun _ _ _ _ => rfl,
    fun _ _ h => h⟩

theorem Frame.trans {s : ScopeId} {xs ys : List Name} {ps ps₁ ps₂ : Parser τ}
    (h₁ : Frame typeOf s xs ps ps₁) (h₂ : Frame typeOf s ys ps₁ ps₂) :
    Frame typeOf s (xs ++ ys) ps ps₂ := by
  refine ⟨h₁.next_le.trans h₂.next_le, ?_, ?_, ?_,
    fun P hP h => h₂.vars P hP (h₁.vars P hP h)⟩
  · intro s' x hs hne
    rw [h₂.other s' x (hs.trans_le h₁.next_le) hne, h₁.other s' x hs hne]
  · intro x
    obtain ⟨n₁, e₁, i₁⟩ := h₁.own x
    obtain ⟨n₂, e₂, i₂⟩ := h₂.own x
    refine ⟨n₁ ++ n₂, by rw [e₂, e₁, List.append_assoc], ?_⟩
    rw [List.mem_append, ← i₁, ← i₂, Ne, List.append_eq_nil_iff, not_and_or]
  · intro s' x hs hne
    rw [h₂.later s' x hs hne, h₁.later s' x (h₂.next_le.trans hs) hne]

/-- A body parsed in a table of its own changes no table that existed. -/
theorem Frame.closed {s : ScopeId} {xs : List Name} {ps ps' : Parser τ}
    (h : Frame typeOf ps.next xs ps.push ps') (hs : s < ps.next) : Frame typeOf s [] ps ps' := by
  have hnext : ps.next < ps'.next := h.next_le
  refine ⟨hnext.le, ?_, ?_, ?_, h.vars⟩
  · intro s' x hs' _
    exact h.other s' x (Nat.lt_succ_of_lt hs') hs'.ne
  · intro x
    exact ⟨[], by simpa [Parser.push] using h.other s x (Nat.lt_succ_of_lt hs) hs.ne, by simp⟩
  · intro s' x hs' _
    exact h.later s' x hs' (hnext.trans_le hs').ne'

theorem makeLetStmt_frame {s : ScopeId} {id : Nat} {datatype : Option τ} {cap : CAPattern τ}
    {ps ps' : Parser τ} (h : makeLetStmt typeOf s id datatype cap ps = some ps') :
    Frame typeOf s cap.names ps ps' := by
  obtain ⟨t, ht, rfl⟩ := Option.map_eq_some_iff.mp h
  have hsites := sites_registerCapatternSymtable ht
  refine ⟨le_rfl, ?_, ?_, ?_, ?_⟩
  · intro s' x _ hne
    simp [hsites, hne]
  · intro x
    refine ⟨_, hsites s x, ?_⟩
    by_cases hx : x ∈ cap.names <;> simp [hx]
  · intro s' x _ hne
    simp [hsites, hne]
  · intro P hP h
    exact allVars_registerCapatternSymtable hP h ht

variable (typeOf) in
theorem makeForVarEntry_frame (s : ScopeId) (id : Nat) (x : Name) (ps : Parser τ) :
    Frame typeOf s [x] ps (makeForVarEntry s id x ps) := by
  have hsites : ∀ s' y, sites (makeForVarEntry s id x ps).tables s' y =
      sites ps.tables s' y ++ if s' = s ∧ y = x then [.loopvar id x] else [] :=
    fun s' y => sites_registerVariable s _ x ps.tables s' y
  refine ⟨le_rfl, ?_, ?_, ?_, ?_⟩
  · intro s' y _ hne
    simp [hsites, hne]
  · intro y
    refine ⟨_, hsites s y, ?_⟩
    by_cases hy : y = x <;> simp [hy]
  · intro s' y _ hne
    simp [hsites, hne]
  · intro P hP h
    exact allVars_registerVariable h s (hP _ ⟨rfl, .inl rfl, .inr ⟨id, x, rfl⟩⟩) x

mutual
/-- **A block changes its own table and the tables it makes.** -/
theorem Block.parse_frame {s : ScopeId} {st : SymTable} (b : Block τ Name Unit) {ps : Parser τ}
    {b' : Block τ STEntry SymTable} {ps' : Parser τ} (hs : s < ps.next)
    (h : b.parse typeOf s st ps = some (b', ps')) : Frame typeOf s b.names ps ps' := by
  cases b with
  | nil =>
      cases h
      exact .refl typeOf s ps
  | letbind id note cap datatype init rest =>
      simp only [Block.parse, Option.bind_eq_bind, Option.bind_eq_some_iff] at h
      obtain ⟨init', -, ps₁, h₁, ⟨b₂, ps₂⟩, h₂, h⟩ := h
      cases h
      have f₁ := makeLetStmt_frame h₁
      exact f₁.trans (rest.parse_frame (hs.trans_le f₁.next_le) h₂)
  | expr e rest =>
      simp only [Block.parse, Option.bind_eq_bind, Option.bind_eq_some_iff] at h
      obtain ⟨e', -, ⟨b₂, ps₂⟩, h₂, h⟩ := h
      cases h
      exact rest.parse_frame hs h₂
  | assign left right rest =>
      simp only [Block.parse, Option.bind_eq_bind, Option.bind_eq_some_iff] at h
      obtain ⟨l', -, e', -, ⟨b₂, ps₂⟩, h₂, h⟩ := h
      cases h
      exact rest.parse_frame hs h₂
  | drop note node x rest =>
      simp only [Block.parse, Option.bind_eq_bind, Option.bind_eq_some_iff] at h
      obtain ⟨⟨b₂, ps₂⟩, h₂, h⟩ := h
      cases h
      exact rest.parse_frame hs h₂
  | block body rest =>
      simp only [Block.parse, Option.bind_eq_bind, Option.bind_eq_some_iff] at h
      obtain ⟨⟨b₁, ps₁⟩, h₁, ⟨b₂, ps₂⟩, h₂, h⟩ := h
      cases h
      have f₁ := (body.parse_frame (Nat.lt_succ_self ps.next) h₁).closed hs
      exact f₁.trans (rest.parse_frame (hs.trans_le f₁.next_le) h₂)
  | loop body rest =>
      simp only [Block.parse, Option.bind_eq_bind, Option.bind_eq_some_iff] at h
      obtain ⟨⟨b₁, ps₁⟩, h₁, ⟨b₂, ps₂⟩, h₂, h⟩ := h
      cases h
      have f₁ := (body.parse_frame (Nat.lt_succ_self ps.next) h₁).closed hs
      exact f₁.trans (rest.parse_frame (hs.trans_le f₁.next_le) h₂)
  | «while» cond body rest =>
      simp only [Block.parse, Option.bind_eq_bind, Option.bind_eq_some_iff] at h
      obtain ⟨c', -, r₁, h₁, ⟨b₂, ps₂⟩, h₂, h⟩ := h
      cases h
      have f₁ := (body.parse_frame (Nat.lt_succ_self ps.next) h₁).closed hs
      exact f₁.trans (rest.parse_frame (hs.trans_le f₁.next_le) h₂)
  | «for» id note x list body rest =>
      simp only [Block.parse, Option.bind_eq_bind, Option.bind_eq_some_iff] at h
      obtain ⟨l', -, r₁, h₁, ⟨b₂, ps₂⟩, h₂, h⟩ := h
      cases h
      have f₀ := makeForVarEntry_frame typeOf ps.next id x ps.push
      have f₁ := (body.parse_frame (Nat.lt_succ_self _) h₁).closed
        (s := ps.next) (Nat.lt_succ_self ps.next)
      have f₂ := (f₀.trans f₁).closed hs
      exact f₂.trans (rest.parse_frame (hs.trans_le f₂.next_le) h₂)
  | ifs arms rest =>
      simp only [Block.parse, Option.bind_eq_bind, Option.bind_eq_some_iff] at h
      obtain ⟨⟨b₁, ps₁⟩, h₁, ⟨b₂, ps₂⟩, h₂, h⟩ := h
      cases h
      have f₁ := arms.parse_frame hs h₁
      exact f₁.trans (rest.parse_frame (hs.trans_le f₁.next_le) h₂)
theorem Arms.parse_frame {s : ScopeId} {st : SymTable} (a : Arms τ Name Unit) {ps : Parser τ}
    {a' : Arms τ STEntry SymTable} {ps' : Parser τ} (hs : s < ps.next)
    (h : a.parse typeOf s st ps = some (a', ps')) : Frame typeOf s [] ps ps' := by
  cases a with
  | done =>
      cases h
      exact .refl typeOf s ps
  | orelse body =>
      simp only [Arms.parse, Option.bind_eq_bind, Option.bind_eq_some_iff] at h
      obtain ⟨⟨b₁, ps₁⟩, h₁, h⟩ := h
      cases h
      exact (body.parse_frame (Nat.lt_succ_self ps.next) h₁).closed hs
  | arm cond body more =>
      simp only [Arms.parse, Option.bind_eq_bind, Option.bind_eq_some_iff] at h
      obtain ⟨c', -, r₁, h₁, ⟨b₂, ps₂⟩, h₂, h⟩ := h
      cases h
      have f₁ := (body.parse_frame (Nat.lt_succ_self ps.next) h₁).closed hs
      exact f₁.trans (more.parse_frame (hs.trans_le f₁.next_le) h₂)
end

end CaLang.Shielding
