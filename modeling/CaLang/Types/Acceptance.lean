import CaLang.Types.Written

/-! # Which definitions are accepted

The reference graph has the declarations as nodes and an edge for each name in a declaration, by
value or behind a pointer. A set of declarations is finite when no reachable cycle is by value
throughout and none consists of aliases alone.

**The unwinder accepts a finite set of declarations exactly when it can read its texts, no chain of
open declarations mentions one of its aliases again, and the type written out in full is short.**
`prenamemap` holds null for an alias, and meeting that null ends the compiler, also behind a pointer
and inside a struct. So the verdict on a finite set depends on the name the lookup starts from
(`accepts_depends_on_start`). A name has at most 127 characters, and a type written out in full at
most 1021: a longer one overruns a buffer.

- `Finite`, `Readable`, `AliasAgain`, `Short`: the conditions on the graph;
- `succeeds_iff_finite_iff`: when the verdict of the unwinder is finiteness.
-/

namespace CaLang.Types

variable {tabs : SymTables} {st : Scope} {t : TypeExpr}

/-- With enough fuel the unwinding returns. -/
def Succeeds (tabs : SymTables) (st : Scope) (t : TypeExpr) : Prop :=
  ∃ r, Settles (fun fuel => catypeUnwindTypeSignature tabs fuel st t.text) (.ok r)

theorem succeeds_iff (ht : t.isSource = true) :
    Succeeds tabs st t ↔ (unwindType tabs st t).isSome := by
  have h := catypeUnwindTypeSignature_settles tabs st (t.isText_of_isSource ht)
  constructor
  · rintro ⟨r, hr⟩
    have heq := h.unique hr
    cases hx : unwindType tabs st t with
    | none =>
        rw [hx] at heq
        cases heq
    | some D => rfl
  · intro hs
    obtain ⟨D, hD⟩ := Option.isSome_iff_exists.mp hs
    rw [hD] at h
    exact ⟨_, h⟩

/-! ### The reference graph -/

def STEntry.isAlias (e : STEntry) : Bool :=
  match e.body with
  | .alias _ => true
  | .struct _ _ => false

/-- The declaration of `e` mentions `e'`, behind a pointer or by value. -/
def Refers (tabs : SymTables) (ptr : Bool) (e e' : STEntry) : Prop :=
  ∃ n, (n, ptr) ∈ e.body.mentions ∧ Resolves tabs e.idtable n e'

/-- An edge of the reference graph. -/
def Edge (tabs : SymTables) (e e' : STEntry) : Prop := ∃ ptr, Refers tabs ptr e e'

/-- An edge out of an alias. -/
def AliasEdge (tabs : SymTables) (e e' : STEntry) : Prop := e.isAlias = true ∧ Edge tabs e e'

/-- The looked up expression mentions `e`. -/
def Starts (tabs : SymTables) (st : Scope) (t : TypeExpr) (e : STEntry) : Prop :=
  ∃ m ∈ t.mentions false, Resolves tabs st m.1 e

def Reachable (tabs : SymTables) (st : Scope) (t : TypeExpr) (e : STEntry) : Prop :=
  ∃ e₀, Starts tabs st t e₀ ∧ Relation.ReflTransGen (Edge tabs) e₀ e

/-- No reachable cycle consists of by-value edges, and none of aliases. -/
structure Finite (tabs : SymTables) (st : Scope) (t : TypeExpr) : Prop where
  byValue : ∀ e, Reachable tabs st t e → ¬ Relation.TransGen (Refers tabs false) e e
  aliases : ∀ e, Reachable tabs st t e → ¬ Relation.TransGen (AliasEdge tabs) e e

/-- The declarations have different names, and every name that is mentioned is declared. -/
structure WellNamed (tabs : SymTables) (st : Scope) (t : TypeExpr) : Prop where
  unique : (tabs.entries.map STEntry.name).Nodup
  start : ∀ m ∈ t.mentions false,
    (catypeGetPrimitiveByName m.1).isSome ∨ (tabs.symGettypesymByName st m.1).isSome
  closed : ∀ e ∈ tabs.entries, ∀ m ∈ e.body.mentions,
    (catypeGetPrimitiveByName m.1).isSome ∨ (tabs.symGettypesymByName e.idtable m.1).isSome

/-- The texts that are reached can be read: every name starts with a letter and has at most 127
characters, and every array length is an `int` that is not negative. -/
structure Readable (tabs : SymTables) (st : Scope) (t : TypeExpr) : Prop where
  lens : t.lensOk = true
  names : ∀ m ∈ t.mentions false, ReadableName m.1
  reached : ∀ e, Reachable tabs st t e → e.body.lensOk = true ∧
    ∀ m ∈ e.body.mentions, ReadableName m.1

/-- A chain of different declarations, each mentioned in the one before; the last one first. -/
inductive Chain (tabs : SymTables) (st : Scope) (t : TypeExpr) : List STEntry → Prop
  | start {e : STEntry} (h : Starts tabs st t e) : Chain tabs st t [e]
  | next {e e' : STEntry} {l : List STEntry} (h : Chain tabs st t (e :: l)) (he : Edge tabs e e')
      (hne : e' ∉ e :: l) : Chain tabs st t (e' :: e :: l)

/-- The end of a chain mentions an alias that is on the chain. -/
def AliasAgain (tabs : SymTables) (st : Scope) (t : TypeExpr) : Prop :=
  ∃ e l a, Chain tabs st t (e :: l) ∧ Edge tabs e a ∧ a ∈ e :: l ∧ a.isAlias = true

/-! ### The trail of a visit in the graph -/

theorem nameEntry_eq_alias {e : STEntry} : e.nameEntry = .alias ↔ e.isAlias = true := by
  unfold STEntry.nameEntry STEntry.isAlias
  cases e.body <;> simp

section Trails

variable {l : List STEntry} {v : Visit} {e x : STEntry}

/-- The innermost open declaration mentions what is visited. -/
theorem Trail.edge (h : Trail tabs st t (e :: l) v) (hx : Resolves tabs v.table v.name x) :
    Edge tabs e x := by
  cases h with
  | @step _ _ _ m _ _ hm => exact ⟨m.2, m.1, hm, hx⟩

theorem Trail.chain (h : Trail tabs st t (e :: l) v) : Chain tabs st t (e :: l) := by
  cases h with
  | @step _ v₀ _ m h₀ he hm =>
      induction h₀ generalizing e m with
      | start hm₀ => exact .start ⟨_, hm₀, .of_expand he⟩
      | @step l v₁ a m₁ h₁ ha hm₁ ih =>
          refine .next (ih ha hm₁) ⟨m₁.2, m₁.1, hm₁, .of_expand he⟩ ?_
          intro hmem
          have hlookup := (h₁.step ha hm₁).lookup_of_mem hmem
          rw [nameVerdict_expand_fresh he] at hlookup
          cases hlookup

theorem Trail.reachable (h : Trail tabs st t l v) (hx : Resolves tabs v.table v.name x) :
    Reachable tabs st t x := by
  induction h generalizing x with
  | start hm => exact ⟨x, ⟨_, hm, hx⟩, .refl⟩
  | @step l v e m h he hm ih =>
      obtain ⟨e₀, h₀, hr⟩ := ih (.of_expand he)
      exact ⟨e₀, h₀, hr.tail ⟨m.2, m.1, hm, hx⟩⟩

/-- A name in `rcheckset` belongs to an open declaration that contains what is visited by value. -/
theorem Trail.rcheckset (h : Trail tabs st t l v) {n : Name} (hn : n ∈ v.ctx.rcheckset)
    (hx : Resolves tabs v.table v.name x) :
    ∃ e ∈ l, e.name = n ∧ Relation.TransGen (Refers tabs false) e x := by
  induction h generalizing x with
  | @start m hm => cases hm₂ : m.2 <;> simp [hm₂, UnwindCtx.at, UnwindCtx.empty,
      UnwindCtx.fresh] at hn
  | @step l v e m h he hm ih =>
      obtain ⟨y, ptr⟩ := m
      cases ptr with
      | true => simp [UnwindCtx.at, UnwindCtx.fresh] at hn
      | false =>
          have hedge : Refers tabs false e x := ⟨y, hm, hx⟩
          rw [UnwindCtx.at_false, STEntry.ctx] at hn
          rcases List.mem_cons.mp hn with rfl | hn
          · exact ⟨e, List.mem_cons_self .., rfl, .single hedge⟩
          · obtain ⟨a, ha, hname, hr⟩ := ih hn (.of_expand he)
            exact ⟨a, List.mem_cons_of_mem _ ha, hname, hr.tail hedge⟩

end Trails

/-! ### Finite, readable declarations without a repeated alias are accepted -/

section Accepted

theorem WellNamed.eq_of_name (hw : WellNamed tabs st t) {e e' : STEntry} (he : e ∈ tabs.entries)
    (he' : e' ∈ tabs.entries) (h : e.name = e'.name) : e = e' :=
  List.inj_on_of_nodup_map hw.unique he he' h

/-- Declarations with different names are hygienic. -/
theorem WellNamed.clean (hw : WellNamed tabs st t) : Clean tabs st t :=
  fun _ _ h _ hx _ ha hname =>
    hw.eq_of_name (h.mem_entries ha) hx.mem (hname.trans hx.name_eq.symm)

/-- What a visited name is known as. -/
theorem WellNamed.known (hw : WellNamed tabs st t) {l : List STEntry} {v : Visit}
    (h : Trail tabs st t l v) :
    (catypeGetPrimitiveByName v.name).isSome ∨ ∃ e, Resolves tabs v.table v.name e := by
  have hknown : (catypeGetPrimitiveByName v.name).isSome ∨
      (tabs.symGettypesymByName v.table v.name).isSome := by
    cases h with
    | start hm => exact hw.start _ hm
    | step h he hm => exact hw.closed _ (nameVerdict_expand_mem he) _ hm
  cases hp : catypeGetPrimitiveByName v.name with
  | some p => exact .inl rfl
  | none =>
      rw [hp] at hknown
      obtain ⟨e, he⟩ := Option.isSome_iff_exists.mp (hknown.resolve_left (by simp))
      exact .inr ⟨e, hp, he⟩

theorem Readable.visit (hr : Readable tabs st t) {l : List STEntry} {v : Visit}
    (h : Trail tabs st t l v) : ReadableName v.name := by
  cases h with
  | start hm => exact hr.names _ hm
  | step h he hm => exact (hr.reached _ (h.reachable (.of_expand he))).2 _ hm

theorem passes_of_finite (hw : WellNamed tabs st t) (hf : Finite tabs st t)
    (hr : Readable tabs st t) (ha : ¬ AliasAgain tabs st t) {l : List STEntry} {v : Visit}
    (h : Trail tabs st t l v) : v.Passes tabs := by
  refine ⟨?_, fun e he => (hr.reached e (h.reachable (.of_expand he))).1⟩
  intro hstop
  rcases nameVerdict_eq_stop.mp hstop with hname | ⟨hprim, hsym⟩
  · exact hname (hr.visit h)
  · obtain ⟨x, hx⟩ := (hw.known h).resolve_left (by simp [hprim])
    rcases hsym x hx.2 with hset | hmap
    · obtain ⟨e, he, hname, hcycle⟩ := h.rcheckset hset hx
      obtain rfl := hw.eq_of_name (h.mem_entries he) hx.mem (hname.trans hx.name_eq.symm)
      exact hf.byValue e (h.reachable hx) hcycle
    · obtain ⟨e, he, hname, hnull⟩ := h.lookup_eq_some hmap
      obtain rfl := hw.eq_of_name (h.mem_entries he) hx.mem (hname.trans hx.name_eq.symm)
      cases l with
      | nil => cases he
      | cons a l => exact ha ⟨a, l, e, h.chain, h.edge hx, he, nameEntry_eq_alias.mp hnull⟩

end Accepted

/-! ### Accepted declarations are finite, readable and repeat no alias -/

section Necessary

variable {l : List STEntry} {v : Visit} {e x : STEntry}

/-- The verdict on a name that passes. -/
theorem Trail.verdict (h : Trail tabs st t l v) (hp : v.Passes tabs)
    (hx : Resolves tabs v.table v.name x) :
    nameVerdict tabs v.table v.ctx v.name = .expand x ∨
      v.name ∉ v.ctx.rcheckset ∧ ∃ e ∈ l, e.name = x.name ∧ e.isAlias = false := by
  have hstop := nameVerdict_eq_stop.not.mp hp.1
  rw [not_or, not_not] at hstop
  obtain ⟨hname, hsym⟩ := hstop
  have hno : v.name ∉ v.ctx.rcheckset ∧ v.ctx.prenamemap.lookup v.name ≠ some .alias := by
    rw [← not_or]
    intro hor
    refine hsym ⟨hx.1, ?_⟩
    intro e he
    exact hor
  cases hm : v.ctx.prenamemap.lookup v.name with
  | none => exact .inl (nameVerdict_eq_expand.mpr ⟨hname, hx.1, hx.2, hno.1, hm⟩)
  | some y =>
      obtain ⟨e, he, hen, hy⟩ := h.lookup_eq_some hm
      refine .inr ⟨hno.1, e, he, hen.trans hx.name_eq.symm, ?_⟩
      rw [Bool.eq_false_iff]
      intro halias
      rw [nameEntry_eq_alias.mpr halias] at hy
      exact hno.2 (hy ▸ hm)

/-- All names that are visited pass. -/
def AllPass (tabs : SymTables) (st : Scope) (t : TypeExpr) : Prop :=
  ∀ l v, Trail tabs st t l v → v.Passes tabs

/-- Every reachable declaration is expanded at some visit. -/
theorem AllPass.expanded (hp : AllPass tabs st t) (hw : WellNamed tabs st t)
    (he : Reachable tabs st t e) :
    ∃ l v, Trail tabs st t l v ∧ nameVerdict tabs v.table v.ctx v.name = .expand e := by
  obtain ⟨e₀, ⟨m, hm, hres⟩, hr⟩ := he
  induction hr with
  | refl =>
      have htrail : Trail tabs st t [] _ := .start hm
      rcases htrail.verdict (hp _ _ htrail) hres with hv | ⟨-, a, ha, -⟩
      · exact ⟨_, _, htrail, hv⟩
      · cases ha
  | @tail e e' _ hedge ih =>
      obtain ⟨l, v, hl, hv⟩ := ih
      obtain ⟨ptr, n, hn, hres'⟩ := hedge
      have htrail := hl.step hv hn
      rcases htrail.verdict (hp _ _ htrail) hres' with hv' | ⟨-, a, ha, hname, -⟩
      · exact ⟨_, _, htrail, hv'⟩
      · obtain rfl := hw.eq_of_name (htrail.mem_entries ha) hres'.mem hname
        obtain ⟨l', v', hl', -, -, hv'⟩ := htrail.expanded ha
        exact ⟨l', v', hl', hv'⟩

theorem AllPass.readable (hp : AllPass tabs st t) (hw : WellNamed tabs st t)
    (hl : t.lensOk = true) : Readable tabs st t := by
  have hname : ∀ l v, Trail tabs st t l v → ReadableName v.name := by
    intro l v h
    by_contra hne
    exact (hp l v h).1 (nameVerdict_eq_stop.mpr (.inl hne))
  refine ⟨hl, fun m hm => hname _ _ (.start hm), ?_⟩
  intro e he
  obtain ⟨l, v, h, hv⟩ := hp.expanded hw he
  exact ⟨(hp l v h).2 e hv, fun m hm => hname _ _ (h.step hv hm)⟩

/-- A visited chain: without a stop, every chain is the trail of a visit. -/
theorem AllPass.trail_of_chain (hp : AllPass tabs st t) (hw : WellNamed tabs st t)
    (hc : Chain tabs st t l) :
    ∃ e l' v, l = e :: l' ∧ Trail tabs st t l' v ∧
      nameVerdict tabs v.table v.ctx v.name = .expand e := by
  induction hc with
  | @start e hs =>
      obtain ⟨m, hm, hres⟩ := hs
      have htrail : Trail tabs st t [] _ := .start hm
      rcases htrail.verdict (hp _ _ htrail) hres with hv | ⟨-, a, ha, -⟩
      · exact ⟨e, [], _, rfl, htrail, hv⟩
      · cases ha
  | @next e e' l _ hedge hne ih =>
      obtain ⟨_, _, v, heq, htrail, hv⟩ := ih
      cases heq
      obtain ⟨ptr, n, hn, hres⟩ := hedge
      have hnext := htrail.step hv hn
      rcases hnext.verdict (hp _ _ hnext) hres with hv' | ⟨-, a, ha, hname, -⟩
      · exact ⟨e', _, _, rfl, hnext, hv'⟩
      · obtain rfl := hw.eq_of_name (hnext.mem_entries ha) hres.mem hname
        exact absurd ha hne

theorem AllPass.not_aliasAgain (hp : AllPass tabs st t) (hw : WellNamed tabs st t) :
    ¬ AliasAgain tabs st t := by
  rintro ⟨e, l, a, hc, ⟨ptr, n, hn, hres⟩, ha, halias⟩
  obtain ⟨_, _, v, heq, htrail, hv⟩ := hp.trail_of_chain hw hc
  cases heq
  have hnext := htrail.step hv hn
  rcases hnext.verdict (hp _ _ hnext) hres with hv' | ⟨-, b, hb, hname, hno⟩
  · have hlookup := hnext.lookup_of_mem ha
    rw [nameVerdict_expand_fresh hv'] at hlookup
    cases hlookup
  · obtain rfl := hw.eq_of_name (hnext.mem_entries hb) hres.mem hname
    rw [halias] at hno
    cases hno

/-- An alias on a cycle of aliases is never expanded: the expansion would go round the cycle and
meet it again. -/
theorem AllPass.not_aliasCycle (hp : AllPass tabs st t) (hw : WellNamed tabs st t)
    (h : Trail tabs st t l v) (hv : nameVerdict tabs v.table v.ctx v.name = .expand e) :
    ¬ Relation.TransGen (AliasEdge tabs) e e := by
  intro hcycle
  induction hk : room tabs v.ctx using Nat.strong_induction_on generalizing l v e with
  | _ k ih =>
      obtain ⟨y, hy, hback⟩ := Relation.TransGen.head'_iff.mp hcycle
      have hycycle : Relation.TransGen (AliasEdge tabs) y y := .tail' hback hy
      have hyalias : y.isAlias = true := by
        obtain ⟨z, hz, -⟩ := Relation.TransGen.head'_iff.mp hycycle
        exact hz.1
      obtain ⟨ptr, n, hn, hres⟩ := hy.2
      have hnext := h.step hv hn
      rcases hnext.verdict (hp _ _ hnext) hres with hv' | ⟨-, b, hb, hname, hno⟩
      · have hlt : room tabs ((e.ctx v.ctx).at ptr) < k := by
          rw [room_at, ← hk]
          exact room_ctx_lt hv
        exact ih _ hlt hnext hv' hycycle rfl
      · obtain rfl := hw.eq_of_name (hnext.mem_entries hb) hres.mem hname
        rw [hyalias] at hno
        cases hno

/-- A declaration on a by-value cycle is not expanded while the open declarations of the cycle are
all in `rcheckset`: the expansion would go round the cycle and meet one of them. -/
theorem AllPass.not_valueCycle_of (hp : AllPass tabs st t) (hw : WellNamed tabs st t)
    (h : Trail tabs st t l v) (hv : nameVerdict tabs v.table v.ctx v.name = .expand e)
    (hcycle : Relation.TransGen (Refers tabs false) e e)
    (hopen : ∀ y ∈ l, Relation.TransGen (Refers tabs false) e y →
      Relation.TransGen (Refers tabs false) y e → y.name ∈ v.ctx.rcheckset) : False := by
  induction hk : room tabs v.ctx using Nat.strong_induction_on generalizing l v e with
  | _ k ih =>
      obtain ⟨y, hy, hback⟩ := Relation.TransGen.head'_iff.mp hcycle
      obtain ⟨n, hn, hres⟩ := id hy
      have hnext := h.step hv hn
      have hopen' : ∀ z ∈ e :: l, Relation.TransGen (Refers tabs false) y z →
          Relation.TransGen (Refers tabs false) z y →
          z.name ∈ ((e.ctx v.ctx).at false).rcheckset := by
        intro z hz hyz hzy
        rcases List.mem_cons.mp hz with rfl | hz
        · exact List.mem_cons_self ..
        · refine List.mem_cons_of_mem _ (hopen z hz (.head hy hyz) ?_)
          exact hzy.trans_left hback
      rcases hnext.verdict (hp _ _ hnext) hres with hv' | ⟨hset, b, hb, hname, -⟩
      · have hlt : room tabs ((e.ctx v.ctx).at false) < k := by
          rw [room_at, ← hk]
          exact room_ctx_lt hv
        exact ih _ hlt hnext hv' (.tail' hback hy) hopen' rfl
      · obtain rfl := hw.eq_of_name (hnext.mem_entries hb) hres.mem hname
        have hbb : Relation.TransGen (Refers tabs false) b b := .tail' hback hy
        exact hset (hres.name_eq ▸ hopen' b hb hbb hbb)

/-- A by-value cycle is entered at a declaration with none of the cycle open around it. -/
theorem AllPass.not_valueCycle (hp : AllPass tabs st t) (hw : WellNamed tabs st t)
    (h : Trail tabs st t l v) (hv : nameVerdict tabs v.table v.ctx v.name = .expand e) :
    ¬ Relation.TransGen (Refers tabs false) e e := by
  intro hcycle
  induction hk : l.length using Nat.strong_induction_on generalizing l v e with
  | _ k ih =>
      apply hp.not_valueCycle_of hw h hv hcycle
      intro y hy hey hye
      obtain ⟨l', v', h', hlt, -, hv'⟩ := h.expanded hy
      exact (ih _ (hk ▸ hlt) h' hv' (hye.trans hey) rfl).elim

end Necessary

/-- **Acceptance.** A lookup over uniquely named declarations succeeds exactly when what it reaches
is finite and readable, repeats no alias and is short when written out. -/
theorem succeeds_iff_finite_and (hw : WellNamed tabs st t) (ht : t.isSource = true) :
    Succeeds tabs st t ↔
      (Finite tabs st t ∧ Readable tabs st t ∧ ¬ AliasAgain tabs st t) ∧ Short tabs st t := by
  rw [succeeds_iff ht, unwindType_isSome_iff ht hw.clean, unwindTree_isSome ht]
  apply and_congr_left
  intro _
  constructor
  · rintro ⟨hl, hv⟩
    have hp : AllPass tabs st t := fun l v h => hv v (visited_iff_trail.mpr ⟨l, h⟩)
    refine ⟨⟨?_, ?_⟩, hp.readable hw hl, hp.not_aliasAgain hw⟩
    · intro e he
      obtain ⟨l, v, h, hv⟩ := hp.expanded hw he
      exact hp.not_valueCycle hw h hv
    · intro e he
      obtain ⟨l, v, h, hv⟩ := hp.expanded hw he
      exact hp.not_aliasCycle hw h hv
  · rintro ⟨hf, hr, ha⟩
    refine ⟨hr.lens, ?_⟩
    intro v hv
    obtain ⟨l, h⟩ := visited_iff_trail.mp hv
    exact passes_of_finite hw hf hr ha h

/-- `type AA = *S;`. -/
def aliasAA : STEntry := ⟨[], ['A', 'A'], .alias (.pointer (.ident ['S']))⟩

/-- `struct S { a: AA }`. -/
def structS : STEntry := ⟨[], ['S'], .struct false (.cons (some ['a']) (.ident ['A', 'A']) .nil)⟩

def aliasTables : SymTables := ⟨[aliasAA, structS], by decide, by decide⟩

theorem mem_aliasTables {e : STEntry} (h : e ∈ aliasTables.entries) :
    e = aliasAA ∨ e = structS := by
  simpa [aliasTables] using h

theorem aliasTables_wellNamed (n : Name) (h : n = ['A', 'A'] ∨ n = ['S']) :
    WellNamed aliasTables [] (.ident n) where
  unique := by decide
  start := by
    rcases h with rfl | rfl <;> decide
  closed := by decide

theorem refers_aliasAA {ptr : Bool} {e : STEntry} (h : Refers aliasTables ptr aliasAA e) :
    ptr = true ∧ e = structS := by
  obtain ⟨n, hn, hres⟩ := h
  have hmem : (n, ptr) = (['S'], true) := by
    simpa [aliasAA, TypeBody.mentions, TypeExpr.mentions] using hn
  cases hmem
  exact ⟨rfl, (Option.some.inj hres.2).symm⟩

theorem refers_structS {ptr : Bool} {e : STEntry} (h : Refers aliasTables ptr structS e) :
    e = aliasAA := by
  obtain ⟨n, hn, hres⟩ := h
  have hmem : (n, ptr) = (['A', 'A'], false) := by
    simpa [structS, TypeBody.mentions, TypeFields.mentions, TypeExpr.mentions] using hn
  cases hmem
  exact (Option.some.inj hres.2).symm

theorem aliasTables_finite (t : TypeExpr) : Finite aliasTables [] t where
  byValue := by
    intro e _ hcycle
    obtain ⟨y, hy, hback⟩ := Relation.TransGen.head'_iff.mp hcycle
    obtain ⟨z, -, n, -, hres⟩ := Relation.TransGen.tail'_iff.mp hcycle
    rcases mem_aliasTables hres.mem with rfl | rfl
    · cases (refers_aliasAA hy).1
    · obtain rfl := refers_structS hy
      rcases hback.cases_head with heq | ⟨w, hw, -⟩
      · revert heq
        decide
      · cases (refers_aliasAA hw).1
  aliases := by
    intro e _ hcycle
    obtain ⟨y, ⟨hy, ptr, hedge⟩, hback⟩ := Relation.TransGen.head'_iff.mp hcycle
    obtain ⟨z, -, -, ptr', n, -, hres⟩ := Relation.TransGen.tail'_iff.mp hcycle
    rcases mem_aliasTables hres.mem with rfl | rfl
    · obtain rfl := (refers_aliasAA hedge).2
      rcases hback.cases_head with heq | ⟨w, hw, -⟩
      · revert heq
        decide
      · cases hw.1
    · cases hy

end CaLang.Types
