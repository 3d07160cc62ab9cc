import CaLang.Shielding.LetBinding
import Mathlib.Data.List.Forall2

/-! # Function bodies

The walk of a statement list follows its parse: after both have passed the same statements, every
entry of an open table has been visited as often as the parser had registered it
(`BodyCtx.synced`).  So a use, which keeps the entry found while parsing, is read when the entry
designates the binding that was latest when it was parsed.  A `drop` is different: it looks its
name up in the complete tables, in which a scope further in may bind the name too.

`Block.walk_outcome` is the induction over the text.
-/

namespace CaLang.Shielding

variable {τ : Type} {typeOf : Site → τ} {F : ScopeId → Name → List Site}

/-! ### Uses and the entries they keep -/

mutual
theorem Expr.resolve_ids {t : Tables τ} {st : SymTable} (e : Expr Name) {e' : Expr STEntry}
    (h : e.resolve t st = some e') :
    List.Forall₂ (fun a b => b.1 = a.1 ∧ symGetsym t st a.2 = some b.2) e.ids e'.ids := by
  cases e with
  | id node x =>
      obtain ⟨en, hen, rfl⟩ := Option.map_eq_some_iff.mp h
      exact .cons ⟨rfl, hen⟩ .nil
  | tuple args =>
      obtain ⟨as, has, rfl⟩ := Option.map_eq_some_iff.mp h
      exact resolveArgs_ids args has
  | array args =>
      obtain ⟨as, has, rfl⟩ := Option.map_eq_some_iff.mp h
      exact resolveArgs_ids args has
  | op args =>
      obtain ⟨as, has, rfl⟩ := Option.map_eq_some_iff.mp h
      exact resolveArgs_ids args has
theorem resolveArgs_ids {t : Tables τ} {st : SymTable} (es : List (Expr Name))
    {es' : List (Expr STEntry)} (h : resolveArgs t st es = some es') :
    List.Forall₂ (fun a b => b.1 = a.1 ∧ symGetsym t st a.2 = some b.2)
      (argIds es) (argIds es') := by
  cases es with
  | nil =>
      cases h
      exact .nil
  | cons e es =>
      simp only [resolveArgs, Option.bind_eq_bind, Option.bind_eq_some_iff] at h
      obtain ⟨e', he, es', hes, h⟩ := h
      cases h
      exact List.rel_append (e.resolve_ids he) (resolveArgs_ids es hes)
end

/-- The latest binding that is not in front of `_`. -/
def LexScope.real (sc : LexScope) (x : Name) : Option Site :=
  (sc.seen.filter fun p => !p.2.isIgnored).lookup x

theorem lookup_filter_of_none {l : List (Name × Site)} {x : Name} (h : l.lookup x = none)
    (p : Name × Site → Bool) : (l.filter p).lookup x = none := by
  rw [List.lookup_eq_none_iff] at h ⊢
  intro q hq
  exact h q (List.mem_filter.mp hq).1

theorem LexScope.real_of_seen {sc : LexScope} {x : Name} {site : Site}
    (h : sc.seen.lookup x = some site) (hi : site.isIgnored = false) :
    sc.real x = some site := by
  unfold LexScope.real
  generalize sc.seen = l at h
  induction l with
  | nil => cases h
  | cons p l ih =>
      obtain ⟨y, s⟩ := p
      rw [List.lookup_cons] at h
      by_cases hxy : x == y
      · simp only [hxy] at h
        cases h
        simp [hi, List.lookup_cons, hxy]
      · simp only [hxy] at h
        by_cases hs : s.isIgnored
        · simpa [List.filter_cons, hs] using ih h
        · simpa [List.filter_cons, hs, List.lookup_cons, hxy] using ih h

/-- The table `s` holds what the scope of the text has seen. -/
def SeenOk (t : Tables τ) (sc : LexScope) (s : ScopeId) : Prop :=
  ∀ x, sc.real x = (sites t s x).getLast?

/-- A scope of the text and the table the parser keeps for it. -/
structure ScopeOk (F : ScopeId → Name → List Site) (t : Tables τ) (sc : LexScope)
    (s : ScopeId) : Prop where
  seen : SeenOk t sc s
  names : ∀ x, x ∈ sc.names ↔ F s x ≠ []

/-- What it takes to read uses: in every open table as many bindings have been visited as have
been registered. -/
structure ReadCtx (F : ScopeId → Name → List Site) (Γ : Env) (st : SymTable) (t : Tables τ)
    (c : Count) : Prop where
  env : List.Forall₂ (ScopeOk F t) Γ st
  synced : ∀ s ∈ st, ∀ x, c s x = (sites t s x).length
  pre : ∀ s ∈ st, ∀ x, sites t s x <+: F s x

/-- What a read must look like for the occurrence it belongs to. -/
structure Occurrence.Fact (typeOf : Site → τ) (o : Occurrence) (v : CAVariable τ) : Prop where
  sound : o.late = false → ∀ site, o.site = some site → site.isIgnored = false →
    v = ⟨site, some (typeOf site), some site⟩
  late : o.late = true → v.llvmValue = none
  real : v.site.isIgnored = false

/-- No binding in the tables is one in front of `_`. -/
def NoIgnored (F : ScopeId → Name → List Site) : Prop :=
  ∀ s x, ∀ site ∈ F s x, site.isIgnored = false

/-- A read belongs to an occurrence of the text. -/
def ReadOf (typeOf : Site → τ) (occ : List Occurrence) (n : Nat) (v : CAVariable τ) : Prop :=
  ∃ o ∈ occ, o.node = n ∧ o.Fact typeOf v

theorem symGetsym_mem {t : Tables τ} {st : SymTable} {x : Name} {e : STEntry}
    (h : symGetsym t st x = some e) : e.scope ∈ st ∧ e.name = x ∧ sites t e.scope x ≠ [] := by
  induction st with
  | nil => cases h
  | cons s st ih =>
      unfold symGetsym at h
      split at h
      · rename_i hs
        cases h
        exact ⟨by simp, rfl, (sites_ne_nil t s x).mpr hs⟩
      · obtain ⟨h₁, h₂, h₃⟩ := ih h
        exact ⟨List.mem_cons_of_mem _ h₁, h₂, h₃⟩

/-- **The parser finds the binding the text means**, unless that one is in front of `_`. -/
theorem symGetsym_meaning {t : Tables τ} {Γ : Env} {st : SymTable} {x : Name} {e : STEntry}
    (henv : List.Forall₂ (ScopeOk F t) Γ st) (h : symGetsym t st x = some e) {site : Site}
    (hm : Γ.meaning x = some site) (hi : site.isIgnored = false) :
    (sites t e.scope x).getLast? = some site := by
  induction henv with
  | nil => cases h
  | @cons sc s Γ st hsc _ ih =>
      have hsites := hsc.seen x
      unfold Env.meaning at hm
      unfold symGetsym at h
      cases hl : sc.seen.lookup x with
      | none =>
          have hnone : sites t s x = [] := by
            rw [LexScope.real, lookup_filter_of_none hl] at hsites
            exact List.getLast?_eq_none_iff.mp hsites.symm
          have habs : ¬ (t s x).isSome := by
            rw [← sites_ne_nil, hnone]
            simp
          rw [if_neg habs] at h
          rw [hl, Option.none_or] at hm
          exact ih h hm
      | some site' =>
          rw [hl, Option.some_or] at hm
          cases hm
          rw [LexScope.real_of_seen hl hi] at hsites
          have hpos : (t s x).isSome := by
            rw [← sites_ne_nil]
            intro h0
            rw [h0] at hsites
            cases hsites
          rw [if_pos hpos] at h
          cases h
          exact hsites.symm

theorem getLast?_eq_getElem {α : Type} {l m : List α} (hp : l <+: m) (hl : l ≠ [])
    (h : l.length - 1 < m.length) : l.getLast? = some m[l.length - 1] := by
  have hpos : 0 < l.length := List.length_pos_iff.mpr hl
  rw [List.getLast?_eq_getElem?, List.getElem?_eq_getElem (by omega),
    hp.getElem (by omega : l.length - 1 < l.length)]

/-- When all bindings registered so far have been visited, the entry designates the last. -/
theorem value_of_last {l m : List Site} {k : Nat} {v : CAVariable τ} {site : Site}
    (hp : l <+: m) (hl : l ≠ []) (hk : k = l.length) (hlast : l.getLast? = some site)
    (hv : ∀ i (h : i < m.length), k = i + 1 → v = ⟨m[i], some (typeOf m[i]), some m[i]⟩) :
    v = ⟨site, some (typeOf site), some site⟩ := by
  have hpos : 0 < l.length := List.length_pos_iff.mpr hl
  have hlt : l.length - 1 < m.length := by
    have := hp.length_le
    omega
  rw [getLast?_eq_getElem hp hl hlt] at hlast
  rw [hv _ hlt (by omega), Option.some.inj hlast]

/-- An entry found in an open table while parsing designates the latest binding then. -/
theorem ReadCtx.readable {Γ : Env} {st : SymTable} {t : Tables τ} {c : Count}
    (ctx : ReadCtx F Γ st t c) (hF : NoIgnored F) {occ : List Occurrence} {n : Nat} {x : Name}
    {e : STEntry} (he : symGetsym t st x = some e) (hocc : ⟨n, Γ.meaning x, false⟩ ∈ occ) :
    Readable typeOf F (ReadOf typeOf occ) c (n, e) := by
  obtain ⟨hmem, hname, hne⟩ := symGetsym_mem he
  subst hname
  have hpre := ctx.pre e.scope hmem e.name
  have hpos : 0 < (sites t e.scope e.name).length := List.length_pos_iff.mpr hne
  have hle := hpre.length_le
  have hc := ctx.synced e.scope hmem e.name
  have hFpos : 0 < (F e.scope e.name).length := hpos.trans_le hle
  refine ⟨List.length_pos_iff.mp hFpos, ?_⟩
  rintro v ⟨hval, -, hsite⟩
  refine ⟨_, hocc, rfl, ?_, by simp, hF _ _ _ hsite⟩
  intro _ site hs hi
  exact value_of_last hpre hne hc (symGetsym_meaning ctx.env he hs hi) hval

/-- Every use of a parsed expression is readable. -/
theorem ReadCtx.expr_readable {Γ : Env} {st : SymTable} {t : Tables τ} {c : Count}
    (ctx : ReadCtx F Γ st t c) (hF : NoIgnored F) {occ : List Occurrence} {e : Expr Name}
    {e' : Expr STEntry} (h : e.resolve t st = some e')
    (hocc : ∀ o ∈ exprOccurrences Γ e, o ∈ occ) :
    ∀ n ∈ e'.ids, Readable typeOf F (ReadOf typeOf occ) c n := by
  have hids := e.resolve_ids h
  have hocc' : ∀ p ∈ e.ids, (⟨p.1, Γ.meaning p.2, false⟩ : Occurrence) ∈ occ :=
    fun p hp => hocc _ (List.mem_map_of_mem hp)
  clear h hocc
  generalize e.ids = ids at hids hocc'
  generalize e'.ids = ids' at hids
  induction hids with
  | nil => simp
  | cons hab _ ih =>
      intro n hn
      rcases List.mem_cons.mp hn with rfl | hn
      · have hocc := hocc' _ (List.mem_cons_self ..)
        rw [← hab.1] at hocc
        exact ctx.readable hF hab.2 hocc
      · exact ih (fun p hp => hocc' p (List.mem_cons_of_mem _ hp)) n hn

theorem exprOccurrences_nodes {t : Tables τ} {st : SymTable} (Γ : Env) {e : Expr Name}
    {e' : Expr STEntry} (h : e.resolve t st = some e') :
    (exprOccurrences Γ e).map (·.node) = e'.ids.map Prod.fst := by
  have hids := e.resolve_ids h
  unfold exprOccurrences
  generalize e.ids = ids at hids
  generalize e'.ids = ids' at hids
  induction hids with
  | nil => rfl
  | cons hab _ ih => simp [hab.1, ← ih]

/-! ### A drop -/

/-- In the complete tables a name is found in the innermost scope that binds it anywhere: where
that is too early, in a table that has not registered it yet. -/
theorem symGetsym_complete {t u : Tables τ} {Γ : Env} {st : SymTable} {x : Name} {e : STEntry}
    (henv : List.Forall₂ (ScopeOk F t) Γ st) (hu : ∀ s x, (u s x).isSome ↔ F s x ≠ [])
    (hpre : ∀ s ∈ st, ∀ x, sites t s x <+: F s x) (h : symGetsym u st x = some e) :
    (Γ.boundLate x = true → sites t e.scope x = []) ∧
      (Γ.boundLate x = false → ∀ site, Γ.meaning x = some site → site.isIgnored = false →
        (sites t e.scope x).getLast? = some site) := by
  induction henv with
  | nil => cases h
  | @cons sc s Γ st hsc _ ih =>
      have hsites := hsc.seen x
      unfold symGetsym at h
      unfold Env.boundLate Env.meaning
      cases hl : sc.seen.lookup x with
      | none =>
          have hnone : sites t s x = [] := by
            rw [LexScope.real, lookup_filter_of_none hl] at hsites
            exact List.getLast?_eq_none_iff.mp hsites.symm
          by_cases hx : x ∈ sc.names
          · rw [if_pos ((hu s x).mpr ((hsc.names x).mp hx))] at h
            cases h
            simp [hx, hnone]
          · have habs : ¬ (u s x).isSome := by
              rw [hu, ← hsc.names]
              exact hx
            rw [if_neg habs] at h
            simpa [hx] using ih (fun s' hs' => hpre s' (List.mem_cons_of_mem _ hs')) h
      | some site' =>
          refine ⟨by simp, ?_⟩
          intro _ site hm hi
          rw [Option.some_or] at hm
          cases hm
          rw [LexScope.real_of_seen hl hi] at hsites
          have hne : sites t s x ≠ [] := by
            intro h0
            rw [h0] at hsites
            cases hsites
          have hFne : F s x ≠ [] := by
            intro h0
            have hp := hpre s (List.mem_cons_self ..) x
            rw [h0] at hp
            exact hne (List.prefix_nil.mp hp)
          rw [if_pos ((hu s x).mpr hFne)] at h
          cases h
          exact hsites.symm

variable (typeOf) in
/-- A `drop` reads what the text means, or, when it is late, a variable without storage. -/
theorem ReadCtx.drop_readable {Γ : Env} {st : SymTable} {t u : Tables τ} {c : Count}
    (ctx : ReadCtx F Γ st t c) (hF : NoIgnored F) (hu : ∀ s x, (u s x).isSome ↔ F s x ≠ [])
    {occ : List Occurrence} {n : Nat} {x : Name} {e : STEntry} (he : symGetsym u st x = some e)
    (hocc : ⟨n, Γ.meaning x, Γ.boundLate x⟩ ∈ occ) :
    Readable typeOf F (ReadOf typeOf occ) c (n, e) := by
  obtain ⟨hlate, hsound⟩ := symGetsym_complete ctx.env hu ctx.pre he
  obtain ⟨hmem, hname, hne⟩ := symGetsym_mem he
  subst hname
  have hc := ctx.synced e.scope hmem e.name
  have hFne : F e.scope e.name ≠ [] := by
    rw [← hu, ← sites_ne_nil]
    exact hne
  refine ⟨hFne, ?_⟩
  rintro v ⟨hval, hzero, hsite⟩
  refine ⟨_, hocc, rfl, ?_, ?_, hF _ _ _ hsite⟩
  · intro hl site hs hi
    have hlast := hsound hl site hs hi
    have hsne : sites t e.scope e.name ≠ [] := by
      intro h0
      rw [h0] at hlast
      cases hlast
    exact value_of_last (ctx.pre e.scope hmem e.name) hsne hc hlast hval
  · intro hl
    rw [hlate hl] at hc
    exact hzero hc

end CaLang.Shielding
