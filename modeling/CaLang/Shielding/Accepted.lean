import CaLang.Shielding.BlockWalk

/-! # What the parser accepts

A block is accepted when every use means a binding that is not in front of `_` and no pattern
binds a name twice: the parser then finds an entry for every use (`Block.parse_isSome`).
-/

namespace CaLang.Shielding

variable {τ : Type} {typeOf : Site → τ} {Γ : Env} {s : ScopeId} {st : SymTable}
  {ps ps₁ : Parser τ}

/-- The tables of the open scopes while parsing. -/
structure ParseCtx (Γ : Env) (st : SymTable) (ps : Parser τ) : Prop where
  env : List.Forall₂ (SeenOk ps.tables) Γ st
  open_lt : ∀ s ∈ st, s < ps.next
  nodup : st.Nodup
  unmade : ∀ s x, ps.next ≤ s → sites ps.tables s x = []

theorem ParseCtx.next {xs : List Name} {Γ' : Env} (ctx : ParseCtx Γ (s :: st) ps)
    (hf : Frame typeOf s xs ps ps₁) (henv : List.Forall₂ (SeenOk ps₁.tables) Γ' (s :: st)) :
    ParseCtx Γ' (s :: st) ps₁ := by
  refine ⟨henv, fun s' hs' => (ctx.open_lt s' hs').trans_le hf.next_le, ctx.nodup, ?_⟩
  intro s' x hs'
  have hlt : s < s' := (ctx.open_lt s (by simp)).trans_le (hf.next_le.trans hs')
  rw [hf.later s' x hs' hlt.ne', ctx.unmade s' x (hf.next_le.trans hs')]

theorem ParseCtx.closed (ctx : ParseCtx Γ (s :: st) ps) (hf : Frame typeOf s [] ps ps₁) :
    ParseCtx Γ (s :: st) ps₁ := by
  refine ctx.next hf (forall₂_congr ctx.env fun sc s' hs' h => h.congr ?_)
  intro x
  by_cases he : s' = s
  · subst he
    exact hf.own_eq x
  · exact hf.other s' x (ctx.open_lt s' hs') he

theorem ParseCtx.push (ctx : ParseCtx Γ st ps) (names : List Name) :
    ParseCtx (⟨[], names⟩ :: Γ) (ps.next :: st) ps.push := by
  refine ⟨.cons (.empty (ctx.unmade ps.next · le_rfl)) ctx.env, ?_, ?_, ?_⟩
  · intro s' hs'
    rcases List.mem_cons.mp hs' with rfl | hs'
    · exact Nat.lt_succ_self _
    · exact Nat.lt_succ_of_lt (ctx.open_lt s' hs')
  · exact List.nodup_cons.mpr ⟨fun hm => lt_irrefl _ (ctx.open_lt _ hm), ctx.nodup⟩
  · intro s' x hs'
    exact ctx.unmade s' x (Nat.le_of_succ_le hs')

theorem ParseCtx.letbind {id : Nat} {datatype : Option τ} {cap : CAPattern τ}
    (ctx : ParseCtx Γ (s :: st) ps) (h : makeLetStmt typeOf s id datatype cap ps = some ps₁) :
    ParseCtx (Γ.bind (letSites id cap)) (s :: st) ps₁ := by
  have hf := makeLetStmt_frame h
  obtain ⟨t₁, ht₁, rfl⟩ := Option.map_eq_some_iff.mp h
  have hsites := sites_registerCapatternSymtable ht₁
  refine ctx.next hf ?_
  have henv := ctx.env
  have hnd := ctx.nodup
  cases henv with
  | cons hhead htail =>
      refine .cons (hhead.letbind fun x => by simpa using hsites s x)
        (forall₂_congr htail fun sc s' hs' hs => hs.congr ?_)
      intro x
      have hne : s' ≠ s := fun e => (List.nodup_cons.mp hnd).1 (e ▸ hs')
      simpa [hne] using hsites s' x

/-- The table of a loop variable. -/
theorem ParseCtx.forVar (ctx : ParseCtx Γ st ps) (typeOf : Site → τ) (id : Nat) (x : Name) :
    ParseCtx (⟨[(x, .loopvar id x)], [x]⟩ :: Γ) (ps.next :: st)
      (makeForVarEntry ps.next id x ps.push) := by
  have ctx₀ := ctx.push [x]
  have hsites : ∀ s' y, sites (makeForVarEntry ps.next id x ps.push).tables s' y =
      sites ps.tables s' y ++ if s' = ps.next ∧ y = x then [.loopvar id x] else [] :=
    fun s' y => sites_registerVariable ps.next _ x ps.tables s' y
  refine ctx₀.next (makeForVarEntry_frame typeOf ps.next id x ps.push) (.cons (.single rfl ?_) ?_)
  · intro y
    rw [hsites, ctx.unmade ps.next y le_rfl]
    simp
  · refine forall₂_congr ctx.env fun sc s' hs' hs => hs.congr ?_
    intro y
    have hne : s' ≠ ps.next := (ctx.open_lt s' hs').ne
    simp [hsites, hne]

/-! ### Uses -/

/-- The use means a binding that is not in front of `_`. -/
def Occurrence.Bound (o : Occurrence) : Prop :=
  ∃ site, o.site = some site ∧ site.isIgnored = false

theorem symGetsym_isSome {t : Tables τ} (henv : List.Forall₂ (SeenOk t) Γ st) {x : Name}
    {site : Site} (hm : Γ.meaning x = some site) (hi : site.isIgnored = false) :
    ∃ e, symGetsym t st x = some e := by
  induction henv with
  | nil => cases hm
  | @cons sc s Γ st hsc _ ih =>
      unfold symGetsym
      by_cases hs : (t s x).isSome
      · exact ⟨_, if_pos hs⟩
      · rw [if_neg hs]
        have hnone : sites t s x = [] := by
          by_contra h
          exact hs ((sites_ne_nil t s x).mp h)
        unfold Env.meaning at hm
        cases hl : sc.seen.lookup x with
        | none =>
            rw [hl, Option.none_or] at hm
            exact ih hm
        | some site' =>
            rw [hl, Option.some_or] at hm
            cases hm
            have hseen := hsc x
            rw [LexScope.real_of_seen hl hi, hnone] at hseen
            cases hseen

mutual
theorem Expr.resolve_isSome {t : Tables τ} (henv : List.Forall₂ (SeenOk t) Γ st)
    (e : Expr Name) (h : ∀ p ∈ e.ids, (⟨p.1, Γ.meaning p.2, false⟩ : Occurrence).Bound) :
    ∃ e', e.resolve t st = some e' := by
  cases e with
  | id node x =>
      obtain ⟨site, hm, hi⟩ := h (node, x) (by simp [Expr.ids])
      obtain ⟨en, hen⟩ := symGetsym_isSome henv hm hi
      exact ⟨.id node en, by simp [Expr.resolve, hen]⟩
  | tuple args =>
      obtain ⟨as, has⟩ := resolveArgs_isSome henv args h
      exact ⟨.tuple as, by simp [Expr.resolve, has]⟩
  | array args =>
      obtain ⟨as, has⟩ := resolveArgs_isSome henv args h
      exact ⟨.array as, by simp [Expr.resolve, has]⟩
  | op args =>
      obtain ⟨as, has⟩ := resolveArgs_isSome henv args h
      exact ⟨.op as, by simp [Expr.resolve, has]⟩
theorem resolveArgs_isSome {t : Tables τ} (henv : List.Forall₂ (SeenOk t) Γ st)
    (es : List (Expr Name))
    (h : ∀ p ∈ argIds es, (⟨p.1, Γ.meaning p.2, false⟩ : Occurrence).Bound) :
    ∃ es', resolveArgs t st es = some es' := by
  cases es with
  | nil => exact ⟨[], rfl⟩
  | cons e es =>
      obtain ⟨e', he⟩ := e.resolve_isSome henv fun p hp => h p (List.mem_append_left _ hp)
      obtain ⟨es', hes⟩ := resolveArgs_isSome henv es fun p hp => h p (List.mem_append_right _ hp)
      exact ⟨e' :: es', by simp [resolveArgs, he, hes]⟩
end

theorem ParseCtx.resolve (ctx : ParseCtx Γ st ps) (e : Expr Name)
    (h : ∀ o ∈ exprOccurrences Γ e, o.Bound) : ∃ e', e.resolve ps.tables st = some e' :=
  e.resolve_isSome ctx.env fun _ hp => h _ (List.mem_map_of_mem hp)

theorem ParseCtx.resolveInit (ctx : ParseCtx Γ st ps) (init : Option (Expr Name))
    (h : ∀ o ∈ initOccurrences Γ init, o.Bound) :
    ∃ init', resolveInit ps.tables st init = some init' := by
  cases init with
  | none => exact ⟨none, rfl⟩
  | some e =>
      obtain ⟨e', he⟩ := ctx.resolve e h
      exact ⟨some e', by simp [Shielding.resolveInit, he]⟩

/-! ### Blocks -/

mutual
/-- **A block is accepted** when its uses are bound and its patterns bind each name once. -/
theorem Block.parse_isSome (b : Block τ Name Unit) {s : ScopeId} {st : SymTable} {Γ : Env}
    {ps : Parser τ} (ctx : ParseCtx Γ (s :: st) ps) (hocc : ∀ o ∈ b.occurrences Γ, o.Bound)
    (hd : b.DistinctNames) : ∃ b' ps', b.parse typeOf s st ps = some (b', ps') := by
  have hs : s < ps.next := ctx.open_lt s (by simp)
  cases b with
  | nil => exact ⟨.nil, ps, rfl⟩
  | letbind id note cap datatype init rest =>
      simp only [Block.occurrences, List.mem_append] at hocc
      obtain ⟨init', hi⟩ := ctx.resolveInit init fun o ho => hocc o (.inl ho)
      obtain ⟨t₁, ht₁⟩ := registerCapatternSymtable_isSome typeOf s id datatype cap ps.tables
        (List.nodup_append.mp hd.1).1
      have hlet : makeLetStmt typeOf s id datatype cap ps = some { ps with tables := t₁ } := by
        simp [makeLetStmt, ht₁]
      obtain ⟨b₂, ps₂, h₂⟩ := rest.parse_isSome (ctx.letbind hlet)
        (fun o ho => hocc o (.inr ho)) hd.2
      exact ⟨_, ps₂, by simp [Block.parse, hi, hlet, h₂]; rfl⟩
  | expr e rest =>
      simp only [Block.occurrences, List.mem_append] at hocc
      obtain ⟨e', he⟩ := ctx.resolve e fun o ho => hocc o (.inl ho)
      obtain ⟨b₂, ps₂, h₂⟩ := rest.parse_isSome ctx (fun o ho => hocc o (.inr ho)) hd
      exact ⟨_, ps₂, by simp [Block.parse, he, h₂]; rfl⟩
  | assign left right rest =>
      simp only [Block.occurrences, List.mem_append] at hocc
      obtain ⟨l', hl⟩ := ctx.resolve left fun o ho => hocc o (.inl (.inl ho))
      obtain ⟨r', hr⟩ := ctx.resolve right fun o ho => hocc o (.inl (.inr ho))
      obtain ⟨b₂, ps₂, h₂⟩ := rest.parse_isSome ctx (fun o ho => hocc o (.inr ho)) hd
      exact ⟨_, ps₂, by simp [Block.parse, hl, hr, h₂]; rfl⟩
  | drop note node x rest =>
      simp only [Block.occurrences, List.mem_cons] at hocc
      obtain ⟨b₂, ps₂, h₂⟩ := rest.parse_isSome ctx (fun o ho => hocc o (.inr ho)) hd
      exact ⟨_, ps₂, by simp [Block.parse, h₂]; rfl⟩
  | block body rest =>
      simp only [Block.occurrences, List.mem_append] at hocc
      obtain ⟨b₁, ps₁, h₁⟩ := body.parse_isSome (ctx.push body.names)
        (fun o ho => hocc o (.inl ho)) hd.1
      have hf := (body.parse_frame (Nat.lt_succ_self ps.next) h₁).closed hs
      obtain ⟨b₂, ps₂, h₂⟩ := rest.parse_isSome (ctx.closed hf)
        (fun o ho => hocc o (.inr ho)) hd.2
      exact ⟨_, ps₂, by simp [Block.parse, h₁, h₂]; rfl⟩
  | loop body rest =>
      simp only [Block.occurrences, List.mem_append] at hocc
      obtain ⟨b₁, ps₁, h₁⟩ := body.parse_isSome (ctx.push body.names)
        (fun o ho => hocc o (.inl ho)) hd.1
      have hf := (body.parse_frame (Nat.lt_succ_self ps.next) h₁).closed hs
      obtain ⟨b₂, ps₂, h₂⟩ := rest.parse_isSome (ctx.closed hf)
        (fun o ho => hocc o (.inr ho)) hd.2
      exact ⟨_, ps₂, by simp [Block.parse, h₁, h₂]; rfl⟩
  | «while» cond body rest =>
      simp only [Block.occurrences, List.mem_append] at hocc
      obtain ⟨c', hc'⟩ := ctx.resolve cond fun o ho => hocc o (.inl (.inl ho))
      obtain ⟨b₁, ps₁, h₁⟩ := body.parse_isSome (ctx.push body.names)
        (fun o ho => hocc o (.inl (.inr ho))) hd.1
      have hf := (body.parse_frame (Nat.lt_succ_self ps.next) h₁).closed hs
      obtain ⟨b₂, ps₂, h₂⟩ := rest.parse_isSome (ctx.closed hf)
        (fun o ho => hocc o (.inr ho)) hd.2
      exact ⟨_, ps₂, by simp [Block.parse, hc', h₁, h₂]; rfl⟩
  | «for» id note x list body rest =>
      simp only [Block.occurrences, List.mem_append] at hocc
      obtain ⟨l', hl⟩ := (ctx.push [x]).resolve list fun o ho => hocc o (.inl (.inl ho))
      obtain ⟨b₁, ps₁, h₁⟩ := body.parse_isSome ((ctx.forVar typeOf id x).push body.names)
        (fun o ho => hocc o (.inl (.inr ho))) hd.1
      have fx := makeForVarEntry_frame typeOf ps.next id x ps.push
      have fb := (body.parse_frame (Nat.lt_succ_self _) h₁).closed (s := ps.next)
        (Nat.lt_succ_self ps.next)
      obtain ⟨b₂, ps₂, h₂⟩ := rest.parse_isSome (ctx.closed ((fx.trans fb).closed hs))
        (fun o ho => hocc o (.inr ho)) hd.2
      have hl' : list.resolve ps.tables (ps.next :: s :: st) = some l' := hl
      exact ⟨_, ps₂, by simp [Block.parse, hl', h₁, h₂]; rfl⟩
  | ifs arms rest =>
      simp only [Block.occurrences, List.mem_append] at hocc
      obtain ⟨a₁, ps₁, h₁⟩ := arms.parse_isSome ctx (fun o ho => hocc o (.inl ho)) hd.1
      obtain ⟨b₂, ps₂, h₂⟩ := rest.parse_isSome (ctx.closed (arms.parse_frame hs h₁))
        (fun o ho => hocc o (.inr ho)) hd.2
      exact ⟨_, ps₂, by simp [Block.parse, h₁, h₂]; rfl⟩
theorem Arms.parse_isSome (a : Arms τ Name Unit) {s : ScopeId} {st : SymTable} {Γ : Env}
    {ps : Parser τ} (ctx : ParseCtx Γ (s :: st) ps) (hocc : ∀ o ∈ a.occurrences Γ, o.Bound)
    (hd : a.DistinctNames) : ∃ a' ps', a.parse typeOf s st ps = some (a', ps') := by
  have hs : s < ps.next := ctx.open_lt s (by simp)
  cases a with
  | done => exact ⟨.done, ps, rfl⟩
  | orelse body =>
      obtain ⟨b₁, ps₁, h₁⟩ := body.parse_isSome (ctx.push body.names) hocc hd
      exact ⟨_, ps₁, by simp [Arms.parse, h₁]; rfl⟩
  | arm cond body more =>
      simp only [Arms.occurrences, List.mem_append] at hocc
      obtain ⟨c', hc'⟩ := ctx.resolve cond fun o ho => hocc o (.inl (.inl ho))
      obtain ⟨b₁, ps₁, h₁⟩ := body.parse_isSome (ctx.push body.names)
        (fun o ho => hocc o (.inl (.inr ho))) hd.1
      have hf := (body.parse_frame (Nat.lt_succ_self ps.next) h₁).closed hs
      obtain ⟨a₂, ps₂, h₂⟩ := more.parse_isSome (ctx.closed hf)
        (fun o ho => hocc o (.inr ho)) hd.2
      exact ⟨_, ps₂, by simp [Arms.parse, hc', h₁, h₂]; rfl⟩
end

end CaLang.Shielding
