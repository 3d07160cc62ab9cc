import CaLang.Shielding.Body

/-! # The walk of a statement list

`Block.walk_outcome`: from tables at rest, with every binding parsed so far visited and none of
the later ones, the walk of a parsed block ends in the same position for the state of the parser
after the block, and reads every use of the block as its occurrence asks.
-/

namespace CaLang.Shielding

variable {τ : Type} {typeOf : Site → τ} {F : ScopeId → Name → List Site}

/-- The pass stands where the parser stood in state `ps`, in the scopes `Γ` whose tables are
`st`. -/
structure BodyCtx (typeOf : Site → τ) (F : ScopeId → Name → List Site) (Γ : Env) (st : SymTable)
    (ps : Parser τ) (w : Walk τ) : Prop where
  env : List.Forall₂ (ScopeOk F ps.tables) Γ st
  open_lt : ∀ s ∈ st, s < ps.next
  nodup : st.Nodup
  synced : ∀ s x, visited w.log s x = (sites ps.tables s x).length
  unmade : ∀ s x, ps.next ≤ s → sites ps.tables s x = []
  pre : ∀ s x, sites ps.tables s x <+: F s x
  rest : AtRest typeOf F w.log w.tables

theorem BodyCtx.le {Γ : Env} {st : SymTable} {ps : Parser τ} {w : Walk τ}
    (ctx : BodyCtx typeOf F Γ st ps w) (s : ScopeId) (x : Name) :
    visited w.log s x ≤ (F s x).length := by
  rw [ctx.synced]
  exact (ctx.pre s x).length_le

theorem BodyCtx.readCtx {Γ : Env} {st : SymTable} {ps : Parser τ} {w : Walk τ}
    (ctx : BodyCtx typeOf F Γ st ps w) : ReadCtx F Γ st ps.tables (visited w.log) :=
  ⟨ctx.env, fun s _ x => ctx.synced s x, fun s _ x => ctx.pre s x⟩

/-- The final tables `F` agree with `ps'` on the tables made from `lo` on, and extend table
`s`. -/
structure Settled (F : ScopeId → Name → List Site) (lo : ScopeId) (ps' : Parser τ)
    (s : ScopeId) : Prop where
  made : ∀ s' x, lo ≤ s' → s' < ps'.next → sites ps'.tables s' x = F s' x
  own : ∀ x, sites ps'.tables s x <+: F s x

theorem Frame.own_prefix {s : ScopeId} {xs : List Name} {ps ps' : Parser τ}
    (h : Frame typeOf s xs ps ps') (x : Name) : sites ps.tables s x <+: sites ps'.tables s x := by
  obtain ⟨new, hnew, -⟩ := h.own x
  exact ⟨new, hnew.symm⟩

theorem Frame.own_eq {s : ScopeId} {ps ps' : Parser τ} (h : Frame typeOf s [] ps ps')
    (x : Name) : sites ps'.tables s x = sites ps.tables s x := by
  obtain ⟨new, hnew, hx⟩ := h.own x
  have h0 : new = [] := by simpa using hx
  rw [hnew, h0, List.append_nil]

/-- What is settled at the end was settled before the last part. -/
theorem Settled.earlier {lo s : ScopeId} {xs : List Name} {ps₁ ps' : Parser τ}
    (h : Settled F lo ps' s) (hf : Frame typeOf s xs ps₁ ps') (hs : s < lo) :
    Settled F lo ps₁ s := by
  refine ⟨?_, fun x => (hf.own_prefix x).trans (h.own x)⟩
  intro s' x hlo hlt
  rw [← h.made s' x hlo (hlt.trans_le hf.next_le), hf.other s' x hlt (hs.trans_le hlo).ne']

theorem Settled.mono {lo lo' s : ScopeId} {ps' : Parser τ} (h : Settled F lo ps' s)
    (hlo : lo ≤ lo') : Settled F lo' ps' s :=
  ⟨fun s' x hs hlt => h.made s' x (hlo.trans hs) hlt, h.own⟩

/-- A table made in between is settled as a whole. -/
theorem Settled.inner {lo s f : ScopeId} {ps' : Parser τ} (h : Settled F lo ps' s)
    (hlo : lo ≤ f) (hf : f < ps'.next) : Settled F (f + 1) ps' f :=
  ⟨fun s' x hs hlt => h.made s' x (hlo.trans (Nat.le_of_succ_le hs)) hlt,
    fun x => by rw [h.made f x hlo hf]⟩

/-- The pass has done everything the parser had done in state `ps'`, and has read `ns`. -/
structure BlockEnd (typeOf : Site → τ) (F : ScopeId → Name → List Site)
    (Q : Nat → CAVariable τ → Prop) (ps' : Parser τ) (ns : List Nat) (w w' : Walk τ) : Prop where
  rest : AtRest typeOf F w'.log w'.tables
  synced : ∀ s x, visited w'.log s x = (sites ps'.tables s x).length
  step : LogStep typeOf F Q ns w.log w'.log

variable {Q : Nat → CAVariable τ → Prop} {Γ Γ' : Env} {s : ScopeId} {st : SymTable}
  {ps ps₁ ps' : Parser τ} {w w₁ : Walk τ} {ns ms : List Nat}

/-- After a part of the statement list the next part starts. -/
theorem BodyCtx.next {xs : List Name} (ctx : BodyCtx typeOf F Γ (s :: st) ps w)
    (hf : Frame typeOf s xs ps ps₁) (hset : Settled F ps.next ps₁ s)
    (hrest : AtRest typeOf F w₁.log w₁.tables)
    (hsync : ∀ s x, visited w₁.log s x = (sites ps₁.tables s x).length)
    (henv : List.Forall₂ (ScopeOk F ps₁.tables) Γ' (s :: st)) :
    BodyCtx typeOf F Γ' (s :: st) ps₁ w₁ := by
  have hunmade : ∀ s' x, ps₁.next ≤ s' → sites ps₁.tables s' x = [] := by
    intro s' x hs'
    have hlt : s < s' := (ctx.open_lt s (by simp)).trans_le (hf.next_le.trans hs')
    rw [hf.later s' x hs' hlt.ne', ctx.unmade s' x (hf.next_le.trans hs')]
  refine ⟨henv, fun s' hs' => (ctx.open_lt s' hs').trans_le hf.next_le, ctx.nodup, hsync,
    hunmade, ?_, hrest⟩
  intro s' x
  by_cases hs : s' = s
  · subst hs
    exact hset.own x
  · by_cases hlt : s' < ps.next
    · rw [hf.other s' x hlt hs]
      exact ctx.pre s' x
    · by_cases hlt₁ : s' < ps₁.next
      · rw [hset.made s' x (Nat.le_of_not_lt hlt) hlt₁]
      · rw [hunmade s' x (Nat.le_of_not_lt hlt₁)]
        exact List.nil_prefix

theorem SeenOk.congr {t t' : Tables τ} {sc : LexScope} (h : SeenOk t sc s)
    (he : ∀ x, sites t' s x = sites t s x) : SeenOk t' sc s :=
  fun x => by rw [he, h]

theorem ScopeOk.congr {t t' : Tables τ} {sc : LexScope} (h : ScopeOk F t sc s)
    (he : ∀ x, sites t' s x = sites t s x) : ScopeOk F t' sc s :=
  ⟨h.seen.congr he, h.names⟩

theorem forall₂_congr {R R' : LexScope → ScopeId → Prop} (henv : List.Forall₂ R Γ st)
    (he : ∀ sc, ∀ s ∈ st, R sc s → R' sc s) : List.Forall₂ R' Γ st := by
  induction henv with
  | nil => exact .nil
  | @cons sc s Γ st h _ ih =>
      exact .cons (he sc s (List.mem_cons_self ..) h)
        (ih fun sc' s' hs' => he sc' s' (List.mem_cons_of_mem _ hs'))

theorem env_congr {t t' : Tables τ} (henv : List.Forall₂ (ScopeOk F t) Γ st)
    (he : ∀ s ∈ st, ∀ x, sites t' s x = sites t s x) :
    List.Forall₂ (ScopeOk F t') Γ st :=
  forall₂_congr henv fun _ s hs h => h.congr (he s hs)

/-- A closed part leaves the open tables as they were. -/
theorem BodyCtx.closed_sites (ctx : BodyCtx typeOf F Γ (s :: st) ps w)
    (hf : Frame typeOf s [] ps ps₁) :
    ∀ s' ∈ s :: st, ∀ x, sites ps₁.tables s' x = sites ps.tables s' x := by
  intro s' hs' x
  by_cases hs : s' = s
  · subst hs
    exact hf.own_eq x
  · exact hf.other s' x (ctx.open_lt s' hs') hs

theorem BodyCtx.closed (ctx : BodyCtx typeOf F Γ (s :: st) ps w) (hf : Frame typeOf s [] ps ps₁)
    (hset : Settled F ps.next ps₁ s) (hrest : AtRest typeOf F w₁.log w₁.tables)
    (hsync : ∀ s x, visited w₁.log s x = (sites ps₁.tables s x).length) :
    BodyCtx typeOf F Γ (s :: st) ps₁ w₁ :=
  ctx.next hf hset hrest hsync (env_congr ctx.env (ctx.closed_sites hf))

/-- Looks at expressions leave the pass where it stands. -/
theorem BodyCtx.look (ctx : BodyCtx typeOf F Γ st ps w) (ht : w₁.tables = w.tables)
    (hv : visited w₁.log = visited w.log) : BodyCtx typeOf F Γ st ps w₁ :=
  ⟨ctx.env, ctx.open_lt, ctx.nodup, by rw [hv]; exact ctx.synced, ctx.unmade, ctx.pre, by
    unfold AtRest
    rw [ht, hv]
    exact ctx.rest⟩

theorem lookup_map_pair (xs : List Name) (f : Name → Site) (x : Name) :
    (xs.map fun y => (y, f y)).lookup x = if x ∈ xs then some (f x) else none := by
  induction xs with
  | nil => rfl
  | cons y ys ih =>
      rw [List.map_cons, List.lookup_cons, ih]
      by_cases h : x = y
      · subst h
        simp
      · simp [beq_false_of_ne h, h]

/-- The scope after a let. -/
theorem SeenOk.letbind {id : Nat} {cap : CAPattern τ} {t t' : Tables τ} {sc : LexScope}
    (h : SeenOk t sc s)
    (ht : ∀ x, sites t' s x = sites t s x ++ if x ∈ cap.names then [.letbind id x] else []) :
    SeenOk t' { sc with seen := letSites id cap ++ sc.seen } s := by
  intro x
  have hreal := h x
  have hfilter : (letSites id cap).filter (fun p => !p.2.isIgnored) =
      cap.names.map fun y => (y, .letbind id y) := by
    simp [letSites, List.filter_append, List.filter_map, Function.comp_def, Site.isIgnored]
  unfold LexScope.real at hreal ⊢
  rw [List.filter_append, hfilter, List.lookup_append, lookup_map_pair, hreal, ht]
  by_cases hx : x ∈ cap.names <;> simp [hx]

/-- The scope with a variable of its own. -/
theorem SeenOk.single {site : Site} {x : Name} {names : List Name} {t : Tables τ}
    (hi : site.isIgnored = false)
    (ht : ∀ y, sites t s y = if y = x then [site] else []) :
    SeenOk t ⟨[(x, site)], names⟩ s := by
  intro y
  rw [ht]
  by_cases hy : y = x
  · subst hy
    simp [LexScope.real, hi]
  · simp [LexScope.real, hi, List.lookup_cons, hy, beq_false_of_ne hy]

theorem SeenOk.empty {names : List Name} {t : Tables τ} (ht : ∀ x, sites t s x = []) :
    SeenOk t ⟨[], names⟩ s := by
  intro x
  rw [ht]
  rfl

/-- A table is opened. -/
theorem BodyCtx.push {names : List Name} (ctx : BodyCtx typeOf F Γ st ps w)
    (hnames : ∀ x, x ∈ names ↔ F ps.next x ≠ []) :
    BodyCtx typeOf F (⟨[], names⟩ :: Γ) (ps.next :: st) ps.push w := by
  refine ⟨.cons ⟨.empty (ctx.unmade ps.next · le_rfl), hnames⟩ ctx.env, ?_, ?_, ctx.synced, ?_,
    ctx.pre, ctx.rest⟩
  · intro s' hs'
    rcases List.mem_cons.mp hs' with rfl | hs'
    · exact Nat.lt_succ_self _
    · exact Nat.lt_succ_of_lt (ctx.open_lt s' hs')
  · exact List.nodup_cons.mpr ⟨fun hm => lt_irrefl _ (ctx.open_lt _ hm), ctx.nodup⟩
  · intro s' x hs'
    exact ctx.unmade s' x (Nat.le_of_succ_le hs')

/-- The new table has the names the parser registers in it. -/
theorem BodyCtx.frame_names {names : List Name} (ctx : BodyCtx typeOf F Γ st ps w)
    (hf : Frame typeOf ps.next names ps.push ps₁)
    (hF : ∀ x, sites ps₁.tables ps.next x = F ps.next x) (x : Name) :
    x ∈ names ↔ F ps.next x ≠ [] := by
  obtain ⟨new, hnew, hx⟩ := hf.own x
  have h0 : sites ps.push.tables ps.next x = [] := ctx.unmade ps.next x le_rfl
  rw [← hF, hnew, h0, List.nil_append]
  exact hx.symm

/-! ### Statements -/

variable {occ : List Occurrence}

theorem BodyCtx.expr_step (ctx : BodyCtx typeOf F Γ st ps w) (hF : NoIgnored F) {e : Expr Name}
    {e' : Expr STEntry} (he : e.resolve ps.tables st = some e')
    (hocc : ∀ o ∈ exprOccurrences Γ e, o ∈ occ) :
    LogStep typeOf F (ReadOf typeOf occ) ((exprOccurrences Γ e).map (·.node)) w.log
      (walkExpr e' w).log := by
  rw [exprOccurrences_nodes Γ he]
  exact walkExpr_step e' ctx.rest (fun _ _ => le_rfl) ctx.le
    (ctx.readCtx.expr_readable hF he hocc)

theorem point_step (hrest : AtRest typeOf F w.log w.tables) :
    LogStep typeOf F Q [] w.log w.point.log :=
  ⟨fun h => ⟨hrest, h⟩, fun _ ⟨v, hv⟩ => ⟨v, List.mem_cons_of_mem _ hv⟩, by simp⟩

/-- The next statement starts where the tables have been noted. -/
theorem BodyCtx.point (ctx : BodyCtx typeOf F Γ st ps w) : BodyCtx typeOf F Γ st ps w.point :=
  ctx.look rfl rfl

/-- The run `r` from `w` does what the parser has done in state `ps'` and reads the uses `ns` as
the occurrences ask; where it stops early, its reads so far are as they should be. -/
def Runs (typeOf : Site → τ) (F : ScopeId → Name → List Site) (occ : List Occurrence)
    (ps' : Parser τ) (ns : List Nat) (w : Walk τ) (r : Run τ (Walk τ)) : Prop :=
  Outcome r (BlockEnd typeOf F (ReadOf typeOf occ) ps' ns w)
    (fun w' => LogSound typeOf F (ReadOf typeOf occ) w.log →
      LogSound typeOf F (ReadOf typeOf occ) w'.log)

/-- The block `b'`, wherever it starts in state `ps`, ends in state `ps'`. -/
def Follows (typeOf : Site → τ) (F : ScopeId → Name → List Site) (occ : List Occurrence)
    (Γ : Env) (st : SymTable) (ps ps' : Parser τ) (ns : List Nat)
    (b' : Block τ STEntry SymTable) : Prop :=
  ∀ w, BodyCtx typeOf F Γ st ps w → Runs typeOf F occ ps' ns w (b'.walk typeOf w)

/-- A run with what came before it. -/
theorem Runs.after {r : Run τ (Walk τ)} (h : Runs typeOf F occ ps' ms w₁ r)
    (hstep : LogStep typeOf F (ReadOf typeOf occ) ns w.log w₁.log) :
    Runs typeOf F occ ps' (ns ++ ms) w r := by
  cases r with
  | ok w₂ => exact ⟨h.rest, h.synced, hstep.trans h.step⟩
  | error w₂ => exact fun hs => h (hstep.sound hs)

theorem Runs.mono {r : Run τ (Walk τ)} (h : Runs typeOf F occ ps' ns w r)
    (hs : ∀ n ∈ ms, n ∈ ns) : Runs typeOf F occ ps' ms w r :=
  Outcome.imp h fun _ h' => ⟨h'.rest, h'.synced, h'.step.mono hs⟩

/-- Looks at expressions, then the statements after. -/
theorem Follows.look {b' : Block τ STEntry SymTable} (h : Follows typeOf F occ Γ st ps ps' ms b')
    (ctx : BodyCtx typeOf F Γ st ps w₁)
    (hstep : LogStep typeOf F (ReadOf typeOf occ) ns w.log w₁.log) :
    Runs typeOf F occ ps' (ns ++ ms) w (b'.walk typeOf w₁.point) := by
  have hp := hstep.trans (point_step (Q := ReadOf typeOf occ) ctx.rest)
  rw [List.append_nil] at hp
  exact (h w₁.point ctx.point).after hp

/-- A part of its own inside a statement list, then the statements after. -/
theorem Follows.seq {r : Run τ (Walk τ)} {b' : Block τ STEntry SymTable}
    (h : Follows typeOf F occ Γ (s :: st) ps₁ ps' ms b')
    (ctx : BodyCtx typeOf F Γ (s :: st) ps w) (hf : Frame typeOf s [] ps ps₁)
    (hset : Settled F ps.next ps₁ s) (hr : Runs typeOf F occ ps₁ ns w r) :
    Runs typeOf F occ ps' (ns ++ ms) w (r >>= fun w₁ => b'.walk typeOf w₁.point) := by
  cases r with
  | ok w₁ => exact h.look (ctx.closed hf hset hr.rest hr.synced) hr.step
  | error w₁ => exact hr

/-- A let inside a statement list. -/
theorem BodyCtx.let_outcome {id : Nat} {cap : CAPattern τ} {datatype : Option τ}
    {init : Option (Expr Name)} {init' : Option (Expr STEntry)}
    (ctx : BodyCtx typeOf F Γ (s :: st) ps w) (hF : NoIgnored F)
    (hinit : resolveInit ps.tables (s :: st) init = some init')
    (hlet : makeLetStmt typeOf s id datatype cap ps = some ps₁) (hset : Settled F ps.next ps₁ s)
    (hocc : ∀ o ∈ initOccurrences Γ init, o ∈ occ) :
    Outcome (walkLetbind typeOf cap datatype s init' w)
      (fun w₁ => BlockEnd typeOf F (ReadOf typeOf occ) ps₁
          ((initOccurrences Γ init).map (·.node)) w w₁ ∧
        BodyCtx typeOf F (Γ.bind (letSites id cap)) (s :: st) ps₁ w₁)
      (fun w' => LogSound typeOf F (ReadOf typeOf occ) w.log →
        LogSound typeOf F (ReadOf typeOf occ) w'.log) := by
  have hf := makeLetStmt_frame hlet
  obtain ⟨t₁, ht₁, rfl⟩ := Option.map_eq_some_iff.mp hlet
  have hsites := sites_registerCapatternSymtable ht₁
  have hcap := registerCapatternSymtable_nodup ht₁
  have hfit : Fits F s cap.names.toFinset (visited w.log) := by
    intro x hx
    have hle := (hset.own x).length_le
    rw [ctx.synced]
    rw [hsites] at hle
    simp only [List.mem_toFinset.mp hx, and_self, if_true, List.length_append,
      List.length_singleton] at hle
    omega
  have hnodes : (init'.elim [] fun e => e.ids.map Prod.fst) =
      (initOccurrences Γ init).map (·.node) := by
    cases init with
    | none =>
        cases hinit
        rfl
    | some e =>
        obtain ⟨e', he', rfl⟩ := Option.map_eq_some_iff.mp hinit
        exact (exprOccurrences_nodes Γ he').symm
  have hread : ∀ e', init' = some e' → ∀ n ∈ e'.ids,
      Readable typeOf F (ReadOf typeOf occ) (visited w.log) n := by
    rintro e' rfl
    cases init with
    | none => cases hinit
    | some e =>
        obtain ⟨e'', he', he''⟩ := Option.map_eq_some_iff.mp hinit
        cases he''
        exact ctx.readCtx.expr_readable hF he' hocc
  apply (walkLetbind_outcome datatype hcap ctx.rest hfit ctx.le hread).imp
  rintro w₁ ⟨hrest, hstep, hvis⟩
  have hsync : ∀ s' x, visited w₁.log s' x = (sites t₁ s' x).length := by
    intro s' x
    rw [hvis, hsites, List.length_append, ← ctx.synced, up]
    by_cases h : s' = s ∧ x ∈ cap.names
    · simp [h.1, h.2]
    · simp [h]
  rw [hnodes] at hstep
  refine ⟨⟨hrest, hsync, hstep⟩, ctx.next hf hset hrest hsync ?_⟩
  have henv := ctx.env
  have hnd := ctx.nodup
  cases henv with
  | cons hhead htail =>
      refine .cons ⟨hhead.seen.letbind (fun x => by simpa using hsites s x), hhead.names⟩
        (env_congr htail ?_)
      intro s' hs' x
      have hne : s' ≠ s := fun e => (List.nodup_cons.mp hnd).1 (e ▸ hs')
      simpa [hne] using hsites s' x

/-! ### Loop variables -/

/-- A list of one is the same however often it is turned. -/
theorem Tracks.single {k d b c : Count} {f : ScopeId} {x : Name} {t : Tables τ}
    (h : Tracks typeOf F c d b t) (hone : (F f x).length = 1) (hk : k = up f {x} c) :
    Tracks typeOf F k d b t := by
  subst hk
  refine ⟨h.absent, ?_⟩
  intro s' x' r hr
  obtain ⟨L, hL, ok⟩ := h.entry s' x' r hr
  by_cases hsx : s' = f ∧ x' = x
  · obtain ⟨rfl, rfl⟩ := hsx
    have hlen : L.length = 1 := by rw [ok.length, hone]
    obtain ⟨v, rfl⟩ := List.length_eq_one_iff.mp hlen
    refine ⟨[v], ?_, ok⟩
    rw [Ring.Turned, List.rotate_singleton] at hL ⊢
    exact hL
  · have hup : up f {x} c s' x' = c s' x' := by
      unfold up
      rw [if_neg]
      simpa using hsx
    rw [hup]
    exact ⟨L, hL, ok⟩

/-- The head of a `for` makes the storage of the loop variable, alone in its table. -/
theorem BodyCtx.for_head {id : Nat} {x : Name} {f : ScopeId}
    (ctx : BodyCtx typeOf F (⟨[], [x]⟩ :: Γ) (f :: st) ps w)
    (hlast : ps.next = f + 1) (hnone : sites ps.tables f x = [])
    (hFx : ∀ y, F f y = sites (makeForVarEntry f id x ps).tables f y) :
    BodyCtx typeOf F (⟨[(x, .loopvar id x)], [x]⟩ :: Γ) (f :: st) (makeForVarEntry f id x ps)
        (makeStorage f (registerVariableCatype typeOf f w x) x) ∧
      LogStep typeOf F Q [] w.log
        (makeStorage f (registerVariableCatype typeOf f w x) x).log := by
  have hsites : ∀ s' y, sites (makeForVarEntry f id x ps).tables s' y =
      sites ps.tables s' y ++ if s' = f ∧ y = x then [.loopvar id x] else [] :=
    fun s' y => sites_registerVariable f _ x ps.tables s' y
  have hone : (F f x).length = 1 := by
    rw [hFx, hsites, hnone]
    simp
  have hfit : Fits F f {x} (visited w.log) := by
    intro y hy
    obtain rfl := Finset.mem_singleton.mp hy
    rw [ctx.synced, hnone, hone]
    exact Nat.zero_lt_one
  have h₀ : Tracks typeOf F (up f {x} (visited w.log)) (up f ∅ (visited w.log))
      (visited w.log) w.tables := by
    rw [up_empty]
    exact ctx.rest.single hone rfl
  have h₁ := h₀.register (Finset.mem_singleton_self x) hfit
  have h₂ := Tracks.store (B := ∅) (Finset.mem_singleton_self x) (by simp) hfit
    (by rw [up_empty]; exact h₁)
  have hlog : (registerVariableCatype typeOf f w x).log = w.log := Walk.modifyEntry_log ..
  have hvis : visited (makeStorage f (registerVariableCatype typeOf f w x) x).log =
      up f {x} (visited w.log) := by
    rw [visited_makeStorage, hlog]
  have hstep := makeStorage_step typeOf F Q f
    (registerVariableCatype typeOf f w x) x
  rw [hlog] at hstep
  refine ⟨⟨?_, ctx.open_lt, ctx.nodup, ?_, ?_, ?_, ?_⟩, hstep⟩
  · have henv := ctx.env
    have hnd := ctx.nodup
    cases henv with
    | cons hhead htail =>
        refine .cons ⟨.single rfl ?_, hhead.names⟩ (env_congr htail ?_)
        · intro y
          have hempty : sites ps.tables f y = [] :=
            List.getLast?_eq_none_iff.mp (hhead.seen y).symm
          rw [hsites, hempty]
          simp
        · intro s' hs' y
          have hne : s' ≠ f := fun e => (List.nodup_cons.mp hnd).1 (e ▸ hs')
          simp [hsites, hne]
  · intro s' y
    rw [hvis, hsites, List.length_append, ← ctx.synced, up]
    by_cases h : s' = f ∧ y = x <;> simp [h]
  · intro s' y hs'
    have hs'' : ps.next ≤ s' := hs'
    have hne : s' ≠ f := by
      rintro rfl
      rw [hlast] at hs''
      exact Nat.not_succ_le_self _ hs''
    rw [hsites, ctx.unmade s' y hs'']
    simp [hne]
  · intro s' y
    by_cases hs : s' = f
    · subst hs
      rw [hFx]
    · have hother := hsites s' y
      simp only [hs, false_and, if_false, List.append_nil] at hother
      rw [hother]
      exact ctx.pre s' y
  · unfold AtRest
    rw [hvis]
    simpa using h₂

/-! ### The induction -/

/-- The conditions of an `if` are read before any of its bodies is entered. -/
def Arms.condNodes (Γ : Env) : Arms τ Name Unit → List Nat
  | .done => []
  | .orelse _ => []
  | .arm cond _ more => (exprOccurrences Γ cond).map (·.node) ++ more.condNodes Γ

/-- The uses in the bodies of an `if`. -/
def Arms.bodyNodes (Γ : Env) : Arms τ Name Unit → List Nat
  | .done => []
  | .orelse body => (body.occurrences (⟨[], body.names⟩ :: Γ)).map (·.node)
  | .arm _ body more =>
      (body.occurrences (⟨[], body.names⟩ :: Γ)).map (·.node) ++ more.bodyNodes Γ

theorem Arms.nodes_split (a : Arms τ Name Unit) (Γ : Env) :
    ∀ n ∈ (a.occurrences Γ).map (·.node), n ∈ a.condNodes Γ ++ a.bodyNodes Γ := by
  match a with
  | .done => simp [Arms.occurrences]
  | .orelse body => simp [Arms.occurrences, Arms.condNodes, Arms.bodyNodes]
  | .arm cond body more =>
      have ih := more.nodes_split Γ
      intro n hn
      simp only [Arms.occurrences, List.map_append, List.mem_append, Arms.condNodes,
        Arms.bodyNodes] at hn ih ⊢
      rcases hn with (hn | hn) | hn
      · exact .inl (.inl hn)
      · exact .inr (.inl hn)
      · exact (ih n hn).elim (fun h => .inl (.inr h)) (fun h => .inr (.inr h))

theorem Arms.walkConds_tables (a : Arms τ STEntry SymTable) (w : Walk τ) :
    (a.walkConds w).tables = w.tables ∧ visited (a.walkConds w).log = visited w.log := by
  match a with
  | .done => exact ⟨rfl, rfl⟩
  | .orelse _ => exact ⟨rfl, rfl⟩
  | .arm cond _ more =>
      obtain ⟨ht, hv⟩ := more.walkConds_tables (walkExpr cond w)
      exact ⟨by rw [Arms.walkConds, ht, walkExpr_tables],
        by rw [Arms.walkConds, hv, walkExpr_visited]⟩

/-- A condition after the first is resolved when bodies have been parsed, but not in their
tables. -/
theorem Arms.walkConds_step {occ : List Occurrence} {Γ : Env} {s : ScopeId} {st : SymTable}
    (hF : NoIgnored F) (a : Arms τ Name Unit) {a' : Arms τ STEntry SymTable} {c : Count}
    {ps ps' : Parser τ} {w : Walk τ} (h : a.parse typeOf s st ps = some (a', ps'))
    (hs : s < ps.next) (hst : ∀ s' ∈ s :: st, s' < ps.next)
    (ctx : ReadCtx F Γ (s :: st) ps.tables c) (htr : Tracks typeOf F c c c w.tables)
    (hle : ∀ s x, c s x ≤ (F s x).length)
    (hocc : ∀ o ∈ a.occurrences Γ, o ∈ occ) :
    LogStep typeOf F (ReadOf typeOf occ) (a.condNodes Γ) w.log (a'.walkConds w).log := by
  match a with
  | .done =>
      cases h
      exact .refl _
  | .orelse body =>
      simp only [Arms.parse, Option.bind_eq_bind, Option.bind_eq_some_iff] at h
      obtain ⟨⟨b₁, ps₁⟩, -, h⟩ := h
      cases h
      exact .refl _
  | .arm cond body more =>
      simp only [Arms.parse, Option.bind_eq_bind, Option.bind_eq_some_iff] at h
      obtain ⟨c', hc', ⟨b₁, ps₁⟩, h₁, ⟨b₂, ps₂⟩, h₂, h⟩ := h
      cases h
      have hf := (body.parse_frame (Nat.lt_succ_self ps.next) h₁).closed hs
      have hsites : ∀ s' ∈ s :: st, ∀ x, sites ps₁.tables s' x = sites ps.tables s' x := by
        intro s' hs' x
        by_cases he : s' = s
        · subst he
          exact hf.own_eq x
        · exact hf.other s' x (hst s' hs') he
      have hocc₁ : ∀ o ∈ exprOccurrences Γ cond, o ∈ occ :=
        fun o ho => hocc o (by simp [Arms.occurrences, ho])
      have hfirst := walkExpr_step c' htr (fun _ _ => le_rfl) hle
        (ctx.expr_readable hF hc' hocc₁)
      rw [← exprOccurrences_nodes Γ hc'] at hfirst
      have ctx₁ : ReadCtx F Γ (s :: st) ps₁.tables c :=
        ⟨env_congr ctx.env hsites, fun s' hs' x => by rw [hsites s' hs', ctx.synced s' hs'],
          fun s' hs' x => by rw [hsites s' hs']; exact ctx.pre s' hs' x⟩
      have hrest := Arms.walkConds_step hF more (w := walkExpr c' w) h₂ (hs.trans_le hf.next_le)
        (fun s' hs' => (hst s' hs').trans_le hf.next_le) ctx₁
        (by rw [walkExpr_tables]; exact htr) hle
        (fun o ho => hocc o (by simp [Arms.occurrences, ho]))
      exact hfirst.trans hrest

section
variable {b' : Block τ STEntry SymTable} {e left right : Expr Name} {e' left' right' : Expr STEntry}

/-- An expression that is inferred and then generated is looked at twice. -/
theorem BodyCtx.expr_twice (ctx : BodyCtx typeOf F Γ st ps w) (hF : NoIgnored F)
    (he : e.resolve ps.tables st = some e') (hocc : ∀ o ∈ exprOccurrences Γ e, o ∈ occ) :
    BodyCtx typeOf F Γ st ps (walkExpr e' (walkExpr e' w)) ∧
      LogStep typeOf F (ReadOf typeOf occ) ((exprOccurrences Γ e).map (·.node)) w.log
        (walkExpr e' (walkExpr e' w)).log := by
  have s₁ := ctx.expr_step hF he hocc
  have ctx₁ : BodyCtx typeOf F Γ st ps (walkExpr e' w) := ctx.look (by simp) (by simp)
  have s₂ := s₁.trans (ctx₁.expr_step hF he hocc)
  exact ⟨ctx₁.look (by simp) (by simp), s₂.mono fun n hn => List.mem_append_left _ hn⟩

theorem Follows.expr (h : Follows typeOf F occ Γ (s :: st) ps ps' ms b') (hF : NoIgnored F)
    (he : e.resolve ps.tables (s :: st) = some e') (hocc : ∀ o ∈ exprOccurrences Γ e, o ∈ occ) :
    Follows typeOf F occ Γ (s :: st) ps ps' ((exprOccurrences Γ e).map (·.node) ++ ms)
      (.expr e' b') := by
  intro w ctx
  obtain ⟨ctx₂, hstep⟩ := ctx.expr_twice hF he hocc
  exact h.look ctx₂ hstep

theorem Follows.assign (h : Follows typeOf F occ Γ (s :: st) ps ps' ms b') (hF : NoIgnored F)
    (hl : left.resolve ps.tables (s :: st) = some left')
    (hr : right.resolve ps.tables (s :: st) = some right')
    (hoccl : ∀ o ∈ exprOccurrences Γ left, o ∈ occ)
    (hoccr : ∀ o ∈ exprOccurrences Γ right, o ∈ occ) :
    Follows typeOf F occ Γ (s :: st) ps ps'
      ((exprOccurrences Γ left).map (·.node) ++ (exprOccurrences Γ right).map (·.node) ++ ms)
      (.assign left' right' b') := by
  intro w ctx
  have s₁ := ctx.expr_step hF hl hoccl
  have ctx₁ : BodyCtx typeOf F Γ (s :: st) ps (walkExpr left' w) := ctx.look (by simp) (by simp)
  obtain ⟨ctx₂, s₂⟩ := ctx₁.expr_twice hF hr hoccr
  have s₃ := (s₁.trans s₂).trans (ctx₂.expr_step hF hl hoccl)
  have ctx₃ : BodyCtx typeOf F Γ (s :: st) ps
      (walkExpr left' (walkExpr right' (walkExpr right' (walkExpr left' w)))) :=
    ctx₂.look (by simp) (by simp)
  exact h.look ctx₃ (s₃.mono fun n hn => List.mem_append_left _ hn)

theorem Follows.letbind {id : Nat} {cap : CAPattern τ} {datatype : Option τ}
    {init : Option (Expr Name)} {init' : Option (Expr STEntry)}
    (h : Follows typeOf F occ (Γ.bind (letSites id cap)) (s :: st) ps₁ ps' ms b')
    (hF : NoIgnored F) (hinit : resolveInit ps.tables (s :: st) init = some init')
    (hlet : makeLetStmt typeOf s id datatype cap ps = some ps₁) (hset : Settled F ps.next ps₁ s)
    (hocc : ∀ o ∈ initOccurrences Γ init, o ∈ occ) :
    Follows typeOf F occ Γ (s :: st) ps ps' ((initOccurrences Γ init).map (·.node) ++ ms)
      (.letbind id (s :: st) cap datatype init' b') := by
  intro w ctx
  have hl := ctx.let_outcome hF hinit hlet hset hocc
  simp only [Block.walk, here]
  cases hr : walkLetbind typeOf cap datatype s init' w with
  | error w₁ =>
      rw [hr] at hl
      exact hl
  | ok w₁ =>
      rw [hr] at hl
      exact h.look hl.2 hl.1.step

theorem Follows.drop {node : Nat} {x : Name}
    (h : Follows typeOf F occ Γ (s :: st) ps ps' ms b') (hF : NoIgnored F)
    (hocc : ⟨node, Γ.meaning x, Γ.boundLate x⟩ ∈ occ) :
    Follows typeOf F occ Γ (s :: st) ps ps' (node :: ms) (.drop (s :: st) node x b') := by
  intro w ctx
  simp only [Block.walk, walkDrop]
  cases he : symGetsym w.tables (s :: st) x with
  | none => exact id
  | some e =>
      have hread := ctx.readCtx.drop_readable typeOf hF ctx.rest.isSome he hocc
      have hstep := Walk.read_step ctx.rest (fun _ _ => le_rfl) ctx.le hread
      have ctx₁ : BodyCtx typeOf F Γ (s :: st) ps (w.read (node, e)) :=
        ctx.look (by simp) (by simp)
      exact h.look ctx₁ hstep

variable (typeOf Γ occ) in
/-- A body in a table of its own follows its parse when it does so from the new table. -/
theorem Follows.body {body : Block τ Name Unit} {b₁ : Block τ STEntry SymTable}
    (h₁ : body.parse typeOf ps.next (s :: st) ps.push = some (b₁, ps₁))
    (hset : Settled F ps.next ps₁ s)
    (ih : Settled F ps.push.next ps₁ ps.next →
      Follows typeOf F occ (⟨[], body.names⟩ :: Γ) (ps.next :: s :: st) ps.push ps₁ ns b₁) :
    Follows typeOf F occ Γ (s :: st) ps ps₁ ns b₁ := by
  intro w ctx
  have hf := body.parse_frame (Nat.lt_succ_self ps.next) h₁
  have hlt : ps.next < ps₁.next := Nat.lt_of_succ_le hf.next_le
  have hnames := ctx.frame_names hf fun x => hset.made ps.next x le_rfl hlt
  exact ih (hset.inner le_rfl hlt) w (ctx.push hnames)

theorem Follows.while {body' : Block τ STEntry SymTable}
    (h : Follows typeOf F occ Γ (s :: st) ps₁ ps' ms b') (hF : NoIgnored F)
    (hbody : Follows typeOf F occ Γ (s :: st) ps ps₁ ns body') (hf : Frame typeOf s [] ps ps₁)
    (hset : Settled F ps.next ps₁ s) (he : e.resolve ps.tables (s :: st) = some e')
    (hocc : ∀ o ∈ exprOccurrences Γ e, o ∈ occ) :
    Follows typeOf F occ Γ (s :: st) ps ps' ((exprOccurrences Γ e).map (·.node) ++ ns ++ ms)
      (.while e' body' b') := by
  intro w ctx
  obtain ⟨ctx₂, hstep⟩ := ctx.expr_twice hF he hocc
  exact h.seq ctx hf hset ((hbody _ ctx₂).after hstep)

theorem Follows.for {id : Nat} {x : Name} {body' : Block τ STEntry SymTable}
    (h : Follows typeOf F occ Γ (s :: st) ps₁ ps' ms b') (hF : NoIgnored F)
    (hbody : Follows typeOf F occ (⟨[(x, .loopvar id x)], [x]⟩ :: Γ) (ps.next :: s :: st)
      (makeForVarEntry ps.next id x ps.push) ps₁ ns body')
    (hfb : Frame typeOf ps.next [] (makeForVarEntry ps.next id x ps.push) ps₁)
    (hs : s < ps.next) (hset : Settled F ps.next ps₁ s)
    (he : e.resolve ps.tables (ps.next :: s :: st) = some e')
    (hocc : ∀ o ∈ exprOccurrences (⟨[], [x]⟩ :: Γ) e, o ∈ occ) :
    Follows typeOf F occ Γ (s :: st) ps ps'
      ((exprOccurrences (⟨[], [x]⟩ :: Γ) e).map (·.node) ++ ns ++ ms)
      (.for id (ps.next :: s :: st) x e' body' b') := by
  intro w ctx
  have fx := makeForVarEntry_frame typeOf ps.next id x ps.push
  have hlt : ps.next < ps₁.next := Nat.lt_of_succ_le (fx.trans hfb).next_le
  have hFx : ∀ y, F ps.next y =
      sites (makeForVarEntry ps.next id x ps.push).tables ps.next y := by
    intro y
    rw [← hset.made ps.next y le_rfl hlt, hfb.own_eq]
  have ctx₀ := ctx.push (ctx.frame_names fx fun y => (hFx y).symm)
  obtain ⟨ctx₁, s₁⟩ := ctx₀.expr_twice hF he hocc
  obtain ⟨ctx₂, s₂⟩ := ctx₁.for_head (Q := ReadOf typeOf occ) rfl
    (ctx.unmade ps.next x le_rfl) hFx
  have s₃ := s₁.trans s₂
  rw [List.append_nil] at s₃
  exact h.seq ctx ((fx.trans hfb).closed hs) hset ((hbody _ ctx₂).after s₃)

end

mutual
/-- **The walk of a block follows its parse**, and reads every use as the text means it. -/
theorem Block.follows (b : Block τ Name Unit) {b' : Block τ STEntry SymTable} {s : ScopeId}
    {st : SymTable} {Γ : Env} {ps ps' : Parser τ} {occ : List Occurrence} (hF : NoIgnored F)
    (hs : s < ps.next) (h : b.parse typeOf s st ps = some (b', ps'))
    (hset : Settled F ps.next ps' s)
    (hocc : ∀ o ∈ b.occurrences Γ, o ∈ occ) :
    Follows typeOf F occ Γ (s :: st) ps ps' ((b.occurrences Γ).map (·.node)) b' := by
  cases b with
  | nil =>
      cases h
      intro w ctx
      exact ⟨ctx.rest, ctx.synced, .refl _⟩
  | letbind id note cap datatype init rest =>
      simp only [Block.parse, Option.bind_eq_bind, Option.bind_eq_some_iff] at h
      obtain ⟨init', hi, ps₁, h₁, ⟨b₂, ps₂⟩, h₂, h⟩ := h
      cases h
      simp only [Block.occurrences, List.mem_append] at hocc
      simp only [Block.occurrences, List.map_append]
      have f₁ := makeLetStmt_frame h₁
      have hs₁ := hs.trans_le f₁.next_le
      have hrest := rest.follows hF hs₁ h₂ (hset.mono f₁.next_le)
        fun o ho => hocc o (.inr ho)
      exact hrest.letbind hF hi h₁ (hset.earlier (rest.parse_frame hs₁ h₂) hs)
        fun o ho => hocc o (.inl ho)
  | expr e rest =>
      simp only [Block.parse, Option.bind_eq_bind, Option.bind_eq_some_iff] at h
      obtain ⟨e', he, ⟨b₂, ps₂⟩, h₂, h⟩ := h
      cases h
      simp only [Block.occurrences, List.mem_append] at hocc
      simp only [Block.occurrences, List.map_append]
      have hrest := rest.follows hF hs h₂ hset fun o ho => hocc o (.inr ho)
      exact hrest.expr hF he fun o ho => hocc o (.inl ho)
  | assign left right rest =>
      simp only [Block.parse, Option.bind_eq_bind, Option.bind_eq_some_iff] at h
      obtain ⟨l', hl, e', he, ⟨b₂, ps₂⟩, h₂, h⟩ := h
      cases h
      simp only [Block.occurrences, List.mem_append] at hocc
      simp only [Block.occurrences, List.map_append]
      have hrest := rest.follows hF hs h₂ hset fun o ho => hocc o (.inr ho)
      exact hrest.assign hF hl he (fun o ho => hocc o (.inl (.inl ho)))
        fun o ho => hocc o (.inl (.inr ho))
  | drop note node x rest =>
      simp only [Block.parse, Option.bind_eq_bind, Option.bind_eq_some_iff] at h
      obtain ⟨⟨b₂, ps₂⟩, h₂, h⟩ := h
      cases h
      simp only [Block.occurrences, List.mem_cons] at hocc
      have hrest := rest.follows hF hs h₂ hset fun o ho => hocc o (.inr ho)
      exact hrest.drop hF (hocc _ (.inl rfl))
  | block body rest =>
      simp only [Block.parse, Option.bind_eq_bind, Option.bind_eq_some_iff] at h
      obtain ⟨⟨b₁, ps₁⟩, h₁, ⟨b₂, ps₂⟩, h₂, h⟩ := h
      cases h
      simp only [Block.occurrences, List.mem_append] at hocc
      simp only [Block.occurrences, List.map_append]
      have f₁ := (body.parse_frame (Nat.lt_succ_self ps.next) h₁).closed hs
      have hs₁ := hs.trans_le f₁.next_le
      have hset₁ := hset.earlier (rest.parse_frame hs₁ h₂) hs
      have hrest := rest.follows hF hs₁ h₂ (hset.mono f₁.next_le)
        fun o ho => hocc o (.inr ho)
      have hbody : Follows typeOf F occ Γ (s :: st) ps ps₁ _ b₁ :=
        .body typeOf Γ occ h₁ hset₁ fun hin =>
          body.follows hF (Nat.lt_succ_self ps.next) h₁ hin fun o ho => hocc o (.inl ho)
      intro w ctx
      exact hrest.seq ctx f₁ hset₁ (hbody w ctx)
  | loop body rest =>
      simp only [Block.parse, Option.bind_eq_bind, Option.bind_eq_some_iff] at h
      obtain ⟨⟨b₁, ps₁⟩, h₁, ⟨b₂, ps₂⟩, h₂, h⟩ := h
      cases h
      simp only [Block.occurrences, List.mem_append] at hocc
      simp only [Block.occurrences, List.map_append]
      have f₁ := (body.parse_frame (Nat.lt_succ_self ps.next) h₁).closed hs
      have hs₁ := hs.trans_le f₁.next_le
      have hset₁ := hset.earlier (rest.parse_frame hs₁ h₂) hs
      have hrest := rest.follows hF hs₁ h₂ (hset.mono f₁.next_le)
        fun o ho => hocc o (.inr ho)
      have hbody : Follows typeOf F occ Γ (s :: st) ps ps₁ _ b₁ :=
        .body typeOf Γ occ h₁ hset₁ fun hin =>
          body.follows hF (Nat.lt_succ_self ps.next) h₁ hin fun o ho => hocc o (.inl ho)
      intro w ctx
      exact hrest.seq ctx f₁ hset₁ (hbody w ctx)
  | «while» cond body rest =>
      simp only [Block.parse, Option.bind_eq_bind, Option.bind_eq_some_iff] at h
      obtain ⟨c', hc', ⟨b₁, ps₁⟩, h₁, ⟨b₂, ps₂⟩, h₂, h⟩ := h
      cases h
      simp only [Block.occurrences, List.mem_append] at hocc
      simp only [Block.occurrences, List.map_append]
      have f₁ := (body.parse_frame (Nat.lt_succ_self ps.next) h₁).closed hs
      have hs₁ := hs.trans_le f₁.next_le
      have hset₁ := hset.earlier (rest.parse_frame hs₁ h₂) hs
      have hrest := rest.follows hF hs₁ h₂ (hset.mono f₁.next_le)
        fun o ho => hocc o (.inr ho)
      have hbody : Follows typeOf F occ Γ (s :: st) ps ps₁ _ b₁ :=
        .body typeOf Γ occ h₁ hset₁ fun hin =>
          body.follows hF (Nat.lt_succ_self ps.next) h₁ hin fun o ho => hocc o (.inl (.inr ho))
      exact hrest.while hF hbody f₁ hset₁ hc' fun o ho => hocc o (.inl (.inl ho))
  | «for» id note x list body rest =>
      simp only [Block.parse, Option.bind_eq_bind, Option.bind_eq_some_iff] at h
      obtain ⟨l', hl, ⟨b₁, ps₁⟩, h₁, ⟨b₂, ps₂⟩, h₂, h⟩ := h
      cases h
      simp only [Block.occurrences, List.mem_append] at hocc
      simp only [Block.occurrences, List.map_append]
      have fx := makeForVarEntry_frame typeOf ps.next id x ps.push
      have fb := (body.parse_frame (Nat.lt_succ_self _) h₁).closed (s := ps.next)
        (Nat.lt_succ_self ps.next)
      have f₁ := (fx.trans fb).closed hs
      have hs₁ := hs.trans_le f₁.next_le
      have hset₁ := hset.earlier (rest.parse_frame hs₁ h₂) hs
      have hlt : ps.next < ps₁.next := Nat.lt_of_succ_le (fx.trans fb).next_le
      have hrest := rest.follows hF hs₁ h₂ (hset.mono f₁.next_le)
        fun o ho => hocc o (.inr ho)
      have hbody := Follows.body typeOf (⟨[(x, .loopvar id x)], [x]⟩ :: Γ) occ h₁
        (hset₁.inner le_rfl hlt) fun hin =>
          body.follows hF (Nat.lt_succ_self _) h₁ hin fun o ho => hocc o (.inl (.inr ho))
      exact hrest.for hF hbody fb hs hset₁ hl fun o ho => hocc o (.inl (.inl ho))
  | ifs arms rest =>
      simp only [Block.parse, Option.bind_eq_bind, Option.bind_eq_some_iff] at h
      obtain ⟨⟨a₁, ps₁⟩, h₁, ⟨b₂, ps₂⟩, h₂, h⟩ := h
      cases h
      simp only [Block.occurrences, List.mem_append] at hocc
      simp only [Block.occurrences, List.map_append]
      have f₁ := arms.parse_frame hs h₁
      have hs₁ := hs.trans_le f₁.next_le
      have hset₁ := hset.earlier (rest.parse_frame hs₁ h₂) hs
      have hocca := fun o ho => hocc o (.inl ho)
      have hrest := rest.follows hF hs₁ h₂ (hset.mono f₁.next_le)
        fun o ho => hocc o (.inr ho)
      intro w ctx
      have s₁ := arms.walkConds_step hF h₁ hs ctx.open_lt ctx.readCtx ctx.rest ctx.le hocca
      have ctx₁ : BodyCtx typeOf F Γ (s :: st) ps (a₁.walkConds w) :=
        ctx.look (a₁.walkConds_tables w).1 (a₁.walkConds_tables w).2
      have s₂ := s₁.trans
        (arms.walkConds_step hF h₁ hs ctx₁.open_lt ctx₁.readCtx ctx₁.rest ctx₁.le hocca)
      have ctx₂ : BodyCtx typeOf F Γ (s :: st) ps (a₁.walkConds (a₁.walkConds w)) :=
        ctx₁.look (a₁.walkConds_tables _).1 (a₁.walkConds_tables _).2
      have harms := arms.bodies_follow hF hs h₁ hset₁ hocca _ ctx₂
      refine hrest.seq ctx f₁ hset₁ (Runs.mono ?_ (arms.nodes_split Γ))
      exact harms.after (s₂.mono fun n hn => List.mem_append_left _ hn)
/-- The bodies of an `if` follow their parse, and read all uses but those of the conditions. -/
theorem Arms.bodies_follow (a : Arms τ Name Unit) {a' : Arms τ STEntry SymTable} {s : ScopeId}
    {st : SymTable} {Γ : Env} {ps ps' : Parser τ} {occ : List Occurrence} (hF : NoIgnored F)
    (hs : s < ps.next) (h : a.parse typeOf s st ps = some (a', ps'))
    (hset : Settled F ps.next ps' s)
    (hocc : ∀ o ∈ a.occurrences Γ, o ∈ occ) (w : Walk τ)
    (ctx : BodyCtx typeOf F Γ (s :: st) ps w) :
    Runs typeOf F occ ps' (a.bodyNodes Γ) w (a'.walkBodies typeOf w) := by
  cases a with
  | done =>
      cases h
      exact ⟨ctx.rest, ctx.synced, .refl _⟩
  | orelse body =>
      simp only [Arms.parse, Option.bind_eq_bind, Option.bind_eq_some_iff] at h
      obtain ⟨⟨b₁, ps₁⟩, h₁, h⟩ := h
      cases h
      exact Follows.body typeOf Γ occ h₁ hset
        (fun hin => body.follows hF (Nat.lt_succ_self ps.next) h₁ hin hocc) w ctx
  | arm cond body more =>
      simp only [Arms.parse, Option.bind_eq_bind, Option.bind_eq_some_iff] at h
      obtain ⟨c', -, ⟨b₁, ps₁⟩, h₁, ⟨b₂, ps₂⟩, h₂, h⟩ := h
      cases h
      simp only [Arms.occurrences, List.mem_append] at hocc
      have f₁ := (body.parse_frame (Nat.lt_succ_self ps.next) h₁).closed hs
      have hs₁ := hs.trans_le f₁.next_le
      have hset₁ := hset.earlier (more.parse_frame hs₁ h₂) hs
      have hbody := Follows.body typeOf Γ occ h₁ hset₁
        (fun hin => body.follows hF (Nat.lt_succ_self ps.next) h₁ hin
          fun o ho => hocc o (.inl (.inr ho))) w ctx
      simp only [Arms.walkBodies, Arms.bodyNodes]
      cases hr : b₁.walk typeOf w with
      | error w₁ =>
          rw [hr] at hbody
          exact hbody
      | ok w₁ =>
          rw [hr] at hbody
          exact (more.bodies_follow hF hs₁ h₂ (hset.mono f₁.next_le)
            (fun o ho => hocc o (.inr ho)) w₁
            (ctx.closed f₁ hset₁ hbody.rest hbody.synced)).after hbody.step
end

end CaLang.Shielding
