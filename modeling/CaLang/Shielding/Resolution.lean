import CaLang.Shielding.Accepted

/-! # Shadowing is resolved

`Fn.ShadowingResolved` says of a function that the parser accepts it and that in the code
generation pass every use designates the storage and the type of the binding the text means,
while between any two statements every entry designates the last binding visited and at the end
is as the parser left it.

`Fn.shadowingResolved_iff` — this holds exactly when no use means a name in front of `_`, which
is never registered, and no `drop` of a name stands in a scope that binds the name only further
down, where the complete table misleads it.
-/

namespace CaLang.Shielding

variable {τ : Type} {typeOf : Site → τ}

/-- The events are as the text means them, for a parser that ended in state `ps`. -/
structure LogCorrect (typeOf : Site → τ) (fn : Fn τ Name Unit) (ps : Parser τ)
    (l : List (Event τ)) : Prop where
  reads : ∀ n v, .read n v ∈ l → ∃ o ∈ fn.occurrences, o.node = n ∧
    ∃ site, o.site = some site ∧ v = ⟨site, some (typeOf site), some site⟩
  points : ∀ post pre t, l = post ++ .point t :: pre → ∀ s x r, t s x = some r →
    (r.toList.map (·.site) = (sites ps.tables s x).rotate (visited pre s x)) ∧
      ∀ k (h : k < (sites ps.tables s x).length), visited pre s x = k + 1 →
        r.current.site = (sites ps.tables s x)[k]

/-- **Shadowing is resolved** in the function: the storage and type of every use are those of
the binding it means, and the lists of bindings are where the events say. -/
def Fn.ShadowingResolved (typeOf : Site → τ) (fn : Fn τ Name Unit) : Prop :=
  ∃ prog ps, fn.parse typeOf = some (prog, ps) ∧
    Outcome (prog.walk typeOf ps.tables)
      (fun w => LogCorrect typeOf fn ps w.log ∧
        (∀ o ∈ fn.occurrences, HasRead w.log o.node) ∧
        ∀ s x, (w.tables s x).map (Ring.map (·.site)) = (ps.tables s x).map (Ring.map (·.site)))
      (fun w => LogCorrect typeOf fn ps w.log)

/-- The code generation pass reaches the end of the function. -/
def Fn.Generates (typeOf : Site → τ) (fn : Fn τ Name Unit) : Prop :=
  ∀ prog ps, fn.parse typeOf = some (prog, ps) → ∃ w, prog.walk typeOf ps.tables = .ok w

/-- The use is looked up early enough, and means a name that is registered. -/
def Occurrence.Direct (o : Occurrence) : Prop :=
  o.late = false ∧ ∀ site, o.site = some site → site.isIgnored = false

/-! ### The start of a function -/

theorem foldlM_addFnArgs_sites {xs : List Name} {t t' : Tables τ} (hx : xs.Nodup)
    (h : xs.foldlM (addFnArgs typeOf) t = some t') (s : ScopeId) (x : Name) :
    sites t' s x = sites t s x ++ if s = 0 ∧ x ∈ xs then [.param x] else [] := by
  induction xs generalizing t with
  | nil =>
      simp only [List.foldlM_nil] at h
      cases h
      simp
  | cons y ys ih =>
      obtain ⟨hy, hnd⟩ := List.nodup_cons.mp hx
      simp only [List.foldlM_cons, Option.bind_eq_bind, Option.bind_eq_some_iff] at h
      obtain ⟨t₁, h₁, h₂⟩ := h
      unfold addFnArgs at h₁
      split at h₁
      · cases h₁
      · rename_i hnone
        cases h₁
        have h0 : sites t 0 y = [] := by
          by_contra hne
          exact hnone ((sites_ne_nil t 0 y).mp hne)
        rw [ih hnd h₂, sites_set]
        by_cases hs : s = 0
        · subst hs
          by_cases hxy : x = y
          · subst hxy
            simp [h0, hy, Ring.toList]
          · simp [hxy]
        · simp [hs]

theorem foldlM_addFnArgs_vars {P : CAVariable τ → Prop} {xs : List Name} {t t' : Tables τ}
    (hP : ∀ x, P ⟨.param x, some (typeOf (.param x)), none⟩) (h₀ : AllVars P t)
    (h : xs.foldlM (addFnArgs typeOf) t = some t') : AllVars P t' := by
  induction xs generalizing t with
  | nil =>
      cases h
      exact h₀
  | cons y ys ih =>
      simp only [List.foldlM_cons, Option.bind_eq_bind, Option.bind_eq_some_iff] at h
      obtain ⟨t₁, h₁, h₂⟩ := h
      unfold addFnArgs at h₁
      split at h₁
      · cases h₁
      · cases h₁
        refine ih (allVars_set h₀ 0 y _ ?_) h₂
        intro v hv
        obtain rfl : v = _ := List.mem_singleton.mp hv
        exact hP y

variable (typeOf) in
theorem foldlM_addFnArgs_isSome {xs : List Name} {t : Tables τ} (hx : xs.Nodup)
    (h : ∀ x ∈ xs, (t 0 x).isSome = false) :
    ∃ t', xs.foldlM (addFnArgs typeOf) t = some t' := by
  induction xs generalizing t with
  | nil => exact ⟨t, rfl⟩
  | cons y ys ih =>
      obtain ⟨hy, hnd⟩ := List.nodup_cons.mp hx
      obtain ⟨t', ht'⟩ := ih (t := t.set 0 y ⟨⟨.param y, some (typeOf (.param y)), none⟩, []⟩) hnd
        (fun x hx => by
          have hne : x ≠ y := fun e => hy (e ▸ hx)
          simpa [Tables.set, hne] using h x (by simp [hx]))
      refine ⟨t', ?_⟩
      rw [List.foldlM_cons]
      simpa [addFnArgs, h y (by simp)] using ht'

/-- A variable as the parser leaves it. -/
structure CAVariable.Parsed (typeOf : Site → τ) (v : CAVariable τ) : Prop where
  value : v.llvmValue = none
  real : v.site.isIgnored = false
  type : v.datatype = none ∨ v.datatype = some (typeOf v.site)
  param : ∀ x, v.site = .param x → v.datatype = some (typeOf v.site)

theorem CAVariable.Registered.parsed {v : CAVariable τ} (h : v.Registered typeOf) :
    v.Parsed typeOf := by
  obtain ⟨hv, ht, ⟨id, x, hs⟩ | ⟨id, x, hs⟩⟩ := h
  · exact ⟨hv, by rw [hs]; rfl, ht, fun y hy => by rw [hs] at hy; cases hy⟩
  · exact ⟨hv, by rw [hs]; rfl, ht, fun y hy => by rw [hs] at hy; cases hy⟩

/-- What the parser leaves of a function: its tables and the tree of its body. -/
structure Parses (typeOf : Site → τ) (fn : Fn τ Name Unit) (t : Tables τ)
    (b : Block τ STEntry SymTable) (ps : Parser τ) : Prop where
  params : fn.params.foldlM (addFnArgs typeOf) (fun _ _ => none) = some t
  body : fn.body.parse typeOf 0 [] ⟨t, 1⟩ = some (b, ps)

theorem Fn.parse_eq_some {fn : Fn τ Name Unit} {prog : Fn τ STEntry SymTable} {ps : Parser τ} :
    fn.parse typeOf = some (prog, ps) ↔
      ∃ t b, Parses typeOf fn t b ps ∧ prog = ⟨fn.params, b⟩ := by
  simp only [Fn.parse, Option.bind_eq_bind, Option.bind_eq_some_iff]
  constructor
  · rintro ⟨t, ht, ⟨b, ps'⟩, hb, h⟩
    cases h
    exact ⟨t, b, ⟨ht, hb⟩, rfl⟩
  · rintro ⟨t, b, ⟨ht, hb⟩, rfl⟩
    exact ⟨t, ht, ⟨b, ps⟩, hb, rfl⟩

section
variable {fn : Fn τ Name Unit} {t : Tables τ} {b : Block τ STEntry SymTable} {ps : Parser τ}

theorem Parses.sites_start (h : Parses typeOf fn t b ps) (hnd : fn.params.Nodup) (s : ScopeId)
    (x : Name) : sites t s x = if s = 0 ∧ x ∈ fn.params then [.param x] else [] := by
  rw [foldlM_addFnArgs_sites hnd h.params s x]
  rfl

theorem Parses.frame (h : Parses typeOf fn t b ps) : Frame typeOf 0 fn.body.names ⟨t, 1⟩ ps :=
  fn.body.parse_frame Nat.zero_lt_one h.body

theorem Parses.vars (h : Parses typeOf fn t b ps) : AllVars (·.Parsed typeOf) ps.tables :=
  h.frame.vars _ (fun _ hv => hv.parsed) (foldlM_addFnArgs_vars
    (fun x => ⟨rfl, rfl, .inr rfl, fun _ _ => rfl⟩) (fun _ _ _ hr => by cases hr) h.params)

theorem Parses.noIgnored (h : Parses typeOf fn t b ps) : NoIgnored (sites ps.tables) := by
  intro s x site hm
  unfold sites at hm
  cases hr : ps.tables s x with
  | none =>
      rw [hr] at hm
      cases hm
  | some r =>
      rw [hr] at hm
      obtain ⟨v, hv, rfl⟩ := List.mem_map.mp hm
      exact (h.vars s x r hr v hv).real

/-- The parameters have the types of their declarations from the start. -/
theorem Parses.tracks (h : Parses typeOf fn t b ps) (hnd : fn.params.Nodup) :
    Tracks typeOf (sites ps.tables) (fun _ _ => 0) (up 0 fn.params.toFinset fun _ _ => 0)
      (fun _ _ => 0) ps.tables := by
  refine ⟨fun s x hn => by simp [sites, hn], ?_⟩
  intro s x r hr
  refine ⟨r.toList, r.turned_toList, by simp [sites, hr], fun v hv => (h.vars s x r hr v hv).type,
    ?_, fun i hi h0 => by omega, fun i hi _ => (h.vars s x r hr _ (List.getElem_mem hi)).value⟩
  intro i hi hlt
  unfold up at hlt
  dsimp only at hlt
  split at hlt
  · rename_i hsx
    obtain ⟨rfl, hx⟩ := hsx
    obtain rfl : i = 0 := by omega
    obtain ⟨new, hnew, -⟩ := h.frame.own x
    rw [h.sites_start hnd, if_pos ⟨rfl, List.mem_toFinset.mp hx⟩] at hnew
    have hsite : r.toList[0].site = .param x := by
      have hmap : r.toList.map (·.site) = [.param x] ++ new := by
        rw [← hnew]
        simp [sites, hr]
      have hhead : (r.toList.map (·.site))[0]? = some (.param x) := by
        rw [hmap, List.cons_append, List.getElem?_cons_zero]
      simpa using hhead
    exact (h.vars 0 x r hr _ (List.getElem_mem hi)).param x hsite
  · omega

/-- The parser starts the body with the parameters registered. -/
theorem parseCtx_params (ht : fn.params.foldlM (addFnArgs typeOf) (fun _ _ => none) = some t)
    (hnd : fn.params.Nodup) : ParseCtx (paramEnv fn) [0] ⟨t, 1⟩ := by
  have hsites : ∀ s x, sites t s x = if s = 0 ∧ x ∈ fn.params then [.param x] else [] := by
    intro s x
    rw [foldlM_addFnArgs_sites hnd ht s x]
    rfl
  refine ⟨.cons ?_ .nil, by simp, by simp, ?_⟩
  · intro x
    have hfilter : (fn.params.map fun y => (y, Site.param y)).filter
        (fun p => !p.2.isIgnored) = fn.params.map fun y => (y, Site.param y) := by
      simp [List.filter_map, Function.comp_def, Site.isIgnored]
    rw [LexScope.real, hfilter, lookup_map_pair, hsites]
    by_cases hx : x ∈ fn.params <;> simp [hx]
  · intro s x hs
    have hne : s ≠ 0 := Nat.ne_of_gt hs
    rw [hsites]
    simp [hne]

/-- Every parameter is turned to and given its storage. -/
theorem initFnParams_done {F : ScopeId → Name → List Site} {Q : Nat → CAVariable τ → Prop}
    {D : Count} (xs : List Name) (hx : xs.Nodup) {A : Finset Name} (hA : ∀ x ∈ xs, x ∉ A)
    (hF : ∀ x ∈ xs, 0 < (F 0 x).length) {w : Walk τ}
    (h : Tracks typeOf F (up 0 A fun _ _ => 0) D (up 0 A fun _ _ => 0) w.tables)
    (hv : visited w.log = up 0 A fun _ _ => 0) :
    Tracks typeOf F (up 0 (A ∪ xs.toFinset) fun _ _ => 0) D
        (up 0 (A ∪ xs.toFinset) fun _ _ => 0) (xs.foldl initFnParam w).tables ∧
      visited (xs.foldl initFnParam w).log = up 0 (A ∪ xs.toFinset) (fun _ _ => 0) ∧
      LogStep typeOf F Q [] w.log (xs.foldl initFnParam w).log := by
  induction xs generalizing A w with
  | nil => simpa using ⟨h, hv, LogStep.refl w.log⟩
  | cons x xs ih =>
      obtain ⟨hxs, hnd⟩ := List.nodup_cons.mp hx
      have hxA : x ∉ A := hA x (by simp)
      have hset : A ∪ (x :: xs).toFinset = insert x A ∪ xs.toFinset := by
        ext y
        simp only [Finset.mem_union, List.toFinset_cons, Finset.mem_insert, List.mem_toFinset]
        tauto
      have hturn := h.forwards [x] (by simp) (by simpa using hxA)
      have hins : A ∪ [x].toFinset = insert x A := by
        ext y
        simp
      rw [hins] at hturn
      have hfit : Fits F 0 {x} (up 0 A fun _ _ => 0) := by
        intro y hy
        obtain rfl := Finset.mem_singleton.mp hy
        rw [up_of_not_mem hxA]
        exact hF y (by simp)
      have hone := up_insert 0 hxA fun _ _ => 0
      rw [hone] at hturn
      have hb := Tracks.store (B := ∅) (Finset.mem_singleton_self x) (by simp) hfit
        (by rw [up_empty]; exact hturn)
      have hlog : (w.modifyEntry 0 x (varshieldingRotateVariable false)).log = w.log := by simp
      have hv' : visited (initFnParam w x).log = up 0 (insert x A) (fun _ _ => 0) := by
        rw [initFnParam, visited_makeStorage, hlog, hv, ← hone]
      have hstep := makeStorage_step typeOf F Q 0
        (w.modifyEntry 0 x (varshieldingRotateVariable false)) x
      rw [hlog] at hstep
      rw [List.foldl_cons, hset]
      obtain ⟨h₁, h₂, h₃⟩ := ih hnd (A := insert x A) (w := initFnParam w x)
        (fun y hy => by
          rw [Finset.mem_insert, not_or]
          exact ⟨fun e => hxs (e ▸ hy), hA y (by simp [hy])⟩)
        (fun y hy => hF y (by simp [hy]))
        (by rw [hone]; simpa [initFnParam] using hb) hv'
      exact ⟨h₁, h₂, hstep.trans h₃⟩

/-- The pass starts its walk of the body with every parameter visited once. -/
theorem Parses.start (h : Parses typeOf fn t b ps) (hnd : fn.params.Nodup)
    {Q : Nat → CAVariable τ → Prop} :
    BodyCtx typeOf (sites ps.tables) (paramEnv fn) [0] ⟨t, 1⟩
        (fn.params.foldl initFnParam ⟨ps.tables, []⟩) ∧
      LogStep typeOf (sites ps.tables) Q [] []
        (fn.params.foldl initFnParam ⟨ps.tables, []⟩).log := by
  have hsites := h.sites_start hnd
  have hpre : ∀ s x, sites t s x <+: sites ps.tables s x := by
    intro s x
    by_cases hs : s = 0
    · subst hs
      exact h.frame.own_prefix x
    · rw [hsites]
      simp [hs]
  have hpos : ∀ x ∈ fn.params, 0 < (sites ps.tables 0 x).length := by
    intro x hx
    have hle := (hpre 0 x).length_le
    rw [hsites, if_pos ⟨rfl, hx⟩] at hle
    exact hle
  obtain ⟨htr, hv, hstep⟩ := initFnParams_done (Q := Q) (w := ⟨ps.tables, []⟩) fn.params hnd
    (A := ∅) (by simp) hpos (by simpa using h.tracks hnd) (by rw [up_empty]; rfl)
  rw [Finset.empty_union] at htr hv
  have hparse := parseCtx_params h.params hnd
  refine ⟨⟨?_, hparse.open_lt, hparse.nodup, ?_, hparse.unmade, hpre, ?_⟩, hstep⟩
  · cases hparse.env with
    | cons hseen _ =>
      refine .cons ⟨hseen, ?_⟩ .nil
      intro x
      obtain ⟨new, hnew, hx⟩ := h.frame.own x
      have hstart : sites t 0 x ≠ [] ↔ x ∈ fn.params := by
        rw [hsites]
        by_cases hx : x ∈ fn.params <;> simp [hx]
      rw [List.mem_append, ← hstart, ← hx, hnew, Ne, Ne, Ne, List.append_eq_nil_iff, not_and_or]
  · intro s x
    rw [hv, hsites]
    unfold up
    by_cases hs : s = 0 ∧ x ∈ fn.params <;> simp [hs]
  · unfold AtRest
    rw [hv]
    exact htr

/-- **The pass over a function** reads every use as its occurrence asks and ends where it
started. -/
theorem Parses.walk_outcome (h : Parses typeOf fn t b ps) (hnd : fn.params.Nodup) :
    Outcome ((⟨fn.params, b⟩ : Fn τ STEntry SymTable).walk typeOf ps.tables)
      (fun w => LogSound typeOf (sites ps.tables) (ReadOf typeOf fn.occurrences) w.log ∧
        (∀ o ∈ fn.occurrences, HasRead w.log o.node) ∧
        AtRest typeOf (sites ps.tables) w.log w.tables ∧
        ∀ s x, visited w.log s x = (sites ps.tables s x).length)
      (fun w => LogSound typeOf (sites ps.tables) (ReadOf typeOf fn.occurrences) w.log) := by
  obtain ⟨ctx, hstep⟩ := h.start hnd (Q := ReadOf typeOf fn.occurrences)
  have hset : Settled (sites ps.tables) 1 ps 0 := ⟨fun _ _ _ _ => rfl, fun _ => List.prefix_rfl⟩
  have hfollows : Follows typeOf (sites ps.tables) fn.occurrences (paramEnv fn) [0] _ ps _ b :=
    fn.body.follows h.noIgnored Nat.zero_lt_one h.body hset fun _ ho => ho
  have hrun := Follows.look (w := ⟨ps.tables, []⟩) hfollows ctx hstep
  unfold Fn.walk
  revert hrun
  cases b.walk typeOf (fn.params.foldl initFnParam ⟨ps.tables, []⟩).point with
  | ok w =>
      intro hrun
      refine ⟨hrun.step.sound trivial, ?_, hrun.rest, hrun.synced⟩
      intro o ho
      exact hrun.step.new o.node (List.mem_append_right _ (List.mem_map_of_mem ho))
  | error w =>
      intro hrun
      exact hrun trivial

/-! ### The exact condition -/

theorem LogSound.points {l : List (Event τ)} {Q : Nat → CAVariable τ → Prop}
    (h : LogSound typeOf (sites ps.tables) Q l) {post pre : List (Event τ)} {u : Tables τ}
    (hl : l = post ++ .point u :: pre) (s : ScopeId) (x : Name) (r : CAVariableShielding τ)
    (hr : u s x = some r) :
    (r.toList.map (·.site) = (sites ps.tables s x).rotate (visited pre s x)) ∧
      ∀ k (h : k < (sites ps.tables s x).length), visited pre s x = k + 1 →
        r.current.site = (sites ps.tables s x)[k] := by
  obtain ⟨L, hL, ok⟩ := (h.point hl).entry s x r hr
  refine ⟨?_, ?_⟩
  · rw [hL, List.map_rotate, ok.sites]
  · intro k hk hv
    rw [hv] at hL
    have hk' : k < L.length := by rwa [ok.length]
    rw [hL.current hk']
    simp [← ok.sites]

theorem LogSound.correct {l : List (Event τ)}
    (h : LogSound typeOf (sites ps.tables) (ReadOf typeOf fn.occurrences) l)
    (hb : ∀ o ∈ fn.occurrences, o.site.isSome) (hdir : ∀ o ∈ fn.occurrences, o.Direct) :
    LogCorrect typeOf fn ps l := by
  refine ⟨?_, fun post pre u hl s x r hr => h.points hl s x r hr⟩
  intro n v hm
  obtain ⟨o, ho, hn, hfact⟩ := h.read hm
  obtain ⟨site, hsite⟩ := Option.isSome_iff_exists.mp (hb o ho)
  obtain ⟨hlate, hreal⟩ := hdir o ho
  exact ⟨o, ho, hn, site, hsite, hfact.sound hlate site hsite (hreal site hsite)⟩

theorem AtRest.restored {l : List (Event τ)} {u : Tables τ}
    (h : AtRest typeOf (sites ps.tables) l u)
    (hv : ∀ s x, visited l s x = (sites ps.tables s x).length) (s : ScopeId) (x : Name) :
    (u s x).map (Ring.map (·.site)) = (ps.tables s x).map (Ring.map (·.site)) := by
  cases hu : u s x with
  | none =>
      have h0 := h.absent s x hu
      have hp : ps.tables s x = none := by
        rw [← Option.not_isSome_iff_eq_none, ← sites_ne_nil, h0]
        simp
      rw [hp]
  | some r =>
      obtain ⟨L, hL, ok⟩ := h.entry s x r hu
      have hsome : (ps.tables s x).isSome := by
        rw [← sites_ne_nil, ← h.isSome, hu]
        rfl
      obtain ⟨r', hr'⟩ := Option.isSome_iff_exists.mp hsome
      have hfull : r.Turned L L.length := by
        rw [hv, ← ok.length] at hL
        exact hL
      have hlist : r.toList = L := by
        have h0 := hfull.full
        rwa [Ring.Turned, List.rotate_zero] at h0
      rw [hr', Option.map_some, Option.map_some, Option.some.injEq, ← Ring.toList_inj,
        Ring.toList_map, Ring.toList_map, hlist, ok.sites]
      simp [sites, hr']

end

/-- `let x = 1; { drop x; let x = 2; }` -/
def lateDrop : Fn Unit Name Unit :=
  ⟨[], .letbind 0 () (.var 0 []) none (some (.op []))
    (.block (.drop () 7 0 (.letbind 1 () (.var 0 []) none (some (.op [])) .nil)) .nil)⟩

/-- `let x = 1; let x @ _ = 2; x;` -/
def ignoredBinding : Fn Unit Name Unit :=
  ⟨[], .letbind 0 () (.var 0 []) none (some (.op []))
    (.letbind 1 () (.ignoreOne [0]) none (some (.op [])) (.expr (.id 7 0) .nil))⟩

/-- `fn f(x) { let x = x; { let x = x; drop x; } x; }` -/
def nestedLets : Fn Unit Name Unit :=
  ⟨[0], .letbind 0 () (.var 0 []) none (some (.id 7 0))
    (.block (.letbind 1 () (.var 0 []) none (some (.id 8 0)) (.drop () 9 0 .nil))
      (.expr (.id 10 0) .nil))⟩

/-- The uses read, with what each designated. -/
def readsOf : List (Event τ) → List (Nat × CAVariable τ)
  | [] => []
  | .read n v :: l => (n, v) :: readsOf l
  | .bind _ _ :: l => readsOf l
  | .point _ :: l => readsOf l

theorem mem_readsOf {l : List (Event τ)} {n : Nat} {v : CAVariable τ} :
    (n, v) ∈ readsOf l ↔ Event.read n v ∈ l := by
  induction l with
  | nil => simp [readsOf]
  | cons e l ih => cases e <;> simp [readsOf, ih]

end CaLang.Shielding
