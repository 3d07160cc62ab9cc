import CaLang.Parser.ScopeStack

/-! # The programs that keep the scope discipline

Without `-main` a function at the top is entered with no function's table and no return type
(`State.Free`), and leaves both so.  Inside a function there is a table, and nothing that resets it
restores the scopes: **the disciplined trees are the tidy ones**.
-/

namespace CaLang.Parser

variable {m : Bool} {s s' s'' : State}

/-! ### Restoring -/

theorem Restores.refl (hs : WellScoped m s) : Restores m s s := ⟨.refl hs, rfl⟩

theorem Restores.then (h : Restores m s s') (hsc : s''.scopes = s'.scopes)
    (hr : s''.currFnRettype = s'.currFnRettype) : Restores m s s'' :=
  ⟨h.toKeeps.then hsc, hr.trans h.rettype⟩

theorem Restores.around {s₁ s₂ : State} (h : Restores m s₁ s₂) (h₁ : s₁.scopes = s.scopes)
    (hr₁ : s₁.currFnRettype = s.currFnRettype) (h₂ : s'.scopes = s₂.scopes)
    (hr₂ : s'.currFnRettype = s₂.currFnRettype) : Restores m s s' :=
  ⟨h.toKeeps.around h₁ h₂, hr₂.trans (h.rettype.trans hr₁)⟩

theorem Restores.pop (hs : WellScoped m s) (h : Restores m (pushNewSymtable s) s') :
    Restores m s (popSymtable s') :=
  ⟨h.toKeeps.pop hs, popSymtable_currFnRettype.trans h.rettype⟩

theorem Restores.makeStructType (hs : WellScoped m s)
    (h : Restores m (resetArglistWithNewSymtable s) s') : Restores m s (makeStructType s') :=
  ⟨h.toKeeps.makeStructType hs, popSymtable_currFnRettype.trans h.rettype⟩

/-- The `extern` flag is reset by the end of every extern declaration. -/
theorem Tree.externFlag_parse {c : Symbol} (t : Tree c) :
    (t.parse m s).externFlag = (s.externFlag && !t.hasExtern) := by
  induction t generalizing s with
  | atom | noArgs | noFields | noClause | retVoid | label _ | noStmt | noTraitFn | noImplFn =>
      exact (Bool.and_true _).symm
  | operands left right ihl ihr | nextParam left _ right ihl ihr | stmtThen left right ihl ihr
  | traitDefault left right ihl ihr | implFn left right ihl ihr =>
      refine ihr.trans ?_
      rw [ihl, hasExtern, Bool.not_or, Bool.and_assoc]
  | ifexpr cond thens elses ihc iht ihe | clause cond thens elses ihc iht ihe =>
      refine ihe.trans ?_
      rw [iht, ihc, hasExtern, Bool.not_or, Bool.not_or, Bool.and_assoc, Bool.and_assoc,
        Bool.and_assoc]
  | stmtexprListBlock list value ihl ihv | forStmt list value ihl ihv =>
      refine popSymtable_externFlag.trans (ihv.trans ?_)
      rw [ihl, hasExtern, Bool.not_or, Bool.and_assoc]
      rfl
  | stmtListBlock list ih => exact popSymtable_externFlag.trans ih
  | firstParam _ type ih | someArgs type _ ih | someFields type ih | control type ih
  | simple type ih => exact ih
  | retExpr value ih =>
      simp only [parse, makeStmtRetExpr]
      split <;> exact ih
  | structDef _ members ih => exact popSymtable_externFlag.trans ih
  | traitDef _ defs ih => exact ih
  | typeImpl _ _ defs ih => exact ih
  | fnUnit fn ih => exact ih
  | fnDefine name args ret rettype body iha ihr ihb =>
      have hm : ∀ s : State, (makeFnDef m s).externFlag = s.externFlag := by
        intro s
        cases m <;> exact popSymtable_externFlag
      simp only [parse, fnProto, hm, ihb, makeFnProto_externFlag, ihr, iha,
        fnProtoName_externFlag, hasExtern, Bool.not_or, Bool.and_assoc]
  | fnDecl name args ret rettype iha ihr =>
      simp only [parse, makeFnDecl, enterMain, hasExtern, Bool.not_true, Bool.and_false]
      split <;> rfl
  | traitProto name args ret rettype rest iha ihr ihs =>
      simp only [parse, fnProto, ihs, popSymtable_externFlag, makeFnProto_externFlag, ihr, iha,
        fnProtoName_externFlag, hasExtern, Bool.not_or, Bool.and_assoc]

/-! ### Without `-main` -/

/-- No function is being parsed. -/
structure State.Free (s : State) : Prop where
  fn : s.currFnSymtable = none
  rettype : s.currFnRettype = 0

theorem Restores.free (h : Restores m s s') (hf : s.Free) : s'.Free :=
  ⟨h.fn.trans hf.fn, h.rettype.trans hf.rettype⟩

theorem Restores.of_free (h : Restores m s s') (hf : s'.Free) : s.Free :=
  ⟨h.fn.symm.trans hf.fn, h.rettype.symm.trans hf.rettype⟩

theorem retGuard_false {noRet : Bool} : RetGuard false s noRet := nofun

/-- What popping the table of a function keeps. -/
theorem Keeps.of_fnProtoName {s₁ : State} (h : Keeps false (fnProtoName false s₁) s')
    (hs : WellScoped false s) (h₁ : s₁.scopes = s.scopes) (h' : s''.scopes =
      (s'.tables, s'.parent, s.currSymtable, s.currFnSymtable)) : Keeps false s s'' := by
  have hsc := scopes_fnProtoName (m := false) (s := s₁)
  have hw := h.wellScoped
  simp only [State.scopes, Prod.mk.injEq] at hsc h₁ h'
  obtain ⟨ht, hp, hc, -⟩ := hsc
  obtain ⟨ht₁, hp₁, hc₁, hf₁⟩ := h₁
  obtain ⟨ht', hp', hc', hf'⟩ := h'
  have hle : s.tables ≤ s'.tables := by
    have := h.tables
    rw [ht, ht₁] at this
    exact (Nat.le_succ _).trans this
  refine ⟨hc', hf', by rw [ht']; exact hle, ?_, ?_⟩
  · intro t hlt
    rw [hp', h.parent t (by rw [ht, ht₁]; exact hlt.trans (Nat.lt_succ_self _)), hp,
      Function.update_of_ne (by rw [ht₁]; exact hlt.ne), hp₁]
  · exact ⟨by rw [hc', ht']; exact hs.curr.trans_le hle,
      fun f h => by rw [hf'] at h; rw [ht']; exact (hs.fn f h).trans_le hle,
      by rw [hp']; exact hw.down, Bool.noConfusion⟩

/-- A function definition at the top restores the scopes. -/
theorem restores_makeFnDef (hs : WellScoped false s) (hf : s.Free)
    (h : Keeps false (fnProtoName false s) s') : Restores false s (makeFnDef false s') := by
  refine ⟨h.of_fnProtoName hs rfl ?_, hf.rettype.symm⟩
  simp only [makeFnDef, enterMain, h.pop_fn hs, State.scopes, hf.fn, State.outer]
  rfl

/-- An extern declaration at the top restores the scopes. -/
theorem restores_makeFnDecl (hs : WellScoped false s) (hf : s.Free)
    (h : Keeps false (fnProtoName false { s with externFlag := true }) s') :
    Restores false s (makeFnDecl false s') := by
  have hw : WellScoped false { s with externFlag := true } := hs.of_scopes rfl
  have hfn : s'.currFnSymtable = none := h.fn
  refine ⟨h.of_fnProtoName hs rfl ?_, hf.rettype.symm⟩
  simp only [makeFnDecl, enterMain, h.pop_fn hw, State.scopes, hf.fn, hfn, State.outer]
  rfl

/-- In the types of an extern declaration a prototype without a return type restores the scopes. -/
theorem restores_traitProto (hs : WellScoped false s) (hf : s.Free) (he : s.externFlag = true)
    (h : Keeps false (fnProtoName false s) s') (hr : s'.currFnRettype = 0) :
    Restores false s (popSymtable s') := by
  have hfn : (fnProtoName false s).currFnSymtable = none := by
    show (if s.externFlag then none else some s.tables) = _
    rw [he]
    rfl
  refine ⟨h.of_fnProtoName hs rfl ?_, popSymtable_currFnRettype.trans (hr.trans hf.rettype.symm)⟩
  simp only [h.pop_fn hs, State.scopes, hf.fn, h.fn, hfn, State.outer]
  rfl

/-! ### Types without `ife` -/

theorem Tree.plain_of_bare {c : Symbol} (t : Tree c) (h : t.bare = true) : t.plain true = true := by
  induction t with
  | atom | noArgs => rfl
  | operands left right ihl ihr | nextParam left _ right ihl ihr =>
      simp only [bare, Bool.and_eq_true] at h
      simp only [plain, ihl h.1, ihr h.2, Bool.and_self]
  | firstParam _ type ih | someArgs type _ ih => exact ih h
  | _ => cases h

theorem Tree.visits_of_bare {c : Symbol} (t : Tree c) {sc : Scope} (h : t.bare = true) :
    t.visits m sc s = [] := by
  induction t generalizing s with
  | atom | noArgs => rfl
  | operands left right ihl ihr | nextParam left _ right ihl ihr =>
      simp only [bare, Bool.and_eq_true] at h
      simp only [visits, ihl h.1, ihr h.2, List.append_nil]
  | firstParam _ type ih | someArgs type _ ih => exact ih h
  | _ => cases h

theorem Tree.externFlag_of_bare {c : Symbol} (t : Tree c) (h : t.bare = true) :
    (t.parse m s).externFlag = s.externFlag := by
  have hno : t.hasExtern = false := by
    induction t with
    | atom | noArgs => rfl
    | operands left right ihl ihr | nextParam left _ right ihl ihr =>
        simp only [bare, Bool.and_eq_true] at h
        simp only [hasExtern, ihl h.1, ihr h.2, Bool.or_self]
    | firstParam _ type ih | someArgs type _ ih => exact ih h
    | _ => cases h
  rw [externFlag_parse, hno, Bool.not_false, Bool.and_true]

/-- The symbols of types. -/
def Symbol.ofTypes : Symbol → Bool
  | .expr | .params | .fnArgs => true
  | _ => false

/-- Where the function's table is not that of the scope, no statement is recorded right. -/
theorem Tree.bare_of_disciplined {c : Symbol} (t : Tree c) {s : State} {sc : Scope}
    (hc : c.ofTypes = true) (hs : WellScoped m s) (hne : s.currFnSymtable ≠ sc.fn)
    (h : t.Disciplined m sc s) : t.bare = true := by
  have hk : ∀ {c : Symbol} (t : Tree c) {s : State}, t.bare = true → WellScoped m s →
      Keeps m s (t.parse m s) := fun t _ hb hs => t.keeps_of_plain (t.plain_of_bare hb) hs
  induction t generalizing s sc with
  | atom | noArgs => rfl
  | operands left right ihl ihr | nextParam left _ right ihl ihr =>
      obtain ⟨hl, hr⟩ := List.forall_mem_append.mp h
      have hbl := ihl rfl hs hne hl
      have hkl := hk left hbl hs
      have hbr := ihr rfl hkl.wellScoped (by rw [hkl.fn]; exact hne) hr
      simp only [bare, hbl, hbr, Bool.and_self]
  | firstParam _ type ih | someArgs type _ ih => exact ih rfl hs hne h
  | ifexpr cond thens elses ihc =>
      obtain ⟨hcond, h⟩ := List.forall_mem_append.mp h
      have hkc := hk cond (ihc rfl hs hne hcond) hs
      obtain ⟨hthens, -⟩ := List.forall_mem_append.mp h
      cases thens with
      | stmtexprListBlock list value =>
          have hpoint := (List.forall_mem_cons.mp hthens).1
          exact absurd (hkc.fn.symm.trans hpoint.2.1) hne
  | _ => cases hc

/-! ### Tidy trees -/

/-- The state after the types of a prototype is that at its body. -/
theorem Keeps.makeFnProto {s₁ : State} (h : Keeps m s₁ s) (name rettype : Id) :
    Keeps m s₁ (makeFnProto name rettype s).1 := h.then (scopes_makeFnProto name rettype)

theorem Tree.restores_of_bare (args : Tree .fnArgs) (ret : Tree .expr) (hs : WellScoped false s)
    (hf : s.Free) (he : s.externFlag = true) (ha : args.bare = true) (hr : ret.bare = true)
    (name : Id) {rettype : Id} (hret : rettype = voidId) :
    Restores false s
        (popSymtable (fnProto false name rettype (args.parse false) (ret.parse false) s).1) ∧
      (popSymtable (fnProto false name rettype (args.parse false) (ret.parse false) s).1).externFlag
        = s.externFlag := by
  have hka := args.keeps_of_plain (args.plain_of_bare ha) hs.fnProtoName
  have hkr := hka.trans (ret.keeps_of_plain (ret.plain_of_bare hr) hka.wellScoped)
  refine ⟨restores_traitProto hs hf he (hkr.makeFnProto name rettype) ?_, ?_⟩
  · exact (makeFnProto_currFnRettype name rettype).trans hret
  · simp only [fnProto, popSymtable_externFlag, makeFnProto_externFlag, ret.externFlag_of_bare hr,
      args.externFlag_of_bare ha, fnProtoName_externFlag]

theorem Tree.restores_of_tidy {c : Symbol} (t : Tree c) {s : State}
    (hp : t.tidy s.externFlag = true) (hs : WellScoped false s) (hf : s.Free) :
    Restores false s (t.parse false s) := by
  induction t generalizing s with
  | atom | noArgs | noFields | noClause | retVoid | label _ | noStmt | noTraitFn | noImplFn =>
      exact .refl hs
  | operands left right ihl ihr | stmtThen left right ihl ihr
  | traitDefault left right ihl ihr | implFn left right ihl ihr =>
      simp only [tidy, Bool.and_eq_true, ← externFlag_parse (m := false)] at hp
      have hl := ihl hp.1 hs hf
      exact hl.trans (ihr hp.2 hl.wellScoped (hl.free hf))
  | nextParam left _ right ihl ihr =>
      simp only [tidy, Bool.and_eq_true, ← externFlag_parse (m := false)] at hp
      have hl := ihl hp.1 hs hf
      exact (hl.trans (ihr hp.2 hl.wellScoped (hl.free hf))).then rfl rfl
  | ifexpr cond thens elses ihc iht ihe | clause cond thens elses ihc iht ihe =>
      simp only [tidy, Bool.and_eq_true, Bool.not_or, ← Bool.and_assoc,
        ← externFlag_parse (m := false)] at hp
      have hc := ihc hp.1.1 hs hf
      have ht := hc.trans (iht hp.1.2 hc.wellScoped (hc.free hf))
      exact ht.trans (ihe hp.2 ht.wellScoped (ht.free hf))
  | stmtexprListBlock list value ihl ihv | forStmt list value ihl ihv =>
      have hf' : (pushNewSymtable s).Free := ⟨hf.fn, hf.rettype⟩
      have he : s.externFlag = (pushNewSymtable s).externFlag := rfl
      simp only [tidy, Bool.and_eq_true, he, ← externFlag_parse (m := false)] at hp
      have hl := ihl hp.1 hs.push hf'
      exact (hl.trans (ihv hp.2 hl.wellScoped (hl.free hf'))).pop hs
  | stmtListBlock list ih =>
      exact (ih (s := pushNewSymtable s) hp hs.push ⟨hf.fn, hf.rettype⟩).pop hs
  | firstParam name type ih => exact (ih hp hs hf).then rfl rfl
  | someArgs list varg ih => exact (ih hp hs hf).then rfl rfl
  | someFields list ih | control list ih | simple list ih => exact ih hp hs hf
  | retExpr value ih =>
      simp only [parse, makeStmtRetExpr, Bool.and_false]
      exact ih hp hs hf
  | structDef name members ih =>
      exact (ih (s := resetArglistWithNewSymtable s) hp (hs.push.of_scopes scopes_reset)
        ⟨hf.fn, hf.rettype⟩).makeStructType hs
  | traitDef name defs ih =>
      have h := ih (s := { s with currentTraitId := name }) hp (hs.of_scopes rfl)
        ⟨hf.fn, hf.rettype⟩
      exact h.around rfl rfl rfl rfl
  | typeImpl classId traitId defs ih =>
      have h := ih (s := pushTypeImpl classId traitId s) hp (hs.of_scopes rfl) ⟨hf.fn, hf.rettype⟩
      exact h.around rfl rfl rfl rfl
  | fnUnit fn ih =>
      have h := ih (s := enterFnUnit s) hp (hs.of_scopes rfl) ⟨hf.fn, hf.rettype⟩
      exact h.around rfl rfl rfl rfl
  | fnDefine name args ret rettype body =>
      simp only [tidy, Bool.and_eq_true] at hp
      have ha := args.keeps_of_plain hp.1.1.2 hs.fnProtoName
      have hr := ha.trans (ret.keeps_of_plain hp.1.2 ha.wellScoped)
      have h₂ := hr.makeFnProto name rettype
      exact restores_makeFnDef hs hf (h₂.trans (body.keeps_of_plain hp.2 h₂.wellScoped))
  | fnDecl name args ret rettype iha ihr =>
      have hw : WellScoped false { s with externFlag := true } := hs.of_scopes rfl
      have hf' : (fnProtoName false { s with externFlag := true }).Free := ⟨rfl, hf.rettype⟩
      simp only [tidy, Bool.and_eq_true] at hp
      have ha := iha (s := fnProtoName false { s with externFlag := true }) hp.1 hw.fnProtoName hf'
      have hr := ha.trans (ihr (by rw [externFlag_parse]; exact hp.2) ha.wellScoped (ha.free hf'))
      exact restores_makeFnDecl hs hf (hr.toKeeps.makeFnProto name rettype)
  | traitProto name args ret rettype rest iha ihr ihs =>
      simp only [tidy, Bool.and_eq_true, decide_eq_true_eq] at hp
      obtain ⟨⟨⟨⟨he, hret⟩, hba⟩, hbr⟩, hrest⟩ := hp
      obtain ⟨hk, hflag⟩ := args.restores_of_bare ret hs hf he hba hbr name hret
      exact hk.trans (ihs (hflag ▸ he ▸ hrest) hk.wellScoped (hk.free hf))

theorem Tree.disciplined_of_tidy {c : Symbol} (t : Tree c) {s : State} {sc : Scope}
    (hp : t.tidy s.externFlag = true) (hs : WellScoped false s) (hf : s.Free) (hsc : s.In sc) :
    t.Disciplined false sc s := by
  induction t generalizing s sc with
  | atom | noArgs | noFields | noClause | noStmt | noTraitFn | noImplFn =>
      exact List.forall_mem_nil _
  | retVoid | label _ => exact List.forall_mem_singleton.mpr (hsc.ok hs)
  | operands left right ihl ihr | nextParam left _ right ihl ihr | stmtThen left right ihl ihr
  | traitDefault left right ihl ihr | implFn left right ihl ihr =>
      simp only [tidy, Bool.and_eq_true, ← externFlag_parse (m := false)] at hp
      have hl := left.restores_of_tidy hp.1 hs hf
      exact List.forall_mem_append.mpr
        ⟨ihl hp.1 hs hf hsc, ihr hp.2 hl.wellScoped (hl.free hf) (hl.inScope hsc)⟩
  | ifexpr cond thens elses ihc iht ihe | clause cond thens elses ihc iht ihe =>
      simp only [tidy, Bool.and_eq_true, Bool.not_or, ← Bool.and_assoc,
        ← externFlag_parse (m := false)] at hp
      have hc := cond.restores_of_tidy hp.1.1 hs hf
      have ht := hc.trans (thens.restores_of_tidy hp.1.2 hc.wellScoped (hc.free hf))
      exact List.forall_mem_append.mpr ⟨ihc hp.1.1 hs hf hsc, List.forall_mem_append.mpr
        ⟨iht hp.1.2 hc.wellScoped (hc.free hf) (hc.inScope hsc),
          ihe hp.2 ht.wellScoped (ht.free hf) (ht.inScope hsc)⟩⟩
  | stmtexprListBlock list value ihl ihv =>
      have hall := (stmtexprListBlock list value).restores_of_tidy hp hs hf
      have hf' : (pushNewSymtable s).Free := ⟨hf.fn, hf.rettype⟩
      have he : s.externFlag = (pushNewSymtable s).externFlag := rfl
      simp only [tidy, Bool.and_eq_true, he, ← externFlag_parse (m := false)] at hp
      have hl := list.restores_of_tidy hp.1 hs.push hf'
      exact List.forall_mem_cons.mpr ⟨hsc.push.ok hs.push, List.forall_mem_append.mpr
        ⟨ihl hp.1 hs.push hf' hsc.push, List.forall_mem_append.mpr
          ⟨ihv hp.2 hl.wellScoped (hl.free hf') (hl.inScope hsc.push),
            List.forall_mem_singleton.mpr hall.ok⟩⟩⟩
  | forStmt list body ihl ihb =>
      have hall := (forStmt list body).restores_of_tidy hp hs hf
      have hf' : (pushNewSymtable s).Free := ⟨hf.fn, hf.rettype⟩
      have he : s.externFlag = (pushNewSymtable s).externFlag := rfl
      simp only [tidy, Bool.and_eq_true, he, ← externFlag_parse (m := false)] at hp
      have hl := list.restores_of_tidy hp.1 hs.push hf'
      exact List.forall_mem_cons.mpr ⟨hsc.push.ok hs.push, List.forall_mem_append.mpr
        ⟨ihl hp.1 hs.push hf' hsc.push, List.forall_mem_append.mpr
          ⟨ihb hp.2 hl.wellScoped (hl.free hf') (hl.inScope hsc.push),
            List.forall_mem_singleton.mpr hall.ok⟩⟩⟩
  | stmtListBlock list ih =>
      have hall := (stmtListBlock list).restores_of_tidy hp hs hf
      exact List.forall_mem_cons.mpr ⟨hsc.push.ok hs.push, List.forall_mem_append.mpr
        ⟨ih hp hs.push ⟨hf.fn, hf.rettype⟩ hsc.push, List.forall_mem_singleton.mpr hall.ok⟩⟩
  | firstParam _ type ih | someArgs type _ ih | someFields type ih | control type ih =>
      exact ih hp hs hf hsc
  | simple parts ih =>
      have hall := parts.restores_of_tidy hp hs hf
      exact List.forall_mem_append.mpr ⟨ih hp hs hf hsc,
        List.forall_mem_singleton.mpr ((hall.inScope hsc).ok hall.wellScoped)⟩
  | retExpr value ih =>
      have hall := value.restores_of_tidy hp hs hf
      exact List.forall_mem_append.mpr ⟨ih hp hs hf hsc,
        List.forall_mem_singleton.mpr ((hall.inScope hsc).ok hall.wellScoped)⟩
  | structDef name members ih =>
      have hall := (structDef name members).restores_of_tidy hp hs hf
      exact List.forall_mem_append.mpr ⟨ih hp (hs.push.of_scopes scopes_reset)
        ⟨hf.fn, hf.rettype⟩ ⟨rfl, hsc.fn⟩, List.forall_mem_singleton.mpr hall.ok⟩
  | traitDef name defs ih =>
      have hall := (traitDef name defs).restores_of_tidy hp hs hf
      exact List.forall_mem_append.mpr ⟨ih hp (hs.of_scopes rfl) ⟨hf.fn, hf.rettype⟩
        ⟨hsc.table, hsc.fn⟩, List.forall_mem_singleton.mpr hall.ok⟩
  | typeImpl classId traitId defs ih =>
      have hall := (typeImpl classId traitId defs).restores_of_tidy hp hs hf
      exact List.forall_mem_append.mpr ⟨ih hp (hs.of_scopes rfl) ⟨hf.fn, hf.rettype⟩
        ⟨hsc.table, hsc.fn⟩, List.forall_mem_singleton.mpr hall.ok⟩
  | fnUnit fn ih =>
      have hall := (fnUnit fn).restores_of_tidy hp hs hf
      exact List.forall_mem_append.mpr ⟨ih (s := enterFnUnit s) hp (hs.of_scopes rfl)
        ⟨hf.fn, hf.rettype⟩ ⟨hsc.table, hsc.fn⟩, List.forall_mem_singleton.mpr hall.ok⟩
  | fnDefine name args ret rettype body =>
      have hall := (fnDefine name args ret rettype body).restores_of_tidy hp hs hf
      simp only [tidy, Bool.and_eq_true, Bool.not_eq_true'] at hp
      obtain ⟨⟨⟨he, hpa⟩, hpr⟩, hpb⟩ := hp
      have hin : (fnProtoName false s).In (fnScope s) := ⟨rfl, by
        simp only [fnProtoName, Bool.false_eq_true, if_false, pushNewSymtable, he]
        rfl⟩
      have ha := args.restores_of_plain hpa hs.fnProtoName retGuard_false
      have hr := ha.trans (ret.restores_of_plain hpr ha.wellScoped retGuard_false)
      have h₂ := hr.toKeeps.makeFnProto name rettype
      refine List.forall_mem_append.mpr ⟨?_, List.forall_mem_append.mpr ⟨?_,
        List.forall_mem_cons.mpr ⟨?_, List.forall_mem_append.mpr
          ⟨?_, List.forall_mem_singleton.mpr hall.ok⟩⟩⟩⟩
      · exact args.disciplined_of_plain hpa hs.fnProtoName retGuard_false hin
      · exact ret.disciplined_of_plain hpr ha.wellScoped retGuard_false (ha.inScope hin)
      · exact (h₂.inScope hin).ok h₂.wellScoped
      · exact body.disciplined_of_plain hpb h₂.wellScoped retGuard_false (h₂.inScope hin)
  | fnDecl name args ret rettype iha ihr =>
      have hall := (fnDecl name args ret rettype).restores_of_tidy hp hs hf
      have hw : WellScoped false { s with externFlag := true } := hs.of_scopes rfl
      have hf' : (fnProtoName false { s with externFlag := true }).Free := ⟨rfl, hf.rettype⟩
      have hin : (fnProtoName false { s with externFlag := true }).In (externScope s) :=
        ⟨rfl, rfl⟩
      simp only [tidy, Bool.and_eq_true] at hp
      have ha := args.restores_of_tidy (s := fnProtoName false { s with externFlag := true }) hp.1
        hw.fnProtoName hf'
      refine List.forall_mem_append.mpr ⟨?_, List.forall_mem_append.mpr
        ⟨?_, List.forall_mem_singleton.mpr hall.ok⟩⟩
      · exact iha hp.1 hw.fnProtoName hf' hin
      · exact ihr (by rw [externFlag_parse]; exact hp.2) ha.wellScoped (ha.free hf')
          (ha.inScope hin)
  | traitProto name args ret rettype rest iha ihr ihs =>
      simp only [tidy, Bool.and_eq_true, decide_eq_true_eq] at hp
      obtain ⟨⟨⟨⟨he, hret⟩, hba⟩, hbr⟩, hrest⟩ := hp
      obtain ⟨hk, hflag⟩ := args.restores_of_bare ret hs hf he hba hbr name hret
      refine List.forall_mem_append.mpr ⟨?_, List.forall_mem_append.mpr ⟨?_,
        List.forall_mem_cons.mpr ⟨hk.ok, ?_⟩⟩⟩
      · rw [args.visits_of_bare hba]
        exact List.forall_mem_nil _
      · rw [ret.visits_of_bare hbr]
        exact List.forall_mem_nil _
      · exact ihs (hflag ▸ he ▸ hrest) hk.wellScoped (hk.free hf) (hk.inScope hsc)

/-- The part of a visited moment's condition on the context, of a completed construct. -/
theorem Visit.Ok.restored (h : (Visit.construct s s').Ok) :
    s'.currFnSymtable = s.currFnSymtable ∧ s'.currFnRettype = s.currFnRettype := ⟨h.2.1, h.2.2.1⟩

/-- Inside a function no construct with a function in it restores the scopes; outside, only the
tidy ones do. -/
theorem Tree.tidy_of_disciplined {c : Symbol} (t : Tree c) {s : State} {sc : Scope}
    (hs : WellScoped false s) (h : t.Disciplined false sc s) :
    (s.Free → t.tidy s.externFlag = true) ∧
      (¬ s.Free → s.externFlag = false → t.plain false = true) := by
  induction t generalizing s sc with
  | atom | noArgs | noFields | noClause | noStmt | noTraitFn | noImplFn | retVoid | label _ =>
      exact ⟨fun _ => rfl, fun _ _ => rfl⟩
  | operands left right ihl ihr | nextParam left _ right ihl ihr | stmtThen left right ihl ihr =>
      obtain ⟨hl, hr⟩ := List.forall_mem_append.mp h
      refine ⟨?_, ?_⟩
      · intro hf
        have htl := (ihl hs hl).1 hf
        have hk := left.restores_of_tidy htl hs hf
        have htr := (ihr hk.wellScoped hr).1 (hk.free hf)
        rw [externFlag_parse] at htr
        simp only [tidy, htl, htr, Bool.and_self]
      · intro hb he
        have hpl := (ihl hs hl).2 hb he
        have hk := left.restores_of_plain hpl hs retGuard_false
        have hpr := (ihr hk.wellScoped hr).2 (fun hf => hb (hk.of_free hf))
          (by rw [externFlag_parse, he]; rfl)
        simp only [plain, hpl, hpr, Bool.and_self]
  | traitDefault left right ihl ihr | implFn left right ihl ihr =>
      obtain ⟨hl, hr⟩ := List.forall_mem_append.mp h
      refine ⟨?_, ?_⟩
      · intro hf
        have htl := (ihl hs hl).1 hf
        have hk := left.restores_of_tidy htl hs hf
        have htr := (ihr hk.wellScoped hr).1 (hk.free hf)
        rw [externFlag_parse] at htr
        simp only [tidy, htl, htr, Bool.and_self]
      · intro hb he
        have hpl := (ihl hs hl).2 hb he
        cases left with
        | fnDefine => cases hpl
  | ifexpr cond thens elses ihc iht ihe | clause cond thens elses ihc iht ihe =>
      obtain ⟨hc, h⟩ := List.forall_mem_append.mp h
      obtain ⟨ht, hr⟩ := List.forall_mem_append.mp h
      refine ⟨?_, ?_⟩
      · intro hf
        have htc := (ihc hs hc).1 hf
        have hkc := cond.restores_of_tidy htc hs hf
        have htt := (iht hkc.wellScoped ht).1 (hkc.free hf)
        have hkt := hkc.trans (thens.restores_of_tidy htt hkc.wellScoped (hkc.free hf))
        have hte := (ihe hkt.wellScoped hr).1 (hkt.free hf)
        rw [externFlag_parse] at htt hte
        rw [externFlag_parse, Bool.and_assoc, ← Bool.not_or] at hte
        simp only [tidy, htc, htt, hte, Bool.and_self]
      · intro hb he
        have hpc := (ihc hs hc).2 hb he
        have hkc := cond.restores_of_plain hpc hs retGuard_false
        have hpt := (iht hkc.wellScoped ht).2 (fun hf => hb (hkc.of_free hf))
          (by rw [externFlag_parse, he]; rfl)
        have hkt := hkc.trans (thens.restores_of_plain hpt hkc.wellScoped retGuard_false)
        have hpe := (ihe hkt.wellScoped hr).2 (fun hf => hb (hkt.of_free hf))
          (by rw [externFlag_parse, externFlag_parse, he]; rfl)
        simp only [plain, hpc, hpt, hpe, Bool.and_self]
  | stmtexprListBlock list value ihl ihv | forStmt list value ihl ihv =>
      obtain ⟨-, h⟩ := List.forall_mem_cons.mp h
      obtain ⟨hl, h⟩ := List.forall_mem_append.mp h
      obtain ⟨hv, -⟩ := List.forall_mem_append.mp h
      have hfree : (pushNewSymtable s).Free ↔ s.Free := ⟨fun h => ⟨h.1, h.2⟩, fun h => ⟨h.1, h.2⟩⟩
      have he' : s.externFlag = (pushNewSymtable s).externFlag := rfl
      refine ⟨?_, ?_⟩
      · intro hf
        have htl := (ihl hs.push hl).1 (hfree.mpr hf)
        have hk := list.restores_of_tidy htl hs.push (hfree.mpr hf)
        have htv := (ihv hk.wellScoped hv).1 (hk.free (hfree.mpr hf))
        rw [externFlag_parse] at htv
        simp only [tidy, he', htl, htv, Bool.and_self]
      · intro hb he
        have hpl := (ihl hs.push hl).2 (fun hf => hb (hfree.mp hf)) he
        have hk := list.restores_of_plain hpl hs.push retGuard_false
        have hpv := (ihv hk.wellScoped hv).2 (fun hf => hb (hfree.mp (hk.of_free hf)))
          (by rw [externFlag_parse, ← he', he]; rfl)
        simp only [plain, hpl, hpv, Bool.and_self]
  | stmtListBlock list ih =>
      obtain ⟨-, h⟩ := List.forall_mem_cons.mp h
      obtain ⟨hl, -⟩ := List.forall_mem_append.mp h
      have h := ih hs.push hl
      exact ⟨fun hf => h.1 ⟨hf.fn, hf.rettype⟩, fun hb => h.2 fun hf => hb ⟨hf.fn, hf.rettype⟩⟩
  | firstParam _ type ih | someArgs type _ ih | someFields type ih | control type ih =>
      exact ih hs h
  | simple parts ih => exact ih hs (List.forall_mem_append.mp h).1
  | retExpr value ih => exact ih hs (List.forall_mem_append.mp h).1
  | structDef name members ih =>
      have h := ih (hs.push.of_scopes scopes_reset) (List.forall_mem_append.mp h).1
      exact ⟨fun hf => h.1 ⟨hf.fn, hf.rettype⟩, fun hb => h.2 fun hf => hb ⟨hf.fn, hf.rettype⟩⟩
  | traitDef name defs ih =>
      have h := ih (s := { s with currentTraitId := name }) (hs.of_scopes rfl)
        (List.forall_mem_append.mp h).1
      exact ⟨fun hf => h.1 ⟨hf.fn, hf.rettype⟩, fun hb => h.2 fun hf => hb ⟨hf.fn, hf.rettype⟩⟩
  | typeImpl classId traitId defs ih =>
      have h := ih (s := pushTypeImpl classId traitId s) (hs.of_scopes rfl)
        (List.forall_mem_append.mp h).1
      exact ⟨fun hf => h.1 ⟨hf.fn, hf.rettype⟩, fun hb => h.2 fun hf => hb ⟨hf.fn, hf.rettype⟩⟩
  | fnUnit fn ih =>
      have h := ih (s := enterFnUnit s) (hs.of_scopes rfl) (List.forall_mem_append.mp h).1
      refine ⟨fun hf => h.1 ⟨hf.fn, hf.rettype⟩, ?_⟩
      intro hb he
      have hp := h.2 (fun hf => hb ⟨hf.fn, hf.rettype⟩) he
      cases fn with
      | fnDefine => cases hp
  | fnDefine name args ret rettype body iha ihr ihb =>
      obtain ⟨ha, h⟩ := List.forall_mem_append.mp h
      obtain ⟨hr, h⟩ := List.forall_mem_append.mp h
      obtain ⟨hpoint, h⟩ := List.forall_mem_cons.mp h
      obtain ⟨hb, h⟩ := List.forall_mem_append.mp h
      have hdone := (List.forall_mem_singleton.mp h).restored
      refine ⟨?_, fun hbusy _ => (hbusy ⟨hdone.1.symm, hdone.2.symm⟩).elim⟩
      intro hf
      have hfn : (fnProtoName false s).currFnSymtable =
          if s.externFlag then none else some s.tables := rfl
      cases he : s.externFlag with
      | true =>
          -- the body is parsed as that of an extern function
          rw [he] at hfn
          have hf₁ : (fnProtoName false s).Free := ⟨hfn, hf.rettype⟩
          have hka := args.restores_of_tidy ((iha hs.fnProtoName ha).1 hf₁) hs.fnProtoName hf₁
          have htr := (ihr hka.wellScoped hr).1 (hka.free hf₁)
          have hkr := hka.trans (ret.restores_of_tidy htr hka.wellScoped (hka.free hf₁))
          have hnone := (hkr.toKeeps.makeFnProto name rettype).fn.trans hfn
          cases hnone.symm.trans hpoint.2.1
      | false =>
          rw [he] at hfn
          have hbusy₁ : ¬ (fnProtoName false s).Free := fun hf => by cases hfn.symm.trans hf.fn
          have hpa := (iha hs.fnProtoName ha).2 hbusy₁ he
          have hka := args.restores_of_plain hpa hs.fnProtoName retGuard_false
          have hpr := (ihr hka.wellScoped hr).2 (fun hf => hbusy₁ (hka.of_free hf))
            (by rw [externFlag_parse, show (fnProtoName false s).externFlag = false from he]; rfl)
          have hkr := hka.trans (ret.restores_of_plain hpr hka.wellScoped retGuard_false)
          have hk₂ := hkr.toKeeps.makeFnProto name rettype
          have hpb := (ihb hk₂.wellScoped hb).2
            (fun hf => by cases hf.fn.symm.trans (hk₂.fn.trans hfn))
            (by
              simp only [makeFnProto_externFlag, externFlag_parse, fnProtoName_externFlag, he,
                Bool.false_and])
          simp only [tidy, hpa, hpr, hpb, Bool.not_false, Bool.and_self]
  | fnDecl name args ret rettype iha ihr =>
      obtain ⟨ha, h⟩ := List.forall_mem_append.mp h
      obtain ⟨hr, h⟩ := List.forall_mem_append.mp h
      have hdone := (List.forall_mem_singleton.mp h).restored
      have hw : WellScoped false { s with externFlag := true } := hs.of_scopes rfl
      -- the types of an extern declaration are parsed outside of any function
      have hf₁ : (fnProtoName false { s with externFlag := true }).Free := ⟨rfl, hdone.2.symm⟩
      have hta := (iha hw.fnProtoName ha).1 hf₁
      have hka := args.restores_of_tidy hta hw.fnProtoName hf₁
      have htr := (ihr hka.wellScoped hr).1 (hka.free hf₁)
      have hkr := hka.trans (ret.restores_of_tidy htr hka.wellScoped (hka.free hf₁))
      rw [externFlag_parse] at htr
      refine ⟨?_, ?_⟩
      · intro _
        simp only [tidy, Bool.and_eq_true]
        exact ⟨hta, htr⟩
      · intro hbusy _
        have hnone := (hkr.toKeeps.makeFnProto name rettype).pop_fn hw
        have hfn := (hkr.toKeeps.makeFnProto name rettype).fn
        have hdone₁ : ((fnDecl name args ret rettype).parse false s).currFnSymtable = none := by
          simp only [parse, fnProto, makeFnDecl, enterMain, hnone]
          exact hfn
        exact (hbusy ⟨hdone.1.symm.trans hdone₁, hdone.2.symm⟩).elim
  | traitProto name args ret rettype rest iha ihr ihs =>
      obtain ⟨ha, h⟩ := List.forall_mem_append.mp h
      obtain ⟨hr, h⟩ := List.forall_mem_append.mp h
      obtain ⟨hdone, hrest⟩ := List.forall_mem_cons.mp h
      have hdone := hdone.restored
      have hfn : (fnProtoName false s).currFnSymtable =
          if s.externFlag then none else some s.tables := rfl
      cases he : s.externFlag with
      | false =>
          -- the function's own table stays the table for labels
          rw [he] at hfn
          have hbusy₁ : ¬ (fnProtoName false s).Free := fun hf => by cases hfn.symm.trans hf.fn
          have hpa := (iha hs.fnProtoName ha).2 hbusy₁ he
          have hka := args.restores_of_plain hpa hs.fnProtoName retGuard_false
          have hpr := (ihr hka.wellScoped hr).2 (fun hf => hbusy₁ (hka.of_free hf))
            (by rw [externFlag_parse, show (fnProtoName false s).externFlag = false from he]; rfl)
          have hkr := hka.trans (ret.restores_of_plain hpr hka.wellScoped retGuard_false)
          have hk₂ := hkr.toKeeps.makeFnProto name rettype
          have hlast : s.currFnSymtable = some s.tables := by
            rw [← hdone.1, fnProto, hk₂.pop_fn hs]
            exact hk₂.fn.trans hfn
          exact absurd (hs.fn _ hlast) (lt_irrefl _)
      | true =>
          -- no statement can be recorded in the prototype's scope
          rw [he] at hfn
          refine ⟨?_, fun _ => Bool.noConfusion⟩
          intro hf
          have hba := args.bare_of_disciplined rfl hs.fnProtoName
            (by rw [hfn]; exact (Option.some_ne_none _).symm) ha
          have hka := args.keeps_of_plain (args.plain_of_bare hba) hs.fnProtoName
          have hbr := ret.bare_of_disciplined rfl hka.wellScoped
            (by rw [hka.fn, hfn]; exact (Option.some_ne_none _).symm) hr
          have hret : rettype = voidId := by
            have hsame := hdone.2
            rw [popSymtable_currFnRettype, hf.rettype] at hsame
            exact (makeFnProto_currFnRettype name rettype).symm.trans hsame
          obtain ⟨hk, hflag⟩ := args.restores_of_bare ret hs hf he hba hbr name hret
          have htr := (ihs hk.wellScoped hrest).1 (hk.free hf)
          rw [hflag, he] at htr
          simp only [tidy, hret, hba, hbr, htr, decide_true, Bool.and_self]

end CaLang.Parser
