import CaLang.Parser.ScopeDiscipline

/-! # The scope discipline with `-main`

The statements outside of functions are those of a generated main function.  Only there
(`AtMain`) does a function definition leave the parser where it was, since it ends by making the
main function current; in a block or another function it does not
(`Tree.plain_of_disciplined_inner`).  A `ret` with a value sets the return type where there is none:
once in the main function, and **once in every function without a return type**, where it stands in
no construct.
-/

namespace CaLang.Parser

variable {s s' : State}

/-! ### Inside a block or a function -/

/-- The symbols whose trees have statements directly in them. -/
def Symbol.hasStmts : Symbol → Bool
  | .fnDef | .stmt | .stmts | .traitFnDefs | .fnImplDefs => true
  | _ => false

theorem WellScoped.tables_ne_main (hs : WellScoped true s) : s.tables ≠ gMainSymtable :=
  (Nat.lt_of_lt_of_le Nat.one_lt_two (hs.inMain rfl).1).ne'

theorem fnProtoName_currSymtable {m : Bool} : (fnProtoName m s).currSymtable = s.tables :=
  congrArg (·.2.2.1) scopes_fnProtoName

/-- The main function's table is never around itself. -/
theorem State.outer_ne (hs : WellScoped true s) : s.outer true ≠ s.currSymtable := by
  have hne := (hs.inMain rfl).2
  simp only [outer, if_true, popSymtable, if_pos hne]
  cases hp : s.parent s.currSymtable with
  | none => exact hne.symm
  | some p => exact (hs.down _ _ hp).ne

theorem makeFnDef_currSymtable : (makeFnDef true s).currSymtable = gMainSymtable := rfl

theorem makeFnDecl_currSymtable : (makeFnDecl true s).currSymtable = gMainSymtable := rfl

/-- In the scope of a block or a function no construct with a function in it restores the
scopes. -/
theorem Tree.plain_of_disciplined_inner {c : Symbol} (t : Tree c) {s : State} {sc : Scope}
    (hs : WellScoped true s) (hne : c.hasStmts = true → s.currSymtable ≠ gMainSymtable)
    (h : t.Disciplined true sc s) : t.plain false = true := by
  induction t generalizing s sc with
  | atom | noArgs | noFields | noClause | noStmt | noTraitFn | noImplFn | retVoid | label _ => rfl
  | operands left right ihl ihr | nextParam left _ right ihl ihr =>
      obtain ⟨hl, hr⟩ := List.forall_mem_append.mp h
      have hpl := ihl hs Bool.noConfusion hl
      have hpr := ihr (left.keeps_of_plain hpl hs).wellScoped Bool.noConfusion hr
      simp only [plain, hpl, hpr, Bool.and_self]
  | stmtThen left right ihl ihr =>
      obtain ⟨hl, hr⟩ := List.forall_mem_append.mp h
      have hpl := ihl hs hne hl
      have hk := left.keeps_of_plain hpl hs
      have hpr := ihr hk.wellScoped (fun hc => by rw [hk.table]; exact hne hc) hr
      simp only [plain, hpl, hpr, Bool.and_self]
  | ifexpr cond thens elses ihc iht ihe | clause cond thens elses ihc iht ihe =>
      obtain ⟨hc, h⟩ := List.forall_mem_append.mp h
      obtain ⟨ht, he⟩ := List.forall_mem_append.mp h
      have hpc := ihc hs Bool.noConfusion hc
      have hkc := cond.keeps_of_plain hpc hs
      have hpt := iht hkc.wellScoped Bool.noConfusion ht
      have hkt := thens.keeps_of_plain hpt hkc.wellScoped
      have hpe := ihe hkt.wellScoped Bool.noConfusion he
      simp only [plain, hpc, hpt, hpe, Bool.and_self]
  | stmtexprListBlock list value ihl ihv =>
      obtain ⟨-, h⟩ := List.forall_mem_cons.mp h
      obtain ⟨hl, h⟩ := List.forall_mem_append.mp h
      obtain ⟨hv, -⟩ := List.forall_mem_append.mp h
      have hpl := ihl hs.push (fun _ => hs.tables_ne_main) hl
      have hpv := ihv (list.keeps_of_plain hpl hs.push).wellScoped Bool.noConfusion hv
      simp only [plain, hpl, hpv, Bool.and_self]
  | forStmt list body ihl ihb =>
      obtain ⟨-, h⟩ := List.forall_mem_cons.mp h
      obtain ⟨hl, h⟩ := List.forall_mem_append.mp h
      obtain ⟨hb, -⟩ := List.forall_mem_append.mp h
      have hpl := ihl hs.push Bool.noConfusion hl
      have hpb := ihb (list.keeps_of_plain hpl hs.push).wellScoped Bool.noConfusion hb
      simp only [plain, hpl, hpb, Bool.and_self]
  | stmtListBlock list ih =>
      obtain ⟨-, h⟩ := List.forall_mem_cons.mp h
      exact ih hs.push (fun _ => hs.tables_ne_main) (List.forall_mem_append.mp h).1
  | firstParam _ type ih | someArgs type _ ih | someFields type ih | control type ih =>
      exact ih hs Bool.noConfusion h
  | simple parts ih => exact ih hs Bool.noConfusion (List.forall_mem_append.mp h).1
  | retExpr value ih => exact ih hs Bool.noConfusion (List.forall_mem_append.mp h).1
  | structDef name members ih =>
      exact ih (hs.push.of_scopes scopes_reset) Bool.noConfusion (List.forall_mem_append.mp h).1
  | traitDef name defs ih =>
      exact ih (s := { s with currentTraitId := name }) (hs.of_scopes rfl) hne
        (List.forall_mem_append.mp h).1
  | typeImpl classId traitId defs ih =>
      exact ih (s := pushTypeImpl classId traitId s) (hs.of_scopes rfl) hne
        (List.forall_mem_append.mp h).1
  | fnUnit fn ih =>
      have hp := ih (s := enterFnUnit s) (hs.of_scopes rfl) hne (List.forall_mem_append.mp h).1
      cases fn with
      | fnDefine => cases hp
  | traitDefault fn rest ih | implFn fn rest ih =>
      have hp := ih hs hne (List.forall_mem_append.mp h).1
      cases fn with
      | fnDefine => cases hp
  | fnDefine name args ret rettype body =>
      have hok := h _ (List.mem_append_right _ (List.mem_append_right _ (List.mem_cons_of_mem _
        (List.mem_append_right _ (List.mem_singleton_self _)))))
      exact absurd (hok.1.symm.trans makeFnDef_currSymtable) (hne rfl)
  | fnDecl name args ret rettype =>
      have hok := h _ (List.mem_append_right _ (List.mem_append_right _
        (List.mem_singleton_self _)))
      exact absurd (hok.1.symm.trans makeFnDecl_currSymtable) (hne rfl)
  | traitProto name args ret rettype rest iha ihr =>
      obtain ⟨ha, h⟩ := List.forall_mem_append.mp h
      obtain ⟨hr, h⟩ := List.forall_mem_append.mp h
      obtain ⟨hdone, -⟩ := List.forall_mem_cons.mp h
      have hka := args.keeps_of_plain (iha hs.fnProtoName Bool.noConfusion ha) hs.fnProtoName
      have hpr := ihr hka.wellScoped Bool.noConfusion hr
      have hkr := hka.trans (ret.keeps_of_plain hpr hka.wellScoped)
      have htable := hdone.1
      rw [fnProto, (hkr.makeFnProto name rettype).pop_fn hs] at htable
      exact absurd htable (s.outer_ne hs)

/-- The symbols whose trees a `ret` can leave with another return type. -/
def Symbol.mayReturn : Symbol → Bool
  | .stmt | .stmts => true
  | _ => false

/-- With no return type yet, a `ret` with a value in a construct leaves one behind. -/
theorem Tree.plain_true_of_disciplined {c : Symbol} (t : Tree c) {s : State} {sc : Scope}
    (hp : t.plain false = true) (h : t.Disciplined true sc s) (hr : s.currFnRettype = 0)
    (hfin : c.mayReturn = true → (t.parse true s).currFnRettype = 0) :
    t.plain true = true := by
  have hsome : ∀ {c : Symbol} (t : Tree c) (s : State), t.plain false = true →
      (t.parse true s).currFnRettype = 0 → s.currFnRettype = 0 := by
    intro c t s hp hn
    by_contra hr
    exact hr ((t.rettype_of_plain hp fun _ h => absurd h hr).symm.trans hn)
  have hkeep : ∀ {c : Symbol} (t : Tree c) (s : State), t.plain true = true →
      s.currFnRettype = 0 → (t.parse true s).currFnRettype = 0 := fun t s hp hr =>
    (t.rettype_of_plain hp fun _ _ => rfl).trans hr
  induction t generalizing s sc with
  | atom | noArgs | noFields | noClause | noStmt | noTraitFn | noImplFn | retVoid | label _ => rfl
  | operands left right ihl ihr | nextParam left _ right ihl ihr =>
      simp only [plain, Bool.and_eq_true] at hp
      obtain ⟨hl, hr'⟩ := List.forall_mem_append.mp h
      have hpl := ihl hp.1 hl hr Bool.noConfusion
      have hpr := ihr hp.2 hr' (hkeep left s hpl hr) Bool.noConfusion
      simp only [plain, hpl, hpr, Bool.and_self]
  | stmtThen left right ihl ihr =>
      simp only [plain, Bool.and_eq_true] at hp
      obtain ⟨hl, hr'⟩ := List.forall_mem_append.mp h
      have hn := hsome right _ hp.2 (hfin rfl)
      have hpl := ihl hp.1 hl hr fun _ => hn
      have hpr := ihr hp.2 hr' hn hfin
      simp only [plain, hpl, hpr, Bool.and_self]
  | ifexpr cond thens elses ihc iht ihe | clause cond thens elses ihc iht ihe =>
      simp only [plain, Bool.and_eq_true] at hp
      obtain ⟨hc, h⟩ := List.forall_mem_append.mp h
      obtain ⟨ht, he⟩ := List.forall_mem_append.mp h
      have hpc := ihc hp.1.1 hc hr Bool.noConfusion
      have hrc := hkeep cond s hpc hr
      have hpt := iht hp.1.2 ht hrc Bool.noConfusion
      have hpe := ihe hp.2 he (hkeep thens _ hpt hrc) Bool.noConfusion
      simp only [plain, hpc, hpt, hpe, Bool.and_self]
  | stmtexprListBlock list value ihl ihv =>
      simp only [plain, Bool.and_eq_true] at hp
      obtain ⟨-, h⟩ := List.forall_mem_cons.mp h
      obtain ⟨hl, h⟩ := List.forall_mem_append.mp h
      obtain ⟨hv, h⟩ := List.forall_mem_append.mp h
      have hdone := (List.forall_mem_singleton.mp h).restored.2
      rw [popSymtable_currFnRettype, hr] at hdone
      have hn := hsome value _ hp.2 hdone
      have hpl := ihl hp.1 hl hr fun _ => hn
      have hpv := ihv hp.2 hv hn Bool.noConfusion
      simp only [plain, hpl, hpv, Bool.and_self]
  | forStmt list body ihl ihb =>
      simp only [plain, Bool.and_eq_true] at hp
      obtain ⟨-, h⟩ := List.forall_mem_cons.mp h
      obtain ⟨hl, h⟩ := List.forall_mem_append.mp h
      obtain ⟨hb, -⟩ := List.forall_mem_append.mp h
      have hpl := ihl hp.1 hl hr Bool.noConfusion
      have hpb := ihb hp.2 hb (hkeep list (pushNewSymtable s) hpl hr) Bool.noConfusion
      simp only [plain, hpl, hpb, Bool.and_self]
  | stmtListBlock list ih =>
      obtain ⟨-, h⟩ := List.forall_mem_cons.mp h
      obtain ⟨hl, h⟩ := List.forall_mem_append.mp h
      have hdone := (List.forall_mem_singleton.mp h).restored.2
      rw [popSymtable_currFnRettype, hr] at hdone
      exact ih hp hl hr fun _ => hdone
  | firstParam _ type ih | someArgs type _ ih | someFields type ih | control type ih =>
      exact ih hp h hr Bool.noConfusion
  | simple parts ih => exact ih hp (List.forall_mem_append.mp h).1 hr Bool.noConfusion
  | retExpr value ih =>
      simp only [plain, Bool.and_eq_true] at hp
      have hv := ih hp.2 (List.forall_mem_append.mp h).1 hr Bool.noConfusion
      have hn := hfin rfl
      simp only [parse, makeStmtRetExpr, hkeep value s hv hr, decide_true, Bool.and_true,
        if_true] at hn
      cases hn
  | structDef name members ih =>
      exact ih (s := resetArglistWithNewSymtable s) hp (List.forall_mem_append.mp h).1 hr
        Bool.noConfusion
  | traitDef name defs ih =>
      exact ih (s := { s with currentTraitId := name }) hp (List.forall_mem_append.mp h).1 hr
        Bool.noConfusion
  | typeImpl classId traitId defs ih =>
      exact ih (s := pushTypeImpl classId traitId s) hp (List.forall_mem_append.mp h).1 hr
        Bool.noConfusion
  | fnDefine | fnUnit | fnDecl | traitProto | traitDefault | implFn => cases hp

/-- A disciplined tree without statements directly in it has no function, and no `ret` where it
would set the return type. -/
theorem Tree.plain_of_disciplined {c : Symbol} (t : Tree c) {s : State} {sc : Scope}
    (hc : c.hasStmts = false) (hs : WellScoped true s) (h : t.Disciplined true sc s) :
    t.plain (s.currFnRettype = 0) = true := by
  have hp := t.plain_of_disciplined_inner hs (fun h => by rw [hc] at h; cases h) h
  by_cases hr : s.currFnRettype = 0
  · rw [decide_eq_true hr]
    apply t.plain_true_of_disciplined hp h hr
    intro hm
    cases c <;> cases hm <;> cases hc
  · rw [decide_eq_false hr]
    exact hp

/-! ### In the main function -/

/-- The parser is in the main function. -/
structure AtMain (s : State) : Prop extends WellScoped true s where
  table : s.currSymtable = gMainSymtable
  fnTable : s.currFnSymtable = some gMainSymtable
  parent : s.parent gMainSymtable = some gRootSymtable
  externFlag_eq : s.externFlag = false

theorem AtMain.inScope (hm : AtMain s) : s.In (topScope true) := ⟨hm.table, hm.fnTable⟩

theorem AtMain.of_scopes (hm : AtMain s) (h : s'.scopes = s.scopes)
    (he : s'.externFlag = s.externFlag) : AtMain s' := by
  have hw := hm.toWellScoped.of_scopes h
  simp only [State.scopes, Prod.mk.injEq] at h
  obtain ⟨-, hp, hc, hf⟩ := h
  exact ⟨hw, hc.trans hm.table, hf.trans hm.fnTable, by rw [hp]; exact hm.parent,
    he.trans hm.externFlag_eq⟩

theorem AtMain.of_keeps (hm : AtMain s) (h : Keeps true s s') (he : s'.externFlag = false) :
    AtMain s' :=
  ⟨h.wellScoped, h.table.trans hm.table, h.fn.trans hm.fnTable,
    (h.parent _ (Nat.lt_of_lt_of_le Nat.one_lt_two (hm.inMain rfl).1)).trans hm.parent, he⟩

theorem AtMain.parse_plain {c : Symbol} (hm : AtMain s) (t : Tree c) {noRet : Bool}
    (hp : t.plain noRet = true) : AtMain (t.parse true s) :=
  hm.of_keeps (t.keeps_of_plain hp hm.toWellScoped)
    (by rw [Tree.externFlag_parse, hm.externFlag_eq, Bool.false_and])

theorem retGuard_self {m : Bool} : RetGuard m s (s.currFnRettype = 0) :=
  fun _ hn => decide_eq_true hn

/-- The main function's table is pushed onto the root's. -/
theorem atMain_enterMain (hd : ∀ t p, s.parent t = some p → p < t) (h2 : 2 ≤ s.tables)
    (hc : s.currSymtable = gRootSymtable) (he : s.externFlag = false) :
    AtMain (enterMain true s) := by
  have hlt : gMainSymtable < s.tables := Nat.lt_of_lt_of_le Nat.one_lt_two h2
  refine ⟨⟨hlt, ?_, ?_, fun _ => ⟨h2, Nat.one_ne_zero⟩⟩, rfl, rfl, ?_, he⟩
  · rintro f ⟨⟩
    exact hlt
  · intro t p h
    simp only [enterMain, if_true, pushSymtable, Function.update_apply] at h
    split at h
    · cases h
      subst t
      rw [hc]
      exact Nat.one_pos
    · exact hd t p h
  · simp only [enterMain, if_true, pushSymtable, Function.update_self, hc]

/-- What the parse of a function's types and body has kept before its table is popped. -/
theorem AtMain.pop_fn (hm : AtMain s) {e : Bool}
    (h : Keeps true (fnProtoName true { s with externFlag := e }) s') :
    popSymtable s' = { s' with currSymtable := gRootSymtable } ∧ 2 ≤ s'.tables := by
  have hw : WellScoped true { s with externFlag := e } := hm.toWellScoped.of_scopes rfl
  have hout : State.outer true { s with externFlag := e } = gRootSymtable := by
    simp only [State.outer, if_true, popSymtable, hm.table, hm.parent]
    rfl
  exact ⟨hout ▸ h.pop_fn hw, (h.wellScoped.inMain rfl).1⟩

theorem AtMain.makeFnDef (hm : AtMain s) (h : Keeps true (fnProtoName true s) s')
    (he : s'.externFlag = false) : AtMain (makeFnDef true s') := by
  obtain ⟨hpop, h2⟩ := hm.pop_fn (e := s.externFlag) h
  rw [Parser.makeFnDef, hpop]
  exact atMain_enterMain h.wellScoped.down h2 rfl he

theorem AtMain.makeFnDecl (hm : AtMain s)
    (h : Keeps true (fnProtoName true { s with externFlag := true }) s') :
    AtMain (makeFnDecl true s') := by
  obtain ⟨hpop, h2⟩ := hm.pop_fn h
  rw [Parser.makeFnDecl, hpop]
  exact atMain_enterMain h.wellScoped.down h2 rfl rfl

theorem AtMain.parse_fnDefine (hm : AtMain s) {name rettype : Id} {args : Tree .fnArgs}
    {ret : Tree .expr} {body : Tree .stmts} (ha : args.plain true = true)
    (hr : ret.plain true = true) (hb : body.plain false = true) :
    AtMain ((Tree.fnDefine name args ret rettype body).parse true s) := by
  have hka := args.keeps_of_plain ha hm.fnProtoName
  have hkr := (hka.trans (ret.keeps_of_plain hr hka.wellScoped)).makeFnProto name rettype
  refine hm.makeFnDef (hkr.trans (body.keeps_of_plain hb hkr.wellScoped)) ?_
  simp only [Tree.externFlag_parse, fnProto, makeFnProto_externFlag, fnProtoName_externFlag,
    hm.externFlag_eq, Bool.false_and]

theorem AtMain.parse_fnDecl (hm : AtMain s) {name rettype : Id} {args : Tree .fnArgs}
    {ret : Tree .expr} (ha : args.plain true = true) (hr : ret.plain true = true) :
    AtMain ((Tree.fnDecl name args ret rettype).parse true s) := by
  have hw : WellScoped true { s with externFlag := true } := hm.toWellScoped.of_scopes rfl
  have hka := args.keeps_of_plain ha hw.fnProtoName
  have hkr := hka.trans (ret.keeps_of_plain hr hka.wellScoped)
  exact hm.makeFnDecl (hkr.makeFnProto name rettype)

/-- The return type is as it was, unless a `ret` with a value has set it. -/
def KeepsReturn {c : Symbol} (t : Tree c) (s : State) : Prop :=
  if t.returns then (t.parse true s).currFnRettype ≠ 0
  else (t.parse true s).currFnRettype = s.currFnRettype

theorem KeepsReturn.fresh {c : Symbol} {t : Tree c} (h : KeepsReturn t s) :
    decide ((t.parse true s).currFnRettype = 0) =
      (decide (s.currFnRettype = 0) && !t.returns) := by
  unfold KeepsReturn at h
  split at h
  · next hret => rw [hret, decide_eq_false h, Bool.not_true, Bool.and_false]
  · next hret => rw [h, Bool.eq_false_iff.mpr hret, Bool.not_false, Bool.and_true]

theorem keepsReturn_of_eq {c : Symbol} {t : Tree c} (hret : t.returns = false)
    (h : (t.parse true s).currFnRettype = s.currFnRettype) : KeepsReturn t s := by
  rw [KeepsReturn, hret]
  exact h

theorem KeepsReturn.eq {c : Symbol} {t : Tree c} (h : KeepsReturn t s) (hret : t.returns = false) :
    (t.parse true s).currFnRettype = s.currFnRettype := by
  rw [KeepsReturn, hret] at h
  exact h

theorem Tree.keepsReturn_of_plain {c : Symbol} (t : Tree c) (hret : t.returns = false)
    (hp : t.plain (s.currFnRettype = 0) = true) : KeepsReturn t s :=
  keepsReturn_of_eq hret (t.rettype_of_plain hp retGuard_self)

theorem Tree.returns_of_not_mayReturn {c : Symbol} (t : Tree c) (hc : c.mayReturn = false) :
    t.returns = false := by
  cases t <;> first | rfl | cases hc

/-- A tree with functions in it is parsed in the main function. -/
def Tree.Placed {c : Symbol} (t : Tree c) (s : State) : Prop := t.plain false = false → AtMain s

theorem Tree.Placed.of_plain {c : Symbol} {t : Tree c} (h : t.plain false = true) : t.Placed s :=
  fun h' => Bool.noConfusion (h.symm.trans h')

theorem Tree.Placed.first {first : Tree .stmt} {rest : Tree .stmts}
    (h : (stmtThen first rest).Placed s) : first.Placed s :=
  fun hf => h (by rw [plain, hf, Bool.false_and])

theorem Tree.Placed.rest {first : Tree .stmt} {rest : Tree .stmts}
    (h : (stmtThen first rest).Placed s) (hm : AtMain s → AtMain (first.parse true s)) :
    rest.Placed (first.parse true s) :=
  fun hr => hm (h (by rw [plain, hr, Bool.and_false]))

/-- A tidy statement leaves the parser in the main function if it was there. -/
theorem Tree.atMain_of_tidyMain {c : Symbol} (t : Tree c) {s : State} (hc : c.hasStmts = true)
    (hm : t.Placed s) (hp : t.tidyMain (s.currFnRettype = 0) = true) :
    (AtMain s → AtMain (t.parse true s)) ∧ KeepsReturn t s := by
  induction t generalizing s with
  | atom | noArgs | noFields | noClause | operands | nextParam | ifexpr | clause
  | stmtexprListBlock | stmtListBlock | firstParam | someArgs | someFields => cases hc
  | noStmt | noTraitFn | noImplFn | retVoid | label _ => exact ⟨id, keepsReturn_of_eq rfl rfl⟩
  | simple parts => exact ⟨fun h => h.parse_plain _ hp, keepsReturn_of_plain _ rfl hp⟩
  | control list => exact ⟨fun h => h.parse_plain _ hp, keepsReturn_of_plain _ rfl hp⟩
  | forStmt list body => exact ⟨fun h => h.parse_plain _ hp, keepsReturn_of_plain _ rfl hp⟩
  | structDef name members => exact ⟨fun h => h.parse_plain _ hp, keepsReturn_of_plain _ rfl hp⟩
  | retExpr value =>
      have hv : AtMain s → AtMain (value.parse true s) := fun h => h.parse_plain value hp
      simp only [KeepsReturn, parse, makeStmtRetExpr, Bool.and_true, decide_eq_true_eq, returns,
        if_true]
      split
      · exact ⟨fun h => (hv h).of_scopes rfl rfl, fun h => by cases h⟩
      · next hset => exact ⟨hv, hset⟩
  | traitDef name defs ih =>
      obtain ⟨h, hr⟩ := ih (s := { s with currentTraitId := name }) rfl
        (fun h => (hm h).of_scopes rfl rfl) hp
      exact ⟨fun ha => (h (ha.of_scopes rfl rfl)).of_scopes rfl rfl,
        keepsReturn_of_eq rfl (hr.eq (defs.returns_of_not_mayReturn rfl))⟩
  | typeImpl classId traitId defs ih =>
      obtain ⟨h, hr⟩ := ih (s := pushTypeImpl classId traitId s) rfl
        (fun h => (hm h).of_scopes rfl rfl) hp
      exact ⟨fun ha => (h (ha.of_scopes rfl rfl)).of_scopes rfl rfl,
        keepsReturn_of_eq rfl (hr.eq (defs.returns_of_not_mayReturn rfl))⟩
  | fnUnit fn ih =>
      obtain ⟨h, hr⟩ := ih (s := enterFnUnit s) rfl (fun _ => (hm rfl).of_scopes rfl rfl) hp
      exact ⟨fun ha => (h (ha.of_scopes rfl rfl)).of_scopes rfl rfl,
        keepsReturn_of_eq rfl (hr.eq (fn.returns_of_not_mayReturn rfl))⟩
  | fnDefine name args ret rettype body =>
      simp only [tidyMain, Bool.and_eq_true, decide_eq_true_eq] at hp
      exact ⟨fun ha => ha.parse_fnDefine hp.1.1.1.2 hp.1.1.2 hp.1.2,
        keepsReturn_of_eq rfl hp.1.1.1.1.symm⟩
  | fnDecl name args ret rettype =>
      simp only [tidyMain, Bool.and_eq_true, decide_eq_true_eq] at hp
      exact ⟨fun ha => ha.parse_fnDecl hp.1.2 hp.2, keepsReturn_of_eq rfl hp.1.1.symm⟩
  | traitProto => cases hp
  | stmtThen first rest ihf ihr =>
      simp only [tidyMain, Bool.and_eq_true] at hp
      obtain ⟨hf, hrf⟩ := ihf rfl hm.first hp.1
      rw [← hrf.fresh] at hp
      obtain ⟨hr, hrr⟩ := ihr rfl (hm.rest hf) hp.2
      refine ⟨fun ha => hr (hf ha), ?_⟩
      cases h₂ : rest.returns with
      | true =>
          simp only [KeepsReturn, returns, h₂, Bool.or_true, if_true] at hrr ⊢
          exact hrr
      | false =>
          have heq := hrr.eq h₂
          simp only [KeepsReturn, returns, h₂, Bool.or_false, parse, heq]
          exact hrf
  | traitDefault fn rest ihf ihr | implFn fn rest ihf ihr =>
      simp only [tidyMain, Bool.and_eq_true] at hp
      obtain ⟨hf, hrf⟩ := ihf rfl (fun _ => hm rfl) hp.1
      have hrf' := hrf.eq (fn.returns_of_not_mayReturn rfl)
      obtain ⟨hr, hrr⟩ := ihr rfl (fun _ => hf (hm rfl)) (by rw [hrf']; exact hp.2)
      exact ⟨fun ha => hr (hf ha),
        keepsReturn_of_eq rfl ((hrr.eq (rest.returns_of_not_mayReturn rfl)).trans hrf')⟩

/-- A tidy tree leaves the parser in the scope it stands in. -/
theorem Tree.inScope_of_tidyMain {c : Symbol} (t : Tree c) {sc : Scope} (hc : c.hasStmts = true)
    (hs : WellScoped true s) (hm : t.Placed s) (hsc : s.In sc)
    (hp : t.tidyMain (s.currFnRettype = 0) = true) :
    WellScoped true (t.parse true s) ∧ (t.parse true s).In sc := by
  cases hpl : t.plain false with
  | true =>
      have hk := t.keeps_of_plain hpl hs
      exact ⟨hk.wellScoped, hk.inScope hsc⟩
  | false =>
      have ha := hm hpl
      have ha' := (t.atMain_of_tidyMain hc hm hp).1 ha
      exact ⟨ha'.toWellScoped, (ha'.table.trans ha.table.symm).trans hsc.table,
        (ha'.fnTable.trans ha.fnTable.symm).trans hsc.fn⟩

/-- A tidy construct is completed in the scope it stands in. -/
theorem Tree.construct_ok_of_tidyMain {c : Symbol} (t : Tree c) (hc : c.hasStmts = true)
    (hs : WellScoped true s) (hm : t.Placed s) (hp : t.tidyMain (s.currFnRettype = 0) = true)
    (hret : t.returns = false) : (Visit.construct s (t.parse true s)).Ok := by
  have hhere : s.In ⟨s.currSymtable, s.currFnSymtable⟩ := ⟨rfl, rfl⟩
  obtain ⟨hs', hin⟩ := t.inScope_of_tidyMain hc hs hm hhere hp
  exact ⟨hin.table, hin.fn, (t.atMain_of_tidyMain hc hm hp).2.eq hret, hs'.acyclic⟩

theorem Tree.disciplined_of_tidyMain {c : Symbol} (t : Tree c) {s : State} {sc : Scope}
    (hc : c.hasStmts = true) (hs : WellScoped true s) (hm : t.Placed s) (hsc : s.In sc)
    (hp : t.tidyMain (s.currFnRettype = 0) = true) : t.Disciplined true sc s := by
  have hplain : ∀ {c : Symbol} (t : Tree c) {s : State} {sc : Scope}, WellScoped true s →
      s.In sc → t.plain (s.currFnRettype = 0) = true → t.Disciplined true sc s :=
    fun t _ _ hs hsc hp => t.disciplined_of_plain hp hs retGuard_self hsc
  induction t generalizing s sc with
  | atom | noArgs | noFields | noClause | operands | nextParam | ifexpr | clause
  | stmtexprListBlock | stmtListBlock | firstParam | someArgs | someFields => cases hc
  | noStmt | noTraitFn | noImplFn => exact List.forall_mem_nil _
  | retVoid | label _ => exact List.forall_mem_singleton.mpr (hsc.ok hs)
  | simple parts => exact hplain _ hs hsc hp
  | control list => exact hplain _ hs hsc hp
  | forStmt list body => exact hplain _ hs hsc hp
  | structDef name members => exact hplain _ hs hsc hp
  | retExpr value =>
      have hv := value.keeps_of_plain hp hs
      exact List.forall_mem_append.mpr ⟨hplain value hs hsc hp,
        List.forall_mem_singleton.mpr ((hv.inScope hsc).ok hv.wellScoped)⟩
  | traitDef name defs ih =>
      have hok := (traitDef name defs).construct_ok_of_tidyMain rfl hs hm hp rfl
      exact List.forall_mem_append.mpr
        ⟨ih rfl (hs.of_scopes rfl) (fun h => (hm h).of_scopes rfl rfl) ⟨hsc.table, hsc.fn⟩ hp,
          List.forall_mem_singleton.mpr hok⟩
  | typeImpl classId traitId defs ih =>
      have hok := (typeImpl classId traitId defs).construct_ok_of_tidyMain rfl hs hm hp rfl
      exact List.forall_mem_append.mpr
        ⟨ih rfl (hs.of_scopes rfl) (fun h => (hm h).of_scopes rfl rfl) ⟨hsc.table, hsc.fn⟩ hp,
          List.forall_mem_singleton.mpr hok⟩
  | fnUnit fn ih =>
      have hok := (fnUnit fn).construct_ok_of_tidyMain rfl hs hm hp rfl
      exact List.forall_mem_append.mpr ⟨ih (s := enterFnUnit s) rfl (hs.of_scopes rfl)
        (fun _ => (hm rfl).of_scopes rfl rfl) ⟨hsc.table, hsc.fn⟩ hp,
        List.forall_mem_singleton.mpr hok⟩
  | fnDefine name args ret rettype body iha ihr ihb =>
      have hok := (fnDefine name args ret rettype body).construct_ok_of_tidyMain rfl hs hm hp rfl
      simp only [tidyMain, Bool.and_eq_true, decide_eq_true_eq] at hp
      obtain ⟨⟨⟨⟨hn, hpa⟩, hpr⟩, hpb⟩, htb⟩ := hp
      have hin : (fnProtoName true s).In (fnScope s) := by
        refine ⟨fnProtoName_currSymtable, ?_⟩
        have hfn := congrArg (·.2.2.2) (scopes_fnProtoName (m := true) (s := s))
        rwa [(hm rfl).externFlag_eq] at hfn
      have hg : RetGuard true (fnProtoName true s) true := fun _ _ => rfl
      have hka := args.restores_of_plain hpa hs.fnProtoName hg
      have hkr := hka.trans (ret.restores_of_plain hpr hka.wellScoped (hka.guard hg))
      have hk := hkr.toKeeps.makeFnProto name rettype
      refine List.forall_mem_append.mpr ⟨?_, List.forall_mem_append.mpr ⟨?_,
        List.forall_mem_cons.mpr ⟨?_, List.forall_mem_append.mpr
          ⟨?_, List.forall_mem_singleton.mpr hok⟩⟩⟩⟩
      · exact args.disciplined_of_plain hpa hs.fnProtoName hg hin
      · exact ret.disciplined_of_plain hpr hka.wellScoped (hka.guard hg) (hka.inScope hin)
      · exact (hk.inScope hin).ok hk.wellScoped
      · refine ihb rfl hk.wellScoped (.of_plain hpb) (hk.inScope hin) ?_
        rw [fnProto, makeFnProto_currFnRettype]
        exact htb
  | fnDecl name args ret rettype =>
      have hok := (fnDecl name args ret rettype).construct_ok_of_tidyMain rfl hs hm hp rfl
      simp only [tidyMain, Bool.and_eq_true, decide_eq_true_eq] at hp
      obtain ⟨⟨hn, hpa⟩, hpr⟩ := hp
      have hw : WellScoped true { s with externFlag := true } := hs.of_scopes rfl
      have hin : (fnProtoName true { s with externFlag := true }).In (externScope s) :=
        ⟨fnProtoName_currSymtable, congrArg (·.2.2.2) scopes_fnProtoName⟩
      have hg : RetGuard true (fnProtoName true { s with externFlag := true }) true :=
        fun _ _ => rfl
      have hka := args.restores_of_plain hpa hw.fnProtoName hg
      refine List.forall_mem_append.mpr ⟨?_, List.forall_mem_append.mpr
        ⟨?_, List.forall_mem_singleton.mpr hok⟩⟩
      · exact args.disciplined_of_plain hpa hw.fnProtoName hg hin
      · exact ret.disciplined_of_plain hpr hka.wellScoped (hka.guard hg) (hka.inScope hin)
  | traitProto => cases hp
  | stmtThen first rest ihf ihr =>
      simp only [tidyMain, Bool.and_eq_true] at hp
      obtain ⟨hf, hrf⟩ := first.atMain_of_tidyMain rfl hm.first hp.1
      obtain ⟨hs', hsc'⟩ := first.inScope_of_tidyMain rfl hs hm.first hsc hp.1
      exact List.forall_mem_append.mpr ⟨ihf rfl hs hm.first hsc hp.1,
        ihr rfl hs' (hm.rest hf) hsc' (by rw [hrf.fresh]; exact hp.2)⟩
  | traitDefault fn rest ihf ihr | implFn fn rest ihf ihr =>
      simp only [tidyMain, Bool.and_eq_true] at hp
      have hmf : fn.Placed s := fun _ => hm rfl
      obtain ⟨hf, hrf⟩ := fn.atMain_of_tidyMain rfl hmf hp.1
      obtain ⟨hs', hsc'⟩ := fn.inScope_of_tidyMain rfl hs hmf hsc hp.1
      have hrf' := hrf.eq (fn.returns_of_not_mayReturn rfl)
      exact List.forall_mem_append.mpr ⟨ihf rfl hs hmf hsc hp.1,
        ihr rfl hs' (fun _ => hf (hm rfl)) hsc' (by rw [hrf']; exact hp.2)⟩

theorem Tree.tidyMain_of_disciplined {c : Symbol} (t : Tree c) {s : State} {sc : Scope}
    (hc : c.hasStmts = true) (hs : WellScoped true s) (hm : t.Placed s)
    (h : t.Disciplined true sc s) : t.tidyMain (s.currFnRettype = 0) = true := by
  induction t generalizing s sc with
  | atom | noArgs | noFields | noClause | operands | nextParam | ifexpr | clause
  | stmtexprListBlock | stmtListBlock | firstParam | someArgs | someFields => cases hc
  | noStmt | noTraitFn | noImplFn | retVoid | label _ => rfl
  | simple parts => exact parts.plain_of_disciplined rfl hs (List.forall_mem_append.mp h).1
  | retExpr value => exact value.plain_of_disciplined rfl hs (List.forall_mem_append.mp h).1
  | control list => exact list.plain_of_disciplined rfl hs h
  | forStmt list body =>
      obtain ⟨-, h⟩ := List.forall_mem_cons.mp h
      obtain ⟨hl, h⟩ := List.forall_mem_append.mp h
      obtain ⟨hb, -⟩ := List.forall_mem_append.mp h
      have hpl := list.plain_of_disciplined rfl hs.push hl
      have hk := list.restores_of_plain hpl hs.push retGuard_self
      have hpb := body.plain_of_disciplined rfl hk.wellScoped hb
      rw [hk.rettype] at hpb
      exact Bool.and_eq_true_iff.mpr ⟨hpl, hpb⟩
  | structDef name members =>
      exact members.plain_of_disciplined (s := resetArglistWithNewSymtable s) rfl
        (hs.push.of_scopes scopes_reset) (List.forall_mem_append.mp h).1
  | traitDef name defs ih =>
      exact ih (s := { s with currentTraitId := name }) rfl (hs.of_scopes rfl)
        (fun h => (hm h).of_scopes rfl rfl) (List.forall_mem_append.mp h).1
  | typeImpl classId traitId defs ih =>
      exact ih (s := pushTypeImpl classId traitId s) rfl (hs.of_scopes rfl)
        (fun h => (hm h).of_scopes rfl rfl) (List.forall_mem_append.mp h).1
  | fnUnit fn ih =>
      exact ih (s := enterFnUnit s) rfl (hs.of_scopes rfl)
        (fun _ => (hm rfl).of_scopes rfl rfl) (List.forall_mem_append.mp h).1
  | fnDefine name args ret rettype body iha ihr ihb =>
      obtain ⟨ha, h⟩ := List.forall_mem_append.mp h
      obtain ⟨hr, h⟩ := List.forall_mem_append.mp h
      obtain ⟨-, h⟩ := List.forall_mem_cons.mp h
      obtain ⟨hb, h⟩ := List.forall_mem_append.mp h
      have hn : s.currFnRettype = 0 := (List.forall_mem_singleton.mp h).restored.2.symm
      have hn₁ : (fnProtoName true s).currFnRettype = 0 := fnProtoName_currFnRettype.trans hn
      have hpa := args.plain_of_disciplined rfl hs.fnProtoName ha
      have hka := args.restores_of_plain hpa hs.fnProtoName retGuard_self
      have hpr := ret.plain_of_disciplined rfl hka.wellScoped hr
      have hkr := hka.trans (ret.restores_of_plain hpr hka.wellScoped retGuard_self)
      rw [hka.rettype] at hpr
      rw [decide_eq_true hn₁] at hpa hpr
      have hk := hkr.toKeeps.makeFnProto name rettype
      have hpb := body.plain_of_disciplined_inner hk.wellScoped (fun _ => by
        rw [hk.table, fnProtoName_currSymtable]
        exact hs.tables_ne_main) hb
      have htb := ihb rfl hk.wellScoped (.of_plain hpb) hb
      rw [makeFnProto_currFnRettype] at htb
      simp only [tidyMain, Bool.and_eq_true, decide_eq_true_eq]
      exact ⟨⟨⟨⟨hn, hpa⟩, hpr⟩, hpb⟩, htb⟩
  | fnDecl name args ret rettype =>
      obtain ⟨ha, h⟩ := List.forall_mem_append.mp h
      obtain ⟨hr, h⟩ := List.forall_mem_append.mp h
      have hn : s.currFnRettype = 0 := (List.forall_mem_singleton.mp h).restored.2.symm
      have hw : WellScoped true { s with externFlag := true } := hs.of_scopes rfl
      have hn₁ : (fnProtoName true { s with externFlag := true }).currFnRettype = 0 :=
        fnProtoName_currFnRettype.trans hn
      have hpa := args.plain_of_disciplined rfl hw.fnProtoName ha
      have hka := args.restores_of_plain hpa hw.fnProtoName retGuard_self
      have hpr := ret.plain_of_disciplined rfl hka.wellScoped hr
      rw [hka.rettype] at hpr
      rw [decide_eq_true hn₁] at hpa hpr
      simp only [tidyMain, Bool.and_eq_true, decide_eq_true_eq]
      exact ⟨⟨hn, hpa⟩, hpr⟩
  | traitProto name args ret rettype rest =>
      obtain ⟨ha, h⟩ := List.forall_mem_append.mp h
      obtain ⟨hr, h⟩ := List.forall_mem_append.mp h
      obtain ⟨hdone, -⟩ := List.forall_mem_cons.mp h
      have hpa := args.plain_of_disciplined rfl hs.fnProtoName ha
      have hka := args.keeps_of_plain hpa hs.fnProtoName
      have hpr := ret.plain_of_disciplined rfl hka.wellScoped hr
      have hkr := hka.trans (ret.keeps_of_plain hpr hka.wellScoped)
      have htable := hdone.1
      rw [fnProto, (hkr.makeFnProto name rettype).pop_fn hs] at htable
      exact absurd htable (s.outer_ne hs)
  | stmtThen first rest ihf ihr =>
      obtain ⟨hf, hr⟩ := List.forall_mem_append.mp h
      have htf := ihf rfl hs hm.first hf
      have hhere : s.In ⟨s.currSymtable, s.currFnSymtable⟩ := ⟨rfl, rfl⟩
      obtain ⟨hm', hrf⟩ := first.atMain_of_tidyMain rfl hm.first htf
      have hs' := (first.inScope_of_tidyMain rfl hs hm.first hhere htf).1
      have htr := ihr rfl hs' (hm.rest hm') hr
      rw [hrf.fresh] at htr
      exact Bool.and_eq_true_iff.mpr ⟨htf, htr⟩
  | traitDefault fn rest ihf ihr | implFn fn rest ihf ihr =>
      obtain ⟨hf, hr⟩ := List.forall_mem_append.mp h
      have htf := ihf rfl hs (fun _ => hm rfl) hf
      obtain ⟨hm', hrf⟩ := fn.atMain_of_tidyMain rfl (fun _ => hm rfl) htf
      have htr := ihr rfl (hm' (hm rfl)).toWellScoped (fun _ => hm' (hm rfl)) hr
      rw [hrf.eq (fn.returns_of_not_mayReturn rfl)] at htr
      exact Bool.and_eq_true_iff.mpr ⟨htf, htr⟩

/-! ### Source files -/

theorem atMain_yyparserInit : AtMain (yyparserInit true) where
  curr := Nat.one_lt_two
  fn := by
    rintro f ⟨⟩
    exact Nat.one_lt_two
  down := by
    intro t p h
    simp only [yyparserInit, if_true, pushNewSymtable, Function.update_apply] at h
    split at h
    · cases h
      subst t
      exact Nat.one_pos
    · cases h
  inMain := fun _ => ⟨le_rfl, Nat.one_ne_zero⟩
  table := rfl
  fnTable := rfl
  parent := rfl
  externFlag_eq := rfl

theorem wellScoped_yyparserInit : WellScoped false (yyparserInit false) :=
  ⟨Nat.one_pos, nofun, nofun, nofun⟩

/-- **The scope stack**: the parser restores its scopes after every construct of a source file and
records every statement in the scope that contains it iff the file is tidy. -/
theorem Program.scopesRestored_iff (emitMain : Bool) (p : Program) :
    p.ScopesRestored emitMain ↔ p.Tidy emitMain := by
  cases emitMain with
  | false =>
      have hf : (yyparserInit false).Free := ⟨rfl, rfl⟩
      exact ⟨fun h => (p.tidy_of_disciplined wellScoped_yyparserInit h).1 hf,
        fun hp => p.disciplined_of_tidy hp wellScoped_yyparserInit hf ⟨rfl, rfl⟩⟩
  | true =>
      have hm := atMain_yyparserInit
      exact ⟨fun h => p.tidyMain_of_disciplined rfl hm.toWellScoped (fun _ => hm) h,
        fun hp => p.disciplined_of_tidyMain rfl hm.toWellScoped (fun _ => hm) hm.inScope hp⟩

/-- `fn f() { fn g() {} }` -/
def nestedFn : Program :=
  .stmtThen (.fnUnit (.fnDefine 2 .noArgs .atom voidId
    (.stmtThen (.fnUnit (.fnDefine 3 .noArgs .atom voidId .noStmt)) .noStmt))) .noStmt

/-- `{ fn g() {} }` -/
def blockFn : Program :=
  .stmtThen (.control (.clause .atom (.stmtListBlock
    (.stmtThen (.fnUnit (.fnDefine 3 .noArgs .atom voidId .noStmt)) .noStmt)) .noClause)) .noStmt

/-- After a nested function the enclosing one has lost its table, and with `-main` a function in a
block makes the main function's table its own parent. -/
theorem scopes_not_restored :
    (nestedFn.parse false (yyparserInit false)).rejected = false ∧
      ¬ nestedFn.ScopesRestored false ∧
      (blockFn.parse true (yyparserInit true)).rejected = false ∧
      ¬ (blockFn.parse true (yyparserInit true)).Acyclic := by
  refine ⟨rfl, ?_, rfl, fun h => h gMainSymtable (.single rfl)⟩
  intro h
  have htidy := (nestedFn.tidy_of_disciplined wellScoped_yyparserInit h).1 ⟨rfl, rfl⟩
  exact absurd htidy (by decide)

end CaLang.Parser
