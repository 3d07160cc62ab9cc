import CaLang.Parser.Classification

/-! # The files whose functions are classified right

**In an accepted file every function is registered as its enclosing construct says iff the file is
unmixed** (`Program.classified_iff`).  One way the registrations are right as long as the trait and
the impl block are those around; the other way the first function of a construct that has changed
them is registered as another kind, since an accepted definition either makes a new entry or
completes an extern declaration, which is that of a plain function (`State.DeclsOk`).
-/

namespace CaLang.Parser

variable {m : Bool} {s s' : State}

/-! ### Unmixed files are classified -/

/-- A function that is declared without a definition is a plain one. -/
def State.DeclsOk (s : State) : Prop :=
  ∀ e ∈ s.entries, e.symType = .fnDecl → e.caFuncType = .function

theorem State.DeclsOk.congr (hd : s.DeclsOk) (h : s'.entries = s.entries) : s'.DeclsOk :=
  fun e hmem => hd e (h ▸ hmem)

theorem State.DeclsOk.setFn (hd : s.DeclsOk) {entry : FnEntry}
    (h : entry.symType = .fnDecl → entry.caFuncType = .function) : (s.setFn entry).DeclsOk := by
  intro e hmem
  obtain ⟨e₀, hmem₀, rfl⟩ := List.mem_map.mp hmem
  split
  · exact h
  · exact hd e₀ hmem₀

theorem State.DeclsOk.makeFnProto (hd : s.DeclsOk) (name rettype : Id) :
    (makeFnProto name rettype s).1.DeclsOk := by
  unfold Parser.makeFnProto
  dsimp only
  split
  · next prev hget =>
      refine State.DeclsOk.setFn hd fun hdecl => hd prev (State.getFn_mem hget).1 ?_
      dsimp only at hdecl
      split at hdecl
      · exact hdecl
      · cases hdecl
  · intro e hmem
    rcases List.mem_append.mp hmem with hmem | hmem
    · exact hd e hmem
    · obtain rfl := List.mem_singleton.mp hmem
      intro hdecl
      dsimp only at hdecl ⊢
      split at hdecl
      · next hext => exact if_pos hext
      · cases hdecl

theorem Tree.declsOk_parse {c : Symbol} (t : Tree c) {s : State} (hd : s.DeclsOk) :
    (t.parse m s).DeclsOk := by
  induction t generalizing s with
  | atom | noArgs | noFields | noClause | retVoid | label _ | noStmt | noTraitFn | noImplFn =>
      exact hd
  | operands left right ihl ihr | nextParam left _ right ihl ihr | stmtThen left right ihl ihr
  | traitDefault left right ihl ihr | implFn left right ihl ihr => exact ihr (ihl hd)
  | ifexpr cond thens elses ihc iht ihe | clause cond thens elses ihc iht ihe =>
      exact ihe (iht (ihc hd))
  | stmtexprListBlock list value ihl ihv | forStmt list value ihl ihv =>
      exact (ihv (ihl (s := pushNewSymtable s) hd)).congr popSymtable_entries
  | stmtListBlock list ih => exact (ih (s := pushNewSymtable s) hd).congr popSymtable_entries
  | firstParam _ type ih | someArgs type _ ih | someFields type ih | control type ih
  | simple type ih => exact ih hd
  | retExpr value ih => exact (ih hd).congr makeStmtRetExpr_entries
  | structDef _ members ih =>
      exact (ih (s := resetArglistWithNewSymtable s) hd).congr makeStructType_entries
  | traitDef name defs ih => exact ih (s := { s with currentTraitId := name }) hd
  | typeImpl classId traitId defs ih => exact ih (s := pushTypeImpl classId traitId s) hd
  | fnUnit fn ih => exact ih (s := enterFnUnit s) hd
  | fnDefine name args ret rettype body iha ihr ihb =>
      have h := ihr (iha (hd.congr (fnProtoName_entries (m := m))))
      exact (ihb (h.makeFnProto name rettype)).congr makeFnDef_entries
  | fnDecl name args ret rettype iha ihr =>
      have h := ihr (iha (s := fnProtoName m { s with externFlag := true })
        (hd.congr fnProtoName_entries))
      exact (h.makeFnProto name rettype).congr makeFnDecl_entries
  | traitProto name args ret rettype rest iha ihr ihs =>
      have h := ihr (iha (hd.congr (fnProtoName_entries (m := m))))
      exact ihs ((h.makeFnProto name rettype).congr popSymtable_entries)

/-- The registration of a prototype whose types are parsed. -/
theorem registration_classified (varg : Bool) {enc : Enclosing} {ext : Bool}
    {name rettype : Id} (hs : s.EntriesOk) (hacc : (makeFnProto name rettype s).1.rejected = false)
    (henc : enc.Is s) (hext : s.externFlag = ext) (hfn : ext = true → enc = .function) :
    (makeFnProto name rettype s).1.EntriesOk ∧
      Registration.Classified ⟨enc, ext, name, varg, (makeFnProto name rettype s).2⟩ := by
  have hname := henc.formFnName name
  have h := makeFnProto_classified name rettype hs hacc fun hx => by
    rw [hname, hfn (hext ▸ hx)]
    exact ⟨name, rfl⟩
  obtain ⟨he, hn, hentry, hkind⟩ := h
  exact ⟨he, hext ▸ makeFnProto_node, hn.trans hname, hentry.trans hn.symm,
    hkind.trans henc.formFuncType⟩

/-- What the parse of an unmixed tree leaves unchanged, and what no parse breaks. -/
structure SameContext (s s' : State) : Prop where
  ctx : s'.ctx = s.ctx
  externFlag_eq : s'.externFlag = s.externFlag
  decls : s.DeclsOk → s'.DeclsOk

theorem SameContext.trans {s'' : State} (h : SameContext s s') (h' : SameContext s' s'') :
    SameContext s s'' :=
  ⟨h'.ctx.trans h.ctx, h'.externFlag_eq.trans h.externFlag_eq, fun hd => h'.decls (h.decls hd)⟩

theorem Tree.sameContext {c : Symbol} (t : Tree c) {s : State}
    (h : t.unmixed s.place s.externFlag = true) : SameContext s (t.parse m s) :=
  ⟨t.ctx_parse h, t.extern_parse h, t.declsOk_parse⟩

theorem SameContext.unmixed {c : Symbol} {t : Tree c} (h : SameContext s s')
    (hu : t.unmixed s.place s.externFlag = true) :
    t.unmixed s'.place s'.externFlag = true := by
  rw [place_of_ctx h.ctx, h.externFlag_eq]
  exact hu

theorem SameContext.parsing (h : SameContext s s') (hs : s.CountOk) (he : s'.EntriesOk) :
    Parsing s' := ⟨he, hs.of_ctx h.ctx⟩

theorem sameContext_fnProtoName : SameContext s (fnProtoName m s) :=
  ⟨fnProtoName_ctx, fnProtoName_externFlag, fun hd => hd.congr fnProtoName_entries⟩

theorem sameContext_makeFnProto (name rettype : Id) :
    SameContext s (makeFnProto name rettype s).1 :=
  ⟨makeFnProto_ctx, makeFnProto_externFlag name rettype, fun hd => hd.makeFnProto name rettype⟩

theorem sameContext_popSymtable : SameContext s (popSymtable s) :=
  ⟨popSymtable_ctx, popSymtable_externFlag, fun hd => hd.congr popSymtable_entries⟩

theorem Tree.classified_of_unmixed {c : Symbol} (t : Tree c) (enc : Enclosing) {s : State}
    (hs : Parsing s) (hacc : (t.parse m s).rejected = false)
    (hu : t.unmixed s.place s.externFlag = true) (henc : c.inConstruct = true → enc.Is s) :
    (t.parse m s).EntriesOk ∧ ∀ r ∈ t.prototypes m enc s, r.Classified := by
  induction t generalizing enc s with
  | atom | noArgs | noFields | noClause | retVoid | label _ | noStmt | noTraitFn | noImplFn =>
      exact ⟨hs.entries, List.forall_mem_nil _⟩
  | operands left right ihl ihr | nextParam left _ right ihl ihr | stmtThen left right ihl ihr =>
      simp only [unmixed, Bool.and_eq_true] at hu
      have hl := ihl enc hs (right.rejected_of_parse hacc) hu.1 Bool.noConfusion
      have hc := left.sameContext (m := m) hu.1
      have hr := ihr enc (hc.parsing hs.count hl.1) hacc (hc.unmixed hu.2) Bool.noConfusion
      exact ⟨hr.1, List.forall_mem_append.mpr ⟨hl.2, hr.2⟩⟩
  | traitDefault left right ihl ihr | implFn left right ihl ihr =>
      simp only [unmixed, Bool.and_eq_true] at hu
      have hl := ihl enc hs (right.rejected_of_parse hacc) hu.1 henc
      have hc := left.sameContext (m := m) hu.1
      have hr := ihr enc (hc.parsing hs.count hl.1) hacc (hc.unmixed hu.2)
        fun hin => (henc hin).of_ctx hc.ctx
      exact ⟨hr.1, List.forall_mem_append.mpr ⟨hl.2, hr.2⟩⟩
  | ifexpr cond thens elses ihc iht ihe | clause cond thens elses ihc iht ihe =>
      simp only [unmixed, Bool.and_eq_true] at hu
      have hacct := elses.rejected_of_parse hacc
      have hc := ihc enc hs (thens.rejected_of_parse hacct) hu.1 Bool.noConfusion
      have hcc := cond.sameContext (m := m) hu.1
      have ht := iht enc (hcc.parsing hs.count hc.1) hacct (hcc.unmixed hu.2.1) Bool.noConfusion
      have hct := hcc.trans (thens.sameContext (m := m) (hcc.unmixed hu.2.1))
      have he := ihe enc (hct.parsing hs.count ht.1) hacc (hct.unmixed hu.2.2) Bool.noConfusion
      exact ⟨he.1, List.forall_mem_append.mpr ⟨hc.2, List.forall_mem_append.mpr ⟨ht.2, he.2⟩⟩⟩
  | stmtexprListBlock list value ihl ihv | forStmt list value ihl ihv =>
      simp only [unmixed, Bool.and_eq_true] at hu
      have haccv := popSymtable_rejected.symm.trans hacc
      have hl := ihl enc (s := pushNewSymtable s) (hs.congr rfl rfl)
        (value.rejected_of_parse haccv) hu.1 Bool.noConfusion
      have hc := list.sameContext (m := m) (s := pushNewSymtable s) hu.1
      have hv := ihv enc (hc.parsing hs.count hl.1) haccv (hc.unmixed hu.2) Bool.noConfusion
      exact ⟨hv.1.congr popSymtable_entries, List.forall_mem_append.mpr ⟨hl.2, hv.2⟩⟩
  | stmtListBlock list ih =>
      have h := ih enc (s := pushNewSymtable s) (hs.congr rfl rfl)
        (popSymtable_rejected.symm.trans hacc) hu Bool.noConfusion
      exact ⟨h.1.congr popSymtable_entries, h.2⟩
  | firstParam _ type ih | someArgs type _ ih | someFields type ih | control type ih
  | simple type ih => exact ih enc hs hacc hu Bool.noConfusion
  | retExpr value ih =>
      have h := ih enc hs (makeStmtRetExpr_rejected.symm.trans hacc) hu Bool.noConfusion
      exact ⟨h.1.congr makeStmtRetExpr_entries, h.2⟩
  | structDef _ members ih =>
      have h := ih enc (s := resetArglistWithNewSymtable s) (hs.congr rfl rfl)
        (makeStructType_rejected.symm.trans hacc) hu Bool.noConfusion
      exact ⟨h.1.congr makeStructType_entries, h.2⟩
  | traitDef name defs ih =>
      simp only [unmixed, Bool.and_eq_true, Bool.or_eq_true, decide_eq_true_eq] at hu
      obtain ⟨-, hname | hno, hud⟩ := hu
      · exact ih (.traitDef name) (s := { s with currentTraitId := name })
          ⟨hs.entries, hs.count⟩ hacc
          (by rw [place_of_trait (s := { s with currentTraitId := name }) hname]; exact hud)
          fun _ => ⟨rfl, hname⟩
      · cases defs with
        | noTraitFn => exact ⟨hs.entries, List.forall_mem_nil _⟩
        | traitProto | traitDefault => cases hno
  | typeImpl classId traitId defs ih =>
      simp only [unmixed, Bool.and_eq_true, Bool.or_eq_true, decide_eq_true_eq] at hu
      rcases hu.1 with hpl | hno
      · have htrait := trait_of_place hpl
        have hplace : (pushTypeImpl classId traitId s).place = .inMethod := by
          rw [State.place, show (pushTypeImpl classId traitId s).currentTraitId = 0 from htrait]
          rfl
        exact ih (.implBlock classId traitId) (s := pushTypeImpl classId traitId s)
          ⟨hs.entries, countOk_pushTypeImpl⟩ hacc (by rw [hplace]; exact hu.2)
          fun _ => ⟨htrait, _, rfl, rfl, rfl⟩
      · cases defs with
        | noImplFn => exact ⟨hs.entries, List.forall_mem_nil _⟩
        | implFn => cases hno
  | fnUnit fn ih =>
      simp only [unmixed, Bool.and_eq_true, decide_eq_true_eq] at hu
      have htrait := trait_of_place hu.1
      have hmethod := methodImpl_enterFnUnit hs.count
      exact ih .function (s := enterFnUnit s) ⟨hs.entries, countOk_enterFnUnit hs.count⟩ hacc
        (by rw [place_of_none (s := enterFnUnit s) htrait hmethod]; exact hu.2)
        fun _ => ⟨htrait, hmethod⟩
  | fnDefine name args ret rettype body iha ihr ihb =>
      simp only [unmixed, Bool.and_eq_true, Bool.not_eq_true'] at hu
      obtain ⟨hext, hua, hur, hub⟩ := hu
      have haccb := makeFnDef_rejected.symm.trans hacc
      have haccp := body.rejected_of_parse haccb
      have haccr := rejected_of_makeFnProto haccp
      have hc₁ := sameContext_fnProtoName (m := m) (s := s)
      have ha := iha .function (hs.congr fnProtoName_entries hc₁.ctx)
        (ret.rejected_of_parse haccr) (hc₁.unmixed hua) Bool.noConfusion
      have hc₂ := hc₁.trans (args.sameContext (m := m) (hc₁.unmixed hua))
      have hr := ihr .function (hc₂.parsing hs.count ha.1) haccr (hc₂.unmixed hur) Bool.noConfusion
      have hc₃ := hc₂.trans (ret.sameContext (m := m) (hc₂.unmixed hur))
      have hp := registration_classified args.varg hr.1 haccp
        ((henc rfl).of_ctx hc₃.ctx) (hc₃.externFlag_eq.trans hext) Bool.noConfusion
      have hc₄ := hc₃.trans (sameContext_makeFnProto name rettype)
      have hb := ihb .function (hc₄.parsing hs.count hp.1) haccb (hc₄.unmixed hub) Bool.noConfusion
      exact ⟨hb.1.congr makeFnDef_entries, List.forall_mem_append.mpr ⟨ha.2,
        List.forall_mem_append.mpr ⟨hr.2, List.forall_mem_cons.mpr ⟨hp.2, hb.2⟩⟩⟩⟩
  | traitProto name args ret rettype rest iha ihr ihs =>
      simp only [unmixed, Bool.and_eq_true, Bool.not_eq_true'] at hu
      obtain ⟨hext, hua, hur, hub⟩ := hu
      have haccp := popSymtable_rejected.symm.trans (rest.rejected_of_parse hacc)
      have haccr := rejected_of_makeFnProto haccp
      have hc₁ := sameContext_fnProtoName (m := m) (s := s)
      have ha := iha .function (hs.congr fnProtoName_entries hc₁.ctx)
        (ret.rejected_of_parse haccr) (hc₁.unmixed hua) Bool.noConfusion
      have hc₂ := hc₁.trans (args.sameContext (m := m) (hc₁.unmixed hua))
      have hr := ihr .function (hc₂.parsing hs.count ha.1) haccr (hc₂.unmixed hur) Bool.noConfusion
      have hc₃ := hc₂.trans (ret.sameContext (m := m) (hc₂.unmixed hur))
      have hp := registration_classified args.varg hr.1 haccp
        ((henc rfl).of_ctx hc₃.ctx) (hc₃.externFlag_eq.trans hext) Bool.noConfusion
      have hc₄ := (hc₃.trans (sameContext_makeFnProto name rettype)).trans
        sameContext_popSymtable
      have hb := ihs enc (hc₄.parsing hs.count (hp.1.congr popSymtable_entries)) hacc
        (hc₄.unmixed hub) fun hin => (henc hin).of_ctx hc₄.ctx
      exact ⟨hb.1, List.forall_mem_append.mpr ⟨ha.2,
        List.forall_mem_append.mpr ⟨hr.2, List.forall_mem_cons.mpr ⟨hp.2, hb.2⟩⟩⟩⟩
  | fnDecl name args ret rettype iha ihr =>
      simp only [unmixed, Bool.and_eq_true, decide_eq_true_eq] at hu
      obtain ⟨-, hpl, hua, hur⟩ := hu
      have haccp := makeFnDecl_rejected.symm.trans hacc
      have haccr := rejected_of_makeFnProto haccp
      have hs' : Parsing { s with externFlag := true } := ⟨hs.entries, hs.count⟩
      have hc₁ := sameContext_fnProtoName (m := m) (s := { s with externFlag := true })
      have ha := iha .function (hs'.congr fnProtoName_entries hc₁.ctx)
        (ret.rejected_of_parse haccr) (hc₁.unmixed hua) Bool.noConfusion
      have hc₂ := hc₁.trans (args.sameContext (m := m) (hc₁.unmixed hua))
      have hr := ihr .function (hc₂.parsing hs.count ha.1) haccr (hc₂.unmixed hur) Bool.noConfusion
      have hc₃ := hc₂.trans (ret.sameContext (m := m) (hc₂.unmixed hur))
      have henc' : Enclosing.function.Is s := methodImpl_of_place hpl
      have hp := registration_classified args.varg hr.1 haccp
        (henc'.of_ctx hc₃.ctx) hc₃.externFlag_eq fun _ => rfl
      exact ⟨hp.1.congr makeFnDecl_entries, List.forall_mem_append.mpr ⟨ha.2,
        List.forall_mem_append.mpr ⟨hr.2, List.forall_mem_singleton.mpr hp.2⟩⟩⟩

/-! ### Their contexts -/

theorem keepsContext_of_ctx (h : s'.ctx = s.ctx) : (Visit.construct s s').KeepsContext :=
  ⟨trait_of_ctx h, congrArg (·.2.1) h⟩

theorem Tree.keepsContext_of_unmixed {c : Symbol} (t : Tree c) {sc : Scope} {s : State}
    (hs : s.CountOk) (hu : t.unmixed s.place s.externFlag = true) :
    ∀ v ∈ t.visits m sc s, v.KeepsContext := by
  induction t generalizing sc s with
  | atom | noArgs | noFields | noClause | noStmt | noTraitFn | noImplFn =>
      exact List.forall_mem_nil _
  | retVoid | label _ => exact List.forall_mem_singleton.mpr trivial
  | operands left right ihl ihr | nextParam left _ right ihl ihr | stmtThen left right ihl ihr
  | traitDefault left right ihl ihr | implFn left right ihl ihr =>
      simp only [unmixed, Bool.and_eq_true] at hu
      have hc := left.sameContext (m := m) hu.1
      exact List.forall_mem_append.mpr ⟨ihl hs hu.1, ihr (hs.of_ctx hc.ctx) (hc.unmixed hu.2)⟩
  | ifexpr cond thens elses ihc iht ihe | clause cond thens elses ihc iht ihe =>
      simp only [unmixed, Bool.and_eq_true] at hu
      have hcc := cond.sameContext (m := m) hu.1
      have hct := hcc.trans (thens.sameContext (m := m) (hcc.unmixed hu.2.1))
      exact List.forall_mem_append.mpr ⟨ihc hs hu.1, List.forall_mem_append.mpr
        ⟨iht (hs.of_ctx hcc.ctx) (hcc.unmixed hu.2.1),
          ihe (hs.of_ctx hct.ctx) (hct.unmixed hu.2.2)⟩⟩
  | stmtexprListBlock list value ihl ihv =>
      have hall := (stmtexprListBlock list value).ctx_parse (m := m) hu
      simp only [unmixed, Bool.and_eq_true] at hu
      have hc := list.sameContext (m := m) (s := pushNewSymtable s) hu.1
      exact List.forall_mem_cons.mpr ⟨trivial, List.forall_mem_append.mpr
        ⟨ihl (s := pushNewSymtable s) hs hu.1, List.forall_mem_append.mpr
          ⟨ihv (hs.of_ctx hc.ctx) (hc.unmixed hu.2),
            List.forall_mem_singleton.mpr (keepsContext_of_ctx hall)⟩⟩⟩
  | forStmt list body ihl ihb =>
      have hall := (forStmt list body).ctx_parse (m := m) hu
      simp only [unmixed, Bool.and_eq_true] at hu
      have hc := list.sameContext (m := m) (s := pushNewSymtable s) hu.1
      exact List.forall_mem_cons.mpr ⟨trivial, List.forall_mem_append.mpr
        ⟨ihl (s := pushNewSymtable s) hs hu.1, List.forall_mem_append.mpr
          ⟨ihb (hs.of_ctx hc.ctx) (hc.unmixed hu.2),
            List.forall_mem_singleton.mpr (keepsContext_of_ctx hall)⟩⟩⟩
  | stmtListBlock list ih =>
      have hall := (stmtListBlock list).ctx_parse (m := m) hu
      exact List.forall_mem_cons.mpr ⟨trivial, List.forall_mem_append.mpr
        ⟨ih (s := pushNewSymtable s) hs hu,
          List.forall_mem_singleton.mpr (keepsContext_of_ctx hall)⟩⟩
  | firstParam _ type ih | someArgs type _ ih | someFields type ih | control type ih =>
      exact ih hs hu
  | simple parts ih | retExpr parts ih =>
      exact List.forall_mem_append.mpr ⟨ih hs hu, List.forall_mem_singleton.mpr trivial⟩
  | structDef name members ih =>
      have hall := (structDef name members).ctx_parse (m := m) hu
      exact List.forall_mem_append.mpr ⟨ih (s := resetArglistWithNewSymtable s) hs hu,
        List.forall_mem_singleton.mpr (keepsContext_of_ctx hall)⟩
  | traitDef name defs ih =>
      have hall := (traitDef name defs).ctx_parse (m := m) hu
      refine List.forall_mem_append.mpr
        ⟨?_, List.forall_mem_singleton.mpr (keepsContext_of_ctx hall)⟩
      simp only [unmixed, Bool.and_eq_true, Bool.or_eq_true, decide_eq_true_eq] at hu
      obtain ⟨-, hname | hno, hud⟩ := hu
      · exact ih (s := { s with currentTraitId := name }) hs
          (by rw [place_of_trait (s := { s with currentTraitId := name }) hname]; exact hud)
      · cases defs with
        | noTraitFn => exact List.forall_mem_nil _
        | traitProto | traitDefault => cases hno
  | typeImpl classId traitId defs ih =>
      have hall := (typeImpl classId traitId defs).ctx_parse (m := m) hu
      refine List.forall_mem_append.mpr
        ⟨?_, List.forall_mem_singleton.mpr (keepsContext_of_ctx hall)⟩
      simp only [unmixed, Bool.and_eq_true, Bool.or_eq_true, decide_eq_true_eq] at hu
      rcases hu.1 with hpl | hno
      · have htrait := trait_of_place hpl
        have hplace : (pushTypeImpl classId traitId s).place = .inMethod := by
          rw [State.place, show (pushTypeImpl classId traitId s).currentTraitId = 0 from htrait]
          rfl
        exact ih countOk_pushTypeImpl (by rw [hplace]; exact hu.2)
      · cases defs with
        | noImplFn => exact List.forall_mem_nil _
        | implFn => cases hno
  | fnUnit fn ih =>
      have hall := (fnUnit fn).ctx_parse (m := m) hu
      simp only [unmixed, Bool.and_eq_true, decide_eq_true_eq] at hu
      have htrait := trait_of_place hu.1
      have hplace := place_of_none (s := enterFnUnit s) htrait (methodImpl_enterFnUnit hs)
      exact List.forall_mem_append.mpr
        ⟨ih (countOk_enterFnUnit hs) (by rw [hplace]; exact hu.2),
          List.forall_mem_singleton.mpr (keepsContext_of_ctx hall)⟩
  | fnDefine name args ret rettype body iha ihr ihb =>
      have hall := (fnDefine name args ret rettype body).ctx_parse (m := m) hu
      simp only [unmixed, Bool.and_eq_true] at hu
      obtain ⟨-, hua, hur, hub⟩ := hu
      have hc₁ := sameContext_fnProtoName (m := m) (s := s)
      have hc₂ := hc₁.trans (args.sameContext (m := m) (hc₁.unmixed hua))
      have hc₃ := hc₂.trans (ret.sameContext (m := m) (hc₂.unmixed hur))
      have hc₄ := hc₃.trans (sameContext_makeFnProto name rettype)
      exact List.forall_mem_append.mpr ⟨iha (hs.of_ctx hc₁.ctx) (hc₁.unmixed hua),
        List.forall_mem_append.mpr ⟨ihr (hs.of_ctx hc₂.ctx) (hc₂.unmixed hur),
          List.forall_mem_cons.mpr ⟨trivial, List.forall_mem_append.mpr
            ⟨ihb (hs.of_ctx hc₄.ctx) (hc₄.unmixed hub),
              List.forall_mem_singleton.mpr (keepsContext_of_ctx hall)⟩⟩⟩⟩
  | traitProto name args ret rettype rest iha ihr ihs =>
      simp only [unmixed, Bool.and_eq_true] at hu
      obtain ⟨-, hua, hur, hub⟩ := hu
      have hc₁ := sameContext_fnProtoName (m := m) (s := s)
      have hc₂ := hc₁.trans (args.sameContext (m := m) (hc₁.unmixed hua))
      have hc₃ := hc₂.trans (ret.sameContext (m := m) (hc₂.unmixed hur))
      have hc₄ := (hc₃.trans (sameContext_makeFnProto name rettype)).trans
        sameContext_popSymtable
      exact List.forall_mem_append.mpr ⟨iha (hs.of_ctx hc₁.ctx) (hc₁.unmixed hua),
        List.forall_mem_append.mpr ⟨ihr (hs.of_ctx hc₂.ctx) (hc₂.unmixed hur),
          List.forall_mem_cons.mpr ⟨keepsContext_of_ctx hc₄.ctx,
            ihs (hs.of_ctx hc₄.ctx) (hc₄.unmixed hub)⟩⟩⟩
  | fnDecl name args ret rettype iha ihr =>
      have hall := (fnDecl name args ret rettype).ctx_parse (m := m) hu
      simp only [unmixed, Bool.and_eq_true] at hu
      obtain ⟨-, -, hua, hur⟩ := hu
      have hs' : ({ s with externFlag := true } : State).CountOk := hs
      have hc₁ := sameContext_fnProtoName (m := m) (s := { s with externFlag := true })
      have hc₂ := hc₁.trans (args.sameContext (m := m) (hc₁.unmixed hua))
      exact List.forall_mem_append.mpr ⟨iha (hs'.of_ctx hc₁.ctx) (hc₁.unmixed hua),
        List.forall_mem_append.mpr ⟨ihr (hs'.of_ctx hc₂.ctx) (hc₂.unmixed hur),
          List.forall_mem_singleton.mpr (keepsContext_of_ctx hall)⟩⟩

/-! ### Classified files are unmixed -/

/-- The name formed at the end of a prototype is that formed at its beginning. -/
theorem formFnName_of_ctx (h : s'.ctx = s.ctx) (name : Id) :
    s'.formFnName name = s.formFnName name := by
  simp only [State.ctx, State.impls, Prod.mk.injEq] at h
  rw [State.formFnName, State.formFnName, State.methodImpl, State.methodImpl, h.1, h.2.1]

/-- The name of a plain function is formed outside of traits and impl blocks only. -/
theorem is_function_of_formFnName {name : Id} (h : s.formFnName name = .function name) :
    s.currentTraitId = 0 ∧ s.methodImpl = none := by
  unfold State.formFnName at h
  split at h
  · cases h
  · next hc =>
      cases hi : s.methodImpl with
      | some impl => rw [hi] at h; cases h
      | none => exact ⟨not_not.mp hc, rfl⟩

theorem place_ne_inTrait (h : s.currentTraitId = 0) : s.place ≠ .inTrait := by
  cases hi : s.methodImpl <;> simp [State.place, h, hi]

/-- In a trait every accepted definition is registered as a method of the trait. -/
theorem funcType_of_trait (name rettype : Id) (ht : s.currentTraitId ≠ 0)
    (he : s.externFlag = false) (hacc : (makeFnProto name rettype s).1.rejected = false) :
    (makeFnProto name rettype s).2.entry.caFuncType = .methodInTrait := by
  unfold makeFnProto at hacc ⊢
  dsimp only at hacc ⊢
  split at hacc
  · have hok := (Bool.or_eq_false_iff.mp hacc).2
    simp [he, ht] at hok
  · simp only [he, State.formFuncType, if_pos ht]
    rfl

theorem State.formFuncType_ne (h : s.currentTraitId = 0) : s.formFuncType ≠ .methodInTrait := by
  rw [formFuncType, if_neg (not_not.mpr h)]
  cases s.methodImpl with
  | none => decide
  | some impl =>
      dsimp only
      split <;> decide

/-- Outside of traits no accepted definition is registered as a method of a trait. -/
theorem funcType_ne_of_no_trait (name rettype : Id) (hd : s.DeclsOk) (ht : s.currentTraitId = 0)
    (he : s.externFlag = false) (hacc : (makeFnProto name rettype s).1.rejected = false) :
    (makeFnProto name rettype s).2.entry.caFuncType ≠ .methodInTrait := by
  unfold makeFnProto at hacc ⊢
  dsimp only at hacc ⊢
  split at hacc
  · next prev hget =>
      have hok := (Bool.or_eq_false_iff.mp hacc).2
      simp only [he, Bool.false_eq_true, if_false, Bool.not_eq_false', Bool.and_eq_true,
        decide_eq_true_eq] at hok
      rw [hd prev (State.getFn_mem hget).1 hok.1.2]
      exact nofun
  · simp only [he, Bool.false_eq_true, if_false]
    exact State.formFuncType_ne ht

theorem eq_false_of_node {ext : Bool}
    (h : (if ext then FnSymType.fnDecl else .fnDef) = .fnDef) : ext = false := by
  cases ext with
  | false => rfl
  | true => cases h

/-- What is known of a state in which a tree of a classified file is parsed. -/
def State.Sound (s : State) : Prop := s.CountOk ∧ s.DeclsOk

theorem State.Sound.same (h : s.Sound) (hc : SameContext s s') : s'.Sound :=
  ⟨h.1.of_ctx hc.ctx, hc.decls h.2⟩

/-- The first function of a trait with the name `void` would not be registered as one of a trait. -/
theorem Tree.noFns_of_classified (defs : Tree .traitFnDefs) (name : Id) (hd : s.DeclsOk)
    (hname : name = voidId)
    (hacc : (defs.parse m { s with currentTraitId := name }).rejected = false)
    (hu : defs.unmixed (State.place { s with currentTraitId := name }) s.externFlag = true)
    (hr : ∀ r ∈ defs.prototypes m (.traitDef name) { s with currentTraitId := name },
      r.Classified) : defs.noFns = true := by
  have hd' : State.DeclsOk { s with currentTraitId := name } := hd
  have hc₁ := sameContext_fnProtoName (m := m) (s := { s with currentTraitId := name })
  cases defs with
  | noTraitFn => rfl
  | traitProto fnid args ret rettype rest =>
      obtain ⟨-, hr⟩ := List.forall_mem_append.mp hr
      obtain ⟨-, hr⟩ := List.forall_mem_append.mp hr
      have hreg := (List.forall_mem_cons.mp hr).1
      simp only [unmixed, Bool.and_eq_true, Bool.not_eq_true'] at hu
      obtain ⟨hext, hua, hur, -⟩ := hu
      have hc₂ := hc₁.trans (args.sameContext (m := m) (hc₁.unmixed hua))
      have hc₃ := hc₂.trans (ret.sameContext (m := m) (hc₂.unmixed hur))
      have haccp := popSymtable_rejected.symm.trans (rest.rejected_of_parse hacc)
      exact absurd hreg.2.2.2 (funcType_ne_of_no_trait fnid rettype (hc₃.decls hd')
        ((trait_of_ctx hc₃.ctx).trans hname) (hc₃.externFlag_eq.trans hext) haccp)
  | traitDefault fn rest =>
      cases fn with
      | fnDefine fnid args ret rettype body =>
          obtain ⟨hr, -⟩ := List.forall_mem_append.mp hr
          obtain ⟨-, hr⟩ := List.forall_mem_append.mp hr
          obtain ⟨-, hr⟩ := List.forall_mem_append.mp hr
          have hreg := (List.forall_mem_cons.mp hr).1
          simp only [unmixed, Bool.and_eq_true, Bool.not_eq_true'] at hu
          obtain ⟨⟨hext, hua, hur, -⟩, -⟩ := hu
          have hc₂ := hc₁.trans (args.sameContext (m := m) (hc₁.unmixed hua))
          have hc₃ := hc₂.trans (ret.sameContext (m := m) (hc₂.unmixed hur))
          have haccb := makeFnDef_rejected.symm.trans (rest.rejected_of_parse hacc)
          have haccp := body.rejected_of_parse haccb
          exact absurd hreg.2.2.2 (funcType_ne_of_no_trait fnid rettype (hc₃.decls hd')
            ((trait_of_ctx hc₃.ctx).trans hname) (hc₃.externFlag_eq.trans hext) haccp)

theorem Tree.unmixed_of_classified {c : Symbol} (t : Tree c) (enc : Enclosing) {sc : Scope}
    {s : State} (hs : s.Sound) (hacc : (t.parse m s).rejected = false)
    (hx : s.externFlag = true → t.hasExtern = false)
    (hr : ∀ r ∈ t.prototypes m enc s, r.Classified)
    (hv : ∀ v ∈ t.visits m sc s, v.KeepsContext) :
    t.unmixed s.place s.externFlag = true := by
  induction t generalizing enc sc s with
  | atom | noArgs | noFields | noClause | retVoid | label _ | noStmt | noTraitFn | noImplFn => rfl
  | operands left right ihl ihr | nextParam left _ right ihl ihr | stmtThen left right ihl ihr
  | traitDefault left right ihl ihr | implFn left right ihl ihr =>
      obtain ⟨hrl, hrr⟩ := List.forall_mem_append.mp hr
      obtain ⟨hvl, hvr⟩ := List.forall_mem_append.mp hv
      simp only [hasExtern, Bool.or_eq_false_iff] at hx
      have hl := ihl enc hs (right.rejected_of_parse hacc) (fun h => (hx h).1) hrl hvl
      have hc := left.sameContext (m := m) hl
      have hr := ihr enc (hs.same hc) hacc (fun h => (hx (hc.externFlag_eq ▸ h)).2) hrr hvr
      rw [place_of_ctx hc.ctx, hc.externFlag_eq] at hr
      simp only [unmixed, hl, hr, Bool.and_self]
  | ifexpr cond thens elses ihc iht ihe | clause cond thens elses ihc iht ihe =>
      obtain ⟨hrc, hr⟩ := List.forall_mem_append.mp hr
      obtain ⟨hrt, hre⟩ := List.forall_mem_append.mp hr
      obtain ⟨hvc, hv⟩ := List.forall_mem_append.mp hv
      obtain ⟨hvt, hve⟩ := List.forall_mem_append.mp hv
      simp only [hasExtern, Bool.or_eq_false_iff] at hx
      have hacct := elses.rejected_of_parse hacc
      have hc := ihc enc hs (thens.rejected_of_parse hacct) (fun h => (hx h).1.1) hrc hvc
      have hcc := cond.sameContext (m := m) hc
      have ht := iht enc (hs.same hcc) hacct (fun h => (hx (hcc.externFlag_eq ▸ h)).1.2) hrt hvt
      have hct := hcc.trans (thens.sameContext (m := m) ht)
      have he := ihe enc (hs.same hct) hacc (fun h => (hx (hct.externFlag_eq ▸ h)).2) hre hve
      rw [place_of_ctx hcc.ctx, hcc.externFlag_eq] at ht
      rw [place_of_ctx hct.ctx, hct.externFlag_eq] at he
      simp only [unmixed, hc, ht, he, Bool.and_self]
  | stmtexprListBlock list value ihl ihv | forStmt list value ihl ihv =>
      obtain ⟨hrl, hrv⟩ := List.forall_mem_append.mp hr
      obtain ⟨-, hv⟩ := List.forall_mem_cons.mp hv
      obtain ⟨hvl, hv⟩ := List.forall_mem_append.mp hv
      obtain ⟨hvv, -⟩ := List.forall_mem_append.mp hv
      simp only [hasExtern, Bool.or_eq_false_iff] at hx
      have haccv := popSymtable_rejected.symm.trans hacc
      have hl := ihl enc (s := pushNewSymtable s) hs (value.rejected_of_parse haccv)
        (fun h => (hx h).1) hrl hvl
      have hc := list.sameContext (m := m) hl
      have hv := ihv enc (State.Sound.same (s := pushNewSymtable s) hs hc) haccv
        (fun h => (hx (hc.externFlag_eq ▸ h)).2) hrv hvv
      rw [place_of_ctx hc.ctx, hc.externFlag_eq] at hv
      exact Bool.and_eq_true_iff.mpr ⟨hl, hv⟩
  | stmtListBlock list ih =>
      obtain ⟨-, hv⟩ := List.forall_mem_cons.mp hv
      exact ih enc (s := pushNewSymtable s) hs (popSymtable_rejected.symm.trans hacc) hx hr
        (List.forall_mem_append.mp hv).1
  | firstParam _ type ih | someArgs type _ ih | someFields type ih | control type ih =>
      exact ih enc hs hacc hx hr hv
  | simple parts ih => exact ih enc hs hacc hx hr (List.forall_mem_append.mp hv).1
  | retExpr value ih =>
      exact ih enc hs (makeStmtRetExpr_rejected.symm.trans hacc) hx hr
        (List.forall_mem_append.mp hv).1
  | structDef name members ih =>
      exact ih enc (s := resetArglistWithNewSymtable s) hs
        (makeStructType_rejected.symm.trans hacc) hx hr (List.forall_mem_append.mp hv).1
  | traitDef name defs ih =>
      obtain ⟨hvd, hv⟩ := List.forall_mem_append.mp hv
      have hnone : s.currentTraitId = 0 := (List.forall_mem_singleton.mp hv).1.symm
      have hd := ih (.traitDef name) (s := { s with currentTraitId := name }) hs hacc hx hr hvd
      refine Bool.and_eq_true_iff.mpr ⟨decide_eq_true (place_ne_inTrait hnone), ?_⟩
      by_cases hname : name = voidId
      · -- the first function of the trait would not be one of a trait
        have hno : defs.noFns = true := defs.noFns_of_classified name hs.2 hname hacc hd hr
        cases defs with
        | noTraitFn => exact Bool.and_eq_true_iff.mpr ⟨Bool.or_true _, rfl⟩
        | traitProto | traitDefault => cases hno
      · rw [place_of_trait (s := { s with currentTraitId := name }) hname] at hd
        exact Bool.and_eq_true_iff.mpr
          ⟨Bool.or_eq_true_iff.mpr (.inl (decide_eq_true hname)), hd⟩
  | typeImpl classId traitId defs ih =>
      have hd := ih (.implBlock classId traitId) (s := pushTypeImpl classId traitId s)
        ⟨countOk_pushTypeImpl, hs.2⟩ hacc hx hr (List.forall_mem_append.mp hv).1
      by_cases hc : s.currentTraitId = 0
      · have hplace : (pushTypeImpl classId traitId s).place = .inMethod := by
          rw [State.place, show (pushTypeImpl classId traitId s).currentTraitId = 0 from hc]
          rfl
        rw [hplace] at hd
        refine Bool.and_eq_true_iff.mpr ⟨Bool.or_eq_true_iff.mpr (.inl (decide_eq_true ?_)), hd⟩
        exact place_ne_inTrait hc
      · cases defs with
        | noImplFn => exact Bool.and_eq_true_iff.mpr ⟨Bool.or_true _, rfl⟩
        | implFn fn rest =>
            -- the first function of the block is a method of the trait for the compiler
            obtain ⟨hrf, -⟩ := List.forall_mem_append.mp hr
            simp only [unmixed, Bool.and_eq_true] at hd
            cases fn with
            | fnDefine name args ret rettype body =>
                simp only [unmixed, Bool.and_eq_true, Bool.not_eq_true'] at hd
                obtain ⟨⟨hext, hua, hur, -⟩, -⟩ := hd
                obtain ⟨-, hrf⟩ := List.forall_mem_append.mp hrf
                obtain ⟨-, hrf⟩ := List.forall_mem_append.mp hrf
                have hreg := (List.forall_mem_cons.mp hrf).1
                have haccb := makeFnDef_rejected.symm.trans (rest.rejected_of_parse hacc)
                have hc₁ := sameContext_fnProtoName (m := m) (s := pushTypeImpl classId traitId s)
                have hc₂ := hc₁.trans (args.sameContext (m := m) (hc₁.unmixed hua))
                have hc₃ := hc₂.trans (ret.sameContext (m := m) (hc₂.unmixed hur))
                have hkind := funcType_of_trait name rettype
                  ((trait_of_ctx hc₃.ctx).trans_ne hc) (hc₃.externFlag_eq.trans hext)
                  (body.rejected_of_parse haccb)
                have hspec := hreg.2.2.2.symm.trans hkind
                simp only [Enclosing.funcType] at hspec
                split at hspec <;> cases hspec
  | fnUnit fn ih =>
      have hf := ih .function (s := enterFnUnit s) ⟨countOk_enterFnUnit hs.1, hs.2⟩ hacc hx hr
        (List.forall_mem_append.mp hv).1
      cases fn with
      | fnDefine name args ret rettype body =>
          obtain ⟨-, hr⟩ := List.forall_mem_append.mp hr
          obtain ⟨-, hr⟩ := List.forall_mem_append.mp hr
          have hreg := (List.forall_mem_cons.mp hr).1
          have hu := hf
          simp only [unmixed, Bool.and_eq_true] at hu
          obtain ⟨-, hua, hur, -⟩ := hu
          have hc₁ := sameContext_fnProtoName (m := m) (s := enterFnUnit s)
          have hc₂ := hc₁.trans (args.sameContext (m := m) (hc₁.unmixed hua))
          have hc₃ := hc₂.trans (ret.sameContext (m := m) (hc₂.unmixed hur))
          have hname := (formFnName_of_ctx hc₃.ctx name).symm.trans
            (makeFnProto_name.symm.trans hreg.2.1)
          obtain ⟨hnone, hmethod⟩ := is_function_of_formFnName hname
          rw [place_of_none hnone hmethod] at hf
          exact Bool.and_eq_true_iff.mpr ⟨decide_eq_true (place_ne_inTrait hnone), hf⟩
  | fnDefine name args ret rettype body iha ihr ihb =>
      obtain ⟨hra, hr⟩ := List.forall_mem_append.mp hr
      obtain ⟨hrr, hr⟩ := List.forall_mem_append.mp hr
      obtain ⟨hreg, hrb⟩ := List.forall_mem_cons.mp hr
      obtain ⟨hva, hv⟩ := List.forall_mem_append.mp hv
      obtain ⟨hvr, hv⟩ := List.forall_mem_append.mp hv
      obtain ⟨-, hv⟩ := List.forall_mem_cons.mp hv
      obtain ⟨hvb, -⟩ := List.forall_mem_append.mp hv
      simp only [hasExtern, Bool.or_eq_false_iff] at hx
      have haccb := makeFnDef_rejected.symm.trans hacc
      have haccr := rejected_of_makeFnProto (body.rejected_of_parse haccb)
      have hc₁ := sameContext_fnProtoName (m := m) (s := s)
      have ha := iha .function (hs.same hc₁) (ret.rejected_of_parse haccr)
        (fun h => (hx (hc₁.externFlag_eq ▸ h)).1.1) hra hva
      have hc₂ := hc₁.trans (args.sameContext (m := m) ha)
      have hr := ihr .function (hs.same hc₂) haccr
        (fun h => (hx (hc₂.externFlag_eq ▸ h)).1.2) hrr hvr
      have hc₃ := hc₂.trans (ret.sameContext (m := m) hr)
      have hc₄ := hc₃.trans (sameContext_makeFnProto name rettype)
      have hb := ihb .function
        (s := (makeFnProto name rettype (ret.parse m (args.parse m (fnProtoName m s)))).1)
        (hs.same hc₄) haccb (fun h => (hx (hc₄.externFlag_eq ▸ h)).2) hrb hvb
      have hext : s.externFlag = false :=
        hc₃.externFlag_eq ▸ eq_false_of_node (makeFnProto_node.symm.trans hreg.1)
      rw [place_of_ctx hc₁.ctx, hc₁.externFlag_eq] at ha
      rw [place_of_ctx hc₂.ctx, hc₂.externFlag_eq] at hr
      rw [place_of_ctx hc₄.ctx, hc₄.externFlag_eq] at hb
      simp only [unmixed, Bool.and_eq_true, Bool.not_eq_true']
      exact ⟨hext, ha, hr, hb⟩
  | traitProto name args ret rettype rest iha ihr ihs =>
      obtain ⟨hra, hr⟩ := List.forall_mem_append.mp hr
      obtain ⟨hrr, hr⟩ := List.forall_mem_append.mp hr
      obtain ⟨hreg, hrs⟩ := List.forall_mem_cons.mp hr
      obtain ⟨hva, hv⟩ := List.forall_mem_append.mp hv
      obtain ⟨hvr, hv⟩ := List.forall_mem_append.mp hv
      obtain ⟨-, hvs⟩ := List.forall_mem_cons.mp hv
      simp only [hasExtern, Bool.or_eq_false_iff] at hx
      have haccp := popSymtable_rejected.symm.trans (rest.rejected_of_parse hacc)
      have haccr := rejected_of_makeFnProto haccp
      have hc₁ := sameContext_fnProtoName (m := m) (s := s)
      have ha := iha .function (hs.same hc₁) (ret.rejected_of_parse haccr)
        (fun h => (hx (hc₁.externFlag_eq ▸ h)).1.1) hra hva
      have hc₂ := hc₁.trans (args.sameContext (m := m) ha)
      have hr := ihr .function (hs.same hc₂) haccr
        (fun h => (hx (hc₂.externFlag_eq ▸ h)).1.2) hrr hvr
      have hc₃ := hc₂.trans (ret.sameContext (m := m) hr)
      have hc₄ := (hc₃.trans (sameContext_makeFnProto name rettype)).trans
        sameContext_popSymtable
      have hb := ihs enc
        (s := popSymtable (makeFnProto name rettype
          (ret.parse m (args.parse m (fnProtoName m s)))).1)
        (hs.same hc₄) hacc (fun h => (hx (hc₄.externFlag_eq ▸ h)).2) hrs hvs
      have hext : s.externFlag = false :=
        hc₃.externFlag_eq ▸ eq_false_of_node (makeFnProto_node.symm.trans hreg.1)
      rw [place_of_ctx hc₁.ctx, hc₁.externFlag_eq] at ha
      rw [place_of_ctx hc₂.ctx, hc₂.externFlag_eq] at hr
      rw [place_of_ctx hc₄.ctx, hc₄.externFlag_eq] at hb
      simp only [unmixed, Bool.and_eq_true, Bool.not_eq_true']
      exact ⟨hext, ha, hr, hb⟩
  | fnDecl name args ret rettype iha ihr =>
      obtain ⟨hra, hr⟩ := List.forall_mem_append.mp hr
      obtain ⟨hrr, hr⟩ := List.forall_mem_append.mp hr
      have hreg := List.forall_mem_singleton.mp hr
      obtain ⟨hva, hv⟩ := List.forall_mem_append.mp hv
      obtain ⟨hvr, -⟩ := List.forall_mem_append.mp hv
      have haccr := rejected_of_makeFnProto (makeFnDecl_rejected.symm.trans hacc)
      -- the flag is still set at the end, so nothing inside has reset it
      have hflag := makeFnProto_node.symm.trans hreg.1
      rw [externFlag_parse, externFlag_parse, fnProtoName_externFlag] at hflag
      have hnoa : args.hasExtern = false := by
        cases h : args.hasExtern with
        | false => rfl
        | true => rw [h] at hflag; cases hflag
      have hnor : ret.hasExtern = false := by
        cases h : ret.hasExtern with
        | false => rfl
        | true => rw [hnoa, h] at hflag; cases hflag
      have hs' : ({ s with externFlag := true } : State).Sound := hs
      have hc₁ := sameContext_fnProtoName (m := m) (s := { s with externFlag := true })
      have ha := iha .function (hs'.same hc₁) (ret.rejected_of_parse haccr)
        (fun _ => hnoa) hra hva
      have hc₂ := hc₁.trans (args.sameContext (m := m) ha)
      have hr := ihr .function (hs'.same hc₂) haccr (fun _ => hnor) hrr hvr
      have hc₃ := hc₂.trans (ret.sameContext (m := m) hr)
      have hname := (formFnName_of_ctx hc₃.ctx name).symm.trans
        (makeFnProto_name.symm.trans hreg.2.1)
      obtain ⟨hnone, hmethod⟩ := is_function_of_formFnName hname
      have hplace : s.place = .elsewhere := place_of_none hnone hmethod
      have hext : s.externFlag = false := by
        cases h : s.externFlag with
        | false => rfl
        | true => cases hx h
      rw [place_of_ctx hc₁.ctx, hc₁.externFlag_eq] at ha
      rw [place_of_ctx hc₂.ctx, hc₂.externFlag_eq] at hr
      simp only [unmixed, Bool.and_eq_true, hext, decide_eq_true_eq]
      exact ⟨rfl, hplace, ha, hr⟩

/-- **The classification of functions**: in an accepted file every function is registered as its
enclosing construct says, and every construct leaves the trait and the impl block as it found
them, iff the file is unmixed. -/
theorem Program.classified_iff (emitMain : Bool) (p : Program) (h : p.Accepted emitMain) :
    p.Classified emitMain ↔ p.unmixed .elsewhere false = true := by
  have hplace : (yyparserInit emitMain).place = .elsewhere := by cases emitMain <;> rfl
  have hext : (yyparserInit emitMain).externFlag = false := by cases emitMain <;> rfl
  have himpl : (yyparserInit emitMain).currentTypeImpl = none := by cases emitMain <;> rfl
  have hentries : (yyparserInit emitMain).entries = [] := by cases emitMain <;> rfl
  have hcount : (yyparserInit emitMain).CountOk := fun impl hi => by
    rw [himpl] at hi
    cases hi
  have hdecls : (yyparserInit emitMain).DeclsOk := fun e he =>
    (List.not_mem_nil (hentries ▸ he)).elim
  have hs : Parsing (yyparserInit emitMain) :=
    ⟨fun e he => (List.not_mem_nil (hentries ▸ he)).elim, hcount⟩
  rw [← hplace, ← hext]
  constructor
  · intro hc
    refine p.unmixed_of_classified .function ⟨hcount, hdecls⟩ h ?_ hc.1 hc.2
    intro he
    rw [hext] at he
    cases he
  · intro hu
    exact ⟨(p.classified_of_unmixed .function hs h hu nofun).2, p.keepsContext_of_unmixed hcount hu⟩

/-- `fn puts() {}  trait T { fn f() { fn g() {} } }` -/
def fnInTrait : Program :=
  .stmtThen (.traitDef 2 (.traitDefault (.fnDefine 3 .noArgs .atom voidId
    (.stmtThen (.fnUnit (.fnDefine 4 .noArgs .atom voidId .noStmt)) .noStmt)) .noTraitFn)) .noStmt

/-- `impl A { fn m() { extern fn puts(s: *i8) -> i32; } }` -/
def externInMethod : Program :=
  .stmtThen (.typeImpl 2 none (.implFn (.fnDefine 3 .noArgs .atom voidId
    (.stmtThen (.fnDecl 4 (.someArgs (.firstParam 5 .atom) false) .atom i32Id) .noStmt))
      .noImplFn)) .noStmt

/-- A function inside a default method is registered as a method of the trait, and an extern
declaration inside a method under the name of a method. -/
theorem not_classified :
    (fnInTrait.Accepted false ∧ (fnInTrait.prototypes false).map (·.proto.name) =
        [.method 3 2 none, .method 4 2 none]) ∧
      (externInMethod.Accepted false ∧ (externInMethod.prototypes false).map (·.proto.name) =
        [.method 3 2 none, .method 4 2 none]) ∧
      ¬ ∀ (m : Bool) (p : Program), p.Accepted m → p.Classified m := by
  refine ⟨⟨rfl, rfl⟩, ⟨rfl, rfl⟩, ?_⟩
  intro h
  have hc := h false externInMethod rfl
  have hu := externInMethod.unmixed_of_classified (m := false) .function (s := yyparserInit false)
    ⟨nofun, nofun⟩ rfl nofun hc.1 hc.2
  exact absurd hu (by decide)

/-- `impl A { fn m() { fn g() {} } }` -/
def fnInMethod : Program :=
  .stmtThen (.typeImpl 2 none (.implFn (.fnDefine 3 .noArgs .atom voidId
    (.stmtThen (.fnUnit (.fnDefine 4 .noArgs .atom voidId .noStmt)) .noStmt)) .noImplFn)) .noStmt

theorem fnInMethod_classified : fnInMethod.Classified false :=
  (Program.classified_iff false fnInMethod rfl).mpr (by decide)

end CaLang.Parser
