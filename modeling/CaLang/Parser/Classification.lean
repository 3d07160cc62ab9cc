import CaLang.Parser.Prototypes
import CaLang.Parser.ScopeDiscipline

/-! # The classification of functions

`make_fn_proto` takes the kind of a function from three globals: the trait and the impl block that
are being parsed, and the `extern` flag.  A function inside a method is kept apart by a counter in
the impl block; **nothing of the kind is there for traits**, nor for an extern declaration.

* `Registration.Classified`: the registration agrees with the enclosing construct;
* `Tree.unmixed`: the condition on the text;
* `Tree.ctx_parse`: an unmixed tree leaves the trait and the impl block as they were;
* `makeFnProto_classified`: one registration.
-/

namespace CaLang.Parser

/-! ### What the text says -/

/-- The name a prototype in the construct is to be registered under. -/
def Enclosing.fnName (name : Id) : Enclosing → FnName
  | function => .function name
  | traitDef id => .method name id none
  | implBlock classId traitId => .method name classId traitId

/-- The kind of function of a prototype in the construct. -/
def Enclosing.funcType : Enclosing → CAFuncType
  | function => .function
  | traitDef _ => .methodInTrait
  | implBlock _ traitId => if traitId.isSome then .methodForTrait else .method

/-- The prototype is registered as its enclosing construct says, an extern declaration as a
declaration. -/
def Registration.Classified (r : Registration) : Prop :=
  r.proto.node = (if r.isExtern then .fnDecl else .fnDef) ∧
    r.proto.name = r.enclosing.fnName r.name ∧ r.proto.entry.name = r.proto.name ∧
    r.proto.entry.caFuncType = r.enclosing.funcType

/-- A completed construct leaves the trait and the impl block as it found them. -/
def Visit.KeepsContext : Visit → Prop
  | construct entered completed =>
      completed.currentTraitId = entered.currentTraitId ∧
        completed.currentTypeImpl = entered.currentTypeImpl
  | point _ _ => True

/-- Every function of the file is registered as its enclosing construct says, and every construct
leaves the trait and the impl block as it found them. -/
def Program.Classified (emitMain : Bool) (p : Program) : Prop :=
  (∀ r ∈ p.prototypes emitMain, r.Classified) ∧
    ∀ v ∈ p.visits emitMain (topScope emitMain) (yyparserInit emitMain), v.KeepsContext

/-! ### The condition -/

/-- Where a tree stands: directly in a method of an impl block, in a trait, or elsewhere (a
function inside a method included). -/
inductive Place
  | elsewhere | inMethod | inTrait
  deriving DecidableEq

/-- The impl block has no function. -/
def Tree.noDefs : Tree .fnImplDefs → Bool
  | .noImplFn => true
  | .implFn _ _ => false

/-- The trait has no function. -/
def Tree.noFns : Tree .traitFnDefs → Bool
  | .noTraitFn => true
  | _ => false

/-- No function, extern declaration, trait or non-empty impl block stands inside a method of a
trait, no extern declaration stands directly in a method of an impl block, no function or
extern declaration stands in the types of an extern declaration (`ext`), and a trait with the name
`void` has no function. -/
def Tree.unmixed : {c : Symbol} → Tree c → Place → (ext : Bool) → Bool
  | _, .atom, _, _ | _, .noArgs, _, _ | _, .noFields, _, _ | _, .noClause, _, _
  | _, .retVoid, _, _ | _, .label _, _, _ | _, .noStmt, _, _ | _, .noTraitFn, _, _
  | _, .noImplFn, _, _ => true
  | _, .operands left right, pl, ext => left.unmixed pl ext && right.unmixed pl ext
  | _, .ifexpr cond thens elses, pl, ext =>
      cond.unmixed pl ext && (thens.unmixed pl ext && elses.unmixed pl ext)
  | _, .stmtexprListBlock list value, pl, ext => list.unmixed pl ext && value.unmixed pl ext
  | _, .stmtListBlock list, pl, ext => list.unmixed pl ext
  | _, .firstParam _ type, pl, ext => type.unmixed pl ext
  | _, .nextParam init _ type, pl, ext => init.unmixed pl ext && type.unmixed pl ext
  | _, .someArgs list _, pl, ext => list.unmixed pl ext
  | _, .fnDefine _ args ret _ body, pl, ext =>
      !ext && (args.unmixed pl ext && (ret.unmixed pl ext && body.unmixed pl ext))
  | _, .someFields list, pl, ext => list.unmixed pl ext
  | _, .clause head body rest, pl, ext =>
      head.unmixed pl ext && (body.unmixed pl ext && rest.unmixed pl ext)
  | _, .simple parts, pl, ext => parts.unmixed pl ext
  | _, .retExpr value, pl, ext => value.unmixed pl ext
  | _, .control list, pl, ext => list.unmixed pl ext
  | _, .forStmt list body, pl, ext => list.unmixed pl ext && body.unmixed pl ext
  | _, .structDef _ members, pl, ext => members.unmixed pl ext
  | _, .traitDef name defs, pl, ext =>
      pl ≠ .inTrait && ((name ≠ voidId || defs.noFns) && defs.unmixed .inTrait ext)
  | _, .typeImpl _ _ defs, pl, ext =>
      (pl ≠ .inTrait || defs.noDefs) && defs.unmixed .inMethod ext
  | _, .fnUnit fn, pl, ext => pl ≠ .inTrait && fn.unmixed .elsewhere ext
  | _, .fnDecl _ args ret _, pl, ext =>
      !ext && (pl = .elsewhere && (args.unmixed pl true && ret.unmixed pl true))
  | _, .stmtThen first rest, pl, ext => first.unmixed pl ext && rest.unmixed pl ext
  | _, .traitProto _ args ret _ rest, pl, ext =>
      !ext && (args.unmixed pl ext && (ret.unmixed pl ext && rest.unmixed pl ext))
  | _, .traitDefault fn rest, pl, ext => fn.unmixed pl ext && rest.unmixed pl ext
  | _, .implFn fn rest, pl, ext => fn.unmixed pl ext && rest.unmixed pl ext

variable {m : Bool} {s s' : State}

/-! ### The trait and the impl block along the parse -/

/-- The impl block and the saved ones. -/
def State.impls (s : State) : Option TypeImplInfo × List (Option TypeImplInfo) :=
  (s.currentTypeImpl, s.typeImplStack)

/-- The trait with the impl blocks. -/
def State.ctx (s : State) : Id × Option TypeImplInfo × List (Option TypeImplInfo) :=
  (s.currentTraitId, s.impls)

@[simp] theorem popSymtable_ctx : (popSymtable s).ctx = s.ctx := by
  unfold popSymtable
  split <;> rfl

@[simp] theorem fnProtoName_ctx : (fnProtoName m s).ctx = s.ctx := by
  cases m with
  | false => rfl
  | true => exact popSymtable_ctx

@[simp] theorem makeFnProto_ctx {name rettype : Id} :
    (makeFnProto name rettype s).1.ctx = s.ctx := by
  unfold makeFnProto
  dsimp only
  split <;> rfl

@[simp] theorem makeFnDef_ctx : (makeFnDef m s).ctx = s.ctx := by
  cases m <;> exact popSymtable_ctx

@[simp] theorem makeFnDecl_ctx : (makeFnDecl m s).ctx = s.ctx := by
  cases m <;> exact popSymtable_ctx

@[simp] theorem makeStmtRetExpr_ctx : (makeStmtRetExpr m s).ctx = s.ctx := by
  unfold makeStmtRetExpr
  split <;> rfl

@[simp] theorem makeStructType_ctx : (makeStructType s).ctx = s.ctx := popSymtable_ctx

theorem impls_of_ctx (h : s'.ctx = s.ctx) : s'.impls = s.impls := congrArg (·.2) h

theorem trait_of_ctx (h : s'.ctx = s.ctx) : s'.currentTraitId = s.currentTraitId :=
  congrArg (·.1) h

theorem leaveFnUnit_enterFnUnit_impls (h : s'.impls = (enterFnUnit s).impls) :
    (leaveFnUnit s').impls = s.impls := by
  simp only [State.impls, enterFnUnit, Prod.mk.injEq] at h
  obtain ⟨hi, hst⟩ := h
  simp only [State.impls, leaveFnUnit, hi, hst, Option.map_map]
  cases s.currentTypeImpl with
  | none => rfl
  | some impl => simp

theorem popTypeImpl_pushTypeImpl_impls {classId : Id} {traitId : Option Id}
    (h : s'.impls = (pushTypeImpl classId traitId s).impls) :
    (popTypeImpl s').impls = s.impls := by
  simp only [State.impls, pushTypeImpl, Prod.mk.injEq] at h
  simp only [State.impls, popTypeImpl, h.2]
  rfl

/-- Impl blocks are restored by every construct. -/
theorem Tree.impls_parse {c : Symbol} (t : Tree c) {s : State} :
    (t.parse m s).impls = s.impls := by
  induction t generalizing s with
  | atom | noArgs | noFields | noClause | retVoid | label _ | noStmt | noTraitFn | noImplFn => rfl
  | operands left right ihl ihr | nextParam left _ right ihl ihr | stmtThen left right ihl ihr
  | traitDefault left right ihl ihr | implFn left right ihl ihr => exact ihr.trans ihl
  | ifexpr cond thens elses ihc iht ihe | clause cond thens elses ihc iht ihe =>
      exact ihe.trans (iht.trans ihc)
  | stmtexprListBlock list value ihl ihv | forStmt list value ihl ihv =>
      exact (impls_of_ctx popSymtable_ctx).trans (ihv.trans ihl)
  | stmtListBlock list ih => exact (impls_of_ctx popSymtable_ctx).trans ih
  | firstParam _ type ih | someArgs type _ ih | someFields type ih | control type ih
  | simple type ih => exact ih
  | retExpr value ih => exact (impls_of_ctx makeStmtRetExpr_ctx).trans ih
  | structDef _ members ih => exact (impls_of_ctx makeStructType_ctx).trans ih
  | traitDef _ defs ih => exact ih
  | typeImpl classId traitId defs ih => exact popTypeImpl_pushTypeImpl_impls ih
  | fnUnit fn ih => exact leaveFnUnit_enterFnUnit_impls ih
  | fnDefine name args ret rettype body iha ihr ihb =>
      refine (impls_of_ctx makeFnDef_ctx).trans (ihb.trans ?_)
      exact (impls_of_ctx makeFnProto_ctx).trans
        (ihr.trans (iha.trans (impls_of_ctx fnProtoName_ctx)))
  | fnDecl name args ret rettype iha ihr =>
      refine (impls_of_ctx makeFnDecl_ctx).trans ((impls_of_ctx makeFnProto_ctx).trans ?_)
      exact ihr.trans (iha.trans (impls_of_ctx fnProtoName_ctx))
  | traitProto name args ret rettype rest iha ihr ihs =>
      refine ihs.trans ((impls_of_ctx popSymtable_ctx).trans ?_)
      exact (impls_of_ctx makeFnProto_ctx).trans
        (ihr.trans (iha.trans (impls_of_ctx fnProtoName_ctx)))

/-- Outside of traits every tree leaves the parser outside of traits. -/
theorem Tree.trait_parse_none {c : Symbol} (t : Tree c) {s : State}
    (h : s.currentTraitId = 0) : (t.parse m s).currentTraitId = 0 := by
  induction t generalizing s with
  | atom | noArgs | noFields | noClause | retVoid | label _ | noStmt | noTraitFn | noImplFn =>
      exact h
  | operands left right ihl ihr | nextParam left _ right ihl ihr | stmtThen left right ihl ihr
  | traitDefault left right ihl ihr | implFn left right ihl ihr => exact ihr (ihl h)
  | ifexpr cond thens elses ihc iht ihe | clause cond thens elses ihc iht ihe =>
      exact ihe (iht (ihc h))
  | stmtexprListBlock list value ihl ihv | forStmt list value ihl ihv =>
      exact (trait_of_ctx popSymtable_ctx).trans (ihv (ihl (s := pushNewSymtable s) h))
  | stmtListBlock list ih =>
      exact (trait_of_ctx popSymtable_ctx).trans (ih (s := pushNewSymtable s) h)
  | firstParam _ type ih | someArgs type _ ih | someFields type ih | control type ih
  | simple type ih => exact ih h
  | retExpr value ih => exact (trait_of_ctx makeStmtRetExpr_ctx).trans (ih h)
  | structDef _ members ih =>
      exact (trait_of_ctx makeStructType_ctx).trans (ih (s := resetArglistWithNewSymtable s) h)
  | traitDef _ defs ih => rfl
  | typeImpl classId traitId defs ih => exact ih (s := pushTypeImpl classId traitId s) h
  | fnUnit fn ih => exact ih (s := enterFnUnit s) h
  | fnDefine name args ret rettype body iha ihr ihb =>
      have h₁ := ihr (iha ((trait_of_ctx (fnProtoName_ctx (m := m))).trans h))
      exact (trait_of_ctx makeFnDef_ctx).trans (ihb ((trait_of_ctx makeFnProto_ctx).trans h₁))
  | fnDecl name args ret rettype iha ihr =>
      have h₁ := ihr (iha ((trait_of_ctx (fnProtoName_ctx (m := m)
        (s := { s with externFlag := true }))).trans h))
      exact (trait_of_ctx makeFnDecl_ctx).trans ((trait_of_ctx makeFnProto_ctx).trans h₁)
  | traitProto name args ret rettype rest iha ihr ihs =>
      have h₁ := ihr (iha ((trait_of_ctx (fnProtoName_ctx (m := m))).trans h))
      exact ihs ((trait_of_ctx popSymtable_ctx).trans ((trait_of_ctx makeFnProto_ctx).trans h₁))

/-- Inside a trait, an unmixed tree leaves the parser in the trait. -/
theorem Tree.trait_parse_inTrait {c : Symbol} (t : Tree c) {s : State} {ext : Bool}
    (h : t.unmixed .inTrait ext = true) :
    (t.parse m s).currentTraitId = s.currentTraitId := by
  induction t generalizing s ext with
  | atom | noArgs | noFields | noClause | retVoid | label _ | noStmt | noTraitFn | noImplFn => rfl
  | operands left right ihl ihr | nextParam left _ right ihl ihr | stmtThen left right ihl ihr
  | traitDefault left right ihl ihr | implFn left right ihl ihr =>
      simp only [unmixed, Bool.and_eq_true] at h
      exact (ihr h.2).trans (ihl h.1)
  | ifexpr cond thens elses ihc iht ihe | clause cond thens elses ihc iht ihe =>
      simp only [unmixed, Bool.and_eq_true] at h
      exact (ihe h.2.2).trans ((iht h.2.1).trans (ihc h.1))
  | stmtexprListBlock list value ihl ihv | forStmt list value ihl ihv =>
      simp only [unmixed, Bool.and_eq_true] at h
      exact (trait_of_ctx popSymtable_ctx).trans ((ihv h.2).trans (ihl h.1))
  | stmtListBlock list ih => exact (trait_of_ctx popSymtable_ctx).trans (ih h)
  | firstParam _ type ih | someArgs type _ ih | someFields type ih | control type ih
  | simple type ih => exact ih h
  | retExpr value ih => exact (trait_of_ctx makeStmtRetExpr_ctx).trans (ih h)
  | structDef _ members ih => exact (trait_of_ctx makeStructType_ctx).trans (ih h)
  | typeImpl classId traitId defs =>
      cases defs with
      | noImplFn => rfl
      | implFn => cases h
  | traitDef | fnUnit => cases h
  | fnDecl =>
      simp only [unmixed, Bool.and_eq_true] at h
      cases h.2.1
  | fnDefine name args ret rettype body iha ihr ihb =>
      simp only [unmixed, Bool.and_eq_true] at h
      have h₁ := (ihr h.2.2.1).trans
        ((iha h.2.1).trans (trait_of_ctx (fnProtoName_ctx (m := m) (s := s))))
      exact (trait_of_ctx makeFnDef_ctx).trans
        ((ihb h.2.2.2).trans ((trait_of_ctx makeFnProto_ctx).trans h₁))
  | traitProto name args ret rettype rest iha ihr ihs =>
      simp only [unmixed, Bool.and_eq_true] at h
      have h₁ := (ihr h.2.2.1).trans
        ((iha h.2.1).trans (trait_of_ctx (fnProtoName_ctx (m := m) (s := s))))
      exact (ihs h.2.2.2).trans ((trait_of_ctx popSymtable_ctx).trans
        ((trait_of_ctx makeFnProto_ctx).trans h₁))

/-- In the types of an extern declaration, an unmixed tree has no other. -/
theorem Tree.hasExtern_of_unmixed {c : Symbol} (t : Tree c) {pl : Place}
    (h : t.unmixed pl true = true) : t.hasExtern = false := by
  induction t generalizing pl with
  | fnDefine | fnDecl | traitProto => cases h
  | fnUnit fn ih | typeImpl _ _ fn ih =>
      simp only [unmixed, Bool.and_eq_true] at h
      exact ih h.2
  | traitDef name defs ih =>
      simp only [unmixed, Bool.and_eq_true] at h
      exact ih h.2.2
  | atom | noArgs | noFields | noClause | retVoid | label _ | noStmt | noTraitFn | noImplFn => rfl
  | operands left right ihl ihr | nextParam left _ right ihl ihr | stmtThen left right ihl ihr
  | traitDefault left right ihl ihr | implFn left right ihl ihr
  | stmtexprListBlock left right ihl ihr | forStmt left right ihl ihr =>
      simp only [unmixed, Bool.and_eq_true] at h
      rw [hasExtern, ihl h.1, ihr h.2]
      rfl
  | ifexpr cond thens elses ihc iht ihe | clause cond thens elses ihc iht ihe =>
      simp only [unmixed, Bool.and_eq_true] at h
      rw [hasExtern, ihc h.1, iht h.2.1, ihe h.2.2]
      rfl
  | stmtListBlock list ih | firstParam _ list ih | someArgs list _ ih | someFields list ih
  | control list ih | simple list ih | retExpr list ih | structDef _ list ih => exact ih h

/-- An unmixed tree leaves the `extern` flag as it was. -/
theorem Tree.extern_parse {c : Symbol} (t : Tree c) {s : State} {pl : Place}
    (h : t.unmixed pl s.externFlag = true) : (t.parse m s).externFlag = s.externFlag := by
  rw [t.externFlag_parse]
  cases he : s.externFlag with
  | false => rfl
  | true =>
      rw [he] at h
      rw [t.hasExtern_of_unmixed h]
      rfl

/-- The place of what is parsed in the state. -/
def State.place (s : State) : Place :=
  if s.currentTraitId ≠ 0 then .inTrait
  else if s.methodImpl.isSome then .inMethod else .elsewhere

theorem place_of_trait (h : s.currentTraitId ≠ 0) : s.place = .inTrait := if_pos h

theorem place_of_ctx (h : s'.ctx = s.ctx) : s'.place = s.place := by
  simp only [State.ctx, State.impls, Prod.mk.injEq] at h
  rw [State.place, State.place, State.methodImpl, State.methodImpl, h.1, h.2.1]

/-- The context after an unmixed tree is that before it. -/
theorem Tree.ctx_parse {c : Symbol} (t : Tree c) {s : State} {ext : Bool}
    (h : t.unmixed s.place ext = true) : (t.parse m s).ctx = s.ctx := by
  have htrait : (t.parse m s).currentTraitId = s.currentTraitId := by
    by_cases hc : s.currentTraitId = 0
    · exact (t.trait_parse_none hc).trans hc.symm
    · rw [place_of_trait hc] at h
      exact t.trait_parse_inTrait h
  rw [State.ctx, State.ctx, htrait, t.impls_parse]

/-! ### The registration of one prototype -/

/-- The registered functions: plain names are those of plain functions, and only plain functions
are declared without a definition. -/
def State.EntriesOk (s : State) : Prop :=
  ∀ e ∈ s.entries, (∀ n, e.name = .function n → e.caFuncType = .function) ∧
    (e.symType = .fnDecl → ∃ n, e.name = .function n)

/-- The state is in the construct. -/
def Enclosing.Is (s : State) : Enclosing → Prop
  | function => s.currentTraitId = 0 ∧ s.methodImpl = none
  | traitDef id => s.currentTraitId = id ∧ id ≠ voidId
  | implBlock classId traitId =>
      s.currentTraitId = 0 ∧
        ∃ impl, s.methodImpl = some impl ∧ impl.classId = classId ∧ impl.traitId = traitId

theorem Enclosing.Is.formFnName {enc : Enclosing} (h : enc.Is s) (name : Id) :
    s.formFnName name = enc.fnName name := by
  unfold State.formFnName
  cases enc with
  | function => rw [h.1, h.2]; rfl
  | traitDef id =>
      rw [h.1]
      exact if_pos h.2
  | implBlock classId traitId =>
      obtain ⟨h₀, impl, h₁, rfl, rfl⟩ := h
      rw [h₀, h₁]
      rfl

theorem Enclosing.Is.formFuncType {enc : Enclosing} (h : enc.Is s) :
    s.formFuncType = enc.funcType := by
  unfold State.formFuncType
  cases enc with
  | function => rw [h.1, h.2]; rfl
  | traitDef id =>
      rw [h.1]
      exact if_pos h.2
  | implBlock classId traitId =>
      obtain ⟨h₀, impl, h₁, rfl, rfl⟩ := h
      rw [h₀, h₁]
      rfl

theorem Enclosing.Is.of_ctx {enc : Enclosing} (h : enc.Is s) (hc : s'.ctx = s.ctx) :
    enc.Is s' := by
  simp only [State.ctx, State.impls, Prod.mk.injEq] at hc
  cases enc <;> simpa only [Enclosing.Is, State.methodImpl, hc.1, hc.2.1] using h

theorem State.formFuncType_of_function {s : State} {name n : Id}
    (h : s.formFnName name = .function n) : s.formFuncType = .function := by
  unfold formFnName at h
  unfold formFuncType
  split at h
  · cases h
  · next ht =>
      rw [if_neg ht]
      cases hi : s.methodImpl with
      | some impl => rw [hi] at h; cases h
      | none => rfl

theorem State.getFn_mem {st : TableId} {name : FnName} {e : FnEntry}
    (h : s.getFn st name = some e) : e ∈ s.entries ∧ e.name = name := by
  unfold State.getFn at h
  have hfound := List.find?_some h
  exact ⟨List.mem_of_find?_eq_some h, (of_decide_eq_true hfound).2⟩

theorem State.EntriesOk.setFn (he : s.EntriesOk) {entry : FnEntry} {n : Id}
    (hn : entry.name = .function n) (hk : entry.caFuncType = .function) :
    (s.setFn entry).EntriesOk := by
  intro e hmem
  obtain ⟨e₀, hmem₀, rfl⟩ := List.mem_map.mp hmem
  split
  · exact ⟨fun _ _ => hk, fun _ => ⟨n, hn⟩⟩
  · exact he e₀ hmem₀

/-- What `make_fn_proto` does to the entries, and what it makes of a prototype. -/
theorem makeFnProto_classified (name rettype : Id) (he : s.EntriesOk)
    (hacc : (makeFnProto name rettype s).1.rejected = false)
    (hext : s.externFlag = true → ∃ n, s.formFnName name = .function n) :
    (makeFnProto name rettype s).1.EntriesOk ∧
      (makeFnProto name rettype s).2.name = s.formFnName name ∧
      (makeFnProto name rettype s).2.entry.name = s.formFnName name ∧
      (makeFnProto name rettype s).2.entry.caFuncType = s.formFuncType := by
  unfold makeFnProto at hacc ⊢
  dsimp only at hacc ⊢
  split at hacc
  · next prev hget =>
      obtain ⟨hmem, hname⟩ := State.getFn_mem hget
      -- an earlier entry is a declaration, or this one is
      have hplain : ∃ n, s.formFnName name = .function n := by
        cases hx : s.externFlag with
        | true => exact hext hx
        | false =>
            have hok := (Bool.or_eq_false_iff.mp hacc).2
            simp only [hx, Bool.false_eq_true, if_false, Bool.not_eq_false', Bool.and_eq_true,
              decide_eq_true_eq] at hok
            rw [← hname]
            exact (he prev hmem).2 hok.1.2
      obtain ⟨n, hn⟩ := hplain
      have hkind := (he prev hmem).1 n (hname.trans hn)
      refine ⟨?_, rfl, hname, hkind.trans (State.formFuncType_of_function hn).symm⟩
      exact State.EntriesOk.setFn he (hname.trans hn) hkind
  · refine ⟨?_, rfl, rfl, ?_⟩
    · intro e hmem
      rcases List.mem_append.mp hmem with hmem | hmem
      · exact he e hmem
      · obtain rfl := List.mem_singleton.mp hmem
        refine ⟨?_, ?_⟩
        · intro n hn
          split
          · rfl
          · exact State.formFuncType_of_function hn
        · intro hdecl
          refine hext ?_
          by_contra hx
          rw [if_neg hx] at hdecl
          cases hdecl
    · dsimp only
      split
      · next hx =>
          obtain ⟨n, hn⟩ := hext hx
          exact (State.formFuncType_of_function hn).symm
      · rfl

theorem makeFnProto_node {name rettype : Id} :
    (makeFnProto name rettype s).2.node = if s.externFlag then .fnDecl else .fnDef := by
  unfold makeFnProto
  dsimp only
  split <;> rfl

theorem makeFnProto_name {name rettype : Id} :
    (makeFnProto name rettype s).2.name = s.formFnName name := by
  unfold makeFnProto
  dsimp only
  split <;> rfl

@[simp] theorem popSymtable_entries : (popSymtable s).entries = s.entries := by
  unfold popSymtable
  split <;> rfl

@[simp] theorem fnProtoName_entries : (fnProtoName m s).entries = s.entries := by
  cases m with
  | false => rfl
  | true => exact popSymtable_entries

@[simp] theorem makeFnDef_entries : (makeFnDef m s).entries = s.entries := by
  cases m <;> exact popSymtable_entries

@[simp] theorem makeFnDecl_entries : (makeFnDecl m s).entries = s.entries := by
  cases m <;> exact popSymtable_entries

@[simp] theorem makeStmtRetExpr_entries : (makeStmtRetExpr m s).entries = s.entries := by
  unfold makeStmtRetExpr
  split <;> rfl

@[simp] theorem makeStructType_entries : (makeStructType s).entries = s.entries :=
  popSymtable_entries

theorem State.EntriesOk.congr (he : s.EntriesOk) (h : s'.entries = s.entries) :
    s'.EntriesOk := fun e hmem => he e (h ▸ hmem)

/-! ### Unmixed files are classified -/

/-- The counter of the impl block is not negative. -/
def State.CountOk (s : State) : Prop :=
  ∀ impl, s.currentTypeImpl = some impl → 0 ≤ impl.fnDefRecursiveCount

theorem State.CountOk.of_ctx (h : s.CountOk) (hc : s'.ctx = s.ctx) : s'.CountOk := by
  simp only [State.ctx, State.impls, Prod.mk.injEq] at hc
  intro impl himpl
  exact h impl (hc.2.1 ▸ himpl)

theorem countOk_enterFnUnit (h : s.CountOk) : (enterFnUnit s).CountOk := by
  intro impl himpl
  simp only [enterFnUnit, Option.map_eq_some_iff] at himpl
  obtain ⟨impl₀, h₀, rfl⟩ := himpl
  have := h impl₀ h₀
  show 0 ≤ impl₀.fnDefRecursiveCount + 1
  omega

/-- In a function that is a statement no impl block is being read. -/
theorem methodImpl_enterFnUnit (h : s.CountOk) : (enterFnUnit s).methodImpl = none := by
  unfold State.methodImpl enterFnUnit
  cases hi : s.currentTypeImpl with
  | none => rfl
  | some impl =>
      have := h impl hi
      simp only [Option.map_some, Option.filter_some]
      rw [if_neg]
      simp only [decide_eq_true_eq]
      omega

theorem countOk_pushTypeImpl {classId : Id} {traitId : Option Id} :
    (pushTypeImpl classId traitId s).CountOk := by
  rintro impl ⟨⟩
  exact Int.le_refl 0

/-- The symbols whose functions belong to the construct they stand in. -/
def Symbol.inConstruct : Symbol → Bool
  | .fnDef | .traitFnDefs | .fnImplDefs => true
  | _ => false

theorem place_of_none (h : s.currentTraitId = 0) (hi : s.methodImpl = none) :
    s.place = .elsewhere := by
  rw [State.place, h, hi]
  rfl

theorem trait_of_place (h : s.place ≠ .inTrait) : s.currentTraitId = 0 := by
  by_contra hc
  exact h (place_of_trait hc)

theorem methodImpl_of_place (h : s.place = .elsewhere) :
    s.currentTraitId = 0 ∧ s.methodImpl = none := by
  have hc := trait_of_place (s := s) (by rw [h]; exact nofun)
  refine ⟨hc, ?_⟩
  cases hi : s.methodImpl with
  | none => rfl
  | some impl =>
      rw [State.place, hc, hi] at h
      cases h

/-- What is known of a state in which an unmixed tree is parsed. -/
structure Parsing (s : State) : Prop where
  entries : s.EntriesOk
  count : s.CountOk

theorem Parsing.congr (h : Parsing s) (he : s'.entries = s.entries) (hc : s'.ctx = s.ctx) :
    Parsing s' := ⟨h.entries.congr he, h.count.of_ctx hc⟩

end CaLang.Parser
