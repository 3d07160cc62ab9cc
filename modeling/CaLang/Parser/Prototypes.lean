import CaLang.Parser.Context

/-! # The prototypes of a source file

Every function definition, extern declaration and trait prototype of a parse tree reaches
`make_fn_proto` once.  A `Registration` is what the text says about it (the construct that
immediately encloses it, its name, whether its list ends with `...`) and what `make_fn_proto` makes
of it.

* `Tree.prototypes`: **the registrations of a parse tree**, in their order;
* `Tree.rejected_of_parse`: a rejected file stays rejected.
-/

namespace CaLang.Parser

/-- The construct that immediately encloses a prototype. -/
inductive Enclosing
  /-- A function, or none. -/
  | function
  | traitDef (id : Id)
  | implBlock (classId : Id) (traitId : Option Id)
  deriving DecidableEq

/-- A prototype and its registration. -/
structure Registration where
  enclosing : Enclosing
  /-- It is an extern declaration. -/
  isExtern : Bool
  name : Id
  /-- The parameter list ends with `...`. -/
  varg : Bool
  proto : FnProto

/-- The list ends with `...`. -/
def Tree.varg : Tree .fnArgs → Bool
  | .noArgs => false
  | .someArgs _ varg => varg

/-- The registrations of the parse of a tree that stands in the given construct. -/
def Tree.prototypes (m : Bool) : {c : Symbol} → Tree c → Enclosing → State → List Registration
  | _, .atom, _, _ => []
  | _, .operands left right, enc, s =>
      left.prototypes m enc s ++ right.prototypes m enc (left.parse m s)
  | _, .ifexpr cond thens elses, enc, s =>
      let s₁ := cond.parse m s
      cond.prototypes m enc s ++
        (thens.prototypes m enc s₁ ++ elses.prototypes m enc (thens.parse m s₁))
  | _, .stmtexprListBlock list value, enc, s =>
      let s₁ := pushNewSymtable s
      list.prototypes m enc s₁ ++ value.prototypes m enc (list.parse m s₁)
  | _, .stmtListBlock list, enc, s => list.prototypes m enc (pushNewSymtable s)
  | _, .firstParam _ type, enc, s => type.prototypes m enc s
  | _, .nextParam init _ type, enc, s =>
      init.prototypes m enc s ++ type.prototypes m enc (init.parse m s)
  | _, .noArgs, _, _ => []
  | _, .someArgs list _, enc, s => list.prototypes m enc s
  | _, .fnDefine name args ret rettype body, enc, s =>
      let s₁ := fnProtoName m s
      let (s₂, proto) := fnProto m name rettype (args.parse m) (ret.parse m) s
      args.prototypes m .function s₁ ++ (ret.prototypes m .function (args.parse m s₁) ++
        (⟨enc, false, name, args.varg, proto⟩ :: body.prototypes m .function s₂))
  | _, .noFields, _, _ => []
  | _, .someFields list, enc, s => list.prototypes m enc s
  | _, .noClause, _, _ => []
  | _, .clause head body rest, enc, s =>
      let s₁ := head.parse m s
      head.prototypes m enc s ++
        (body.prototypes m enc s₁ ++ rest.prototypes m enc (body.parse m s₁))
  | _, .simple parts, enc, s => parts.prototypes m enc s
  | _, .retVoid, _, _ => []
  | _, .retExpr value, enc, s => value.prototypes m enc s
  | _, .label _, _, _ => []
  | _, .control list, enc, s => list.prototypes m enc s
  | _, .forStmt list body, enc, s =>
      let s₁ := pushNewSymtable s
      list.prototypes m enc s₁ ++ body.prototypes m enc (list.parse m s₁)
  | _, .structDef _ members, enc, s => members.prototypes m enc (resetArglistWithNewSymtable s)
  | _, .traitDef name defs, _, s =>
      defs.prototypes m (.traitDef name) { s with currentTraitId := name }
  | _, .typeImpl classId traitId defs, _, s =>
      defs.prototypes m (.implBlock classId traitId) (pushTypeImpl classId traitId s)
  | _, .fnUnit fn, _, s => fn.prototypes m .function (enterFnUnit s)
  | _, .fnDecl name args ret rettype, _, s =>
      let s₀ : State := { s with externFlag := true }
      let s₁ := fnProtoName m s₀
      let proto := (fnProto m name rettype (args.parse m) (ret.parse m) s₀).2
      args.prototypes m .function s₁ ++ (ret.prototypes m .function (args.parse m s₁) ++
        [⟨.function, true, name, args.varg, proto⟩])
  | _, .noStmt, _, _ => []
  | _, .stmtThen first rest, enc, s =>
      first.prototypes m enc s ++ rest.prototypes m enc (first.parse m s)
  | _, .noTraitFn, _, _ => []
  | _, .traitProto name args ret rettype rest, enc, s =>
      let s₁ := fnProtoName m s
      let (s₂, proto) := fnProto m name rettype (args.parse m) (ret.parse m) s
      args.prototypes m .function s₁ ++ (ret.prototypes m .function (args.parse m s₁) ++
        (⟨enc, false, name, args.varg, proto⟩ :: rest.prototypes m enc (popSymtable s₂)))
  | _, .traitDefault fn rest, enc, s =>
      fn.prototypes m enc s ++ rest.prototypes m enc (fn.parse m s)
  | _, .noImplFn, _, _ => []
  | _, .implFn fn rest, enc, s =>
      fn.prototypes m enc s ++ rest.prototypes m enc (fn.parse m s)

/-- The registrations of a source file. -/
def Program.prototypes (emitMain : Bool) (p : Program) : List Registration :=
  Tree.prototypes emitMain p .function (yyparserInit emitMain)

/-- The compiler does not stop at a prototype of the file. -/
def Program.Accepted (emitMain : Bool) (p : Program) : Prop :=
  (p.parse emitMain (yyparserInit emitMain)).rejected = false

variable {m : Bool} {s : State}

/-! ### The rest of the state -/

@[simp] theorem popSymtable_rejected : (popSymtable s).rejected = s.rejected := by
  unfold popSymtable
  split <;> rfl

@[simp] theorem fnProtoName_rejected : (fnProtoName m s).rejected = s.rejected := by
  cases m with
  | false => rfl
  | true => exact popSymtable_rejected

@[simp] theorem makeFnDef_rejected : (makeFnDef m s).rejected = s.rejected := by
  cases m <;> exact popSymtable_rejected

@[simp] theorem makeFnDecl_rejected : (makeFnDecl m s).rejected = s.rejected := by
  cases m <;> exact popSymtable_rejected

@[simp] theorem makeStmtRetExpr_rejected : (makeStmtRetExpr m s).rejected = s.rejected := by
  unfold makeStmtRetExpr
  split <;> rfl

@[simp] theorem makeStructType_rejected : (makeStructType s).rejected = s.rejected :=
  popSymtable_rejected

theorem rejected_of_makeFnProto {name rettype : Id}
    (h : (makeFnProto name rettype s).1.rejected = false) : s.rejected = false := by
  unfold makeFnProto at h
  dsimp only at h
  split at h
  · exact (Bool.or_eq_false_iff.mp h).1
  · exact h

/-- A rejected file stays rejected. -/
theorem Tree.rejected_of_parse {c : Symbol} (t : Tree c) {s : State}
    (h : (t.parse m s).rejected = false) : s.rejected = false := by
  induction t generalizing s with
  | atom | noArgs | noFields | noClause | retVoid | label _ | noStmt | noTraitFn | noImplFn =>
      exact h
  | operands left right ihl ihr | nextParam left _ right ihl ihr | stmtThen left right ihl ihr
  | traitDefault left right ihl ihr | implFn left right ihl ihr => exact ihl (ihr h)
  | ifexpr cond thens elses ihc iht ihe | clause cond thens elses ihc iht ihe =>
      exact ihc (iht (ihe h))
  | stmtexprListBlock list value ihl ihv | forStmt list value ihl ihv =>
      exact ihl (s := pushNewSymtable s) (ihv (popSymtable_rejected.symm.trans h))
  | stmtListBlock list ih => exact ih (s := pushNewSymtable s) (popSymtable_rejected.symm.trans h)
  | firstParam _ type ih | someArgs type _ ih | someFields type ih | control type ih
  | simple type ih => exact ih h
  | retExpr value ih => exact ih (makeStmtRetExpr_rejected.symm.trans h)
  | structDef _ members ih =>
      exact ih (s := resetArglistWithNewSymtable s) (makeStructType_rejected.symm.trans h)
  | traitDef name defs ih => exact ih (s := { s with currentTraitId := name }) h
  | typeImpl classId traitId defs ih => exact ih (s := pushTypeImpl classId traitId s) h
  | fnUnit fn ih => exact ih (s := enterFnUnit s) h
  | fnDefine name args ret rettype body iha ihr ihb =>
      have h₂ := rejected_of_makeFnProto (ihb (makeFnDef_rejected.symm.trans h))
      exact fnProtoName_rejected.symm.trans (iha (ihr h₂))
  | fnDecl name args ret rettype iha ihr =>
      have h₂ := rejected_of_makeFnProto (makeFnDecl_rejected.symm.trans h)
      exact (fnProtoName_rejected (m := m) (s := { s with externFlag := true })).symm.trans
        (iha (ihr h₂))
  | traitProto name args ret rettype rest iha ihr ihs =>
      have h₂ := rejected_of_makeFnProto (popSymtable_rejected.symm.trans (ihs h))
      exact fnProtoName_rejected.symm.trans (iha (ihr h₂))

end CaLang.Parser
