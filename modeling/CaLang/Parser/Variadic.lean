import CaLang.Parser.Prototypes

/-! # The variadic flag

`curr_arglist.contain_varg` is one flag for all functions.  A non-empty parameter list sets it at
its end and a struct definition clears it at its beginning; an empty list leaves it as it is.
`make_fn_proto` copies it.  So **the flag of a function is the last one written before the end of
its prototype**, whoever wrote it.

* `Tree.lastVarg`: the last write of a tree; `Tree.containVarg_parse`: the flag after its parse;
* `Tree.vargRight`: at the end of every prototype the last write agrees with its own list;
* `Tree.prototypes_vargRight`: this is exactly when all flags are right.
-/

namespace CaLang.Parser

/-- The last value a tree writes to the flag. -/
def Tree.lastVarg : {c : Symbol} → Tree c → Option Bool
  | _, .atom | _, .noArgs | _, .noFields | _, .noClause | _, .retVoid | _, .label _
  | _, .noStmt | _, .noTraitFn | _, .noImplFn => none
  | _, .operands left right => right.lastVarg.or left.lastVarg
  | _, .ifexpr cond thens elses => elses.lastVarg.or (thens.lastVarg.or cond.lastVarg)
  | _, .stmtexprListBlock list value => value.lastVarg.or list.lastVarg
  | _, .stmtListBlock list => list.lastVarg
  | _, .firstParam _ type => type.lastVarg
  | _, .nextParam init _ type => type.lastVarg.or init.lastVarg
  | _, .someArgs _ varg => some varg
  | _, .fnDefine _ args ret _ body => body.lastVarg.or (ret.lastVarg.or args.lastVarg)
  | _, .someFields list => list.lastVarg
  | _, .clause head body rest => rest.lastVarg.or (body.lastVarg.or head.lastVarg)
  | _, .simple parts => parts.lastVarg
  | _, .retExpr value => value.lastVarg
  | _, .control list => list.lastVarg
  | _, .forStmt list body => body.lastVarg.or list.lastVarg
  | _, .structDef _ members => members.lastVarg.or (some false)
  | _, .traitDef _ defs => defs.lastVarg
  | _, .typeImpl _ _ defs => defs.lastVarg
  | _, .fnUnit fn => fn.lastVarg
  | _, .fnDecl _ args ret _ => ret.lastVarg.or args.lastVarg
  | _, .stmtThen first rest => rest.lastVarg.or first.lastVarg
  | _, .traitProto _ args ret _ rest => rest.lastVarg.or (ret.lastVarg.or args.lastVarg)
  | _, .traitDefault fn rest => rest.lastVarg.or fn.lastVarg
  | _, .implFn fn rest => rest.lastVarg.or fn.lastVarg

/-- The flag after a tree that is parsed with flag `b`. -/
def Tree.vargAfter {c : Symbol} (t : Tree c) (b : Bool) : Bool := t.lastVarg.getD b

/-- At the end of every prototype the last write agrees with its own list, if the flag is `b` at
the beginning of the tree. -/
def Tree.vargRight : {c : Symbol} → Tree c → Bool → Bool
  | _, .atom, _ | _, .noArgs, _ | _, .noFields, _ | _, .noClause, _ | _, .retVoid, _
  | _, .label _, _ | _, .noStmt, _ | _, .noTraitFn, _ | _, .noImplFn, _ => true
  | _, .operands left right, b => left.vargRight b && right.vargRight (left.vargAfter b)
  | _, .ifexpr cond thens elses, b =>
      cond.vargRight b && (thens.vargRight (cond.vargAfter b) &&
        elses.vargRight (thens.vargAfter (cond.vargAfter b)))
  | _, .stmtexprListBlock list value, b => list.vargRight b && value.vargRight (list.vargAfter b)
  | _, .stmtListBlock list, b => list.vargRight b
  | _, .firstParam _ type, b => type.vargRight b
  | _, .nextParam init _ type, b => init.vargRight b && type.vargRight (init.vargAfter b)
  | _, .someArgs list _, b => list.vargRight b
  | _, .fnDefine _ args ret _ body, b =>
      args.vargRight b && (ret.vargRight (args.vargAfter b) &&
        (ret.vargAfter (args.vargAfter b) == args.varg &&
          body.vargRight (ret.vargAfter (args.vargAfter b))))
  | _, .someFields list, b => list.vargRight b
  | _, .clause head body rest, b =>
      head.vargRight b && (body.vargRight (head.vargAfter b) &&
        rest.vargRight (body.vargAfter (head.vargAfter b)))
  | _, .simple parts, b => parts.vargRight b
  | _, .retExpr value, b => value.vargRight b
  | _, .control list, b => list.vargRight b
  | _, .forStmt list body, b => list.vargRight b && body.vargRight (list.vargAfter b)
  | _, .structDef _ members, _ => members.vargRight false
  | _, .traitDef _ defs, b => defs.vargRight b
  | _, .typeImpl _ _ defs, b => defs.vargRight b
  | _, .fnUnit fn, b => fn.vargRight b
  | _, .fnDecl _ args ret _, b =>
      args.vargRight b && (ret.vargRight (args.vargAfter b) &&
        ret.vargAfter (args.vargAfter b) == args.varg)
  | _, .stmtThen first rest, b => first.vargRight b && rest.vargRight (first.vargAfter b)
  | _, .traitProto _ args ret _ rest, b =>
      args.vargRight b && (ret.vargRight (args.vargAfter b) &&
        (ret.vargAfter (args.vargAfter b) == args.varg &&
          rest.vargRight (ret.vargAfter (args.vargAfter b))))
  | _, .traitDefault fn rest, b => fn.vargRight b && rest.vargRight (fn.vargAfter b)
  | _, .implFn fn rest, b => fn.vargRight b && rest.vargRight (fn.vargAfter b)

/-- A function whose flag is its own wherever it stands: the last write in its prototype agrees with
its list, so the list is not empty or a definition inside its return type makes up for it. -/
def Tree.ownsVarg (args : Tree .fnArgs) (ret : Tree .expr) : Bool :=
  ret.lastVarg.or args.lastVarg == some args.varg

/-- `check_fn_define`: whether a call with `argc` arguments has the right number of them. -/
def checkFnDefine (formalparam : ArgList) (argc : Nat) : Bool :=
  !(formalparam.containVarg && formalparam.argnames.length > argc ||
    !formalparam.containVarg && formalparam.argnames.length ≠ argc)

/-- The flag of a registered function is that of its own parameter list, in its node and in its
entry. -/
def Registration.VargRight (r : Registration) : Prop :=
  r.proto.args.containVarg = r.varg ∧ r.proto.entry.arglists.containVarg = r.varg

variable {m : Bool} {s : State}

/-! ### The flag along the parse -/

/-- The flag of the list under construction. -/
def State.varg (s : State) : Bool := s.currArglist.containVarg

@[simp] theorem popSymtable_varg : (popSymtable s).varg = s.varg := by
  unfold popSymtable
  split <;> rfl

@[simp] theorem fnProtoName_varg : (fnProtoName m s).varg = s.varg := by
  cases m with
  | false => rfl
  | true => exact popSymtable_varg

@[simp] theorem makeFnProto_varg {name rettype : Id} :
    (makeFnProto name rettype s).1.varg = s.varg := by
  unfold makeFnProto
  dsimp only
  split <;> rfl

@[simp] theorem makeFnDef_varg : (makeFnDef m s).varg = s.varg := by
  cases m <;> exact popSymtable_varg

@[simp] theorem makeFnDecl_varg : (makeFnDecl m s).varg = s.varg := by
  cases m <;> exact popSymtable_varg

@[simp] theorem makeStmtRetExpr_varg : (makeStmtRetExpr m s).varg = s.varg := by
  unfold makeStmtRetExpr
  split <;> rfl

@[simp] theorem makeStructType_varg : (makeStructType s).varg = s.varg := popSymtable_varg

theorem makeFnProto_args {name rettype : Id} :
    (makeFnProto name rettype s).2.args.containVarg = s.varg := by
  unfold makeFnProto
  dsimp only
  split <;> rfl

theorem getD_or (a b : Option Bool) (d : Bool) : (a.or b).getD d = a.getD (b.getD d) := by
  cases a <;> rfl

theorem Tree.varg_parse {c : Symbol} (t : Tree c) {s : State} :
    (t.parse m s).varg = t.vargAfter s.varg := by
  induction t generalizing s with
  | atom | noArgs | noFields | noClause | retVoid | label _ | noStmt | noTraitFn | noImplFn => rfl
  | operands left right ihl ihr | nextParam left _ right ihl ihr | stmtThen left right ihl ihr
  | traitDefault left right ihl ihr | implFn left right ihl ihr =>
      refine ihr.trans ?_
      rw [ihl, vargAfter, vargAfter, vargAfter, lastVarg, getD_or]
  | ifexpr cond thens elses ihc iht ihe | clause cond thens elses ihc iht ihe =>
      refine ihe.trans ?_
      rw [iht, ihc, vargAfter, vargAfter, vargAfter, vargAfter, lastVarg, getD_or, getD_or]
  | stmtexprListBlock list value ihl ihv | forStmt list value ihl ihv =>
      refine popSymtable_varg.trans (ihv.trans ?_)
      rw [ihl, vargAfter, vargAfter, vargAfter, lastVarg, getD_or]
      rfl
  | stmtListBlock list ih => exact popSymtable_varg.trans ih
  | firstParam _ type ih | someFields type ih | control type ih | simple type ih => exact ih
  | someArgs list varg => rfl
  | retExpr value ih => exact makeStmtRetExpr_varg.trans ih
  | structDef _ members ih =>
      refine makeStructType_varg.trans (ih.trans ?_)
      rw [vargAfter, vargAfter, lastVarg, getD_or]
      rfl
  | traitDef _ defs ih => exact ih
  | typeImpl _ _ defs ih => exact ih
  | fnUnit fn ih => exact ih
  | fnDefine name args ret rettype body iha ihr ihb =>
      simp only [parse, fnProto, makeFnDef_varg, ihb, makeFnProto_varg, ihr, iha, fnProtoName_varg,
        vargAfter, lastVarg, getD_or]
  | fnDecl name args ret rettype iha ihr =>
      simp only [parse, fnProto, makeFnDecl_varg, makeFnProto_varg, ihr, iha, fnProtoName_varg,
        vargAfter, lastVarg, getD_or]
      rfl
  | traitProto name args ret rettype rest iha ihr ihs =>
      simp only [parse, fnProto, ihs, popSymtable_varg, makeFnProto_varg, ihr, iha,
        fnProtoName_varg, vargAfter, lastVarg, getD_or]

/-- The flag `make_fn_proto` copies. -/
theorem varg_fnProto {name rettype : Id} {args : Tree .fnArgs} {ret : Tree .expr} :
    (fnProto m name rettype (args.parse m) (ret.parse m) s).2.args.containVarg =
      ret.vargAfter (args.vargAfter s.varg) := by
  rw [fnProto, makeFnProto_args, Tree.varg_parse, Tree.varg_parse, fnProtoName_varg]

/-! ### The flags of all functions -/

theorem Tree.prototypes_vargRight {c : Symbol} (t : Tree c) {enc : Enclosing} {s : State} :
    (∀ r ∈ t.prototypes m enc s, r.proto.args.containVarg = r.varg) ↔
      t.vargRight s.varg = true := by
  induction t generalizing enc s with
  | atom | noArgs | noFields | noClause | retVoid | label _ | noStmt | noTraitFn | noImplFn =>
      exact ⟨fun _ => rfl, fun _ => List.forall_mem_nil _⟩
  | operands left right ihl ihr | nextParam left _ right ihl ihr | stmtThen left right ihl ihr
  | traitDefault left right ihl ihr | implFn left right ihl ihr =>
      simp only [prototypes, List.forall_mem_append, ihl, ihr, varg_parse, vargRight,
        Bool.and_eq_true]
  | ifexpr cond thens elses ihc iht ihe | clause cond thens elses ihc iht ihe =>
      simp only [prototypes, List.forall_mem_append, ihc, iht, ihe, varg_parse, vargRight,
        Bool.and_eq_true]
  | stmtexprListBlock list value ihl ihv | forStmt list value ihl ihv =>
      simp only [prototypes, List.forall_mem_append, ihl, ihv, varg_parse, vargRight,
        Bool.and_eq_true]
      rfl
  | stmtListBlock list ih => exact ih
  | firstParam _ type ih | someArgs type _ ih | someFields type ih | control type ih
  | simple type ih | retExpr type ih => exact ih
  | structDef _ members ih => exact ih
  | traitDef _ defs ih => exact ih
  | typeImpl _ _ defs ih => exact ih
  | fnUnit fn ih => exact ih
  | fnDefine name args ret rettype body iha ihr ihb =>
      have hb : (fnProto m name rettype (args.parse m) (ret.parse m) s).1.varg =
          ret.vargAfter (args.vargAfter s.varg) := by
        rw [fnProto, makeFnProto_varg, varg_parse, varg_parse, fnProtoName_varg]
      simp only [prototypes, List.forall_mem_append, List.forall_mem_cons, iha, ihr, ihb, hb,
        varg_parse, fnProtoName_varg, varg_fnProto, vargRight, Bool.and_eq_true, beq_iff_eq]
  | fnDecl name args ret rettype iha ihr =>
      simp only [prototypes, List.forall_mem_append, List.forall_mem_singleton, iha, ihr,
        varg_parse, fnProtoName_varg, varg_fnProto, vargRight, Bool.and_eq_true, beq_iff_eq]
      rfl
  | traitProto name args ret rettype rest iha ihr ihs =>
      have hb : (fnProto m name rettype (args.parse m) (ret.parse m) s).1.varg =
          ret.vargAfter (args.vargAfter s.varg) := by
        rw [fnProto, makeFnProto_varg, varg_parse, varg_parse, fnProtoName_varg]
      simp only [prototypes, List.forall_mem_append, List.forall_mem_cons, iha, ihr, ihs,
        popSymtable_varg, hb, varg_parse, fnProtoName_varg, varg_fnProto, vargRight,
        Bool.and_eq_true, beq_iff_eq]

/-- An accepted prototype agrees with the entry it is registered in. -/
theorem makeFnProto_entry {name rettype : Id}
    (h : (makeFnProto name rettype s).1.rejected = false) :
    (makeFnProto name rettype s).2.entry.arglists.containVarg =
      (makeFnProto name rettype s).2.args.containVarg := by
  unfold makeFnProto at h ⊢
  dsimp only at h ⊢
  split at h
  · next prev _ =>
      have hok := (Bool.or_eq_false_iff.mp h).2
      rw [Bool.not_eq_false'] at hok
      have hpre : preCheckFnProto prev s.currArglist = true := by
        split at hok
        · exact hok
        · exact (Bool.and_eq_true_iff.mp hok).2
      exact (of_decide_eq_true hpre).2
  · rfl

theorem Tree.entry_varg {c : Symbol} (t : Tree c) {enc : Enclosing} {s : State}
    (h : (t.parse m s).rejected = false) :
    ∀ r ∈ t.prototypes m enc s,
      r.proto.entry.arglists.containVarg = r.proto.args.containVarg := by
  induction t generalizing enc s with
  | atom | noArgs | noFields | noClause | retVoid | label _ | noStmt | noTraitFn | noImplFn =>
      exact List.forall_mem_nil _
  | operands left right ihl ihr | nextParam left _ right ihl ihr | stmtThen left right ihl ihr
  | traitDefault left right ihl ihr | implFn left right ihl ihr =>
      exact List.forall_mem_append.mpr ⟨ihl (right.rejected_of_parse h), ihr h⟩
  | ifexpr cond thens elses ihc iht ihe | clause cond thens elses ihc iht ihe =>
      have ht := elses.rejected_of_parse h
      exact List.forall_mem_append.mpr ⟨ihc (thens.rejected_of_parse ht),
        List.forall_mem_append.mpr ⟨iht ht, ihe h⟩⟩
  | stmtexprListBlock list value ihl ihv | forStmt list value ihl ihv =>
      have hv := popSymtable_rejected.symm.trans h
      exact List.forall_mem_append.mpr ⟨ihl (value.rejected_of_parse hv), ihv hv⟩
  | stmtListBlock list ih => exact ih (popSymtable_rejected.symm.trans h)
  | firstParam _ type ih | someArgs type _ ih | someFields type ih | control type ih
  | simple type ih => exact ih h
  | retExpr value ih => exact ih (makeStmtRetExpr_rejected.symm.trans h)
  | structDef _ members ih => exact ih (makeStructType_rejected.symm.trans h)
  | traitDef _ defs ih => exact ih h
  | typeImpl _ _ defs ih => exact ih h
  | fnUnit fn ih => exact ih h
  | fnDefine name args ret rettype body iha ihr ihb =>
      have hb := makeFnDef_rejected.symm.trans h
      have hp := body.rejected_of_parse hb
      have hr := rejected_of_makeFnProto hp
      exact List.forall_mem_append.mpr ⟨iha (ret.rejected_of_parse hr),
        List.forall_mem_append.mpr ⟨ihr hr, List.forall_mem_cons.mpr
          ⟨makeFnProto_entry hp, ihb hb⟩⟩⟩
  | fnDecl name args ret rettype iha ihr =>
      have hp := makeFnDecl_rejected.symm.trans h
      have hr := rejected_of_makeFnProto hp
      exact List.forall_mem_append.mpr ⟨iha (ret.rejected_of_parse hr),
        List.forall_mem_append.mpr ⟨ihr hr, List.forall_mem_singleton.mpr
          (makeFnProto_entry hp)⟩⟩
  | traitProto name args ret rettype rest iha ihr ihs =>
      have hp := popSymtable_rejected.symm.trans (rest.rejected_of_parse h)
      have hr := rejected_of_makeFnProto hp
      exact List.forall_mem_append.mpr ⟨iha (ret.rejected_of_parse hr),
        List.forall_mem_append.mpr ⟨ihr hr, List.forall_mem_cons.mpr
          ⟨makeFnProto_entry hp, ihs h⟩⟩⟩

/-- A function keeps its flag wherever it stands iff it owns it. -/
theorem ownsVarg_iff {name rettype : Id} {args : Tree .fnArgs} {ret : Tree .expr} :
    (∀ s, (fnProto m name rettype (args.parse m) (ret.parse m) s).2.args.containVarg =
      args.varg) ↔ args.ownsVarg ret = true := by
  have hall : (∀ s, (fnProto m name rettype (args.parse m) (ret.parse m) s).2.args.containVarg =
      args.varg) ↔ ∀ b, ret.vargAfter (args.vargAfter b) = args.varg := by
    refine ⟨?_, fun h s => varg_fnProto.trans (h s.varg)⟩
    intro h b
    have hb := h { yyparserInit false with currArglist := ⟨[], gRootSymtable, b⟩ }
    rw [varg_fnProto] at hb
    exact hb
  rw [hall]
  simp only [Tree.ownsVarg, Tree.vargAfter, ← getD_or, beq_iff_eq]
  cases ret.lastVarg.or args.lastVarg with
  | some v => exact ⟨fun h => congrArg some (h true), fun h _ => Option.some.inj h⟩
  | none =>
      -- a flag nobody writes is the one before
      exact ⟨fun h => absurd ((h true).trans (h false).symm) nofun, nofun⟩

/-- **The variadic flag**: in an accepted file the flags of all functions are their own iff at the
end of every prototype the last write agrees with its list; and the functions whose flag is their
own whatever stands around them are those that own it. -/
theorem vargRight_iff (m : Bool) :
    (∀ p : Program, p.Accepted m →
      ((∀ r ∈ p.prototypes m, r.VargRight) ↔ p.vargRight false = true)) ∧
    ∀ (name rettype : Id) (args : Tree .fnArgs) (ret : Tree .expr),
      (∀ s, (fnProto m name rettype (args.parse m) (ret.parse m) s).2.args.containVarg =
        args.varg) ↔ args.ownsVarg ret = true := by
  refine ⟨?_, fun name rettype args ret => ownsVarg_iff⟩
  intro p h
  have hinit : (yyparserInit m).varg = false := by cases m <;> rfl
  have hiff : (∀ r ∈ p.prototypes m, r.proto.args.containVarg = r.varg) ↔ _ :=
    Tree.prototypes_vargRight p
  rw [hinit] at hiff
  refine Iff.trans ⟨fun hr r hmem => (hr r hmem).1, fun hr r hmem => ⟨hr r hmem, ?_⟩⟩ hiff
  exact (p.entry_varg h r hmem).trans (hr r hmem)

/-- `extern fn printf(format: *i8, ...) -> i32;  fn g() {}` -/
def printfThenG : Program :=
  .stmtThen (.fnDecl 2 (.someArgs (.firstParam 3 .atom) true) .atom 0)
    (.stmtThen (.fnUnit (.fnDefine 4 .noArgs .atom 1 .noStmt)) .noStmt)

/-- The flag of `g` is that of `printf`: a call `g(1, 2, 3)` has the right number of arguments. -/
theorem varg_of_previous :
    printfThenG.Accepted true ∧ (printfThenG.prototypes true).map
      (fun r => (r.varg, r.proto.entry.arglists.containVarg,
        checkFnDefine r.proto.entry.arglists 3)) = [(true, true, true), (false, true, true)] ∧
      ¬ ∀ (m : Bool) (p : Program), p.Accepted m → ∀ r ∈ p.prototypes m, r.VargRight := by
  refine ⟨rfl, rfl, ?_⟩
  intro h
  have hflags : (printfThenG.prototypes true).map (fun r => (r.varg, r.proto.args.containVarg)) =
      [(true, true), (false, true)] := rfl
  have hmem := List.mem_map.mp
    (hflags ▸ (by decide : (false, true) ∈ [(true, true), (false, true)]))
  obtain ⟨r, hr, heq⟩ := hmem
  simp only [Prod.mk.injEq] at heq
  have hright := (h true printfThenG rfl r hr).1
  rw [heq.1, heq.2] at hright
  cases hright

/-- `fn g() {}  extern fn printf(format: *i8, ...) -> i32;` -/
def gThenPrintf : Program :=
  .stmtThen (.fnUnit (.fnDefine 4 .noArgs .atom 1 .noStmt))
    (.stmtThen (.fnDecl 2 (.someArgs (.firstParam 3 .atom) true) .atom 0) .noStmt)

theorem gThenPrintf_vargRight : ∀ r ∈ gThenPrintf.prototypes true, r.VargRight :=
  ((vargRight_iff true).1 gThenPrintf rfl).mpr rfl

end CaLang.Parser
