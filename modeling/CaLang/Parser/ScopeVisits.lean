import CaLang.Parser.Context
import Mathlib.Logic.Relation

/-! # The scope stack of the parser

What a parse tree says about scopes, and what the parser's context does.  A `Visit` is a moment of
the parse: the completion of a construct, with the state it was entered in, or a point of a
statement, with the scope that textually contains it.
-/

namespace CaLang.Parser

/-- The scope of a statement: the table of the innermost block, function or `for` around it, and
the table of the function around it. -/
structure Scope where
  table : TableId
  fn : Option TableId

/-- A moment of the parse. -/
inductive Visit
  /-- A construct entered in one state is completed in the other. -/
  | construct (entered completed : State)
  /-- A statement in the given scope is recorded in the given state. -/
  | point (scope : Scope) (here : State)

/-- The block, `for` or struct scope that is opened next. -/
def Scope.inner (sc : Scope) (s : State) : Scope := ⟨s.tables, sc.fn⟩

/-- The scope of the function definition that is entered next. -/
def fnScope (s : State) : Scope := ⟨s.tables, some s.tables⟩

/-- The scope of the types of the extern declaration that is entered next. -/
def externScope (s : State) : Scope := ⟨s.tables, none⟩

/-- The moments of the parse of a tree in a scope. -/
def Tree.visits (m : Bool) : {c : Symbol} → Tree c → Scope → State → List Visit
  | _, .atom, _, _ => []
  | _, .operands left right, sc, s => left.visits m sc s ++ right.visits m sc (left.parse m s)
  | _, .ifexpr cond thens elses, sc, s =>
      let s₁ := cond.parse m s
      cond.visits m sc s ++ (thens.visits m sc s₁ ++ elses.visits m sc (thens.parse m s₁))
  | _, .stmtexprListBlock list value, sc, s =>
      let s₁ := pushNewSymtable s
      let s₂ := list.parse m s₁
      .point (sc.inner s) s₁ :: (list.visits m (sc.inner s) s₁ ++
        (value.visits m (sc.inner s) s₂ ++ [.construct s (popSymtable (value.parse m s₂))]))
  | _, .stmtListBlock list, sc, s =>
      let s₁ := pushNewSymtable s
      .point (sc.inner s) s₁ :: (list.visits m (sc.inner s) s₁ ++
        [.construct s (popSymtable (list.parse m s₁))])
  | _, .firstParam _ type, sc, s => type.visits m sc s
  | _, .nextParam init _ type, sc, s => init.visits m sc s ++ type.visits m sc (init.parse m s)
  | _, .noArgs, _, _ => []
  | _, .someArgs list _, sc, s => list.visits m sc s
  | _, .fnDefine name args ret rettype body, _, s =>
      let s₁ := fnProtoName m s
      let s₂ := (fnProto m name rettype (args.parse m) (ret.parse m) s).1
      args.visits m (fnScope s) s₁ ++ (ret.visits m (fnScope s) (args.parse m s₁) ++
        (.point (fnScope s) s₂ :: (body.visits m (fnScope s) s₂ ++
          [.construct s (makeFnDef m (body.parse m s₂))])))
  | _, .noFields, _, _ => []
  | _, .someFields list, sc, s => list.visits m sc s
  | _, .noClause, _, _ => []
  | _, .clause head body rest, sc, s =>
      let s₁ := head.parse m s
      head.visits m sc s ++ (body.visits m sc s₁ ++ rest.visits m sc (body.parse m s₁))
  | _, .simple parts, sc, s => parts.visits m sc s ++ [.point sc (parts.parse m s)]
  | _, .retVoid, sc, s => [.point sc s]
  | _, .retExpr value, sc, s => value.visits m sc s ++ [.point sc (value.parse m s)]
  | _, .label _, sc, s => [.point sc s]
  | _, .control list, sc, s => list.visits m sc s
  | _, .forStmt list body, sc, s =>
      let s₁ := pushNewSymtable s
      let s₂ := list.parse m s₁
      .point (sc.inner s) s₁ :: (list.visits m (sc.inner s) s₁ ++
        (body.visits m (sc.inner s) s₂ ++ [.construct s (popSymtable (body.parse m s₂))]))
  | _, .structDef _ members, sc, s =>
      let s₁ := resetArglistWithNewSymtable s
      members.visits m (sc.inner s) s₁ ++ [.construct s (makeStructType (members.parse m s₁))]
  | _, .traitDef name defs, sc, s =>
      defs.visits m sc { s with currentTraitId := name } ++
        [.construct s ((Tree.traitDef name defs).parse m s)]
  | _, .typeImpl classId traitId defs, sc, s =>
      defs.visits m sc (pushTypeImpl classId traitId s) ++
        [.construct s ((Tree.typeImpl classId traitId defs).parse m s)]
  | _, .fnUnit fn, sc, s =>
      fn.visits m sc (enterFnUnit s) ++ [.construct s ((Tree.fnUnit fn).parse m s)]
  | _, .fnDecl name args ret rettype, _, s =>
      let s₁ := fnProtoName m { s with externFlag := true }
      args.visits m (externScope s) s₁ ++ (ret.visits m (externScope s) (args.parse m s₁) ++
        [.construct s ((Tree.fnDecl name args ret rettype).parse m s)])
  | _, .noStmt, _, _ => []
  | _, .stmtThen first rest, sc, s => first.visits m sc s ++ rest.visits m sc (first.parse m s)
  | _, .noTraitFn, _, _ => []
  | _, .traitProto name args ret rettype rest, sc, s =>
      let s₁ := fnProtoName m s
      let s₂ := popSymtable (fnProto m name rettype (args.parse m) (ret.parse m) s).1
      args.visits m (fnScope s) s₁ ++ (ret.visits m (fnScope s) (args.parse m s₁) ++
        (.construct s s₂ :: rest.visits m sc s₂))
  | _, .traitDefault fn rest, sc, s => fn.visits m sc s ++ rest.visits m sc (fn.parse m s)
  | _, .noImplFn, _, _ => []
  | _, .implFn fn rest, sc, s => fn.visits m sc s ++ rest.visits m sc (fn.parse m s)

/-- No table is its own ancestor. -/
def State.Acyclic (s : State) : Prop :=
  ∀ t, ¬ Relation.TransGen (fun a b => s.parent a = some b) t t

/-- A completed construct leaves the scopes as it found them, and a statement is recorded in the
scope that contains it. -/
def Visit.Ok : Visit → Prop
  | construct entered completed =>
      completed.currSymtable = entered.currSymtable ∧
      completed.currFnSymtable = entered.currFnSymtable ∧
      completed.currFnRettype = entered.currFnRettype ∧ completed.Acyclic
  | point scope here =>
      here.currSymtable = scope.table ∧ here.currFnSymtable = scope.fn ∧ here.Acyclic

/-- The scope of the statements of a source file. -/
def topScope (emitMain : Bool) : Scope :=
  if emitMain then ⟨gMainSymtable, some gMainSymtable⟩ else ⟨gRootSymtable, none⟩

/-- Every construct of the tree restores the scopes and every statement of it is recorded where it
stands. -/
def Tree.Disciplined {c : Symbol} (m : Bool) (t : Tree c) (sc : Scope) (s : State) : Prop :=
  ∀ v ∈ t.visits m sc s, v.Ok

/-- The scope discipline of a source file. -/
def Program.ScopesRestored (emitMain : Bool) (p : Program) : Prop :=
  p.Disciplined emitMain (topScope emitMain) (yyparserInit emitMain)

/-! ### The programs that keep the discipline -/

/-- No function, extern declaration or trait prototype, and no `ret` with a value if `noRet`. -/
def Tree.plain (noRet : Bool) : {c : Symbol} → Tree c → Bool
  | _, .atom | _, .noArgs | _, .noFields | _, .noClause | _, .retVoid | _, .label _
  | _, .noStmt | _, .noTraitFn | _, .noImplFn => true
  | _, .operands left right => left.plain noRet && right.plain noRet
  | _, .ifexpr cond thens elses => cond.plain noRet && thens.plain noRet && elses.plain noRet
  | _, .stmtexprListBlock list value => list.plain noRet && value.plain noRet
  | _, .stmtListBlock list => list.plain noRet
  | _, .firstParam _ type => type.plain noRet
  | _, .nextParam init _ type => init.plain noRet && type.plain noRet
  | _, .someArgs list _ => list.plain noRet
  | _, .fnDefine _ _ _ _ _ | _, .fnDecl _ _ _ _ | _, .traitProto _ _ _ _ _
  | _, .traitDefault _ _ | _, .implFn _ _ | _, .fnUnit _ => false
  | _, .someFields list => list.plain noRet
  | _, .clause head body rest => head.plain noRet && body.plain noRet && rest.plain noRet
  | _, .simple parts => parts.plain noRet
  | _, .retExpr value => !noRet && value.plain noRet
  | _, .control list => list.plain noRet
  | _, .forStmt list body => list.plain noRet && body.plain noRet
  | _, .structDef _ members => members.plain noRet
  | _, .traitDef _ defs => defs.plain noRet
  | _, .typeImpl _ _ defs => defs.plain noRet
  | _, .stmtThen first rest => first.plain noRet && rest.plain noRet

/-- The tree has an extern declaration. -/
def Tree.hasExtern : {c : Symbol} → Tree c → Bool
  | _, .atom | _, .noArgs | _, .noFields | _, .noClause | _, .retVoid | _, .label _
  | _, .noStmt | _, .noTraitFn | _, .noImplFn => false
  | _, .operands left right => left.hasExtern || right.hasExtern
  | _, .ifexpr cond thens elses => cond.hasExtern || thens.hasExtern || elses.hasExtern
  | _, .stmtexprListBlock list value => list.hasExtern || value.hasExtern
  | _, .stmtListBlock list => list.hasExtern
  | _, .firstParam _ type => type.hasExtern
  | _, .nextParam init _ type => init.hasExtern || type.hasExtern
  | _, .someArgs list _ => list.hasExtern
  | _, .fnDefine _ args ret _ body => args.hasExtern || ret.hasExtern || body.hasExtern
  | _, .someFields list => list.hasExtern
  | _, .clause head body rest => head.hasExtern || body.hasExtern || rest.hasExtern
  | _, .simple parts => parts.hasExtern
  | _, .retExpr value => value.hasExtern
  | _, .control list => list.hasExtern
  | _, .forStmt list body => list.hasExtern || body.hasExtern
  | _, .structDef _ members => members.hasExtern
  | _, .traitDef _ defs => defs.hasExtern
  | _, .typeImpl _ _ defs => defs.hasExtern
  | _, .fnUnit fn => fn.hasExtern
  | _, .fnDecl _ _ _ _ => true
  | _, .stmtThen first rest => first.hasExtern || rest.hasExtern
  | _, .traitProto _ args ret _ rest => args.hasExtern || ret.hasExtern || rest.hasExtern
  | _, .traitDefault fn rest => fn.hasExtern || rest.hasExtern
  | _, .implFn fn rest => fn.hasExtern || rest.hasExtern

/-- No `ife`, in whose blocks statements could stand. -/
def Tree.bare : {c : Symbol} → Tree c → Bool
  | _, .atom | _, .noArgs => true
  | _, .operands left right => left.bare && right.bare
  | _, .firstParam _ type => type.bare
  | _, .nextParam init _ type => init.bare && type.bare
  | _, .someArgs list _ => list.bare
  | _, _ => false

/-- Without `-main`: no function definition, extern declaration or trait prototype stands inside
a function definition; no function definition stands inside an extern declaration (`ext`) unless
another one was completed in between; and a trait prototype stands only there, with no `ife` in its
types and with the return type `void`. -/
def Tree.tidy (ext : Bool) : {c : Symbol} → Tree c → Bool
  | _, .atom | _, .noArgs | _, .noFields | _, .noClause | _, .retVoid | _, .label _
  | _, .noStmt | _, .noTraitFn | _, .noImplFn => true
  | _, .operands left right => left.tidy ext && right.tidy (ext && !left.hasExtern)
  | _, .ifexpr cond thens elses =>
      cond.tidy ext && thens.tidy (ext && !cond.hasExtern) &&
        elses.tidy (ext && !(cond.hasExtern || thens.hasExtern))
  | _, .stmtexprListBlock list value => list.tidy ext && value.tidy (ext && !list.hasExtern)
  | _, .stmtListBlock list => list.tidy ext
  | _, .firstParam _ type => type.tidy ext
  | _, .nextParam init _ type => init.tidy ext && type.tidy (ext && !init.hasExtern)
  | _, .someArgs list _ => list.tidy ext
  | _, .fnDefine _ args ret _ body =>
      !ext && args.plain false && ret.plain false && body.plain false
  | _, .someFields list => list.tidy ext
  | _, .clause head body rest =>
      head.tidy ext && body.tidy (ext && !head.hasExtern) &&
        rest.tidy (ext && !(head.hasExtern || body.hasExtern))
  | _, .simple parts => parts.tidy ext
  | _, .retExpr value => value.tidy ext
  | _, .control list => list.tidy ext
  | _, .forStmt list body => list.tidy ext && body.tidy (ext && !list.hasExtern)
  | _, .structDef _ members => members.tidy ext
  | _, .traitDef _ defs => defs.tidy ext
  | _, .typeImpl _ _ defs => defs.tidy ext
  | _, .fnUnit fn => fn.tidy ext
  | _, .fnDecl _ args ret _ => args.tidy true && ret.tidy (!args.hasExtern)
  | _, .stmtThen first rest => first.tidy ext && rest.tidy (ext && !first.hasExtern)
  | _, .traitProto _ args ret rettype rest =>
      ext && rettype = voidId && args.bare && ret.bare && rest.tidy ext
  | _, .traitDefault fn rest => fn.tidy ext && rest.tidy (ext && !fn.hasExtern)
  | _, .implFn fn rest => fn.tidy ext && rest.tidy (ext && !fn.hasExtern)

/-- A `ret` with a value stands directly in the list of statements. -/
def Tree.returns : {c : Symbol} → Tree c → Bool
  | _, .retExpr _ => true
  | _, .stmtThen first rest => first.returns || rest.returns
  | _, _ => false

/-- With `-main`: functions and extern declarations stand directly at the top, before the first
`ret` with a value there (`fresh`), with no other inside; there is no trait prototype; and the first
`ret` with a value of the file itself, or of a function without a return type, stands in no
construct. -/
def Tree.tidyMain : {c : Symbol} → Tree c → (fresh : Bool) → Bool
  | _, .fnDefine _ args ret rettype body, fresh =>
      fresh && args.plain true && ret.plain true && body.plain false &&
        body.tidyMain (rettype = voidId)
  | _, .fnUnit fn, fresh => fn.tidyMain fresh
  | _, .fnDecl _ args ret _, fresh => fresh && args.plain true && ret.plain true
  | _, .traitDef _ defs, fresh => defs.tidyMain fresh
  | _, .noTraitFn, _ => true
  | _, .traitProto _ _ _ _ _, _ => false
  | _, .traitDefault fn rest, fresh => fn.tidyMain fresh && rest.tidyMain fresh
  | _, .typeImpl _ _ defs, fresh => defs.tidyMain fresh
  | _, .noImplFn, _ => true
  | _, .implFn fn rest, fresh => fn.tidyMain fresh && rest.tidyMain fresh
  | _, .retExpr value, fresh => value.plain fresh
  | _, .noStmt, _ => true
  | _, .stmtThen first rest, fresh =>
      first.tidyMain fresh && rest.tidyMain (fresh && !first.returns)
  | _, .structDef name members, fresh => (Tree.structDef name members).plain fresh
  | _, .simple parts, fresh => (Tree.simple parts).plain fresh
  | _, .control list, fresh => (Tree.control list).plain fresh
  | _, .forStmt list body, fresh => (Tree.forStmt list body).plain fresh
  | _, _, _ => true

/-- The condition on a source file. -/
def Program.Tidy (emitMain : Bool) (p : Program) : Prop :=
  if emitMain then p.tidyMain true = true else p.tidy false = true

end CaLang.Parser
