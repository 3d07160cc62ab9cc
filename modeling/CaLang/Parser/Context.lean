import CaLang.Parser.Grammar
import Mathlib.Logic.Function.Basic

/-! # The parser's context

The globals that the actions of `ca.y` read and write while they reduce: the current symbol table
and its ancestors, the function being parsed with its return type, the `extern` flag, the
parameter list under construction, the trait and the impl block.  Each action is a function on
`State` under the name it has in the source, and **`Tree.parse` runs the actions of a parse tree
in the order of the parser**, the mid-rule ones included.

`emitMain` says whether the compiler was started with `-main`.  Of the checks that end the
compiler only those of `make_fn_proto` on an earlier function of the same name are kept, as the
flag `rejected`: the runs here are at least those of accepted programs.
-/

namespace CaLang.Parser

/-- The symbol tables, numbered as they are made. -/
abbrev TableId := Nat

/-- `g_root_symtable`. -/
def gRootSymtable : TableId := 0

/-- `g_main_symtable`, made by `yyparser_init` with `-main`. -/
def gMainSymtable : TableId := 1

/-- `ST_ArgList`, for a parameter list. -/
structure ArgList where
  argnames : List Id
  symtable : TableId
  containVarg : Bool
  deriving DecidableEq

/-- `TypeImplInfo`. -/
structure TypeImplInfo where
  classId : Id
  traitId : Option Id
  fnDefRecursiveCount : Int
  deriving DecidableEq

/-- The name a function is registered under: `f:name`, `f:Class::name` or
`f:Class::<Trait>::name`. -/
inductive FnName
  | function (name : Id)
  | method (name classId : Id) (traitId : Option Id)
  deriving DecidableEq

/-- `CAFunctionType`, without the flag for generic functions. -/
inductive CAFuncType
  | function | method | methodForTrait | methodInTrait
  deriving DecidableEq

/-- The `sym_type` of a function's entry. -/
inductive FnSymType
  | fnDecl | fnDef
  deriving DecidableEq

/-- The entry of a function in a symbol table. -/
structure FnEntry where
  symtable : TableId
  name : FnName
  symType : FnSymType
  caFuncType : CAFuncType
  arglists : ArgList
  rettype : Id
  deriving DecidableEq

/-- What `make_fn_proto` makes of a prototype: the kind of its node (`build_fn_decl` or
`build_fn_define`), the name and the copy of the parameter list there, and the entry it is
registered in. -/
structure FnProto where
  node : FnSymType
  name : FnName
  args : ArgList
  entry : FnEntry
  deriving DecidableEq

/-- The parser's globals. -/
structure State where
  /-- The number of tables made so far. -/
  tables : Nat
  parent : TableId → Option TableId
  currSymtable : TableId
  currFnSymtable : Option TableId
  /-- The id of the return type; that of `void` is the 0 of no function at all. -/
  currFnRettype : Id
  externFlag : Bool
  currArglist : ArgList
  /-- An `int`, 0 outside of traits. -/
  currentTraitId : Id
  currentTypeImpl : Option TypeImplInfo
  typeImplStack : List (Option TypeImplInfo)
  entries : List FnEntry
  rejected : Bool

/-! ### Symbol tables -/

/-- `push_new_symtable`. -/
def pushNewSymtable (s : State) : State :=
  { s with
    tables := s.tables + 1
    parent := Function.update s.parent s.tables (some s.currSymtable)
    currSymtable := s.tables }

/-- `push_symtable`. -/
def pushSymtable (st : TableId) (s : State) : State :=
  { s with
    parent := Function.update s.parent st (some s.currSymtable)
    currSymtable := st }

/-- `pop_symtable`. -/
def popSymtable (s : State) : State :=
  if s.currSymtable ≠ gRootSymtable then
    { s with currSymtable := (s.parent s.currSymtable).getD gRootSymtable }
  else s

/-- `sym_parent_or_global`. -/
def symParentOrGlobal (s : State) (st : TableId) : TableId := (s.parent st).getD st

/-- The state `yyparser_init` leaves. -/
def yyparserInit (emitMain : Bool) : State :=
  let s : State :=
    { tables := 1
      parent := fun _ => none
      currSymtable := gRootSymtable
      currFnSymtable := none
      currFnRettype := 0
      externFlag := false
      currArglist := ⟨[], gRootSymtable, false⟩
      currentTraitId := 0
      currentTypeImpl := none
      typeImplStack := []
      entries := []
      rejected := false }
  if emitMain then { pushNewSymtable s with currFnSymtable := some gMainSymtable } else s

/-! ### Functions -/

/-- The action of `fn_proto_name`. -/
def fnProtoName (emitMain : Bool) (s : State) : State :=
  -- with -main the table of the generated main function is meant to be on top here
  let s := if emitMain then popSymtable s else s
  let st := s.tables
  let s := pushNewSymtable s
  { s with
    currFnSymtable := if s.externFlag then none else some st
    currArglist := { s.currArglist with argnames := [], symtable := s.currSymtable } }

/-- `add_fn_args` (and `add_struct_member`). -/
def addFnArgs (name : Id) (s : State) : State :=
  { s with currArglist := { s.currArglist with argnames := s.currArglist.argnames ++ [name] } }

/-- `add_fn_args_p`. -/
def addFnArgsP (varg : Bool) (s : State) : State :=
  { s with currArglist := { s.currArglist with containVarg := varg } }

/-- `current_type_impl && current_type_impl->fn_def_recursive_count == 0`: the impl block whose
methods are being parsed. -/
def State.methodImpl (s : State) : Option TypeImplInfo :=
  s.currentTypeImpl.filter (·.fnDefRecursiveCount = 0)

/-- `sym_form_function_id` or `sym_form_method_id`, as `make_fn_proto` chooses. -/
def State.formFnName (fnid : Id) (s : State) : FnName :=
  if s.currentTraitId ≠ 0 then .method fnid s.currentTraitId none
  else
    match s.methodImpl with
    | some impl => .method fnid impl.classId impl.traitId
    | none => .function fnid

/-- The `ca_func_type` of a new definition. -/
def State.formFuncType (s : State) : CAFuncType :=
  if s.currentTraitId ≠ 0 then .methodInTrait
  else
    match s.methodImpl with
    | some impl => if impl.traitId.isSome then .methodForTrait else .method
    | none => .function

/-- `sym_getsym` for a function's name, without the tables around. -/
def State.getFn (s : State) (st : TableId) (name : FnName) : Option FnEntry :=
  s.entries.find? fun e => e.symtable = st ∧ e.name = name

/-- Writes an entry back. -/
def State.setFn (s : State) (entry : FnEntry) : State :=
  { s with
    entries := s.entries.map fun e =>
      if e.symtable = entry.symtable ∧ e.name = entry.name then entry else e }

/-- `pre_check_fn_proto`. -/
def preCheckFnProto (prev : FnEntry) (args : ArgList) : Bool :=
  prev.arglists.argnames.length = args.argnames.length ∧
    prev.arglists.containVarg = args.containVarg

/-- `make_fn_proto`. -/
def makeFnProto (fnid rettype : Id) (s : State) : State × FnProto :=
  let fnname := s.formFnName fnid
  let args := s.currArglist
  let node : FnSymType := if s.externFlag then .fnDecl else .fnDef
  let s := { s with currFnRettype := rettype }
  let symtable := symParentOrGlobal s s.currSymtable
  match s.getFn symtable fnname with
  | some prev =>
      let ok :=
        if s.externFlag then preCheckFnProto prev args
        else s.currentTraitId = 0 && prev.symType = .fnDecl && preCheckFnProto prev args
      let entry := { prev with
        symType := if s.externFlag then prev.symType else .fnDef
        rettype := rettype }
      ({ s.setFn entry with rejected := s.rejected || !ok }, ⟨node, fnname, args, entry⟩)
  | none =>
      let entry : FnEntry :=
        { symtable := symtable
          name := fnname
          symType := node
          caFuncType := if s.externFlag then .function else s.formFuncType
          arglists := args
          rettype := rettype }
      ({ s with entries := s.entries ++ [entry] }, ⟨node, fnname, args, entry⟩)

/-- `push_symtable(g_main_symtable); curr_fn_symtable = g_main_symtable`, with `-main`. -/
def enterMain (emitMain : Bool) (s : State) : State :=
  if emitMain then
    { pushSymtable gMainSymtable s with currFnSymtable := some gMainSymtable }
  else s

/-- `make_fn_def`. -/
def makeFnDef (emitMain : Bool) (s : State) : State :=
  enterMain emitMain { popSymtable s with currFnRettype := 0, currFnSymtable := none }

/-- `make_fn_decl`. -/
def makeFnDecl (emitMain : Bool) (s : State) : State :=
  enterMain emitMain { popSymtable s with externFlag := false, currFnRettype := 0 }

/-- The first action of `fn_unit`. -/
def enterFnUnit (s : State) : State :=
  { s with currentTypeImpl := s.currentTypeImpl.map fun impl =>
      { impl with fnDefRecursiveCount := impl.fnDefRecursiveCount + 1 } }

/-- The last action of `fn_unit`. -/
def leaveFnUnit (s : State) : State :=
  { s with currentTypeImpl := s.currentTypeImpl.map fun impl =>
      { impl with fnDefRecursiveCount := impl.fnDefRecursiveCount - 1 } }

/-! ### Impl blocks, structs, returns -/

/-- `push_type_impl`, of the info `begin_impl_type` or `begin_impl_trait_for_type` makes. -/
def pushTypeImpl (classId : Id) (traitId : Option Id) (s : State) : State :=
  { s with
    typeImplStack := s.currentTypeImpl :: s.typeImplStack
    currentTypeImpl := some ⟨classId, traitId, 0⟩ }

/-- `pop_type_impl`. -/
def popTypeImpl (s : State) : State :=
  { s with
    currentTypeImpl := s.typeImplStack.head?.join
    typeImplStack := s.typeImplStack.tail }

/-- `reset_arglist_with_new_symtable`. -/
def resetArglistWithNewSymtable (s : State) : State :=
  let s := pushNewSymtable s
  { s with currArglist := ⟨[], s.currSymtable, false⟩ }

/-- The part of `make_struct_type` that touches the context, for a struct. -/
def makeStructType (s : State) : State :=
  popSymtable { s with currArglist := { s.currArglist with symtable := s.currSymtable } }

/-- The id of the type `i32`, behind `t:void`, `t:i16` and `t:short`. -/
def i32Id : Id := 21

/-- `make_stmt_ret_expr`. -/
def makeStmtRetExpr (emitMain : Bool) (s : State) : State :=
  if s.currFnRettype = 0 && emitMain then { s with currFnRettype := i32Id } else s

/-! ### The parser -/

/-- `fn_proto`, with the runs of the parameter list and of the return type. -/
def fnProto (emitMain : Bool) (name rettype : Id) (args ret : State → State) (s : State) :
    State × FnProto :=
  makeFnProto name rettype (ret (args (fnProtoName emitMain s)))

/-- The run of the actions of a parse tree. -/
def Tree.parse (m : Bool) : {c : Symbol} → Tree c → State → State
  | _, .atom, s => s
  | _, .operands left right, s => right.parse m (left.parse m s)
  | _, .ifexpr cond thens elses, s => elses.parse m (thens.parse m (cond.parse m s))
  | _, .stmtexprListBlock list value, s =>
      popSymtable (value.parse m (list.parse m (pushNewSymtable s)))
  | _, .stmtListBlock list, s => popSymtable (list.parse m (pushNewSymtable s))
  | _, .firstParam name type, s => addFnArgs name (type.parse m s)
  | _, .nextParam init name type, s => addFnArgs name (type.parse m (init.parse m s))
  | _, .noArgs, s => s
  | _, .someArgs list varg, s => addFnArgsP varg (list.parse m s)
  | _, .fnDefine name args ret rettype body, s =>
      makeFnDef m (body.parse m (fnProto m name rettype (args.parse m) (ret.parse m) s).1)
  | _, .noFields, s => s
  | _, .someFields list, s => list.parse m s
  | _, .noClause, s => s
  | _, .clause head body rest, s => rest.parse m (body.parse m (head.parse m s))
  | _, .simple parts, s => parts.parse m s
  | _, .retVoid, s => s
  | _, .retExpr value, s => makeStmtRetExpr m (value.parse m s)
  | _, .label _, s => s
  | _, .control list, s => list.parse m s
  | _, .forStmt list body, s => popSymtable (body.parse m (list.parse m (pushNewSymtable s)))
  | _, .structDef _ members, s => makeStructType (members.parse m (resetArglistWithNewSymtable s))
  | _, .traitDef name defs, s =>
      { defs.parse m { s with currentTraitId := name } with currentTraitId := 0 }
  | _, .typeImpl classId traitId defs, s =>
      popTypeImpl (defs.parse m (pushTypeImpl classId traitId s))
  | _, .fnUnit fn, s => leaveFnUnit (fn.parse m (enterFnUnit s))
  | _, .fnDecl name args ret rettype, s =>
      makeFnDecl m (fnProto m name rettype (args.parse m) (ret.parse m)
        { s with externFlag := true }).1
  | _, .noStmt, s => s
  | _, .stmtThen first rest, s => rest.parse m (first.parse m s)
  | _, .noTraitFn, s => s
  | _, .traitProto name args ret rettype rest, s =>
      rest.parse m (popSymtable (fnProto m name rettype (args.parse m) (ret.parse m) s).1)
  | _, .traitDefault fn rest, s => rest.parse m (fn.parse m s)
  | _, .noImplFn, s => s
  | _, .implFn fn rest, s => rest.parse m (fn.parse m s)

end CaLang.Parser
