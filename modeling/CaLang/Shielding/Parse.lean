import CaLang.Lib.Ring
import CaLang.Shielding.Syntax

/-! # The parser's side of shadowing

One `STEntry` a name and scope: its `CAVariableShielding` holds every binding of the name in the
scope as an object of its own, the latest being `current`.  A use is resolved while the parser
reads it, by climbing the tables as they are at that point, and the node keeps the entry; a
`drop` keeps only the name and the table it stands in.
-/

namespace CaLang.Shielding

abbrev ScopeId := Nat

/-- A symbol table with the tables around it, itself first. -/
abbrev SymTable := List ScopeId

/-- A variable object.  The storage is named by the binding it was allocated for. -/
structure CAVariable (τ : Type) where
  site : Site
  datatype : Option τ
  llvmValue : Option Site
deriving DecidableEq, Repr

abbrev CAVariableShielding (τ : Type) := Ring (CAVariable τ)

structure STEntry where
  scope : ScopeId
  name : Name
deriving DecidableEq, Repr

/-- The variable entries of all symbol tables. -/
abbrev Tables (τ : Type) := ScopeId → Name → Option (CAVariableShielding τ)

variable {τ : Type}

def Tables.set (t : Tables τ) (s : ScopeId) (x : Name) (r : CAVariableShielding τ) : Tables τ :=
  fun s' x' => if s' = s ∧ x' = x then some r else t s' x'

/-- `sym_getsym` with the tables around (depth 1). -/
def symGetsym (t : Tables τ) : SymTable → Name → Option STEntry
  | [], _ => none
  | s :: st, x => if (t s x).isSome then some ⟨s, x⟩ else symGetsym t st x

def registerVariable (s : ScopeId) (v : CAVariable τ) (x : Name) (t : Tables τ) : Tables τ :=
  match t s x with
  | some sh => t.set s x (sh.push v)
  | none => t.set s x ⟨v, []⟩

/-! ### Let bindings -/

mutual
/-- The names `register_capattern_symtable` registers, with the type the text gives each. -/
def CAPattern.bindings (datatype : Option τ) : CAPattern τ → List (Name × Option τ)
  | .var name morebind => (name :: morebind).map (·, datatype)
  | .array morebind items => morebind.map (·, datatype) ++ itemBindings items
  | .genTuple morebind items => morebind.map (·, datatype) ++ itemBindings items
  | .named type morebind items => morebind.map (·, some type) ++ itemBindings items
  | .ignoreOne _ => []
  | .ignoreRange => []
def itemBindings : List (CAPattern τ) → List (Name × Option τ)
  | [] => []
  | p :: ps => p.bindings none ++ itemBindings ps
end

/-- `capattern_register_variable`: the second component of `st` holds the names the pattern has
registered.  A type the text gives the binding is its type, `typeOf` of it. -/
def capatternRegisterVariable (typeOf : Site → τ) (s : ScopeId) (id : Nat)
    (st : Tables τ × List Name) (b : Name × Option τ) : Option (Tables τ × List Name) :=
  if b.1 ∈ st.2 then none
  else
    let datatype := b.2.map fun _ => typeOf (.letbind id b.1)
    some (registerVariable s ⟨.letbind id b.1, datatype, none⟩ b.1 st.1, b.1 :: st.2)

def registerCapatternSymtable (typeOf : Site → τ) (s : ScopeId) (id : Nat) (datatype : Option τ)
    (cap : CAPattern τ) (t : Tables τ) : Option (Tables τ) :=
  ((cap.bindings datatype).foldlM (capatternRegisterVariable typeOf s id) (t, [])).map Prod.fst

/-! ### Expressions and statements -/

mutual
/-- `make_ident_expr` at every name: the node keeps the entry found now. -/
def Expr.resolve (t : Tables τ) (st : SymTable) : Expr Name → Option (Expr STEntry)
  | .id node x => (symGetsym t st x).map (.id node)
  | .tuple args => (resolveArgs t st args).map .tuple
  | .array args => (resolveArgs t st args).map .array
  | .op args => (resolveArgs t st args).map .op
def resolveArgs (t : Tables τ) (st : SymTable) : List (Expr Name) → Option (List (Expr STEntry))
  | [] => some []
  | e :: es => do
      let e ← e.resolve t st
      let es ← resolveArgs t st es
      return e :: es
end

def resolveInit (t : Tables τ) (st : SymTable) :
    Option (Expr Name) → Option (Option (Expr STEntry))
  | none => some none
  | some e => (e.resolve t st).map some

/-- The tables and the number of the next one. -/
structure Parser (τ : Type) where
  tables : Tables τ
  next : ScopeId

/-- `push_new_symtable`; the new table is `ps.next`. -/
def Parser.push (ps : Parser τ) : Parser τ := { ps with next := ps.next + 1 }

/-- `make_for_var_entry` on a table of its own. -/
def makeForVarEntry (s : ScopeId) (id : Nat) (x : Name) (ps : Parser τ) : Parser τ :=
  { ps with tables := registerVariable s ⟨.loopvar id x, none, none⟩ x ps.tables }

/-- `make_let_stmt`: the pattern is registered after its initialiser has been read. -/
def makeLetStmt (typeOf : Site → τ) (s : ScopeId) (id : Nat) (datatype : Option τ)
    (cap : CAPattern τ) (ps : Parser τ) : Option (Parser τ) :=
  (registerCapatternSymtable typeOf s id datatype cap ps.tables).map fun t =>
    { ps with tables := t }

mutual
/-- The parser over a statement list whose symbol table is `s` inside `st`. -/
def Block.parse (typeOf : Site → τ) (s : ScopeId) (st : SymTable) :
    Block τ Name Unit → Parser τ → Option (Block τ STEntry SymTable × Parser τ)
  | .nil, ps => some (.nil, ps)
  | .letbind id _ cap datatype init rest, ps => do
      let init ← resolveInit ps.tables (s :: st) init
      let ps ← makeLetStmt typeOf s id datatype cap ps
      let (rest, ps) ← rest.parse typeOf s st ps
      return (.letbind id (s :: st) cap datatype init rest, ps)
  | .expr e rest, ps => do
      let e ← e.resolve ps.tables (s :: st)
      let (rest, ps) ← rest.parse typeOf s st ps
      return (.expr e rest, ps)
  | .assign left right rest, ps => do
      let left ← left.resolve ps.tables (s :: st)
      let right ← right.resolve ps.tables (s :: st)
      let (rest, ps) ← rest.parse typeOf s st ps
      return (.assign left right rest, ps)
  | .drop _ node x rest, ps => do
      let (rest, ps) ← rest.parse typeOf s st ps
      return (.drop (s :: st) node x rest, ps)
  | .block body rest, ps => do
      let (body, ps) ← body.parse typeOf ps.next (s :: st) ps.push
      let (rest, ps) ← rest.parse typeOf s st ps
      return (.block body rest, ps)
  | .loop body rest, ps => do
      let (body, ps) ← body.parse typeOf ps.next (s :: st) ps.push
      let (rest, ps) ← rest.parse typeOf s st ps
      return (.loop body rest, ps)
  | .while cond body rest, ps => do
      let cond ← cond.resolve ps.tables (s :: st)
      let (body, ps) ← body.parse typeOf ps.next (s :: st) ps.push
      let (rest, ps) ← rest.parse typeOf s st ps
      return (.while cond body rest, ps)
  | .for id _ x list body rest, ps => do
      -- the loop variable has a table of its own, in which the list is read before it exists
      let f := ps.next
      let list ← list.resolve ps.tables (f :: s :: st)
      let ps := makeForVarEntry f id x ps.push
      let (body, ps) ← body.parse typeOf ps.next (f :: s :: st) ps.push
      let (rest, ps) ← rest.parse typeOf s st ps
      return (.for id (f :: s :: st) x list body rest, ps)
  | .ifs arms rest, ps => do
      let (arms, ps) ← arms.parse typeOf s st ps
      let (rest, ps) ← rest.parse typeOf s st ps
      return (.ifs arms rest, ps)
def Arms.parse (typeOf : Site → τ) (s : ScopeId) (st : SymTable) :
    Arms τ Name Unit → Parser τ → Option (Arms τ STEntry SymTable × Parser τ)
  | .done, ps => some (.done, ps)
  | .orelse body, ps => do
      let (body, ps) ← body.parse typeOf ps.next (s :: st) ps.push
      return (.orelse body, ps)
  | .arm cond body more, ps => do
      let cond ← cond.resolve ps.tables (s :: st)
      let (body, ps) ← body.parse typeOf ps.next (s :: st) ps.push
      let (more, ps) ← more.parse typeOf s st ps
      return (.arm cond body more, ps)
end

/-- `add_fn_args`: a parameter has the type `typeOf` its declaration gives it. -/
def addFnArgs (typeOf : Site → τ) (t : Tables τ) (x : Name) : Option (Tables τ) :=
  if (t 0 x).isSome then none
  else some (t.set 0 x ⟨⟨.param x, some (typeOf (.param x)), none⟩, []⟩)

/-- A function is parsed in the table 0, which its parameters and its body share. -/
def Fn.parse (typeOf : Site → τ) (fn : Fn τ Name Unit) :
    Option (Fn τ STEntry SymTable × Parser τ) := do
  let t ← fn.params.foldlM (addFnArgs typeOf) fun _ _ => none
  let (body, ps) ← fn.body.parse typeOf 0 [] ⟨t, 1⟩
  return (⟨fn.params, body⟩, ps)

end CaLang.Shielding
