import Mathlib.Data.List.Basic

/-! # Function bodies and what their names mean

The statements of a function body as far as variables go: let bindings through patterns,
assignments, uses, `drop`, blocks, loops, `for` and `if`.  The syntax is generic in the form `ε`
of a reference to a variable and in the note `σ` a statement keeps of its symbol table, so that
the text (`ε` a name) and the tree the parser builds (`ε` an `STEntry`) are one type.

The second part says what the text means, on its own terms: the environment is a list of scopes,
each with the bindings made so far, latest first, and a use of `x` means the latest binding in
the innermost scope that binds `x` before the use.

* `Fn.occurrences` — every use of a variable with the binding it means;
* `Fn.WellScoped` — every use means something and no name is bound twice in one place.
-/

namespace CaLang.Shielding

/-- Names are positions in the compiler's name table. -/
abbrev Name := Nat

/-- The place in the text that makes a variable. -/
inductive Site
  | param (x : Name)
  | letbind (id : Nat) (x : Name)
  /-- A name in front of `_`, as `x` in `let x @ _ = e`. -/
  | ignored (id : Nat) (x : Name)
  | loopvar (id : Nat) (x : Name)
deriving DecidableEq, Repr

def Site.isIgnored : Site → Bool
  | .ignored _ _ => true
  | _ => false

/-- `CAPattern`: `morebind` are the names with `@` in front of it. -/
inductive CAPattern (τ : Type)
  | var (name : Name) (morebind : List Name)
  | array (morebind : List Name) (items : List (CAPattern τ))
  | genTuple (morebind : List Name) (items : List (CAPattern τ))
  /-- `PT_Tuple` and `PT_Struct`, which name their type. -/
  | named (type : τ) (morebind : List Name) (items : List (CAPattern τ))
  | ignoreOne (morebind : List Name)
  | ignoreRange

/-- Expressions: only the forms the let binding looks at are told apart. -/
inductive Expr (ε : Type)
  | id (node : Nat) (ref : ε)
  | tuple (args : List (Expr ε))
  | array (args : List (Expr ε))
  /-- Any other expression with its operands; a literal has none. -/
  | op (args : List (Expr ε))

mutual
/-- Statement lists. -/
inductive Block (τ ε σ : Type)
  | nil
  | letbind (id : Nat) (st : σ) (cap : CAPattern τ) (datatype : Option τ)
      (init : Option (Expr ε)) (rest : Block τ ε σ)
  /-- An expression, a print or a return. -/
  | expr (e : Expr ε) (rest : Block τ ε σ)
  | assign (left right : Expr ε) (rest : Block τ ε σ)
  | drop (st : σ) (node : Nat) (x : Name) (rest : Block τ ε σ)
  | block (body rest : Block τ ε σ)
  | loop (body rest : Block τ ε σ)
  | while (cond : Expr ε) (body rest : Block τ ε σ)
  | for (id : Nat) (st : σ) (x : Name) (list : Expr ε) (body rest : Block τ ε σ)
  | ifs (arms : Arms τ ε σ) (rest : Block τ ε σ)
/-- The conditions and bodies of an `if` statement. -/
inductive Arms (τ ε σ : Type)
  | done
  | orelse (body : Block τ ε σ)
  | arm (cond : Expr ε) (body : Block τ ε σ) (more : Arms τ ε σ)
end

/-- A function: its parameters and its body. -/
structure Fn (τ ε σ : Type) where
  params : List Name
  body : Block τ ε σ

/-! ### Names of a pattern, uses of an expression -/

mutual
/-- The names a pattern binds, in the order the passes visit them. -/
def CAPattern.names {τ : Type} : CAPattern τ → List Name
  | .var name morebind => name :: morebind
  | .array morebind items => morebind ++ itemNames items
  | .genTuple morebind items => morebind ++ itemNames items
  | .named _ morebind items => morebind ++ itemNames items
  | .ignoreOne _ => []
  | .ignoreRange => []
def itemNames {τ : Type} : List (CAPattern τ) → List Name
  | [] => []
  | p :: ps => p.names ++ itemNames ps
end

mutual
/-- The names in front of `_`. -/
def CAPattern.ignoredNames {τ : Type} : CAPattern τ → List Name
  | .var _ _ => []
  | .array _ items => itemIgnoredNames items
  | .genTuple _ items => itemIgnoredNames items
  | .named _ _ items => itemIgnoredNames items
  | .ignoreOne morebind => morebind
  | .ignoreRange => []
def itemIgnoredNames {τ : Type} : List (CAPattern τ) → List Name
  | [] => []
  | p :: ps => p.ignoredNames ++ itemIgnoredNames ps
end

mutual
/-- The variables an expression refers to, from left to right. -/
def Expr.ids {ε : Type} : Expr ε → List (Nat × ε)
  | .id node ref => [(node, ref)]
  | .tuple args => argIds args
  | .array args => argIds args
  | .op args => argIds args
def argIds {ε : Type} : List (Expr ε) → List (Nat × ε)
  | [] => []
  | e :: es => e.ids ++ argIds es
end

/-- The names a block binds in its own scope. -/
def Block.names {τ ε σ : Type} : Block τ ε σ → List Name
  | .nil => []
  | .letbind _ _ cap _ _ rest => cap.names ++ rest.names
  | .expr _ rest => rest.names
  | .assign _ _ rest => rest.names
  | .drop _ _ _ rest => rest.names
  | .block _ rest => rest.names
  | .loop _ rest => rest.names
  | .while _ _ rest => rest.names
  | .for _ _ _ _ _ rest => rest.names
  | .ifs _ rest => rest.names

/-! ### What the names mean -/

/-- A scope: the bindings made so far, latest first, and the names it binds in the end. -/
structure LexScope where
  seen : List (Name × Site)
  names : List Name

/-- The enclosing scopes, innermost first. -/
abbrev Env := List LexScope

/-- The latest binding of `x` in the innermost scope that binds it. -/
def Env.meaning : Env → Name → Option Site
  | [], _ => none
  | sc :: Γ, x => (sc.seen.lookup x).or (meaning Γ x)

/-- Going outwards, a scope that binds `x` only further down comes before one that has bound it. -/
def Env.boundLate : Env → Name → Bool
  | [], _ => false
  | sc :: Γ, x =>
      if (sc.seen.lookup x).isSome then false
      else if x ∈ sc.names then true
      else boundLate Γ x

/-- A use of a variable in the text: what it means, and whether it is a `drop` of a name that a
scope around it binds only further down. -/
structure Occurrence where
  node : Nat
  site : Option Site
  late : Bool

def Env.bind (Γ : Env) (bs : List (Name × Site)) : Env :=
  match Γ with
  | [] => []
  | sc :: Γ => { sc with seen := bs ++ sc.seen } :: Γ

/-- The bindings of a let, those in front of `_` included. -/
def letSites {τ : Type} (id : Nat) (cap : CAPattern τ) : List (Name × Site) :=
  cap.names.map (fun x => (x, .letbind id x)) ++
    cap.ignoredNames.map (fun x => (x, .ignored id x))

def exprOccurrences (Γ : Env) (e : Expr Name) : List Occurrence :=
  e.ids.map fun (n, x) => ⟨n, Γ.meaning x, false⟩

def initOccurrences (Γ : Env) : Option (Expr Name) → List Occurrence
  | none => []
  | some e => exprOccurrences Γ e

section
variable {τ : Type}

mutual
/-- The uses in a block. -/
def Block.occurrences (Γ : Env) : Block τ Name Unit → List Occurrence
  | .nil => []
  | .letbind id _ cap _ init rest =>
      initOccurrences Γ init ++ rest.occurrences (Γ.bind (letSites id cap))
  | .expr e rest => exprOccurrences Γ e ++ rest.occurrences Γ
  | .assign left right rest =>
      exprOccurrences Γ left ++ exprOccurrences Γ right ++ rest.occurrences Γ
  | .drop _ node x rest => ⟨node, Γ.meaning x, Γ.boundLate x⟩ :: rest.occurrences Γ
  | .block body rest => body.occurrences (⟨[], body.names⟩ :: Γ) ++ rest.occurrences Γ
  | .loop body rest => body.occurrences (⟨[], body.names⟩ :: Γ) ++ rest.occurrences Γ
  | .while cond body rest =>
      exprOccurrences Γ cond ++ body.occurrences (⟨[], body.names⟩ :: Γ) ++ rest.occurrences Γ
  | .for id _ x list body rest =>
      exprOccurrences (⟨[], [x]⟩ :: Γ) list ++
        body.occurrences (⟨[], body.names⟩ :: ⟨[(x, .loopvar id x)], [x]⟩ :: Γ) ++
        rest.occurrences Γ
  | .ifs arms rest => arms.occurrences Γ ++ rest.occurrences Γ
def Arms.occurrences (Γ : Env) : Arms τ Name Unit → List Occurrence
  | .done => []
  | .orelse body => body.occurrences (⟨[], body.names⟩ :: Γ)
  | .arm cond body more =>
      exprOccurrences Γ cond ++ body.occurrences (⟨[], body.names⟩ :: Γ) ++ more.occurrences Γ
end

/-- The bindings a body starts with: the parameters, in the scope of the body. -/
def paramEnv (fn : Fn τ Name Unit) : Env :=
  [⟨fn.params.map fun x => (x, .param x), fn.params ++ fn.body.names⟩]

/-- **The uses in a function**, each with the binding it means. -/
def Fn.occurrences (fn : Fn τ Name Unit) : List Occurrence :=
  fn.body.occurrences (paramEnv fn)

mutual
/-- Every pattern of the block binds each of its names once. -/
def Block.DistinctNames : Block τ Name Unit → Prop
  | .nil => True
  | .letbind _ _ cap _ _ rest =>
      (cap.names ++ cap.ignoredNames).Nodup ∧ rest.DistinctNames
  | .expr _ rest => rest.DistinctNames
  | .assign _ _ rest => rest.DistinctNames
  | .drop _ _ _ rest => rest.DistinctNames
  | .block body rest => body.DistinctNames ∧ rest.DistinctNames
  | .loop body rest => body.DistinctNames ∧ rest.DistinctNames
  | .while _ body rest => body.DistinctNames ∧ rest.DistinctNames
  | .for _ _ _ _ body rest => body.DistinctNames ∧ rest.DistinctNames
  | .ifs arms rest => arms.DistinctNames ∧ rest.DistinctNames
def Arms.DistinctNames : Arms τ Name Unit → Prop
  | .done => True
  | .orelse body => body.DistinctNames
  | .arm _ body more => body.DistinctNames ∧ more.DistinctNames
end

/-- A function whose text has a meaning: every use means a binding, the uses are told apart by
their nodes, and no parameter list or pattern binds a name twice. -/
structure Fn.WellScoped (fn : Fn τ Name Unit) : Prop where
  bound : ∀ o ∈ fn.occurrences, o.site.isSome
  nodes : (fn.occurrences.map (·.node)).Nodup
  params : fn.params.Nodup
  patterns : fn.body.DistinctNames

end

end CaLang.Shielding
