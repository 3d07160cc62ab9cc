import CaLang.Shielding.Walk

/-! # Where the types of parameters are read

The table of a function holds its parameters and the lets of its outermost block, so **a let of a
parameter's name is pushed on the parameter's own entry**.  Whoever reads the type of a parameter
later takes what the entry designates at that moment:

* `walk_fn_declare_full_withsym` for the LLVM signature, in the first pass, and
  `check_and_determine_param_type` for an argument turn the entry forward, read and turn it back;
* `init_fn_param_info` turns it forward and leaves it so;
* the check of the value a method is called on, and `compare_trait_and_impl_args`, read it as it
  is.

Only what turns entries or reads parameters is kept of the text.  The functions an impl block
inherits stand in it like its own ones, so that one function can occur at several places; the
checks themselves are not modelled, so the walk goes on where one of them ends it.
-/

namespace CaLang.Params

open CaLang.Shielding (Name CAVariable CAVariableShielding varshieldingRotateVariable)

/-- A function, by the table of its parameters. -/
abbrev FnId := Nat

/-- A call; the value a method is called on is its first argument. -/
structure Call where
  callee : FnId
  method : Bool
  deriving DecidableEq

inductive Body (τ : Type)
  | nil
  /-- `let` with the names of its pattern, their types where given, and the calls in its value. -/
  | letbind (id : Nat) (names : List (Name × Option τ)) (init : List Call) (rest : Body τ)
  | expr (calls : List Call) (rest : Body τ)
  /-- A block, or the body of a loop or an `if`: its lets have a table of their own. -/
  | block (body rest : Body τ)
  | fnDefine (fn : FnId) (params : List (Name × τ)) (body rest : Body τ)
  /-- An extern declaration. -/
  | fnDecl (fn : FnId) (params : List (Name × τ)) (rest : Body τ)
  /-- A function in a trait definition, which is not walked there. -/
  | traitFn (fn : FnId) (params : List (Name × τ)) (body rest : Body τ)
  /-- The prototypes of a trait's function and of an impl block's function are compared. -/
  | compare (trait impl : FnId) (rest : Body τ)

/-- A function as it is written. -/
structure FnText (τ : Type) where
  fn : FnId
  params : List (Name × τ)
  body : Body τ

variable {τ : Type}

/-- The functions written in a text. -/
def Body.nodes : Body τ → List (FnText τ)
  | .nil => []
  | .letbind _ _ _ rest => rest.nodes
  | .expr _ rest => rest.nodes
  | .block body rest => body.nodes ++ rest.nodes
  | .fnDefine fn params body rest => ⟨fn, params, body⟩ :: (body.nodes ++ rest.nodes)
  | .fnDecl fn params rest => ⟨fn, params, .nil⟩ :: rest.nodes
  | .traitFn fn params body rest => ⟨fn, params, body⟩ :: (body.nodes ++ rest.nodes)
  | .compare _ _ rest => rest.nodes

/-- The lets of a text itself, outside of its blocks and functions. -/
def Body.lets : Body τ → List (Nat × Name × Option τ)
  | .nil => []
  | .letbind id names _ rest => names.map (fun n => (id, n)) ++ rest.lets
  | .expr _ rest => rest.lets
  | .block _ rest => rest.lets
  | .fnDefine _ _ _ rest => rest.lets
  | .fnDecl _ _ rest => rest.lets
  | .traitFn _ _ _ rest => rest.lets
  | .compare _ _ rest => rest.lets

/-- A file.  A function at several places is one tree, and a parameter list names each of its
parameters once. -/
structure Program (τ : Type) where
  text : Body τ
  coherent : ∀ a ∈ text.nodes, ∀ b ∈ text.nodes, a.fn = b.fn → a = b
  nodup : ∀ a ∈ text.nodes, (a.params.map Prod.fst).Nodup

namespace Program

def node (p : Program τ) (f : FnId) : Option (FnText τ) := p.text.nodes.find? (·.fn == f)

def params (p : Program τ) (f : FnId) : List Name := ((p.node f).elim [] (·.params)).map Prod.fst

/-- The names of the lets that stand in the table of a function's parameters. -/
def letNames (p : Program τ) (f : FnId) : List Name :=
  ((p.node f).elim [] (·.body.lets)).map (·.2.1)

/-- The type written in the parameter list. -/
def paramType (p : Program τ) (f : FnId) (x : Name) : Option τ :=
  (p.node f).bind fun n => n.params.lookup x

/-- The variable a parameter is. -/
def paramVar (p : Program τ) (f : FnId) (x : Name) : Option (CAVariable τ) :=
  (p.paramType f x).map fun t => ⟨.param x, some t, none⟩

/-- The variables of the lets of a parameter's name. -/
def letVars (p : Program τ) (f : FnId) (x : Name) : List (CAVariable τ) :=
  (((p.node f).elim [] (·.body.lets)).filter (·.2.1 == x)).map fun l =>
    ⟨.letbind l.1 x, l.2.2, none⟩

end Program

/-- The entries of the parameters. -/
abbrev Tables (τ : Type) := FnId → Name → Option (CAVariableShielding τ)

/-- What the parser leaves: the lets of a parameter's name are registered after it. -/
def Program.tables (p : Program τ) : Tables τ :=
  fun f x => (p.paramVar f x).map fun v => (p.letVars f x).foldl Ring.push ⟨v, []⟩

def Tables.turn (isBack : Bool) (f : FnId) (t : Tables τ) (x : Name) : Tables τ :=
  fun f' x' =>
    if f' = f ∧ x' = x then (t f' x').map (varshieldingRotateVariable isBack) else t f' x'

/-- Turn the entries of some names, where they are in the table of a function. -/
def Tables.turnAll (isBack : Bool) (own : Option FnId) (names : List Name) (t : Tables τ) :
    Tables τ :=
  match own with
  | none => t
  | some f => names.foldl (Tables.turn isBack f) t

inductive Kind
  | declare | init | arg | self | compare
  deriving DecidableEq

/-- A parameter's type is read from a variable. -/
structure Read (τ : Type) where
  kind : Kind
  fn : FnId
  name : Name
  var : Option (CAVariable τ)
  deriving DecidableEq

/-- The variable designated. -/
def Tables.current (t : Tables τ) (f : FnId) (x : Name) : Option (CAVariable τ) :=
  (t f x).map Ring.current

/-- The variable designated after a turn forward, which is taken back. -/
def Tables.rotated (t : Tables τ) (f : FnId) (x : Name) : Option (CAVariable τ) :=
  (t.turn false f x).current f x

variable (p : Program τ)

/-- `check_and_determine_param_type` -/
def Call.reads (t : Tables τ) (c : Call) : List (Read τ) :=
  match p.params c.callee with
  | [] => []
  | x :: xs =>
      (if c.method then ⟨.self, c.callee, x, t.current c.callee x⟩
        else ⟨.arg, c.callee, x, t.rotated c.callee x⟩) ::
      xs.map fun y => ⟨.arg, c.callee, y, t.rotated c.callee y⟩

/-- `compare_trait_and_impl_args`, which has compared the numbers of the parameters first. -/
def compareReads (t : Tables τ) (trait impl : FnId) : List (Read τ) :=
  if (p.params trait).length = (p.params impl).length then
    ((p.params trait).zip (p.params impl)).flatMap fun (x, y) =>
      [⟨.compare, trait, x, t.current trait x⟩, ⟨.compare, impl, y, t.current impl y⟩]
  else []

/-- The first pass: functions are declared and prototypes compared. -/
def Body.declareReads (t : Tables τ) : Body τ → List (Read τ)
  | .nil => []
  | .letbind _ _ _ rest => rest.declareReads t
  | .expr _ rest => rest.declareReads t
  | .block body rest => body.declareReads t ++ rest.declareReads t
  | .fnDefine fn params body rest =>
      params.map (fun x => ⟨.declare, fn, x.1, t.rotated fn x.1⟩) ++
        (body.declareReads t ++ rest.declareReads t)
  | .fnDecl fn params rest =>
      params.map (fun x => ⟨.declare, fn, x.1, t.rotated fn x.1⟩) ++ rest.declareReads t
  | .traitFn _ _ _ rest => rest.declareReads t
  | .compare trait impl rest => compareReads p t trait impl ++ rest.declareReads t

/-- `init_fn_param_info`: the entries stay turned. -/
def initFnParamInfo (f : FnId) : List Name → Tables τ → List (Read τ) × Tables τ
  | [], t => ([], t)
  | x :: xs, t =>
      let t := t.turn false f x
      let (reads, t') := initFnParamInfo f xs t
      (⟨.init, f, x, t.current f x⟩ :: reads, t')

/-- `walk_letbind`: the names are turned forward, and back around the value. -/
def letTables (own : Option FnId) (names : List Name) (t : Tables τ) : Tables τ × Tables τ :=
  let back := (t.turnAll false own names).turnAll true own names
  (back, back.turnAll false own names)

/-- The second pass: the tables after a text in the table of `own`. -/
def Body.walk : Body τ → Option FnId → Tables τ → Tables τ
  | .nil, _, t => t
  | .letbind _ names _ rest, own, t => rest.walk own (letTables own (names.map Prod.fst) t).2
  | .expr _ rest, own, t => rest.walk own t
  | .block body rest, own, t => rest.walk own (body.walk none t)
  | .fnDefine fn params body rest, own, t =>
      rest.walk own (body.walk (some fn) (initFnParamInfo fn (params.map Prod.fst) t).2)
  | .fnDecl _ _ rest, own, t => rest.walk own t
  | .traitFn _ _ _ rest, own, t => rest.walk own t
  | .compare _ _ rest, own, t => rest.walk own t

/-- The reads of the second pass. -/
def Body.reads : Body τ → Option FnId → Tables τ → List (Read τ)
  | .nil, _, _ => []
  | .letbind _ names init rest, own, t =>
      let (back, t') := letTables own (names.map Prod.fst) t
      init.flatMap (Call.reads p back) ++ rest.reads own t'
  | .expr calls rest, own, t => calls.flatMap (Call.reads p t) ++ rest.reads own t
  | .block body rest, own, t => body.reads none t ++ rest.reads own (body.walk none t)
  | .fnDefine fn params body rest, own, t =>
      let (init, t') := initFnParamInfo fn (params.map Prod.fst) t
      init ++ (body.reads (some fn) t' ++ rest.reads own (body.walk (some fn) t'))
  | .fnDecl _ _ rest, own, t => rest.reads own t
  | .traitFn _ _ _ rest, own, t => rest.reads own t
  | .compare trait impl rest, own, t => compareReads p t trait impl ++ rest.reads own t

/-- All reads of a compilation. -/
def Program.reads : List (Read τ) :=
  p.text.declareReads p p.tables ++ p.text.reads p none p.tables

/-- The variable read is the parameter, with the type written in the parameter list. -/
def Read.Ok (r : Read τ) : Prop := r.var.isSome ∧ r.var = p.paramVar r.fn r.name

end CaLang.Params
