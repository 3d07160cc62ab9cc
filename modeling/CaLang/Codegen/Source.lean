import CaLang.Codegen.Walk

/-! # The text of a program

`Walk.lean` has the tree that code is generated from.  Here is **the text that tree comes from**:
it has the declarations, the traits and the generic functions, the clauses of an `if` in the order
they are written, and an impl block has its own functions apart from the defaults it inherits,
whose text stands in the trait.

`Source.events` lists the labels and gotos of a text in their order, with the functions between
them.
-/

namespace CaLang.Codegen

/-- A label or a goto. -/
inductive Use
  | label (name : Id)
  | goto (name : Id)
  deriving DecidableEq

namespace Use

def name : Use → Id
  | label name => name
  | goto name => name

def labelName : Use → Option Id
  | label name => some name
  | goto _ => none

def gotoName : Use → Option Id
  | label _ => none
  | goto name => some name

end Use

/-- A use of a label, or a function between them. -/
inductive Event (α β : Type)
  | use (u : α)
  | fn (f : β)

namespace Event

variable {α β : Type}

def use? : Event α β → Option α
  | use u => some u
  | fn _ => none

def fn? : Event α β → Option β
  | use _ => none
  | fn f => some f

def map {γ δ : Type} (g : α → γ) (h : β → δ) : Event α β → Event γ δ
  | use u => use (g u)
  | fn f => fn (h f)

/-- The uses in a list: those of the function around. -/
def uses (es : List (Event α β)) : List α := es.filterMap use?

/-- The functions in a list. -/
def fns (es : List (Event α β)) : List β := es.filterMap fn?

/-- A function with what is listed in it, of which only the functions count. -/
def nested (f : β) (es : List (Event α β)) : List (Event α β) := fn f :: (fns es).map fn

@[simp] theorem uses_append (es es' : List (Event α β)) :
    uses (es ++ es') = uses es ++ uses es' := List.filterMap_append

@[simp] theorem fns_append (es es' : List (Event α β)) :
    fns (es ++ es') = fns es ++ fns es' := List.filterMap_append

@[simp] theorem uses_nested (f : β) (es : List (Event α β)) : uses (nested f es) = [] := by
  unfold uses nested
  rw [List.filterMap_cons_none rfl, List.filterMap_map]
  exact List.filterMap_eq_nil_iff.mpr fun _ _ => rfl

@[simp] theorem fns_nested (f : β) (es : List (Event α β)) :
    fns (nested f es) = f :: fns es := by
  have h : ∀ l : List β, fns (l.map fn : List (Event α β)) = l := by
    intro l
    unfold fns
    rw [List.filterMap_map]
    exact List.filterMap_some
  exact congrArg (f :: ·) (h (fns es))

section

variable {γ δ : Type} (g : α → γ) (h : β → δ)

theorem uses_map (es : List (Event α β)) : uses (es.map (map g h)) = (uses es).map g := by
  induction es with
  | nil => rfl
  | cons e es ih =>
      cases e with
      | use u => exact congrArg (g u :: ·) ih
      | fn f => exact ih

theorem fns_map (es : List (Event α β)) : fns (es.map (map g h)) = (fns es).map h := by
  induction es with
  | nil => rfl
  | cons e es ih =>
      cases e with
      | use u => exact ih
      | fn f => exact congrArg (h f :: ·) ih

theorem map_nested (f : β) (es : List (Event α β)) :
    (nested f es).map (map g h) = nested (h f) (es.map (map g h)) := by
  unfold nested
  rw [List.map_cons, fns_map, List.map_map, List.map_map]
  rfl

end

end Event

/-- The parts of a text. -/
inductive Part
  | expr | clauses | fn | fns | traitFns | stmt | stmts
  deriving DecidableEq

/-- The text of a part. -/
inductive Source : Part → Type
  | atom : Source .expr
  | operands (left right : Source .expr) : Source .expr
  | landor (left right : Source .expr) : Source .expr
  | ife (cond : Source .expr) (thens elses : Source .stmts) : Source .expr
  /-- An expression under `typeof`, which is never walked. -/
  | typeOf (arg : Source .expr) : Source .expr
  | noClause : Source .clauses
  | elseBody (body : Source .stmts) : Source .clauses
  | clause (cond : Source .expr) (body : Source .stmts) (rest : Source .clauses) : Source .clauses
  | fnDefine (ret : Option Id) (stmts : Source .stmts) : Source .fn
  | noFns : Source .fns
  | fnThen (generic : Bool) (fn : Source .fn) (rest : Source .fns) : Source .fns
  | noTraitFn : Source .traitFns
  /-- `fn name(args) -> ret;` in a trait. -/
  | protoThen (rest : Source .traitFns) : Source .traitFns
  /-- A function with a default body in a trait. -/
  | defaultThen (fn : Source .fn) (rest : Source .traitFns) : Source .traitFns
  | simple (parts : Source .expr) : Source .stmt
  | typeDef : Source .stmt
  /-- `extern fn name(args) -> ret;` -/
  | fnDecl : Source .stmt
  | traitDef (defs : Source .traitFns) : Source .stmt
  /-- An impl block with its own functions and the defaults it inherits. -/
  | typeImpl (own defaults : Source .fns) : Source .stmt
  | retVoid : Source .stmt
  | retExpr (value : Source .expr) (type : Id) : Source .stmt
  | breakStmt : Source .stmt
  | continueStmt : Source .stmt
  | label (name : Id) : Source .stmt
  | labelGoto (name : Id) : Source .stmt
  | loop (body : Source .stmts) : Source .stmt
  | whileStmt (cond : Source .expr) (body : Source .stmts) : Source .stmt
  | forStmt (list : Source .expr) (body : Source .stmts) : Source .stmt
  | ifStmt (clauses : Source .clauses) : Source .stmt
  | lexicalBody (stmts : Source .stmts) : Source .stmt
  | fnStmt (generic : Bool) (fn : Source .fn) : Source .stmt
  | noStmt : Source .stmts
  | stmtThen (first : Source .stmt) (rest : Source .stmts) : Source .stmts

/-- What a part is in the tree: the clauses of an `if` are its conditions and its bodies there, and
functions of an impl block stand before those that it inherits. -/
abbrev Part.Tree : Part → Type
  | .expr => Node .expr
  | .clauses => Node .conds × Node .bodies
  | .fn => Node .fn
  | .fns => Node .fns → Node .fns
  | .traitFns => Unit
  | .stmt => Node .stmt
  | .stmts => Node .stmts

/-- The tree of a text; traits are not in it. -/
def Source.tree : {c : Part} → Source c → c.Tree
  | _, .atom => .atom
  | _, .operands left right => .operands left.tree right.tree
  | _, .landor left right => .landor left.tree right.tree
  | _, .ife cond thens elses => .ife cond.tree thens.tree elses.tree
  | _, .typeOf _ => .atom
  | _, .noClause => (.noConds, .noBodies)
  | _, .elseBody body => (.noConds, .bodyThen body.tree .noBodies)
  | _, .clause cond body rest =>
      (.condThen cond.tree rest.tree.1, .bodyThen body.tree rest.tree.2)
  | _, .fnDefine ret stmts => .fnDefine ret stmts.tree
  | _, .noFns => id
  | _, .fnThen generic fn rest => fun fns =>
      if generic then rest.tree fns else .fnThen fn.tree (rest.tree fns)
  | _, .noTraitFn => ()
  | _, .protoThen _ => ()
  | _, .defaultThen _ _ => ()
  | _, .simple parts => .simple parts.tree
  | _, .typeDef => .decl
  | _, .fnDecl => .decl
  | _, .traitDef _ => .decl
  | _, .typeImpl own defaults => .fnDefineImpl (own.tree (defaults.tree .noFns))
  | _, .retVoid => .retVoid
  | _, .retExpr value type => .retExpr value.tree type
  | _, .breakStmt => .breakStmt
  | _, .continueStmt => .continueStmt
  | _, .label name => .label name
  | _, .labelGoto name => .labelGoto name
  | _, .loop body => .loop body.tree
  | _, .whileStmt cond body => .whileStmt cond.tree body.tree
  | _, .forStmt list body => .forStmt list.tree body.tree
  | _, .ifStmt clauses => .ifStmt clauses.tree.1 clauses.tree.2
  | _, .lexicalBody stmts => .lexicalBody stmts.tree
  | _, .fnStmt generic fn => if generic then .decl else .fnStmt fn.tree
  | _, .noStmt => .noStmt
  | _, .stmtThen first rest => .stmtThen first.tree rest.tree

/-- The program that code is generated for. -/
def Source.program (p : Source .stmts) : Program := p.tree

/-- The labels and gotos of a text, and the bodies of the functions in it. -/
def Source.events : {c : Part} → Source c → List (Event Use (Source .stmts))
  | _, .atom => []
  | _, .operands left right => left.events ++ right.events
  | _, .landor left right => left.events ++ right.events
  | _, .ife cond thens elses => cond.events ++ (thens.events ++ elses.events)
  | _, .typeOf arg => arg.events
  | _, .noClause => []
  | _, .elseBody body => body.events
  | _, .clause cond body rest => cond.events ++ (body.events ++ rest.events)
  | _, .fnDefine _ stmts => Event.nested stmts stmts.events
  | _, .noFns => []
  | _, .fnThen _ fn rest => fn.events ++ rest.events
  | _, .noTraitFn => []
  | _, .protoThen rest => rest.events
  | _, .defaultThen fn rest => fn.events ++ rest.events
  | _, .simple parts => parts.events
  | _, .typeDef => []
  | _, .fnDecl => []
  | _, .traitDef defs => defs.events
  | _, .typeImpl own _ => own.events
  | _, .retVoid => []
  | _, .retExpr value _ => value.events
  | _, .breakStmt => []
  | _, .continueStmt => []
  | _, .label name => [.use (.label name)]
  | _, .labelGoto name => [.use (.goto name)]
  | _, .loop body => body.events
  | _, .whileStmt cond body => cond.events ++ body.events
  | _, .forStmt list body => list.events ++ body.events
  | _, .ifStmt clauses => clauses.events
  | _, .lexicalBody stmts => stmts.events
  | _, .fnStmt _ fn => fn.events
  | _, .noStmt => []
  | _, .stmtThen first rest => first.events ++ rest.events

/-- The uses of a function are in order: its labels are distinct, and each goto has one. -/
def UsesOk (us : List Use) : Prop :=
  (us.filterMap Use.labelName).Nodup ∧
    ∀ name ∈ us.filterMap Use.gotoName, name ∈ us.filterMap Use.labelName

instance (us : List Use) : Decidable (UsesOk us) := inferInstanceAs (Decidable (_ ∧ _))

/-- **A text with its labels in order**: in each function, also one that is never compiled, and in
the generated one under `-main`; without it no label or goto stands outside of functions. -/
def Source.WellLabelled (emitMain : Bool) (p : Source .stmts) : Prop :=
  (if emitMain then UsesOk (Event.uses p.events) else Event.uses p.events = []) ∧
    ∀ stmts ∈ Event.fns p.events, UsesOk (Event.uses stmts.events)

instance (emitMain : Bool) (p : Source .stmts) : Decidable (p.WellLabelled emitMain) :=
  inferInstanceAs (Decidable (_ ∧ _))

end CaLang.Codegen
