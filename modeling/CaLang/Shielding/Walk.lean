import CaLang.Shielding.Parse

/-! # The code generation pass over the bindings

`walk_letbind` turns the entries of a whole pattern forward, so that each name designates the
binding being visited; around every inference of the initialiser and around its code the pattern
is turned back, so that the initialiser sees the bindings before.  A pass is a sequence of
events: a use read, a binding visited, and the tables between two statements.  It ends early
where the compiler reports an error.

The types themselves are not computed here: `typeOf` is the type the checker finds for each
binding.
-/

namespace CaLang.Shielding

/-- What the pass does, seen from outside. -/
inductive Event (τ : Type)
  /-- The node's entry designates the variable `var`. -/
  | read (node : Nat) (var : CAVariable τ)
  /-- The storage of the name's next binding has been made. -/
  | bind (s : ScopeId) (x : Name)
  /-- The tables between two statements. -/
  | point (tables : Tables τ)

/-- The tables and the events so far, latest first. -/
structure Walk (τ : Type) where
  tables : Tables τ
  log : List (Event τ)

/-- `.error` holds the state at which the compiler stopped. -/
abbrev Run (τ : Type) := Except (Walk τ)

variable {τ : Type}

/-- Change the entry of `x` in table `s`, when there is one. -/
def Walk.modifyEntry (s : ScopeId) (x : Name)
    (f : CAVariableShielding τ → CAVariableShielding τ) (w : Walk τ) : Walk τ :=
  match w.tables s x with
  | some r => { w with tables := w.tables.set s x (f r) }
  | none => w

/-- `varshielding_rotate_variable`. -/
def varshieldingRotateVariable (isBack : Bool) (sh : CAVariableShielding τ) :
    CAVariableShielding τ :=
  if isBack then sh.back else sh.forward

/-- `varshielding_rotate_capattern`. -/
def varshieldingRotateCapattern (cap : CAPattern τ) (s : ScopeId) (isBack : Bool)
    (w : Walk τ) : Walk τ :=
  cap.names.foldl (fun w x => w.modifyEntry s x (varshieldingRotateVariable isBack)) w

/-- The current variable of an entry is looked at from `node`. -/
def Walk.read (w : Walk τ) (n : Nat × STEntry) : Walk τ :=
  match w.tables n.2.scope n.2.name with
  | some r => { w with log := .read n.1 r.current :: w.log }
  | none => w

/-- `inference_expr_type`, `determine_expr_type` and `walk_stack` on an expression: each looks at
the current variables of the entries its nodes keep. -/
def walkExpr (e : Expr STEntry) (w : Walk τ) : Walk τ := e.ids.foldl Walk.read w

/-- `register_variable_catype`. -/
def registerVariableCatype (typeOf : Site → τ) (s : ScopeId) (w : Walk τ) (x : Name) : Walk τ :=
  w.modifyEntry s x fun r =>
    r.modify fun v => { v with datatype := some (typeOf v.site) }

mutual
/-- `determine_letbind_type`.  The names in front of an array pattern are passed over. -/
def determineLetbindType (typeOf : Site → τ) (s : ScopeId) : CAPattern τ → Walk τ → Run τ (Walk τ)
  | .var name morebind, w =>
      .ok ((name :: morebind).foldl (registerVariableCatype typeOf s) w)
  | .genTuple morebind items, w =>
      determineLetbindAround typeOf s items (morebind.foldl (registerVariableCatype typeOf s) w)
  | .named _ morebind items, w =>
      determineLetbindAround typeOf s items (morebind.foldl (registerVariableCatype typeOf s) w)
  | .array _ items, w => determineLetbindTypeRange typeOf s items w
  | .ignoreOne _, w => .ok w
  | .ignoreRange, w => throw w
/-- `determine_letbind_type_range` over all items: a `..` is an error. -/
def determineLetbindTypeRange (typeOf : Site → τ) (s : ScopeId) :
    List (CAPattern τ) → Walk τ → Run τ (Walk τ)
  | [], w => .ok w
  | p :: ps, w => do
      let w ← determineLetbindType typeOf s p w
      determineLetbindTypeRange typeOf s ps w
/-- The items on both sides of the first `..`. -/
def determineLetbindAround (typeOf : Site → τ) (s : ScopeId) :
    List (CAPattern τ) → Walk τ → Run τ (Walk τ)
  | [], w => .ok w
  | .ignoreRange :: ps, w => determineLetbindTypeRange typeOf s ps w
  | p :: ps, w => do
      let w ← determineLetbindType typeOf s p w
      determineLetbindAround typeOf s ps w
end

/-- The current variable gets a storage of its own. -/
def makeStorage (s : ScopeId) (w : Walk τ) (x : Name) : Walk τ :=
  let w := w.modifyEntry s x fun r => r.modify fun v => { v with llvmValue := some v.site }
  { w with log := .bind s x :: w.log }

/-- `bind_variable_value`: without a type for the variable the compiler stops. -/
def bindVariableValue (s : ScopeId) (w : Walk τ) (x : Name) : Run τ (Walk τ) :=
  if ((w.tables s x).bind (·.current.datatype)).isSome then .ok (makeStorage s w x) else throw w

mutual
/-- `capattern_bind_value`. -/
def capatternBindValue (s : ScopeId) : CAPattern τ → Walk τ → Run τ (Walk τ)
  | .var name morebind, w => (name :: morebind).foldlM (bindVariableValue s) w
  | .genTuple morebind items, w => do
      let w ← morebind.foldlM (bindVariableValue s) w
      capatternBindAround s items w
  | .named _ morebind items, w => do
      let w ← morebind.foldlM (bindVariableValue s) w
      capatternBindAround s items w
  | .array morebind items, w => do
      let w ← morebind.foldlM (bindVariableValue s) w
      capatternBindAround s items w
  | .ignoreOne _, w => .ok w
  | .ignoreRange, w => throw w
/-- `capattern_bind_tuple_pattern_range` and `capattern_bind_array_pattern_range` over all items. -/
def capatternBindPatternRange (s : ScopeId) : List (CAPattern τ) → Walk τ → Run τ (Walk τ)
  | [], w => .ok w
  | p :: ps, w => do
      let w ← capatternBindValue s p w
      capatternBindPatternRange s ps w
/-- The items on both sides of the first `..`. -/
def capatternBindAround (s : ScopeId) : List (CAPattern τ) → Walk τ → Run τ (Walk τ)
  | [], w => .ok w
  | .ignoreRange :: ps, w => capatternBindPatternRange s ps w
  | p :: ps, w => do
      let w ← capatternBindValue s p w
      capatternBindAround s ps w
end

mutual
/-- Whether `catype_from_capattern` finds a type. -/
def catypeFromCapattern (t : Tables τ) (s : ScopeId) : CAPattern τ → Bool
  | .var name _ => ((t s name).bind (·.current.datatype)).isSome
  | .array _ items => itemsFromCapattern t s items
  | .genTuple _ items => itemsFromCapattern t s items
  | .named _ _ _ => true
  | .ignoreOne _ => false
  | .ignoreRange => false
def itemsFromCapattern (t : Tables τ) (s : ScopeId) : List (CAPattern τ) → Bool
  | [] => true
  | p :: ps => catypeFromCapattern t s p && itemsFromCapattern t s ps
end

/-- Whether `capattern_check_get_type` finds a type. -/
def capatternCheckGetType (t : Tables τ) (s : ScopeId) (cap : CAPattern τ)
    (datatype : Option τ) : Bool :=
  datatype.isSome || catypeFromCapattern t s cap

def isIgnoreRange : CAPattern τ → Bool
  | .ignoreRange => true
  | _ => false

/-- The numbers of items and of components fit. -/
def arityOk (items : List (CAPattern τ)) (argc : Nat) : Bool :=
  if items.any isIgnoreRange then items.length ≤ argc + 1 else items.length == argc

/-- Turn the whole pattern back, look at the expression, and turn the pattern forward again. -/
def inferAround (top : CAPattern τ) (s : ScopeId) (e : Expr STEntry) (w : Walk τ) : Walk τ :=
  varshieldingRotateCapattern top s false
    (walkExpr e (varshieldingRotateCapattern top s true w))

mutual
/-- `inference_letbind_type_both_side`. -/
def inferenceLetbindTypeBothSide (typeOf : Site → τ) (top : CAPattern τ) (s : ScopeId) :
    CAPattern τ → Expr STEntry → Walk τ → Run τ (Walk τ)
  | .ignoreOne _, e, w => .ok (inferAround top s e w)
  | .ignoreRange, e, w => .ok (inferAround top s e w)
  | .var name morebind, e, w =>
      .ok ((name :: morebind).foldl (registerVariableCatype typeOf s) (inferAround top s e w))
  | .genTuple morebind items, .id node ref, w => do
      let w := inferAround top s (.id node ref) w
      let w ← determineLetbindType typeOf s (.genTuple morebind items) w
      return morebind.foldl (registerVariableCatype typeOf s) w
  | .genTuple morebind items, .tuple args, w => do
      if !arityOk items args.length then throw w
      let w ← inferenceLetbindAround typeOf top s items args w
      if !itemsFromCapattern w.tables s items then throw w
      let w := morebind.foldl (registerVariableCatype typeOf s) w
      return inferAround top s (.tuple args) w
  | .genTuple _ _, .array _, w => throw w
  | .genTuple _ _, .op _, w => throw w
  | .array _ _, .tuple _, w => throw w
  | .array _ _, .op _, w => throw w
  | .array morebind items, e, w => do
      let w ← determineLetbindAround typeOf s items (inferAround top s e w)
      return morebind.foldl (registerVariableCatype typeOf s) w
  | .named _ _ _, _, w => throw w
/-- `inference_letbind_pattern_range`: the items with their components. -/
def inferenceLetbindPatternRange (typeOf : Site → τ) (top : CAPattern τ) (s : ScopeId) :
    List (CAPattern τ) → List (Expr STEntry) → Walk τ → Run τ (Walk τ)
  | [], _, w => .ok w
  | p :: ps, a :: args, w => do
      let w ← inferenceLetbindTypeBothSide typeOf top s p a w
      inferenceLetbindPatternRange typeOf top s ps args w
  | _ :: _, [], w => throw w
/-- The items on both sides of the first `..`, which leaves out as many components as it must. -/
def inferenceLetbindAround (typeOf : Site → τ) (top : CAPattern τ) (s : ScopeId) :
    List (CAPattern τ) → List (Expr STEntry) → Walk τ → Run τ (Walk τ)
  | [], _, w => .ok w
  | .ignoreRange :: ps, args, w =>
      inferenceLetbindPatternRange typeOf top s ps (args.drop (args.length - ps.length)) w
  | p :: ps, a :: args, w => do
      let w ← inferenceLetbindTypeBothSide typeOf top s p a w
      inferenceLetbindAround typeOf top s ps args w
  | _ :: _, [], w => throw w
end

/-- `inference_letbind_type`. -/
def inferenceLetbindType (typeOf : Site → τ) (cap : CAPattern τ) (datatype : Option τ)
    (s : ScopeId) (e : Expr STEntry) (w : Walk τ) : Run τ (Walk τ) :=
  if capatternCheckGetType w.tables s cap datatype then do
    let w ← determineLetbindType typeOf s cap w
    return inferAround cap s e w
  else inferenceLetbindTypeBothSide typeOf cap s cap e w

/-- `walk_letbind`. -/
def walkLetbind (typeOf : Site → τ) (cap : CAPattern τ) (datatype : Option τ) (s : ScopeId)
    (init : Option (Expr STEntry)) (w : Walk τ) : Run τ (Walk τ) := do
  let w := varshieldingRotateCapattern cap s false w
  let w ← match init with
    | some e => do
        let w ← inferenceLetbindType typeOf cap datatype s e w
        let w := varshieldingRotateCapattern cap s true w
        let w := walkExpr e w
        pure (varshieldingRotateCapattern cap s false w)
    | none =>
        if capatternCheckGetType w.tables s cap datatype then
          determineLetbindType typeOf s cap w
        else throw w
  capatternBindValue s cap w

/-- `walk_drop` looks the name up now, in the complete tables. -/
def walkDrop (st : SymTable) (node : Nat) (x : Name) (w : Walk τ) : Run τ (Walk τ) :=
  match symGetsym w.tables st x with
  | some e => .ok (w.read (node, e))
  | none => throw w

/-- The part of `walk_for` before the body: the list, then the loop variable. -/
def walkForHead (typeOf : Site → τ) (s : ScopeId) (x : Name) (list : Expr STEntry)
    (w : Walk τ) : Walk τ :=
  makeStorage s (registerVariableCatype typeOf s (walkExpr list w) x) x

/-- Between two statements the tables are noted. -/
def Walk.point (w : Walk τ) : Walk τ := { w with log := .point w.tables :: w.log }

/-- The table a statement stands in. -/
def here : SymTable → ScopeId
  | [] => 0
  | s :: _ => s

/-- The conditions of an `if`, all of which are generated before the bodies. -/
def Arms.walkConds : Arms τ STEntry SymTable → Walk τ → Walk τ
  | .done, w => w
  | .orelse _, w => w
  | .arm cond _ more, w => more.walkConds (walkExpr cond w)

mutual
def Block.walk (typeOf : Site → τ) : Block τ STEntry SymTable → Walk τ → Run τ (Walk τ)
  | .nil, w => .ok w
  | .letbind _ st cap datatype init rest, w => do
      let w ← walkLetbind typeOf cap datatype (here st) init w
      rest.walk typeOf w.point
  | .expr e rest, w => rest.walk typeOf (walkExpr e (walkExpr e w)).point
  | .assign left right rest, w =>
      -- `inference_assign_type` looks at both sides first
      let w := walkExpr right (walkExpr left w)
      rest.walk typeOf (walkExpr left (walkExpr right w)).point
  | .drop st node x rest, w => do
      let w ← walkDrop st node x w
      rest.walk typeOf w.point
  | .block body rest, w => do
      let w ← body.walk typeOf w
      rest.walk typeOf w.point
  | .loop body rest, w => do
      let w ← body.walk typeOf w
      rest.walk typeOf w.point
  | .while cond body rest, w => do
      let w ← body.walk typeOf (walkExpr cond (walkExpr cond w))
      rest.walk typeOf w.point
  | .for _ st x list body rest, w => do
      let w ← body.walk typeOf (walkForHead typeOf (here st) x list (walkExpr list w))
      rest.walk typeOf w.point
  | .ifs arms rest, w => do
      let w ← arms.walkBodies typeOf (arms.walkConds (arms.walkConds w))
      rest.walk typeOf w.point
def Arms.walkBodies (typeOf : Site → τ) : Arms τ STEntry SymTable → Walk τ → Run τ (Walk τ)
  | .done, w => .ok w
  | .orelse body, w => body.walk typeOf w
  | .arm _ body more, w => do
      let w ← body.walk typeOf w
      more.walkBodies typeOf w
end

/-- `init_fn_param_info`: each parameter is turned to once and gets its storage. -/
def initFnParam (w : Walk τ) (x : Name) : Walk τ :=
  makeStorage 0 (w.modifyEntry 0 x (varshieldingRotateVariable false)) x

/-- The code generation pass over a function, from the tables the parser left. -/
def Fn.walk (typeOf : Site → τ) (fn : Fn τ STEntry SymTable) (t : Tables τ) : Run τ (Walk τ) :=
  fn.body.walk typeOf (fn.params.foldl initFnParam ⟨t, []⟩).point

end CaLang.Shielding
