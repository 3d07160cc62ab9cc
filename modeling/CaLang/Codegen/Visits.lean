import CaLang.Codegen.Walked

/-! # What the walk should keep

The visits of a walk are the places where the context matters: **a function before and after it,
every statement, every return, every jump out of a loop, and the final return**.  Beside the
generator's context each one has the text around it: the innermost function with its node, and the
loops of that function.  `Program.Restored` says that the context always agrees with the text;
`Node.settled` is the condition under which it does, on the tree alone.

Under `-main` the generated function contains the statements outside of functions.
-/

namespace CaLang.Codegen

/-- The text around a node. -/
structure Text where
  /-- The innermost function around, with its node. -/
  owner : Option (Fn × FnNode)
  /-- The loops of that function around, the innermost first. -/
  loops : List LoopControlInfo

/-- The context of the generator is the same. -/
structure SameContext (s s' : State) : Prop where
  currFn : s'.currFn = s.currFn
  currFnNode : s'.currFnNode = s.currFnNode
  insertBlock : s'.insertBlock = s.insertBlock
  /-- The insertion point is in the same function. -/
  insertFn : s'.insertBlock.bind s'.parent = s.insertBlock.bind s.parent
  withRetValue : s'.withRetValue = s.withRetValue
  loopControls : s'.loopControls = s.loopControls

inductive Visit
  /-- A function, with the states before and after it. -/
  | fn (text : Text) (before after : State)
  /-- A statement begins. -/
  | stmt (text : Text) (s : State)
  /-- A return, with the states before and after its value. -/
  | ret (text : Text) (before after : State)
  /-- A `break` or a `continue`. -/
  | jump (text : Text) (s : State)
  /-- The final return of a function that contains a return of its own or not. -/
  | final (returns : Bool) (s : State)

/-- There is a return in a node, outside of the functions nested in it. -/
def Node.returns : {c : Symbol} → Node c → Bool
  | _, .atom => false
  | _, .operands left right => left.returns || right.returns
  | _, .landor left right => left.returns || right.returns
  | _, .ife cond thens elses => cond.returns || (thens.returns || elses.returns)
  | _, .noConds => false
  | _, .condThen cond rest => cond.returns || rest.returns
  | _, .noBodies => false
  | _, .bodyThen body rest => body.returns || rest.returns
  | _, .fnDefine _ _ => false
  | _, .noFns => false
  | _, .fnThen _ _ => false
  | _, .simple parts => parts.returns
  | _, .decl => false
  | _, .retVoid => true
  | _, .retExpr _ _ => true
  | _, .breakStmt => false
  | _, .continueStmt => false
  | _, .label _ => false
  | _, .labelGoto _ => false
  | _, .loop body => body.returns
  | _, .whileStmt cond body => cond.returns || body.returns
  | _, .forStmt list body => list.returns || body.returns
  | _, .ifStmt conds bodies => conds.returns || bodies.returns
  | _, .lexicalBody stmts => stmts.returns
  | _, .fnStmt _ => false
  | _, .fnDefineImpl _ => false
  | _, .noStmt => false
  | _, .stmtThen first rest => first.returns || rest.returns

variable (m : Option Main) in
/-- The visits of a node walked from a state. -/
def Node.visits : {c : Symbol} → Node c → Text → State → List Visit
  | _, .atom, _, _ => []
  | _, .operands left right, tx, s => left.visits tx s ++ right.visits tx (left.walk m s)
  | _, .landor left right, tx, s =>
      match s.currFn with
      | none => []
      | some _ =>
          left.visits tx s ++
            right.visits tx (((left.walk m s).genBb 2).enter (left.walk m s).next)
  | _, .ife cond thens elses, tx, s =>
      match s.currFn with
      | none => []
      | some _ =>
          let s₁ := s.genBb 3
          let s₂ := (cond.walk m s₁).enter s.next
          let s₃ := (thens.walk m s₂).enter (s.next + 2)
          cond.visits tx s₁ ++ (thens.visits tx s₂ ++ elses.visits tx s₃)
  | _, .noConds, _, _ => []
  | _, .condThen cond rest, tx, s =>
      cond.visits tx s ++ rest.visits tx (cond.walk m s).enterNew
  | _, .noBodies, _, _ => []
  | _, .bodyThen body rest, tx, s =>
      body.visits tx s.enterNew ++ rest.visits tx (body.walk m s.enterNew)
  | _, .fnDefine ret stmts, tx, s =>
      let s₁ := s.beginFn ret
      let s₂ := stmts.walk m s₁
      .fn tx s (s₂.endFn m s.insertBlock (s.newFn ret) (s.newNode ret)) ::
        .final stmts.returns s₂ ::
        stmts.visits ⟨some (s.newFn ret, s.newNode ret), []⟩ s₁
  | _, .noFns, _, _ => []
  | _, .fnThen fn rest, tx, s => fn.visits tx s ++ rest.visits tx (fn.walk m s)
  | _, .simple parts, tx, s => parts.visits tx s
  | _, .decl, _, _ => []
  | _, .retVoid, tx, s => [.ret tx s s]
  | _, .retExpr value _, tx, s => .ret tx s (value.walk m s) :: value.visits tx s
  | _, .breakStmt, tx, s => [.jump tx s]
  | _, .continueStmt, tx, s => [.jump tx s]
  | _, .label _, _, _ => []
  | _, .labelGoto _, _, _ => []
  | _, .loop body, tx, s =>
      match s.currFn with
      | none => []
      | some _ =>
          let l : LoopControlInfo := ⟨s.next, s.next + 1⟩
          body.visits { tx with loops := l :: tx.loops }
            (((s.genBb 2).enter s.next).pushLoop l)
  | _, .whileStmt cond body, tx, s =>
      match s.currFn with
      | none => []
      | some _ =>
          let l : LoopControlInfo := ⟨s.next, s.next + 2⟩
          let s₁ := (s.genBb 3).enter s.next
          cond.visits tx s₁ ++
            body.visits { tx with loops := l :: tx.loops }
              (((cond.walk m s₁).enter (s.next + 1)).pushLoop l)
  | _, .forStmt list body, tx, s =>
      match s.currFn with
      | none => []
      | some _ =>
          let l : LoopControlInfo := ⟨s.next, s.next + 2⟩
          list.visits tx (s.genBb 3) ++
            body.visits { tx with loops := l :: tx.loops }
              ((((list.walk m (s.genBb 3)).enter s.next).enter (s.next + 1)).pushLoop l)
  | _, .ifStmt conds bodies, tx, s =>
      match s.currFn with
      | none => []
      | some _ =>
          conds.visits tx (s.genBb 1) ++ bodies.visits tx (conds.walk m (s.genBb 1))
  | _, .lexicalBody stmts, tx, s => stmts.visits tx s
  | _, .fnStmt fn, tx, s => fn.visits tx s
  | _, .fnDefineImpl fns, tx, s => fns.visits tx s
  | _, .noStmt, _, _ => []
  | _, .stmtThen first rest, tx, s =>
      .stmt tx s :: (first.visits tx s ++ rest.visits tx (first.walk m s))

/-- A visit where the context of the generator agrees with the text. -/
def Visit.Ok : Visit → Prop
  | .fn tx before after => tx.owner ≠ none → SameContext before after
  | .stmt tx s => ∀ fn node, tx.owner = some (fn, node) →
      s.currFn = some fn ∧ s.insertBlock.bind s.parent = some fn
  | .ret tx before after => ∀ fn node, tx.owner = some (fn, node) →
      before.currFn = some fn ∧ before.currFnNode = some node ∧ after.currFnNode = some node
  | .jump tx s => tx.loops ≠ [] ∧ s.loopControls.head? = tx.loops.head?
  | .final returns s => s.withRetValue = returns

/-- The text around a whole file. -/
def fileText (emitMain : Bool) : Text :=
  ⟨(mainOf emitMain).map fun main => (main.fn, main.node), []⟩

/-- **The context is restored**: every visit of the walk agrees with the text. -/
def Program.Restored (emitMain : Bool) (p : Program) : Prop :=
  ∀ v ∈ p.visits (mainOf emitMain) (fileText emitMain) (codegenBegin emitMain), v.Ok

/-! ### The condition on the tree -/

/-- What is known of the insertion point from the text before. -/
inductive Where
  /-- The block in which the generated function begins. -/
  | mainBlock
  | labelBlock (name : Id)
  | other
  deriving DecidableEq

/-- What the text before and around a node says. -/
structure Place where
  inFn : Bool
  block : Where
  /-- A return of the innermost function stands before. -/
  returned : Bool
  inLoop : Bool

/-- The insertion point after a node. -/
def Node.block : {c : Symbol} → Node c → Where → Where
  | _, .atom, w => w
  | _, .operands left right, w => right.block (left.block w)
  | _, .landor _ _, _ => .other
  | _, .ife _ _ _, _ => .other
  | _, .noConds, w => w
  | _, .condThen _ rest, _ => rest.block .other
  | _, .noBodies, w => w
  | _, .bodyThen body rest, _ => rest.block (body.block .other)
  | _, .fnDefine _ _, w => w
  | _, .noFns, w => w
  | _, .fnThen _ _, w => w
  | _, .simple parts, w => parts.block w
  | _, .decl, w => w
  | _, .retVoid, _ => .other
  | _, .retExpr _ _, _ => .other
  | _, .breakStmt, _ => .other
  | _, .continueStmt, _ => .other
  | _, .label name, _ => .labelBlock name
  | _, .labelGoto _, _ => .other
  | _, .loop _, _ => .other
  | _, .whileStmt _ _, _ => .other
  | _, .forStmt _ _, _ => .other
  | _, .ifStmt _ _, _ => .other
  | _, .lexicalBody stmts, w => stmts.block w
  | _, .fnStmt _, w => w
  | _, .fnDefineImpl _, w => w
  | _, .noStmt, w => w
  | _, .stmtThen first rest, w => rest.block (first.block w)

/-- The place after a node. -/
def Place.after {c : Symbol} (pl : Place) (t : Node c) : Place :=
  { pl with block := t.block pl.block, returned := pl.returned || t.returns }

/-- In another block than the first, and not that of a label. -/
def Place.moved (pl : Place) : Place := { pl with block := .other }

/-- A function with these labels leaves the insertion point in its function. -/
def Where.apart : Where → List Id → Bool
  | .labelBlock name, ls => !ls.contains name
  | _, _ => true

/-- A function may stand at a place: under `-main` the insertion point is the first block of the
generated function, the function returns iff the one around it has returned before, and it does not
take the block with it. -/
def Place.allows (m : Bool) (pl : Place) (stmts : Node .stmts) : Bool :=
  !pl.inFn || ((!m || pl.block == .mainBlock) &&
    (stmts.returns == pl.returned && pl.block.apart stmts.labels))

variable (m : Bool) in
/-- The condition: functions stand where they may, and jumps in a loop of their own function. -/
def Node.settled : {c : Symbol} → Node c → Place → Bool
  | _, .atom, _ => true
  | _, .operands left right, pl => left.settled pl && right.settled (pl.after left)
  | _, .landor left right, pl =>
      !pl.inFn || (left.settled pl && right.settled (pl.after left).moved)
  | _, .ife cond thens elses, pl =>
      !pl.inFn || (cond.settled pl && (thens.settled (pl.after cond).moved &&
        elses.settled ((pl.after cond).moved.after thens).moved))
  | _, .noConds, _ => true
  | _, .condThen cond rest, pl => cond.settled pl && rest.settled (pl.after cond).moved
  | _, .noBodies, _ => true
  | _, .bodyThen body rest, pl => body.settled pl.moved && rest.settled (pl.moved.after body)
  | _, .fnDefine _ stmts, pl => pl.allows m stmts && stmts.settled ⟨true, .other, false, false⟩
  | _, .noFns, _ => true
  | _, .fnThen fn rest, pl => fn.settled pl && rest.settled pl
  | _, .simple parts, pl => parts.settled pl
  | _, .decl, _ => true
  | _, .retVoid, _ => true
  | _, .retExpr value _, pl => value.settled pl
  | _, .breakStmt, pl => pl.inLoop
  | _, .continueStmt, pl => pl.inLoop
  | _, .label _, _ => true
  | _, .labelGoto _, _ => true
  | _, .loop body, pl => !pl.inFn || body.settled { pl.moved with inLoop := true }
  | _, .whileStmt cond body, pl =>
      !pl.inFn || (cond.settled pl.moved &&
        body.settled { (pl.moved.after cond).moved with inLoop := true })
  | _, .forStmt list body, pl =>
      !pl.inFn || (list.settled pl && body.settled { (pl.after list).moved with inLoop := true })
  | _, .ifStmt conds bodies, pl =>
      !pl.inFn || (conds.settled pl && bodies.settled (pl.after conds))
  | _, .lexicalBody stmts, pl => stmts.settled pl
  | _, .fnStmt fn, pl => fn.settled pl
  | _, .fnDefineImpl fns, pl => fns.settled pl
  | _, .noStmt, _ => true
  | _, .stmtThen first rest, pl => first.settled pl && rest.settled (pl.after first)

/-- The place in which a file begins. -/
def filePlace (emitMain : Bool) : Place := ⟨emitMain, .mainBlock, false, false⟩

end CaLang.Codegen
