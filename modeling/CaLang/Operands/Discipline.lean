import CaLang.Operands.Walk

/-! # When the operand stack is kept

`Node.balanced` is the condition on the tree: **outside of functions only literals and identifiers
are walked, and the blocks of an `ife` leave no operand behind**.  A step lemma for each node says
what its walk leaves on the stack, and the run of a program follows by induction on the tree.
-/

namespace CaLang.Operands

/-- A node in a function leaves no operand behind. -/
def Node.silent : {c : Symbol} → Node c → Bool
  | _, .block stmts _ => stmts.silent
  | _, .bodyThen body rest => body.silent && rest.silent
  | _, .fnDefine stmts => stmts.silent
  | _, .fnThen generic fn rest => (generic || fn.silent) && rest.silent
  | _, .assign _ _ => false
  | _, .exprStmt _ => false
  | _, .loop body => body.silent
  | _, .whileStmt _ body => body.silent
  | _, .forStmt _ body => body.silent
  | _, .ifStmt _ bodies => bodies.silent
  | _, .lexicalBody stmts => stmts.silent
  | _, .fnStmt generic fn => generic || fn.silent
  | _, .fnDefineImpl fns => fns.silent
  | _, .stmtThen first rest => first.silent && rest.silent
  | _, _ => true

/-- The expressions of a node can be walked, in a function or outside. -/
def Node.balanced (inFn : Bool) : {c : Symbol} → Node c → Bool
  | _, .literal => true
  | _, .id => true
  | _, .expr args => inFn && args.balanced inFn
  | _, .ife cond thens elses =>
      inFn && (cond.balanced inFn && ((thens.balanced inFn && thens.silent) &&
        (elses.balanced inFn && elses.silent)))
  | _, .noArgs => true
  | _, .argThen arg rest => arg.balanced inFn && rest.balanced inFn
  | _, .block stmts value => stmts.balanced inFn && value.balanced inFn
  | _, .noConds => true
  | _, .condThen cond rest => cond.balanced inFn && rest.balanced inFn
  | _, .noBodies => true
  | _, .bodyThen body rest => body.balanced inFn && rest.balanced inFn
  | _, .fnDefine stmts => stmts.balanced true
  | _, .noFns => true
  | _, .fnThen generic fn rest => (generic || fn.balanced inFn) && rest.balanced inFn
  | _, .letBind value => value.balanced inFn
  | _, .assign value left => value.balanced inFn && left.balanced inFn
  | _, .dbgprint value => value.balanced inFn
  | _, .ret value => !inFn || value.balanced inFn
  | _, .exprStmt e => e.balanced inFn
  | _, .other => true
  | _, .loop body => !inFn || body.balanced inFn
  | _, .whileStmt cond body => !inFn || (cond.balanced inFn && body.balanced inFn)
  | _, .forStmt list body => !inFn || (list.balanced inFn && body.balanced inFn)
  | _, .ifStmt conds bodies => !inFn || (conds.balanced inFn && bodies.balanced inFn)
  | _, .lexicalBody stmts => stmts.balanced inFn
  | _, .fnStmt generic fn => generic || fn.balanced inFn
  | _, .fnDefineImpl fns => fns.balanced inFn
  | _, .noStmt => true
  | _, .stmtThen first rest => first.balanced inFn && rest.balanced inFn

/-! ### Walks that are right -/

/-- What a walk does from a stack is right. -/
def Walk.Ok (w : Walk) (stack : List CalcOperand) : Prop := ∀ ev ∈ (w stack).1, ev.Ok

/-- A walk is right iff `b`, and then leaves a stack as `Q` says. -/
structure Walk.Spec (w : Walk) (b : Bool) (Q : List CalcOperand → List CalcOperand → Prop) :
    Prop where
  ok_iff : ∀ stack, w.Ok stack ↔ b = true
  after : b = true → ∀ stack, Q stack (w stack).2

/-- Operands are left behind on a stack, none iff `silent`. -/
def LeftBehind (inFn silent : Bool) (before after : List CalcOperand) : Prop :=
  ∃ l, after = l ++ before ∧ (inFn = true → (silent = true ↔ l = []))

/-- What the walk of a node leaves. -/
def Node.Leaves (inFn : Bool) : {c : Symbol} → Node c → List CalcOperand → List CalcOperand → Prop
  | .expr, e, before, after => after = .expr e :: before
  | .args, _, before, after => after = before
  | .conds, _, before, after => after = before
  | .exprBlock, b, before, after =>
      ∃ st, LeftBehind inFn b.silent before st ∧ after = .expr b.blockValue :: st
  | .bodies, t, before, after => LeftBehind inFn t.silent before after
  | .fn, t, before, after => LeftBehind inFn t.silent before after
  | .fns, t, before, after => LeftBehind inFn t.silent before after
  | .stmt, t, before, after => LeftBehind inFn t.silent before after
  | .stmts, t, before, after => LeftBehind inFn t.silent before after

namespace LeftBehind

variable {inFn a b : Bool} {s s' s'' : List CalcOperand}

theorem refl (s : List CalcOperand) : LeftBehind inFn true s s := ⟨[], rfl, fun _ => by simp⟩

theorem trans (h : LeftBehind inFn a s s') (h' : LeftBehind inFn b s' s'') :
    LeftBehind inFn (a && b) s s'' := by
  obtain ⟨l, rfl, hl⟩ := h
  obtain ⟨l', rfl, hl'⟩ := h'
  refine ⟨l' ++ l, (List.append_assoc _ _ _).symm, ?_⟩
  intro hin
  rw [Bool.and_eq_true, hl hin, hl' hin, List.append_eq_nil_iff, and_comm]

/-- Without a function around, nothing is said of what is left. -/
theorem outside (h : LeftBehind true a s s') : LeftBehind false b s s' :=
  h.imp fun _ h => ⟨h.1, nofun⟩

theorem push (o : CalcOperand) (s : List CalcOperand) : LeftBehind inFn false s (o :: s) :=
  ⟨[o], rfl, fun _ => by simp⟩

/-- Nothing is left iff the stack is the same. -/
theorem eq_iff (h : LeftBehind true a s s') : s' = s ↔ a = true := by
  obtain ⟨l, rfl, hl⟩ := h
  rw [hl rfl]
  exact List.append_left_eq_self

end LeftBehind

namespace Walk

variable {w w' : Walk} {b b' : Bool} {Q Q' : List CalcOperand → List CalcOperand → Prop}

theorem ok_seq (w w' : Walk) (stack : List CalcOperand) :
    (w.seq w').Ok stack ↔ w.Ok stack ∧ w'.Ok (w stack).2 := List.forall_mem_append

theorem ok_expr (e : Node .expr) (w : Walk) (stack : List CalcOperand) :
    (Walk.expr e w).Ok stack ↔ (w stack).2 = .expr e :: stack ∧ w.Ok stack :=
  List.forall_mem_cons

namespace Spec

theorem skip (hQ : ∀ stack, Q stack stack) : Spec .skip true Q :=
  ⟨fun _ => iff_of_true nofun rfl, fun _ => hQ⟩

theorem seq (h : w.Spec b Q) (h' : w'.Spec b' Q') :
    (w.seq w').Spec (b && b') fun s s'' => ∃ s', Q s s' ∧ Q' s' s'' where
  ok_iff stack := by rw [ok_seq, h.ok_iff, h'.ok_iff, Bool.and_eq_true]
  after hb stack := by
    obtain ⟨hb, hb'⟩ := Bool.and_eq_true_iff.mp hb
    exact ⟨_, h.after hb stack, h'.after hb' _⟩

theorem imp {Q'' : List CalcOperand → List CalcOperand → Prop} (h : w.Spec b Q)
    (hQ : ∀ s s', Q s s' → Q'' s s') : w.Spec b Q'' :=
  ⟨h.ok_iff, fun hb stack => hQ _ _ (h.after hb stack)⟩

theorem congr (h : w.Spec b Q) (hb : b = b') : w.Spec b' Q := hb ▸ h

theorem push (o : CalcOperand) : (Walk.push o).Spec true fun s s' => s' = o :: s :=
  ⟨fun _ => iff_of_true nofun rfl, fun _ _ => rfl⟩

/-- An operand is popped that is on top. -/
theorem pop {e : Node .expr}
    (h : w.Spec b fun s s' => ∃ st, Q s st ∧ s' = .expr e :: st) :
    (w.seq (.pop e)).Spec b Q where
  ok_iff stack := by
    rw [ok_seq, h.ok_iff]
    refine and_iff_left_of_imp fun hb => List.forall_mem_singleton.mpr ?_
    obtain ⟨st, -, hs⟩ := h.after hb stack
    rw [hs]
    rfl
  after hb stack := by
    obtain ⟨st, hQ, hs⟩ := h.after hb stack
    have he : ((w.seq (.pop e)) stack).2 = st := congrArg List.tail hs
    rw [he]
    exact hQ

/-- A walk for functions alone. -/
theorem inside {inFn a : Bool} (h : inFn = true → w.Spec b (LeftBehind true a)) :
    (Walk.inside inFn w).Spec (!inFn || b) (LeftBehind inFn a) := by
  cases inFn with
  | false => exact skip fun s => ⟨[], rfl, nofun⟩
  | true => exact h rfl

end Spec

end Walk

/-- The operand of an expression is popped behind its walk. -/
theorem Node.take {inFn : Bool} {e : Node .expr}
    (h : (e.walk inFn).Spec (e.balanced inFn) (e.Leaves inFn)) :
    ((e.walk inFn).seq (.pop e)).Spec (e.balanced inFn) fun s s' => s' = s :=
  .pop (h.imp fun s _ hs => ⟨s, rfl, hs⟩)

/-- The walk of an expression is right iff what is under it is right and leaves nothing behind
below the operand. -/
theorem Walk.Spec.expr {e : Node .expr} {w : Walk} {a b : Bool}
    (h : w.Spec b fun s s' => ∃ st, LeftBehind true a s st ∧ s' = .expr e :: st) :
    (Walk.expr e w).Spec (b && a) fun s s' => s' = .expr e :: s where
  ok_iff stack := by
    rw [ok_expr, h.ok_iff, Bool.and_eq_true, and_comm]
    apply and_congr_right
    intro hb
    obtain ⟨st, hl, hs⟩ := h.after hb stack
    rw [hs, List.cons_inj_right, hl.eq_iff]
  after hb stack := by
    obtain ⟨hb, ha⟩ := Bool.and_eq_true_iff.mp hb
    obtain ⟨st, hl, hs⟩ := h.after hb stack
    exact hs.trans (congrArg _ (hl.eq_iff.mpr ha))

/-- Nothing is left behind where the operand alone is pushed. -/
theorem Walk.Spec.expr' {e : Node .expr} {w : Walk} {b : Bool}
    (h : w.Spec b fun s s' => s' = .expr e :: s) :
    (Walk.expr e w).Spec b fun s s' => s' = .expr e :: s :=
  (Spec.expr (h.imp fun s _ hs => ⟨s, .refl s, hs⟩)).congr (Bool.and_true b)

/-- Outside of functions an expression pushes nothing. -/
theorem Walk.not_ok_outside (e : Node .expr) (w : Walk) (stack : List CalcOperand) :
    ¬ (Walk.expr e (.inside false w)).Ok stack := fun h =>
  List.cons_ne_self _ _ ((ok_expr _ _ stack).mp h).1.symm

/-- An expression that is walked in functions alone. -/
theorem Walk.Spec.expr_inside {inFn a b : Bool} {e : Node .expr} {w : Walk}
    (h : inFn = true → w.Spec b fun s s' => ∃ st, LeftBehind true a s st ∧ s' = .expr e :: st) :
    (Walk.expr e (.inside inFn w)).Spec (inFn && (b && a)) fun s s' => s' = .expr e :: s := by
  cases inFn with
  | true =>
    rw [Bool.true_and]
    exact Spec.expr (h rfl)
  | false => exact ⟨fun stack => iff_of_false (not_ok_outside e w stack) Bool.false_ne_true, nofun⟩

/-- **What the walk of a node does**: it is right iff the node is balanced, and then an expression
has pushed its operand, and a statement has left what it does not use. -/
theorem Node.spec {c : Symbol} (t : Node c) (inFn : Bool) :
    (t.walk inFn).Spec (t.balanced inFn) (t.Leaves inFn) := by
  induction t generalizing inFn with
  | literal => exact .expr' (.push _)
  | id => exact .expr' (.push _)
  | expr args ih =>
    refine (Walk.Spec.expr_inside (a := true) (b := args.balanced inFn) ?_).congr ?_
    · intro _
      apply (((ih inFn).seq (.push _)).congr (Bool.and_true _)).imp
      rintro s _ ⟨st, hs, rfl⟩
      subst hs
      exact ⟨st, .refl st, rfl⟩
    · rw [Bool.and_true]
      rfl
  | ife cond thens elses ihc iht ihe =>
    -- below the operand stands what both blocks have left
    refine (Walk.Spec.expr_inside (a := thens.silent && elses.silent)
      (b := cond.balanced inFn && (thens.balanced inFn && elses.balanced inFn)) ?_).congr ?_
    · intro hin
      subst hin
      refine (((take (ihc true)).seq ((Walk.Spec.pop (iht true)).seq
        ((Walk.Spec.pop (ihe true)).seq (.push _)))).congr ?_).imp ?_
      · rw [Bool.and_true]
      · rintro s _ ⟨_, rfl, s₁, h₁, s₂, h₂, rfl⟩
        exact ⟨s₂, h₁.trans h₂, rfl⟩
    · simp only [Node.balanced]
      ac_rfl
  | noArgs => exact .skip fun _ => rfl
  | argThen arg rest iha ihr =>
    apply ((take (iha inFn)).seq (ihr inFn)).imp
    rintro s s'' ⟨_, rfl, h⟩
    exact h
  | block stmts value ihs ihv =>
    apply ((ihs inFn).seq (ihv inFn)).imp
    rintro s s'' ⟨st, h, h'⟩
    exact ⟨st, h, h'⟩
  | noConds => exact .skip fun _ => rfl
  | condThen cond rest ihc ihr =>
    apply ((take (ihc inFn)).seq (ihr inFn)).imp
    rintro s s'' ⟨_, rfl, h⟩
    exact h
  | noBodies => exact .skip .refl
  | bodyThen body rest ihb ihr =>
    exact ((ihb inFn).seq (ihr inFn)).imp fun s s'' ⟨_, h, h'⟩ => h.trans h'
  | fnDefine stmts ih =>
    cases inFn with
    | true => exact ih true
    | false => exact (ih true).imp fun _ _ => .outside
  | noFns => exact .skip .refl
  | fnThen generic fn rest ihf ihr =>
    cases generic with
    | true =>
      refine ((Walk.Spec.skip fun _ => rfl).seq (ihr inFn)).imp ?_
      rintro s s'' ⟨_, rfl, h⟩
      exact h
    | false => exact ((ihf inFn).seq (ihr inFn)).imp fun s s'' ⟨_, h, h'⟩ => h.trans h'
  | letBind value ih => exact (take (ih inFn)).imp fun s s' h => h ▸ .refl s
  | assign value left ihv ihl =>
    refine (((take (ihv inFn)).seq ((ihl inFn).seq (.push _))).congr ?_).imp ?_
    · rw [Bool.and_true]
      rfl
    · rintro s _ ⟨_, rfl, _, rfl, rfl⟩
      exact .push _ _
  | dbgprint value ih => exact (take (ih inFn)).imp fun s s' h => h ▸ .refl s
  | ret value ih =>
    refine .inside ?_
    intro hin
    subst hin
    apply (take (ih true)).imp
    intro s s' h
    subst h
    exact .refl s'
  | exprStmt e ih => exact (ih inFn).imp fun s s' h => h ▸ .push _ _
  | other => exact .skip .refl
  | loop body ih =>
    refine .inside ?_
    intro hin
    subst hin
    exact ih true
  | whileStmt cond body ihc ihb =>
    refine .inside ?_
    intro hin
    subst hin
    apply ((take (ihc true)).seq (ihb true)).imp
    rintro s s'' ⟨_, rfl, h⟩
    exact h
  | forStmt list body ihl ihb =>
    refine .inside ?_
    intro hin
    subst hin
    apply ((take (ihl true)).seq (ihb true)).imp
    rintro s s'' ⟨_, rfl, h⟩
    exact h
  | ifStmt conds bodies ihc ihb =>
    refine .inside ?_
    intro hin
    subst hin
    apply ((ihc true).seq (ihb true)).imp
    rintro s s'' ⟨_, rfl, h⟩
    exact h
  | lexicalBody stmts ih => exact ih inFn
  | fnStmt generic fn ih =>
    cases generic with
    | true => exact .skip .refl
    | false => exact ih inFn
  | fnDefineImpl fns ih => exact ih inFn
  | noStmt => exact .skip .refl
  | stmtThen first rest ihf ihr =>
    exact ((ihf inFn).seq (ihr inFn)).imp fun s s'' ⟨_, h, h'⟩ => h.trans h'

/-! ### Programs -/

/-- In a function an expression without `ife` keeps the stack; outside of one it does not. -/
example : (Node.expr (.argThen .literal .noArgs)).balanced true = true ∧
    (Node.expr (.argThen .literal .noArgs)).balanced false = false := by decide

/-- `fn f() { 3; } let a = 1 + 1;` -/
def leftOver : Program :=
  .stmtThen (.fnStmt false (.fnDefine (.stmtThen (.exprStmt .literal) .noStmt)))
    (.stmtThen (.letBind (.expr (.argThen .literal (.argThen .literal .noArgs)))) .noStmt)

end CaLang.Operands
